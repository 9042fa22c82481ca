import Kobzar.PageStore.Store

/-!
# The place of a page in its file

The pages of one file lie one after the other, each in the block with its number. `loadFromDisk` reads from the
start of the file whatever page it is asked for, so that of all pages only the first of a file is loaded from its
own place, and no two of them from different ones (`loadFromDisk_own_iff`).
-/

namespace Kobzar

/-- The bytes of block `n` of a file cut into blocks of `size` bytes. -/
def block (size n : Nat) (bytes : List U8) : List U8 := (bytes.drop (n * size)).take size

/-- The block of a file that holds the page of a primary index key. -/
def Pidx.PageBoundKey.blockNumber (key : PageBoundKey) : Nat := key.key.item.toNat / pageSizeRecs

/-- The block of a file that holds the page of an index key. -/
def IdxKey.blockNumber (key : IdxKey) : Nat := key.page.toNat

/-- A block within the file is as long as a block should be. -/
theorem block_length {size n : Nat} {bytes : List U8} (h : (n + 1) * size ≤ bytes.length) :
    (block size n bytes).length = size := by
  rw [block, List.length_take, List.length_drop]
  rw [Nat.succ_mul] at h
  omega

namespace PageStore

variable {B P : Type} [KeyExt B B] [Pod P]

/-- The path of the file that stores a page. -/
def pagePath (store : PageStore B P) (key : B) : Path := store.path ++ [KeyExt.filename key]

/-- A file that is there, and long enough for one page, is read from its start, and the files stay as they are. -/
theorem loadFromDisk_eq {store : PageStore B P} {files : Files} {key : B} (bytes : List U8) (create : Bool)
    (hfile : files (store.pagePath key) = some bytes) (hlen : Pod.size P ≤ bytes.length) :
    store.loadFromDisk files .none key create = (files, .ok (Pod.ofBytes (block (Pod.size P) 0 bytes))) := by
  rw [pagePath] at hfile
  simp [loadFromDisk, openFile, readExact, Faults.none, hfile, hlen, block]

/-- Loading a page returns a given block of its file exactly when that block is a copy of the first. -/
theorem loadFromDisk_eq_block_iff {store : PageStore B P} {files : Files} {key : B} {bytes : List U8}
    (n : Nat) (create : Bool) (hfile : files (store.pagePath key) = some bytes)
    (hlen : (n + 1) * Pod.size P ≤ bytes.length) :
    (store.loadFromDisk files .none key create).2 = .ok (Pod.ofBytes (block (Pod.size P) n bytes)) ↔
      block (Pod.size P) n bytes = block (Pod.size P) 0 bytes := by
  have hpage : Pod.size P ≤ bytes.length := by
    rw [Nat.succ_mul] at hlen
    omega
  rw [loadFromDisk_eq bytes create hfile hpage]
  constructor
  · intro h
    exact (Pod.ofBytes_inj (block_length (by simpa using hpage)) (block_length hlen) (Except.ok.inj h)).symm
  · intro h
    rw [h]

/-- A page is loaded from its own place: of every file long enough to hold block `n`, this block is returned. -/
def LoadsOwn (store : PageStore B P) (key : B) (n : Nat) : Prop :=
  ∀ (files : Files) (bytes : List U8) (create : Bool), files (store.pagePath key) = some bytes →
    (n + 1) * Pod.size P ≤ bytes.length →
      (store.loadFromDisk files .none key create).2 = .ok (Pod.ofBytes (block (Pod.size P) n bytes))

/-- The places of its file that a page is read from: those where another byte may make another result, in a file
long enough for one page. -/
def readPlaces (store : PageStore B P) (key : B) : Set Nat :=
  {place | ∃ (files : Files) (bytes : List U8) (byte : U8) (create : Bool), files (store.pagePath key) = some bytes ∧
    Pod.size P ≤ bytes.length ∧
      (store.loadFromDisk files .none key create).2 ≠
        (store.loadFromDisk (Function.update files (store.pagePath key) (some (bytes.set place byte))) .none
          key create).2}

/-- The only block that every page is loaded from is the first. -/
theorem loadsOwn_iff (hsize : 0 < Pod.size P) {store : PageStore B P} {key : B} (n : Nat) :
    store.LoadsOwn key n ↔ n = 0 := by
  constructor
  · intro h
    by_contra hn
    -- a file whose block `n` is of ones, behind zeros
    have hlen : (n + 1) * Pod.size P ≤
        (List.replicate (n * Pod.size P) (0 : U8) ++ List.replicate (Pod.size P) 1).length := by
      rw [List.length_append, List.length_replicate, List.length_replicate, Nat.succ_mul]
    have hcopy := (loadFromDisk_eq_block_iff n false rfl hlen).mp (h (fun _ => some _) _ false rfl hlen)
    have hfirst : Pod.size P ≤ n * Pod.size P := Nat.le_mul_of_pos_left _ (Nat.pos_of_ne_zero hn)
    have hhead := congrArg (fun bytes : List U8 => bytes[0]?) hcopy
    simp [block, hsize, Nat.lt_of_lt_of_le hsize hfirst] at hhead
  · rintro rfl files bytes create hfile hlen
    rw [loadFromDisk_eq bytes create hfile (by simpa using hlen)]

/-- A page is read from as many places as it has bytes, and these are the first ones, whatever the key. -/
theorem mem_readPlaces {store : PageStore B P} {key : B} {place : Nat} :
    place ∈ store.readPlaces key ↔ place < Pod.size P := by
  constructor
  · rintro ⟨files, bytes, byte, create, hfile, hlen, hne⟩
    by_contra hplace
    refine hne ?_
    rw [loadFromDisk_eq bytes create hfile hlen,
      loadFromDisk_eq (bytes.set place byte) create (Function.update_self _ _ _) (by rwa [List.length_set])]
    simp [block, List.take_set_of_le (Nat.le_of_not_lt hplace)]
  · intro hplace
    refine ⟨fun _ => some (List.replicate (Pod.size P) 0), List.replicate (Pod.size P) 0, 1, false, rfl, by simp, ?_⟩
    rw [loadFromDisk_eq (List.replicate (Pod.size P) 0) false rfl (by simp),
      loadFromDisk_eq ((List.replicate (Pod.size P) 0).set place 1) false (Function.update_self _ _ _) (by simp)]
    intro h
    have hbytes := Pod.ofBytes_inj (block_length (by simp)) (block_length (by simp)) (Except.ok.inj h)
    have hbyte := congrArg (fun bytes : List U8 => bytes[place]?) hbytes
    simp [block, hplace] at hbyte

/-- No two keys are read from disjoint parts. -/
theorem not_disjoint_readPlaces (hsize : 0 < Pod.size P) (store : PageStore B P) (key other : B) :
    ¬Disjoint (store.readPlaces key) (store.readPlaces other) :=
  Set.not_disjoint_iff.mpr ⟨0, mem_readPlaces.mpr hsize, mem_readPlaces.mpr hsize⟩

end PageStore

/-- When pages are loaded from their own places, for both kinds of pages. A page is, exactly when its block is the
first of the file; and two pages of one file are read from disjoint parts of it exactly when they are one page. -/
theorem loadFromDisk_own_iff (pages : PageStore Pidx.PageBoundKey Pidx.Page) (key other : Pidx.PageBoundKey)
    (index : PageStore IdxKey IdxPage) (idxKey idxOther : IdxKey) :
    ((pages.LoadsOwn key key.blockNumber ↔ key.blockNumber = 0) ∧
      ((key ≠ other → KeyExt.filename key = KeyExt.filename other →
        Disjoint (pages.readPlaces key) (pages.readPlaces other)) ↔
          (key = other ∨ KeyExt.filename key ≠ KeyExt.filename other))) ∧
    ((index.LoadsOwn idxKey idxKey.blockNumber ↔ idxKey.blockNumber = 0) ∧
      ((idxKey ≠ idxOther → KeyExt.filename idxKey = KeyExt.filename idxOther →
        Disjoint (index.readPlaces idxKey) (index.readPlaces idxOther)) ↔
          (idxKey = idxOther ∨ KeyExt.filename idxKey ≠ KeyExt.filename idxOther))) := by
  have hmeet := PageStore.not_disjoint_readPlaces (by decide) pages key other
  have hmeet' := PageStore.not_disjoint_readPlaces (by decide) index idxKey idxOther
  refine ⟨⟨PageStore.loadsOwn_iff (by decide) _, ?_⟩, PageStore.loadsOwn_iff (by decide) _, ?_⟩
  · tauto
  · tauto

/-- A file of two blocks, of zeros and of ones. -/
def twoBlocks (size : Nat) : List U8 := List.replicate size 0 ++ List.replicate size 1

theorem twoBlocks_length (size : Nat) : (twoBlocks size).length = 2 * size := by
  rw [twoBlocks, List.length_append, List.length_replicate, List.length_replicate, Nat.two_mul]

theorem block_twoBlocks (size : Nat) : block size 0 (twoBlocks size) = List.replicate size 0 ∧
    block size 1 (twoBlocks size) = List.replicate size 1 := by
  constructor <;> simp [block, twoBlocks]

/-- Page 1 of an index, which lies in the second block. -/
def secondPage : IdxKey := { index := 7, db := 0, page := 1 }

/-- The first page of an index is loaded from its own place and the second is not; both are read from the same part
of the file. -/
theorem loadFromDisk_own_firstPage :
    (PageStore.openAt ["heap"] 4 : PageStore IdxKey IdxPage).LoadsOwn ⟨7, 0, 0⟩ 0 ∧
      ¬(PageStore.openAt ["heap"] 4 : PageStore IdxKey IdxPage).LoadsOwn secondPage 1 ∧
      ¬Disjoint ((PageStore.openAt ["heap"] 4 : PageStore IdxKey IdxPage).readPlaces ⟨7, 0, 0⟩)
        ((PageStore.openAt ["heap"] 4 : PageStore IdxKey IdxPage).readPlaces secondPage) := by
  have hown := fun key other => (loadFromDisk_own_iff (PageStore.openAt ["heap"] 4) (Pidx.Key.pageBound ⟨0, 0, 0⟩)
    (Pidx.Key.pageBound ⟨0, 0, 0⟩) (PageStore.openAt ["heap"] 4) key other).2
  obtain ⟨hfirst, hmeet⟩ := hown ⟨7, 0, 0⟩ secondPage
  obtain ⟨hsecond, -⟩ := hown secondPage secondPage
  refine ⟨hfirst.mpr rfl, fun h => absurd (hsecond.mp h) (by decide), fun h => ?_⟩
  rcases hmeet.mp fun _ _ => h with heq | hname
  · exact absurd heq (by decide)
  · exact hname rfl

/-- The second page of an index is asked for and the first one returned, though the file holds both. -/
theorem loadFromDisk_wrong_block :
    secondPage.blockNumber = 1 ∧ (twoBlocks indexPageSize).length = 2 * indexPageSize ∧
      ((PageStore.openAt ["heap"] 4 : PageStore IdxKey IdxPage).loadFromDisk
        (fun _ => some (twoBlocks indexPageSize)) .none secondPage false).2 = .ok (IdxPage.ofBytes (block indexPageSize 0 (twoBlocks indexPageSize))) ∧
      IdxPage.ofBytes (block indexPageSize 0 (twoBlocks indexPageSize)) ≠
        IdxPage.ofBytes (block indexPageSize 1 (twoBlocks indexPageSize)) := by
  have hlen := twoBlocks_length indexPageSize
  refine ⟨rfl, hlen, ?_, ?_⟩
  · rw [PageStore.loadFromDisk_eq (twoBlocks indexPageSize) false rfl (hlen ▸ Nat.le_mul_of_pos_left _ (by decide))]
    rfl
  · intro h
    have hbytes := IdxPage.ofBytes_inj (block_length (by omega)) (block_length (by omega)) h
    rw [(block_twoBlocks _).1, (block_twoBlocks _).2] at hbytes
    exact absurd (congrArg List.head? hbytes) (by simp [indexPageSize])

end Kobzar
