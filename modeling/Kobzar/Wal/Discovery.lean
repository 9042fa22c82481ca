import Kobzar.Wal.Segments

/-!
# What the directory listing shows of the log

The stream of LSNs ends at the first name that is not a segment's. So every segment is found exactly when none is
listed behind such a name, up to other spellings of its LSN, and the highest is found exactly when none of these
spellings is above it (`discovers_iff`).
-/

namespace Kobzar

/-! ## Names read back -/

/-- Digits are taken as long as the number fits. -/
theorem foldlM_parseDigit {digits : List Char} (hdigits : ∀ c ∈ digits, c.isDigit) (value : Nat)
    (hlt : Nat.ofDigitChars 10 digits value < 2 ^ 64) :
    digits.foldlM parseDigit value = some (Nat.ofDigitChars 10 digits value) := by
  induction digits generalizing value with
  | nil => rfl
  | cons c digits ih =>
    rw [Nat.ofDigitChars_cons] at hlt ⊢
    have hle : 10 * value + (c.toNat - '0'.toNat) ≤
        Nat.ofDigitChars 10 digits (10 * value + (c.toNat - '0'.toNat)) := by
      rw [Nat.ofDigitChars_eq_ofDigitChars_zero]
      exact Nat.le_add_right_of_le (Nat.le_mul_of_pos_left _ (Nat.pow_pos (by decide)))
    have hdigit : parseDigit value c = some (10 * value + (c.toNat - '0'.toNat)) :=
      if_pos ⟨hdigits c List.mem_cons_self, Nat.lt_of_le_of_lt hle hlt⟩
    rw [List.foldlM_cons, hdigit]
    exact ih (fun d hd => hdigits d (List.mem_cons_of_mem c hd)) _ hlt

/-- Digits start with no plus sign. -/
theorem stripPlus_of_digits {digits : List Char} (hdigits : ∀ c ∈ digits, c.isDigit) : stripPlus digits = digits := by
  unfold stripPlus
  split
  · exact absurd (hdigits '+' List.mem_cons_self) (by decide)
  · rfl

/-- The decimal digits of an LSN are read back. -/
theorem parseU64_toDigits (lsn : U64) : parseU64 (Nat.toDigits 10 lsn.toNat) = some lsn := by
  have hdigits : ∀ c ∈ Nat.toDigits 10 lsn.toNat, c.isDigit :=
    fun c hc => Nat.isDigit_of_mem_toDigits (by decide) (by decide) hc
  have hvalue : Nat.ofDigitChars 10 (Nat.toDigits 10 lsn.toNat) 0 = lsn.toNat := Nat.ofDigitChars_ten_toDigits
  have hfold := foldlM_parseDigit hdigits 0 (by rw [hvalue]; exact lsn.isLt)
  rw [hvalue] at hfold
  have hnil : Nat.toDigits 10 lsn.toNat ≠ [] := Nat.toDigits_ne_nil
  rw [parseU64, stripPlus_of_digits hdigits, if_neg hnil, hfold, Option.map_some, BitVec.ofNat_toNat, BitVec.setWidth_eq]

/-- What is behind a prefix. -/
theorem stripPrefix_append (front text : List Char) : stripPrefix front (front ++ text) = some text := by
  rw [stripPrefix, if_pos (List.isPrefixOf_iff_prefix.mpr (List.prefix_append front text)), List.drop_left]

/-- What is before a suffix. -/
theorem stripSuffix_append (text back : List Char) : stripSuffix back (text ++ back) = some text := by
  rw [stripSuffix, if_pos (List.isSuffixOf_iff_suffix.mpr (List.suffix_append text back)), List.length_append,
    Nat.add_sub_cancel, List.take_left]

/-- The name of a segment reads as the LSN it starts at. -/
@[simp] theorem lsnOf_segmentName (lsn : U64) : lsnOf (segmentName lsn) = some lsn := by
  simp only [lsnOf, segmentName, FileName.toStr, Option.bind_eq_bind, Option.bind_some, List.append_assoc,
    stripPrefix_append, stripSuffix_append, parseU64_toDigits]

/-- Segments of one name start at one LSN. -/
theorem segmentName_inj {lsn lsn' : U64} (h : segmentName lsn = segmentName lsn') : lsn = lsn' :=
  Option.some.inj (by rw [← lsnOf_segmentName, h, lsnOf_segmentName])

/-! ## The stream -/

/-- The LSNs that a stream yields before it ends. -/
def streamed : ReadDir → List U64
  | [] => []
  | entry :: rest =>
    match nextLsn (entry :: rest) with
    | .ok (some lsn) => lsn :: streamed rest
    | _ => []

/-- A name that is read adds its LSN. -/
theorem streamed_cons_some {name : FileName} {lsn : U64} (h : lsnOf name = some lsn) (rest : ReadDir) :
    streamed (.ok name :: rest) = lsn :: streamed rest := by
  simp [streamed, nextLsn, h]

/-- A foreign name ends the stream. -/
theorem streamed_cons_none {name : FileName} (h : lsnOf name = none) (rest : ReadDir) :
    streamed (.ok name :: rest) = [] := by
  simp [streamed, nextLsn, h]

/-- An LSN is yielded when a name before every foreign one reads as it. -/
theorem mem_streamed {entries : List FileName} {lsn : U64} : lsn ∈ streamed (entries.map .ok) ↔
    ∃ front name back, entries = front ++ name :: back ∧ lsnOf name = some lsn ∧ ∀ other ∈ front,
      lsnOf other ≠ none := by
  induction entries with
  | nil => simp [streamed]
  | cons entry entries ih =>
    rw [List.map_cons]
    cases hentry : lsnOf entry with
    | none =>
      rw [streamed_cons_none hentry]
      refine ⟨fun h => absurd h List.not_mem_nil, ?_⟩
      rintro ⟨front, name, back, heq, hname, hfront⟩
      cases front with
      | nil =>
        rw [List.nil_append, List.cons.injEq] at heq
        rw [heq.1, hname] at hentry
        cases hentry
      | cons other front =>
        rw [List.cons_append, List.cons.injEq] at heq
        exact absurd (heq.1 ▸ hentry) (hfront other List.mem_cons_self)
    | some found =>
      rw [streamed_cons_some hentry, List.mem_cons, ih]
      constructor
      · rintro (rfl | ⟨front, name, back, rfl, hname, hfront⟩)
        · exact ⟨[], entry, entries, rfl, hentry, fun _ h => absurd h List.not_mem_nil⟩
        · refine ⟨entry :: front, name, back, rfl, hname, ?_⟩
          intro other hother
          rcases List.mem_cons.mp hother with rfl | hother
          · rw [hentry]
            exact Option.some_ne_none found
          · exact hfront other hother
      · rintro ⟨front, name, back, heq, hname, hfront⟩
        cases front with
        | nil =>
          rw [List.nil_append, List.cons.injEq] at heq
          rw [heq.1, hname] at hentry
          exact Or.inl (Option.some.inj hentry)
        | cons other front =>
          rw [List.cons_append, List.cons.injEq] at heq
          exact Or.inr ⟨front, name, back, heq.2, hname, fun o ho => hfront o (List.mem_cons_of_mem other ho)⟩

/-! ## The loops over the stream -/

section Loops

variable {σ : Type} {body : U64 → σ → Except IoError Unit × σ}

/-- What every pass keeps, the loop keeps, however it ends. -/
theorem whileLsn_inv (I : σ → Prop) (hbody : ∀ lsn s, I s → I (body lsn s).2) (readDir : ReadDir) (s : σ)
    (hs : I s) : I (whileLsn body readDir s).2 := by
  induction readDir generalizing s with
  | nil => exact hs
  | cons entry rest ih =>
    unfold whileLsn
    rcases nextLsn (entry :: rest) with fault | _ | lsn
    · exact hs
    · exact hs
    · have hpass := hbody lsn s hs
      rcases hrun : body lsn s with ⟨fault | _, s'⟩
      · rw [hrun] at hpass
        simp only [hrun]
        exact hpass
      · rw [hrun] at hpass
        simp only [hrun]
        exact ih s' hpass

/-- A loop whose passes never fail folds over the LSNs yielded. -/
theorem whileLsn_ok (body : U64 → σ → Except IoError Unit × σ) (f : σ → U64 → σ)
    (hbody : ∀ lsn s, body lsn s = (.ok (), f s lsn)) (entries : List FileName) (s : σ) :
    whileLsn body (entries.map .ok) s = (.ok (), (streamed (entries.map .ok)).foldl f s) := by
  induction entries generalizing s with
  | nil => rfl
  | cons entry entries ih =>
    rw [List.map_cons, whileLsn]
    cases hentry : lsnOf entry with
    | none =>
      rw [streamed_cons_none hentry]
      simp only [nextLsn, hentry]
      rfl
    | some lsn =>
      rw [streamed_cons_some hentry, List.foldl_cons, ← ih]
      simp only [nextLsn, hentry, hbody]

end Loops

/-- The highest LSN so far is raised to the highest of all. -/
theorem foldl_raiseMax (lsns : List U64) (maxLsn : Option U64) :
    (∀ lsn ∈ lsns, lsn ≤ ((lsns.foldl (fun s lsn => (raiseMax lsn s).2) maxLsn).getD 0)) ∧
      maxLsn.getD 0 ≤ (lsns.foldl (fun s lsn => (raiseMax lsn s).2) maxLsn).getD 0 ∧
      ((lsns.foldl (fun s lsn => (raiseMax lsn s).2) maxLsn).getD 0 = maxLsn.getD 0 ∨
        (lsns.foldl (fun s lsn => (raiseMax lsn s).2) maxLsn).getD 0 ∈ lsns) := by
  induction lsns generalizing maxLsn with
  | nil => exact ⟨fun _ h => absurd h List.not_mem_nil, BitVec.le_refl _, Or.inl rfl⟩
  | cons lsn lsns ih =>
    obtain ⟨hall, hge, hmem⟩ := ih (raiseMax lsn maxLsn).2
    rw [List.foldl_cons]
    have hraise : lsn ≤ ((raiseMax lsn maxLsn).2).getD 0 ∧ maxLsn.getD 0 ≤ ((raiseMax lsn maxLsn).2).getD 0 ∧
        (((raiseMax lsn maxLsn).2).getD 0 = maxLsn.getD 0 ∨ ((raiseMax lsn maxLsn).2).getD 0 = lsn) := by
      simp only [raiseMax, Option.getD_some]
      split
      · rename_i hlt
        exact ⟨BitVec.le_refl _, BitVec.le_of_lt hlt, Or.inr rfl⟩
      · rename_i hle
        exact ⟨BitVec.not_lt.mp hle, BitVec.le_refl _, Or.inl rfl⟩
    obtain ⟨hlsn, hmax, hcase⟩ := hraise
    refine ⟨fun x hx => ?_, BitVec.le_trans hmax hge, ?_⟩
    · rcases List.mem_cons.mp hx with rfl | hx
      · exact BitVec.le_trans hlsn hge
      · exact hall x hx
    · rcases hmem with heq | hmem
      · rcases hcase with hcase | hcase
        · exact Or.inl (heq.trans hcase)
        · exact Or.inr (List.mem_cons.mpr (Or.inl (heq.trans hcase)))
      · exact Or.inr (List.mem_cons_of_mem lsn hmem)

/-- `latest_file_lsn` finds the highest LSN that the stream yields, and 0 when it yields none. -/
theorem latestFileLsn_spec (entries : List FileName) : ∃ lsn, latestFileLsn (.ok (entries.map .ok)) = .ok lsn ∧
    (∀ other ∈ streamed (entries.map .ok), other ≤ lsn) ∧ (lsn = 0 ∨ lsn ∈ streamed (entries.map .ok)) := by
  obtain ⟨hall, -, hmem⟩ := foldl_raiseMax (streamed (entries.map .ok)) none
  refine ⟨_, ?_, hall, hmem⟩
  have hloop := whileLsn_ok raiseMax (fun s lsn => (raiseMax lsn s).2) (fun _ _ => rfl) entries none
  simp only [latestFileLsn, openStream, ok_bind, hloop]
  rfl

/-! ## Opening and removing -/

namespace Disk

/-- Opening a file that exists changes nothing on the disk. -/
theorem openFile_of_lookup {disk : Disk} {name : FileName} {file : Nat} (h : disk.dir.lookup name = some file)
    (create : Bool) : disk.openFile name create none = .ok (file, disk) := by
  simp [openFile, h]

/-- Creating a file gives it a number not used before. -/
theorem openFile_of_lookup_none {disk : Disk} {name : FileName} (h : disk.dir.lookup name = none) :
    disk.openFile name true none = .ok (disk.files.length, disk.create name) := by
  simp [openFile, h]

/-- A segment has a file. -/
theorem hasSegment_iff {disk : Disk} {lsn : U64} :
    disk.HasSegment lsn ↔ ∃ file, disk.dir.lookup (segmentName lsn) = some file := by
  rw [HasSegment, ← AList.lookup_isSome, Option.isSome_iff_exists]

/-- A new file is found under its name, and the others under theirs. -/
theorem lookup_create (disk : Disk) (name other : FileName) :
    (disk.create name).dir.lookup other = if other = name then some disk.files.length else disk.dir.lookup other := by
  split
  · rename_i heq
    rw [heq]
    exact AList.lookup_insert disk.dir
  · rename_i hne
    exact AList.lookup_insert_ne hne

/-- A new segment is one more. -/
theorem hasSegment_create {disk : Disk} {lsn other : U64} :
    (disk.create (segmentName lsn)).HasSegment other ↔ other = lsn ∨ disk.HasSegment other := by
  rw [HasSegment, HasSegment, create, AList.mem_insert]
  exact or_congr_left ⟨fun h => segmentName_inj h, congrArg segmentName⟩

/-- Removing a file, if it removes anything, takes its name out of the directory and nothing else. -/
theorem removeFile_cases (disk : Disk) (name : FileName) (fault : Option IoError) :
    disk.removeFile name fault = (.ok (), disk.unlink name) ∨
      ∃ error, disk.removeFile name fault = (.error error, disk) := by
  cases fault with
  | some error => exact Or.inr ⟨error, rfl⟩
  | none =>
    by_cases hname : name ∈ disk.dir
    · exact Or.inl (if_pos hname)
    · exact Or.inr ⟨.notFound, if_neg hname⟩

end Disk

/-- `open_by_lsn`, when it is not refused, opens the segment that starts at the LSN, if there is one. -/
theorem openByLsn_ok {disk disk' : Disk} {lsn : U64} {capacity : Nat} {fault : Option IoError} {wal : Wal}
    (h : openByLsn disk lsn true capacity fault = .ok (wal, disk')) :
    wal.offsetLsn = lsn ∧ wal.buffer = [] ∧
      ((disk.dir.lookup (segmentName lsn) = some wal.file ∧ disk' = disk) ∨
        (¬ disk.HasSegment lsn ∧ wal.file = disk.files.length ∧ disk' = disk.create (segmentName lsn))) := by
  obtain ⟨⟨file, disk''⟩, hopen, hret⟩ := bind_eq_ok.mp h
  cases hret
  cases fault with
  | some error => cases hopen
  | none =>
    cases hfile : disk.dir.lookup (segmentName lsn) with
    | some found =>
      rw [Disk.openFile_of_lookup hfile] at hopen
      cases hopen
      exact ⟨rfl, rfl, Or.inl ⟨rfl, rfl⟩⟩
    | none =>
      rw [Disk.openFile_of_lookup_none hfile] at hopen
      cases hopen
      refine ⟨rfl, rfl, Or.inr ⟨?_, rfl, rfl⟩⟩
      rw [Disk.hasSegment_iff, hfile]
      simp

/-- `open_latest` opens by the LSN that was found. -/
theorem openLatest_eq {disk : Disk} {readDir : Except String ReadDir} {lsn : U64} (h : latestFileLsn readDir = .ok lsn)
    (capacity : Nat) (fault : Option IoError) :
    openLatest disk readDir capacity fault = openByLsn disk lsn true capacity fault := by
  rw [openLatest, h]
  rfl

/-- A pass of the removing loop leaves the files as they are, and the directory too, but for names of segments below the
bound. -/
theorem dropFile_spec (bound : U64) (faults : U64 → Option IoError) (lsn : U64) (disk : Disk) :
    (dropFile bound faults lsn disk).2.files = disk.files ∧
      ∀ name, (dropFile bound faults lsn disk).2.dir.lookup name = disk.dir.lookup name ∨
        (name = segmentName lsn ∧ lsn < bound ∧ (dropFile bound faults lsn disk).2.dir.lookup name = none) := by
  unfold dropFile
  split
  · rename_i hlt
    rcases disk.removeFile_cases (segmentName lsn) (faults lsn) with heq | ⟨error, heq⟩
    · rw [heq]
      refine ⟨rfl, ?_⟩
      intro name
      by_cases hname : name = segmentName lsn
      · subst hname
        exact Or.inr ⟨rfl, hlt, AList.lookup_erase (segmentName lsn) disk.dir⟩
      · exact Or.inl (AList.lookup_erase_ne hname)
    · rw [heq]
      exact ⟨rfl, fun _ => Or.inl rfl⟩
  · exact ⟨rfl, fun _ => Or.inl rfl⟩

/-- A pass of the removing loop that succeeds leaves no segment at an LSN below the bound. -/
theorem not_hasSegment_dropFile {bound lsn : U64} {faults : U64 → Option IoError} {disk disk' : Disk}
    (h : dropFile bound faults lsn disk = (.ok (), disk')) (hlt : lsn < bound) : ¬ disk'.HasSegment lsn := by
  rw [dropFile, if_pos hlt] at h
  rcases disk.removeFile_cases (segmentName lsn) (faults lsn) with heq | ⟨error, heq⟩
  · rw [heq] at h
    cases h
    rw [Disk.HasSegment, Disk.unlink, AList.mem_erase]
    simp
  · rw [heq] at h
    cases h

/-- No pass of the removing loop brings a segment back. -/
theorem not_hasSegment_whileLsn (bound : U64) (faults : U64 → Option IoError) (readDir : ReadDir) {lsn : U64}
    {disk : Disk}
    (h : ¬ disk.HasSegment lsn) : ¬ (whileLsn (dropFile bound faults) readDir disk).2.HasSegment lsn := by
  refine whileLsn_inv (fun d => ¬ d.HasSegment lsn) (fun other d hd => ?_) readDir disk h
  rw [Disk.hasSegment_iff] at hd ⊢
  rcases (dropFile_spec bound faults other d).2 (segmentName lsn) with heq | ⟨-, -, hnone⟩
  · rwa [heq]
  · rw [hnone]
    simp

/-- The removing loop, when it succeeds, leaves no segment below the bound whose LSN was yielded. -/
theorem whileLsn_dropFile {bound : U64} {faults : U64 → Option IoError} {readDir : ReadDir} {disk disk' : Disk}
    (h : whileLsn (dropFile bound faults) readDir disk = (.ok (), disk')) :
    ∀ lsn ∈ streamed readDir, lsn < bound → ¬ disk'.HasSegment lsn := by
  induction readDir generalizing disk with
  | nil => exact fun _ h => absurd h List.not_mem_nil
  | cons entry rest ih =>
    unfold whileLsn at h
    unfold streamed
    rcases hnext : nextLsn (entry :: rest) with fault | _ | found
    · exact fun _ h => absurd h List.not_mem_nil
    · exact fun _ h => absurd h List.not_mem_nil
    · rcases hpass : dropFile bound faults found disk with ⟨fault | _, disk''⟩
      · simp only [hnext, hpass] at h
        cases h
      · simp only [hnext, hpass] at h
        intro lsn hlsn hlt
        rcases List.mem_cons.mp hlsn with rfl | hlsn
        · have hgone := not_hasSegment_whileLsn bound faults rest (not_hasSegment_dropFile hpass hlt)
          rwa [h] at hgone
        · exact ih h lsn hlsn hlt

/-- `drop_files_before_lsn`, however it ends, leaves the files as they are, and the directory too, but for names of
segments below the bound. -/
theorem dropFilesBeforeLsn_spec (disk : Disk) (bound : U64) (readDir : Except String ReadDir)
    (faults : U64 → Option IoError) :
    (dropFilesBeforeLsn disk bound readDir faults).2.files = disk.files ∧
      ∀ name, (dropFilesBeforeLsn disk bound readDir faults).2.dir.lookup name = disk.dir.lookup name ∨
        (∃ lsn, name = segmentName lsn ∧ lsn < bound) ∧
          (dropFilesBeforeLsn disk bound readDir faults).2.dir.lookup name = none := by
  cases readDir with
  | error text => exact ⟨rfl, fun _ => Or.inl rfl⟩
  | ok readDir =>
    refine whileLsn_inv (fun d => d.files = disk.files ∧ ∀ name, d.dir.lookup name = disk.dir.lookup name ∨
      (∃ lsn, name = segmentName lsn ∧ lsn < bound) ∧ d.dir.lookup name = none) ?_ readDir disk ⟨rfl,
        fun _ => Or.inl rfl⟩
    rintro lsn d ⟨hfiles, hdir⟩
    obtain ⟨hfiles', hdir'⟩ := dropFile_spec bound faults lsn d
    refine ⟨hfiles'.trans hfiles, ?_⟩
    intro name
    rcases hdir' name with heq | ⟨hname, hlt, hnone⟩
    · rw [heq]
      exact hdir name
    · exact Or.inr ⟨⟨lsn, hname, hlt⟩, hnone⟩

/-! ## When everything is found -/

/-- The directory, listed in this order, is searched completely: the stream yields every segment, `open_latest`
opens the last segment there is (LSN 0 when there is none), and a `drop_files_before_lsn` that succeeds leaves none
below its bound. -/
structure Discovers (disk : Disk) (entries : List FileName) : Prop where
  yields : ∀ lsn, disk.HasSegment lsn → lsn ∈ streamed (entries.map .ok)
  opens : ∀ capacity fault wal disk', openLatest disk (.ok (entries.map .ok)) capacity fault = .ok (wal, disk') →
    (disk.dir.lookup (segmentName wal.offsetLsn) = some wal.file ∨
      (wal.offsetLsn = 0 ∧ ∀ lsn, ¬ disk.HasSegment lsn)) ∧ ∀ lsn, disk.HasSegment lsn → lsn ≤ wal.offsetLsn
  drops : ∀ bound faults disk', dropFilesBeforeLsn disk bound (.ok (entries.map .ok)) faults = (.ok (), disk') →
    ∀ lsn, disk'.HasSegment lsn → bound ≤ lsn

/-- No segment is listed behind a foreign name, unless a name before that reads as the same LSN. -/
def SegmentsFirst (entries : List FileName) : Prop :=
  ∀ front name back, entries = front ++ name :: back → lsnOf name = none →
    ∀ lsn, segmentName lsn ∈ back → ∃ other ∈ front, lsnOf other = some lsn

/-- No name before every foreign one reads as an LSN above that of every segment. -/
def NoneAbove (entries : List FileName) : Prop :=
  ∀ front name back lsn, entries = front ++ name :: back → (∀ other ∈ front, lsnOf other ≠ none) →
    lsnOf name = some lsn → lsn = 0 ∨ ∃ seg, segmentName seg ∈ entries ∧ lsn ≤ seg

/-- A name in front of the first foreign name of a listing, or of its end, has all names before it read. -/
theorem mem_streamed_of_front {front : List FileName} (back : List FileName)
    (hfront : ∀ other ∈ front, lsnOf other ≠ none) {name : FileName} {lsn : U64} (hname : name ∈ front)
    (hlsn : lsnOf name = some lsn) : lsn ∈ streamed ((front ++ back).map .ok) := by
  obtain ⟨before, after, rfl⟩ := List.append_of_mem hname
  refine mem_streamed.mpr ⟨before, name, after ++ back, by simp, hlsn, ?_⟩
  intro other hother
  exact hfront other (List.mem_append_left _ hother)

/-- A listing has a first foreign name or none. -/
theorem exists_first_foreign (entries : List FileName) : (∀ name ∈ entries, lsnOf name ≠ none) ∨
    ∃ front name back, entries = front ++ name :: back ∧ lsnOf name = none ∧ ∀ other ∈ front,
      lsnOf other ≠ none := by
  induction entries with
  | nil => exact Or.inl fun _ h => absurd h List.not_mem_nil
  | cons entry entries ih =>
    by_cases hentry : lsnOf entry = none
    · exact Or.inr ⟨[], entry, entries, rfl, hentry, fun _ h => absurd h List.not_mem_nil⟩
    · rcases ih with hall | ⟨front, name, back, rfl, hname, hfront⟩
      · exact Or.inl (List.forall_mem_cons.mpr ⟨hentry, hall⟩)
      · exact Or.inr ⟨entry :: front, name, back, rfl, hname, List.forall_mem_cons.mpr ⟨hentry, hfront⟩⟩

/-- The stream yields every segment exactly when the segments come first. -/
theorem yields_iff_segmentsFirst {entries : List FileName} :
    (∀ lsn, segmentName lsn ∈ entries → lsn ∈ streamed (entries.map .ok)) ↔ SegmentsFirst entries := by
  constructor
  · intro h front name back heq hname lsn hlsn
    obtain ⟨front', other, back', heq', hother, hfront'⟩ := mem_streamed.mp (h lsn (by simp [heq, hlsn]))
    have hne : other ≠ name := by
      rintro rfl
      rw [hname] at hother
      cases hother
    rcases List.append_eq_append_iff.mp (heq'.symm.trans heq) with ⟨mid, hmid, htail⟩ | ⟨mid, hmid, htail⟩
    · cases mid with
      | nil => exact absurd (List.cons.inj htail).1 hne
      | cons x mid =>
        obtain ⟨rfl, -⟩ := List.cons.inj htail
        exact ⟨other, by simp [hmid], hother⟩
    · cases mid with
      | nil => exact absurd (List.cons.inj htail).1.symm hne
      | cons x mid =>
        obtain ⟨rfl, -⟩ := List.cons.inj htail
        exact absurd hname (hfront' name (by simp [hmid]))
  · intro h lsn hlsn
    rcases exists_first_foreign entries with hall | ⟨front, name, back, rfl, hname, hfront⟩
    · have hmem := mem_streamed_of_front [] hall hlsn (lsnOf_segmentName lsn)
      rwa [List.append_nil] at hmem
    · rcases List.mem_append.mp hlsn with hmem | hmem
      · exact mem_streamed_of_front (name :: back) hfront hmem (lsnOf_segmentName lsn)
      · rcases List.mem_cons.mp hmem with heq | hmem
        · rw [← heq, lsnOf_segmentName] at hname
          cases hname
        · obtain ⟨other, hother, hotherLsn⟩ := h front name back rfl hname lsn hmem
          exact mem_streamed_of_front (name :: back) hfront hother hotherLsn

/-- A segment can be opened or created when nothing goes wrong. -/
theorem exists_openByLsn (disk : Disk) (lsn : U64) (capacity : Nat) :
    ∃ opened, openByLsn disk lsn true capacity none = .ok opened := by
  cases hfile : disk.dir.lookup (segmentName lsn) with
  | some file => exact ⟨_, by rw [openByLsn, Disk.openFile_of_lookup hfile]; rfl⟩
  | none => exact ⟨_, by rw [openByLsn, Disk.openFile_of_lookup_none hfile]; rfl⟩

/-- When no name reads as an LSN above that of every segment, a read LSN that no segment exceeds is 0 or that of a
segment. -/
theorem NoneAbove.eq_zero {disk : Disk} {entries : List FileName} (habove : NoneAbove entries)
    (hmem : ∀ lsn, segmentName lsn ∈ entries ↔ disk.HasSegment lsn) {latest : U64}
    (hread : latest = 0 ∨ latest ∈ streamed (entries.map .ok)) (hle : ∀ lsn, disk.HasSegment lsn → lsn ≤ latest)
    (hnone : ¬disk.HasSegment latest) : latest = 0 := by
  refine hread.elim id fun hread => ?_
  obtain ⟨front, name, back, heq, hname, hfront⟩ := mem_streamed.mp hread
  rcases habove front name back latest heq hfront hname with hzero | ⟨seg, hseg, hge⟩
  · exact hzero
  · have hseg' := (hmem seg).mp hseg
    exact absurd (BitVec.le_antisymm hge (hle seg hseg') ▸ hseg') hnone

/-- A drop that reads every segment leaves none below its bound. -/
theorem le_of_dropped {disk disk' : Disk} {entries : List FileName} {bound : U64} {faults : U64 → Option IoError}
    (hyields : ∀ lsn, disk.HasSegment lsn → lsn ∈ streamed (entries.map .ok))
    (hdrop : dropFilesBeforeLsn disk bound (.ok (entries.map .ok)) faults = (.ok (), disk')) {lsn : U64}
    (hlsn : disk'.HasSegment lsn) : bound ≤ lsn := by
  refine BitVec.not_lt.mp ?_
  intro hlt
  by_cases hbefore : disk.HasSegment lsn
  · exact whileLsn_dropFile hdrop lsn (hyields lsn hbefore) hlt hlsn
  · have hgone := not_hasSegment_whileLsn bound faults (entries.map .ok) hbefore
    have hdisk : (whileLsn (dropFile bound faults) (entries.map .ok) disk).2 = disk' := by
      rw [show whileLsn (dropFile bound faults) (entries.map .ok) disk = (.ok (), disk') from hdrop]
    exact hgone (hdisk ▸ hlsn)

/-- A directory is searched completely exactly when, in the order it is listed, no segment comes behind a foreign
name, up to other spellings of its LSN, and no such spelling that is read is above every segment. -/
theorem discovers_iff (disk : Disk) (entries : List FileName) (hlisted : entries.Perm disk.dir.keys) :
    Discovers disk entries ↔ SegmentsFirst entries ∧ NoneAbove entries := by
  have hmem : ∀ lsn, segmentName lsn ∈ entries ↔ disk.HasSegment lsn := fun lsn => by
    rw [hlisted.mem_iff, ← AList.mem_keys, Disk.HasSegment]
  obtain ⟨latest, hlatest, hall, hread⟩ := latestFileLsn_spec entries
  constructor
  · intro h
    refine ⟨yields_iff_segmentsFirst.mp fun lsn hlsn => h.yields lsn ((hmem lsn).mp hlsn), ?_⟩
    intro front name back lsn heq hfront hname
    have hle := hall lsn (mem_streamed.mpr ⟨front, name, back, heq, hname, hfront⟩)
    obtain ⟨⟨wal, disk'⟩, hopen⟩ := exists_openByLsn disk latest 0
    have hoffset := (openByLsn_ok hopen).1
    have hopens := (h.opens 0 none wal disk' ((openLatest_eq hlatest 0 none).trans hopen)).1
    rw [hoffset] at hopens
    rcases hopens with hfile | ⟨rfl, -⟩
    · exact Or.inr ⟨latest, (hmem latest).mpr (Disk.hasSegment_iff.mpr ⟨wal.file, hfile⟩), hle⟩
    · exact Or.inl (BitVec.le_antisymm hle (Nat.zero_le lsn.toNat))
  · rintro ⟨hfirst, habove⟩
    have hyields : ∀ lsn, disk.HasSegment lsn → lsn ∈ streamed (entries.map .ok) :=
      fun lsn hlsn => yields_iff_segmentsFirst.mpr hfirst lsn ((hmem lsn).mpr hlsn)
    have hle : ∀ lsn, disk.HasSegment lsn → lsn ≤ latest := fun lsn hlsn => hall lsn (hyields lsn hlsn)
    refine ⟨hyields, ?_, fun bound faults disk' hdrop lsn hlsn => le_of_dropped hyields hdrop hlsn⟩
    intro capacity fault wal disk' hopen
    rw [openLatest_eq hlatest] at hopen
    obtain ⟨hoffset, -, hcase⟩ := openByLsn_ok hopen
    rw [hoffset]
    refine ⟨?_, hle⟩
    rcases hcase with ⟨hfile, -⟩ | ⟨hnone, -, -⟩
    · exact Or.inl hfile
    · -- the highest LSN read is that of no segment, so it is 0, and there is no segment
      have hzero := habove.eq_zero hmem hread hle hnone
      refine Or.inr ⟨hzero, fun lsn hlsn => hnone ?_⟩
      have hlsn0 := BitVec.le_antisymm (hle lsn hlsn) (hzero ▸ (Nat.zero_le lsn.toNat))
      rwa [← hlsn0]

/-- Names of segments followed by foreign names are searched completely. -/
theorem segmentsFirst_append (lsns : List U64) {others : List FileName}
    (hothers : ∀ name ∈ others, lsnOf name = none) :
    SegmentsFirst (lsns.map segmentName ++ others) ∧ NoneAbove (lsns.map segmentName ++ others) := by
  have hread : ∀ name ∈ lsns.map segmentName, ∃ seg ∈ lsns, lsnOf name = some seg ∧ name = segmentName seg := by
    intro name hname
    obtain ⟨seg, hseg, rfl⟩ := List.mem_map.mp hname
    exact ⟨seg, hseg, lsnOf_segmentName seg, rfl⟩
  have hforeign : ∀ lsn, segmentName lsn ∉ others := by
    intro lsn hmem
    have hnone := hothers _ hmem
    rw [lsnOf_segmentName] at hnone
    cases hnone
  constructor
  · intro front name back heq hname lsn hlsn
    rcases List.append_eq_append_iff.mp heq with ⟨mid, -, htail⟩ | ⟨mid, hmid, htail⟩
    · exact absurd (htail ▸ List.mem_append_right mid (List.mem_cons_of_mem name hlsn)) (hforeign lsn)
    · cases mid with
      | nil =>
        exact absurd (by rw [List.nil_append] at htail; exact htail ▸ List.mem_cons_of_mem name hlsn) (hforeign lsn)
      | cons x mid =>
        obtain ⟨rfl, -⟩ := List.cons.inj htail
        obtain ⟨seg, -, hseg, -⟩ := hread name (by simp [hmid])
        rw [hname] at hseg
        cases hseg
  · intro front name back lsn heq _ hname
    have hmem : name ∈ lsns.map segmentName ++ others := by simp [heq]
    rcases List.mem_append.mp hmem with hmem | hmem
    · obtain ⟨seg, hseg, hsegLsn, -⟩ := hread name hmem
      rw [hname] at hsegLsn
      cases hsegLsn
      exact Or.inr ⟨lsn, List.mem_append_left _ (List.mem_map_of_mem hseg), BitVec.le_refl lsn⟩
    · rw [hothers name hmem] at hname
      cases hname

/-- The name of a file that is no segment. -/
def lockName : FileName := .text ['L', 'O', 'C', 'K']

/-- A directory of a first segment, a foreign file and a second segment that starts at 64. -/
def lockedDisk : Disk := ((Disk.empty.create (segmentName 64)).create lockName).create (segmentName 0)

/-- Listed with the foreign file last, the directory is searched completely. -/
theorem discovers_lock_last : Discovers lockedDisk [segmentName 0, segmentName 64, lockName] :=
  (discovers_iff lockedDisk [segmentName 0, segmentName 64, lockName] (by decide +kernel)).mpr
    (segmentsFirst_append [0, 64] (by decide +kernel))

/-- Listed with the foreign file between the segments, the stream ends at it: the second segment is not yielded,
`open_latest` opens the first one, and a `drop_files_before_lsn` that succeeds leaves the second below its
bound. -/
theorem lock_hides_segment :
    let readDir : Except String ReadDir := .ok ([segmentName 0, lockName, segmentName 64].map .ok)
    lockedDisk.dir.keys = [segmentName 0, lockName, segmentName 64] ∧
      streamed ([segmentName 0, lockName, segmentName 64].map .ok) = [0] ∧
      (openLatest lockedDisk readDir 8192 none).map (·.1) =
        .ok { file := 2, buffer := [], capacity := 8192, failed := false, refused := 0, offsetLsn := 0 } ∧
      (dropFilesBeforeLsn lockedDisk 128 readDir fun _ => none).1 = .ok () ∧
      (dropFilesBeforeLsn lockedDisk 128 readDir fun _ => none).2.dir.lookup (segmentName 64) = some 0 := by
  decide +kernel

end Kobzar
