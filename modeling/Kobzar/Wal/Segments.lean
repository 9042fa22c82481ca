import Kobzar.Machine

/-!
# The files of the log

The log is kept in files named after the log sequence number (LSN) they start at. `WalFileLsnStream` reads the
numbers off a directory listing, `open_latest` opens the file of the highest, `drop_files_before_lsn` removes the
files below a given one. The listing comes in whatever order the system likes, and every access may be refused by
it.
-/

namespace Kobzar

/-! ## Names -/

/-- A file name: text, or bytes that are not UTF-8. -/
inductive FileName where
  | text (chars : List Char)
  | raw (bytes : List U8)
  deriving DecidableEq, Repr

/-- `to_str`. -/
def FileName.toStr : FileName → Option (List Char)
  | text chars => some chars
  | raw _ => none

/-- `strip_prefix`. -/
def stripPrefix (front text : List Char) : Option (List Char) :=
  if front.isPrefixOf text then some (text.drop front.length) else none

/-- `strip_suffix`. -/
def stripSuffix (back text : List Char) : Option (List Char) :=
  if back.isSuffixOf text then some (text.take (text.length - back.length)) else none

/-- One more digit of a number, checked. -/
def parseDigit (value : Nat) (c : Char) : Option Nat :=
  if c.isDigit ∧ 10 * value + (c.toNat - '0'.toNat) < 2 ^ 64 then some (10 * value + (c.toNat - '0'.toNat)) else none

/-- A number without the plus sign that may stand in front of it. -/
def stripPlus : List Char → List Char
  | '+' :: digits => digits
  | text => text

/-- `parse::<u64>`: decimal digits, at least one, after a plus sign or none. -/
def parseU64 (text : List Char) : Option U64 :=
  if stripPlus text = [] then none else ((stripPlus text).foldlM parseDigit 0).map (BitVec.ofNat 64)

/-- What the name of a segment starts with. -/
def mainPrefix : List Char := ['m', 'a', 'i', 'n', '_']

/-- What the name of a segment ends with. -/
def walSuffix : List Char := ['.', 'w', 'a', 'l']

/-- `format!("main_{}.wal", lsn)`. -/
def segmentName (lsn : U64) : FileName := .text (mainPrefix ++ Nat.toDigits 10 lsn.toNat ++ walSuffix)

/-- The number that the stream reads off a name, if it takes it for the name of a segment. -/
def lsnOf (name : FileName) : Option U64 := do
  let nameStr ← name.toStr
  let lsnStr ← (stripPrefix mainPrefix nameStr).bind (stripSuffix walSuffix)
  parseU64 lsnStr

/-! ## The disk -/

/-- A file that is appended to: the bytes that a crash leaves in any case, and those written since the file was
last synced. -/
structure DiskFile where
  safe : List U8
  recent : List U8
  deriving DecidableEq, Repr

/-- The directory of the log, and all files ever created in it by their numbers; a file that has lost its name is
still there for who has it open. -/
structure Disk where
  dir : AList fun _ : FileName => Nat
  files : List DiskFile
  named : ∀ name file, dir.lookup name = some file → file < files.length

namespace Disk

/-- An empty directory. -/
def empty : Disk where
  dir := ∅
  files := []
  named _ _ h := by cases h

/-- The disk with a new, empty file of a name that gets the next number. -/
def create (disk : Disk) (name : FileName) : Disk where
  dir := disk.dir.insert name disk.files.length
  files := disk.files ++ [{ safe := [], recent := [] }]
  named other file h := by
    rw [List.length_append, List.length_singleton]
    by_cases hname : other = name
    · subst hname
      rw [AList.lookup_insert] at h
      cases h
      exact Nat.lt_succ_self _
    · rw [AList.lookup_insert_ne hname] at h
      exact Nat.lt_succ_of_lt (disk.named other file h)

/-- The disk without a name. -/
def unlink (disk : Disk) (name : FileName) : Disk where
  dir := disk.dir.erase name
  files := disk.files
  named other file h := by
    by_cases hname : other = name
    · subst hname
      rw [AList.lookup_erase] at h
      cases h
    · rw [AList.lookup_erase_ne hname] at h
      exact disk.named other file h

/-- `OpenOptions` for appending, creating a missing file when asked to. -/
def openFile (disk : Disk) (name : FileName) (create : Bool) : Option IoError → Except IoError (Nat × Disk)
  | some fault => .error fault
  | none =>
    match disk.dir.lookup name with
    | some file => .ok (file, disk)
    | none => if create then .ok (disk.files.length, disk.create name) else .error .notFound

/-- `remove_file`: takes a name out of the directory. -/
def removeFile (disk : Disk) (name : FileName) : Option IoError → Except IoError Unit × Disk
  | some fault => (.error fault, disk)
  | none => if name ∈ disk.dir then (.ok (), disk.unlink name) else (.error .notFound, disk)

/-- The directory has a segment that starts at the LSN. -/
def HasSegment (disk : Disk) (lsn : U64) : Prop := segmentName lsn ∈ disk.dir

end Disk

/-! ## Reading the directory -/

/-- What `read_dir` has still to yield: names, and errors in their place. -/
abbrev ReadDir : Type := List (Except IoError FileName)

/-- `WalFileLsnStream::new`; the error of `read_dir` is wrapped. -/
def openStream : Except String ReadDir → Except IoError ReadDir
  | .ok readDir => .ok readDir
  | .error text => .error (.other text)

/-- `WalFileLsnStream::next`; a name that is not a segment's ends the stream as the end of the directory does. -/
def nextLsn : ReadDir → Except IoError (Option U64)
  | [] => .ok none
  | .error fault :: _ => .error fault
  | .ok name :: _ => .ok (lsnOf name)

/-- `while let Some(lsn) = lsns.next().await? { body }`. -/
def whileLsn {σ : Type} (body : U64 → σ → Except IoError Unit × σ) : ReadDir → σ → Except IoError Unit × σ
  | [], s => (.ok (), s)
  | entry :: rest, s =>
    match nextLsn (entry :: rest) with
    | .error fault => (.error fault, s)
    | .ok none => (.ok (), s)
    | .ok (some lsn) =>
      match body lsn s with
      | (.error fault, s) => (.error fault, s)
      | (.ok (), s) => whileLsn body rest s

/-- One pass of the loop that looks for the highest number. -/
def raiseMax (lsn : U64) (maxLsn : Option U64) : Except IoError Unit × Option U64 :=
  (.ok (), some (if maxLsn.getD 0 < lsn then lsn else maxLsn.getD 0))

/-- `latest_file_lsn`. -/
def latestFileLsn (readDir : Except String ReadDir) : Except IoError U64 := do
  let lsns ← openStream readDir
  let (done, maxLsn) := whileLsn raiseMax lsns none
  done
  return maxLsn.getD 0

/-- One pass of the loop that removes files. -/
def dropFile (bound : U64) (faults : U64 → Option IoError) (fileLsn : U64) (disk : Disk) :
    Except IoError Unit × Disk :=
  if fileLsn < bound then disk.removeFile (segmentName fileLsn) (faults fileLsn) else (.ok (), disk)

/-- `drop_files_before_lsn`. -/
def dropFilesBeforeLsn (disk : Disk) (bound : U64) (readDir : Except String ReadDir) (faults : U64 → Option IoError) :
    Except IoError Unit × Disk :=
  match openStream readDir with
  | .error fault => (.error fault, disk)
  | .ok lsns => whileLsn (dropFile bound faults) lsns disk

/-! ## Opening -/

/-- `Wal`: the file that is open; of its `BufWriter`, what that holds back, how much it can hold, whether a write
failed since an error was last reported, and how many bytes of the file the device refused; and the LSN the file
starts at. -/
structure Wal where
  file : Nat
  buffer : List U8
  capacity : Nat
  failed : Bool
  refused : Nat
  offsetLsn : U64
  deriving DecidableEq, Repr

/-- `open_by_lsn`; the capacity of the buffer is what the configuration has for the device of the directory
(`io_combine_bytes`). -/
def openByLsn (disk : Disk) (lsn : U64) (create : Bool) (capacity : Nat) (fault : Option IoError) :
    Except IoError (Wal × Disk) := do
  let (file, disk) ← disk.openFile (segmentName lsn) create fault
  return ({ file, buffer := [], capacity, failed := false, refused := 0, offsetLsn := lsn }, disk)

/-- `open_latest`. -/
def openLatest (disk : Disk) (readDir : Except String ReadDir) (capacity : Nat) (fault : Option IoError) :
    Except IoError (Wal × Disk) := do
  let lsn ← latestFileLsn readDir
  openByLsn disk lsn true capacity fault

end Kobzar
