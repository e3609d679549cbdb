import Mathlib.Algebra.Group.Nat.Defs
import Mathlib.Data.List.TakeWhile
import Mathlib.Tactic.Common

/-! # Files of strings

`FileUtil` writes a string as its length and its bytes. The comment on the format
allows empty strings and zero bytes. The reader asserts that the length is not 0, and
takes what it has read for a C string. Which sequences of strings come back?
-/

namespace MySuperLedger.FileUtil

open List

abbrev Bytes := List UInt8

/-- The `width` bytes of a number, the least significant one first. -/
def littleEndian : (width value : Nat) → Bytes
  | 0, _ => []
  | width + 1, value => UInt8.ofNat value :: littleEndian width (value / 256)

def ofLittleEndian (bytes : Bytes) : Nat :=
  bytes.foldr (fun byte value => byte.toNat + 256 * value) 0

@[simp] theorem length_littleEndian (width value : Nat) :
    (littleEndian width value).length = width := by
  induction width generalizing value with
  | zero => rfl
  | succ width ih => rw [littleEndian, length_cons, ih]

theorem ofLittleEndian_littleEndian (width value : Nat) :
    ofLittleEndian (littleEndian width value) = value % 256 ^ width := by
  induction width generalizing value with
  | zero => simp [littleEndian, ofLittleEndian, Nat.mod_one]
  | succ width ih =>
    have hb : (UInt8.ofNat value).toNat = value % 256 := UInt8.toNat_ofNat
    calc ofLittleEndian (littleEndian (width + 1) value)
        = (UInt8.ofNat value).toNat + 256 * ofLittleEndian (littleEndian width (value / 256)) := rfl
      _ = value % 256 + 256 * (value / 256 % 256 ^ width) := by rw [hb, ih]
      _ = value % 256 ^ (width + 1) := by rw [Nat.pow_succ', Nat.mod_mul]

/-- `max_size` of a `std::vector<char>`. -/
def maxSize : Nat := 2 ^ 63 - 1

/-- A `std::string`; it leaves room for the byte behind its last one. -/
structure StdString where
  bytes : Bytes
  length_lt : bytes.length < maxSize

def StdString.length (content : StdString) : UInt64 := UInt64.ofNat content.bytes.length

def writeUint64ToFile (ofs : Bytes) (content : UInt64) : Bytes :=
  ofs ++ littleEndian 8 content.toNat

def writeStrToFile (ofs : Bytes) (content : StdString) : Bytes :=
  writeUint64ToFile ofs content.length ++ content.bytes

/-- One string after another, into a new file. -/
def writeStrs (contents : List StdString) : Bytes := contents.foldl writeStrToFile []

/-- How a read ends without a result: an assertion, the exception of `resize`, or the `exit` of
`checkFileState`. -/
inductive Stop where
  | assertion | lengthError | exit
  deriving DecidableEq, Repr

/-- A read takes its bytes off the front of what is left of the file. -/
abbrev IFStream (α : Type) := Bytes → Except Stop (α × Bytes)

/-- `read` and `checkFileState`. The count is signed: one of `2 ^ 63` or more is negative, and
the read fails. -/
def read (count : UInt64) : IFStream Bytes := fun ifs =>
  if count.toNat ≤ ifs.length ∧ count.toNat < 2 ^ 63 then
    .ok (ifs.take count.toNat, ifs.drop count.toNat)
  else .error .exit

def readUint64FromFile : IFStream UInt64 := fun ifs => do
  let (bytes, ifs) ← read 8 ifs
  return (UInt64.ofNat (ofLittleEndian bytes), ifs)

/-- The string that a `const char *` stands for ends before the first zero byte. -/
def ofCString (buffer : Bytes) : Bytes := buffer.takeWhile (· ≠ 0)

def readStrFromFile : IFStream Bytes := fun ifs => do
  let (size, ifs) ← readUint64FromFile ifs
  if size = 0 then .error .assertion
  -- the argument of `resize` wraps
  else if maxSize < (size + 1).toNat then .error .lengthError
  else
    let (buffer, ifs) ← read size ifs
    return (ofCString (buffer ++ [0]), ifs)

def readStrs : Nat → IFStream (List Bytes)
  | 0, ifs => return ([], ifs)
  | count + 1, ifs => do
    let (content, ifs) ← readStrFromFile ifs
    let (contents, ifs) ← readStrs count ifs
    return (content :: contents, ifs)

def recordOf (content : StdString) : Bytes :=
  littleEndian 8 content.bytes.length ++ content.bytes

theorem StdString.toNat_length (content : StdString) :
    content.length.toNat = content.bytes.length := by
  have hlt := content.length_lt
  rw [maxSize] at hlt
  rw [StdString.length, UInt64.toNat_ofNat']
  omega

theorem writeStrs_eq (contents : List StdString) :
    writeStrs contents = contents.flatMap recordOf := by
  have hf : ∀ ofs, contents.foldl writeStrToFile ofs = ofs ++ contents.flatMap recordOf := by
    induction contents with
    | nil => simp
    | cons content contents ih =>
      intro ofs
      simp [ih, writeStrToFile, writeUint64ToFile, recordOf, content.toNat_length]
  exact hf []

theorem read_append {count : UInt64} {bytes : Bytes} (rest : Bytes)
    (hc : bytes.length = count.toNat) (hlt : count.toNat < 2 ^ 63) :
    read count (bytes ++ rest) = .ok (bytes, rest) := by
  have hg : count.toNat ≤ (bytes ++ rest).length ∧ count.toNat < 2 ^ 63 := by
    rw [length_append]
    omega
  rw [read, if_pos hg, ← hc, take_left, drop_left]

theorem readUint64FromFile_append (content : StdString) (rest : Bytes) :
    readUint64FromFile (littleEndian 8 content.bytes.length ++ rest) =
      .ok (content.length, rest) := by
  have hr : read 8 (littleEndian 8 content.bytes.length ++ rest) =
      .ok (littleEndian 8 content.bytes.length, rest) :=
    read_append rest (length_littleEndian 8 _) (by decide)
  have hlt := content.length_lt
  rw [maxSize] at hlt
  have hv : content.bytes.length % 256 ^ 8 = content.bytes.length := by omega
  simp only [readUint64FromFile, hr, bind, Except.bind, pure, Except.pure,
    ofLittleEndian_littleEndian, hv, StdString.length]

theorem ofCString_append_zero (bytes : Bytes) :
    ofCString (bytes ++ [0]) = bytes.takeWhile (· ≠ 0) := by
  induction bytes with
  | nil => rfl
  | cons byte bytes ih =>
    simp only [ofCString] at ih
    simp only [ofCString, cons_append, takeWhile_cons, ih]

/-- A string without bytes stops the reader; any other comes back up to its first zero byte, and
the next one is read from its own beginning. -/
theorem readStrFromFile_append (content : StdString) (rest : Bytes) :
    readStrFromFile (recordOf content ++ rest) =
      if content.bytes = [] then .error .assertion
      else .ok (content.bytes.takeWhile (· ≠ 0), rest) := by
  have hn := content.toNat_length
  have hlt := content.length_lt
  rw [maxSize] at hlt
  have hz : content.length = 0 ↔ content.bytes = [] := by
    rw [← UInt64.toNat_inj, hn]
    exact length_eq_zero_iff
  have hr : ¬ maxSize < (content.length + 1).toNat := by
    rw [maxSize, UInt64.toNat_add, hn]
    simp only [UInt64.toNat_one]
    omega
  have hread := read_append rest hn.symm (by omega)
  rw [recordOf, append_assoc]
  simp only [readStrFromFile, readUint64FromFile_append, hz, bind, Except.bind, hr, hread,
    if_false, ofCString_append_zero]
  rfl

/-- The reads of a whole file. No string shifts those behind it. -/
theorem readStrs_flatMap (contents : List StdString) (rest : Bytes) :
    readStrs contents.length (contents.flatMap recordOf ++ rest) =
      if ∃ content ∈ contents, content.bytes = [] then .error .assertion
      else .ok (contents.map fun content => content.bytes.takeWhile (· ≠ 0), rest) := by
  induction contents with
  | nil => simp [readStrs, pure, Except.pure]
  | cons content contents ih =>
    rw [flatMap_cons, append_assoc, length_cons]
    simp only [readStrs, readStrFromFile_append, mem_cons, exists_eq_or_imp, bind, Except.bind]
    by_cases hn : content.bytes = []
    · simp only [hn, if_true, true_or]
    · simp only [hn, if_false, false_or, ih]
      by_cases he : ∃ content ∈ contents, content.bytes = []
      · simp only [if_pos he]
      · simp only [if_neg he]
        rfl

theorem takeWhile_ne_zero_eq_iff (bytes : Bytes) : bytes.takeWhile (· ≠ 0) = bytes ↔ 0 ∉ bytes := by
  rw [takeWhile_eq_self_iff]
  constructor
  · intro h hm
    simpa using h 0 hm
  · intro h byte hm
    exact decide_eq_true fun hz => h (hz ▸ hm)

/-- The strings that were written come back, and no assertion fails, exactly if none of them is
empty or has a zero byte. -/
theorem strings_come_back_iff (contents : List StdString) :
    readStrs contents.length (writeStrs contents) = .ok (contents.map StdString.bytes, []) ↔
      ∀ content ∈ contents, content.bytes ≠ [] ∧ 0 ∉ content.bytes := by
  have hr := readStrs_flatMap contents []
  rw [append_nil] at hr
  rw [writeStrs_eq, hr]
  split
  case isTrue he =>
    obtain ⟨content, hm, hn⟩ := he
    constructor
    · intro h
      cases h
    · intro h
      exact absurd hn (h content hm).1
  case isFalse he =>
    have hf : ∀ content ∈ contents, content.bytes ≠ [] :=
      fun content hm hn => he ⟨content, hm, hn⟩
    simp only [Except.ok.injEq, Prod.mk.injEq, and_true, map_inj_left, takeWhile_ne_zero_eq_iff]
    constructor
    · intro h content hm
      exact ⟨hf content hm, h content hm⟩
    · intro h content hm
      exact (h content hm).2

theorem length_empty_lt : ([] : Bytes).length < maxSize := by decide

theorem length_zeroInside_lt : ([97, 0, 98] : Bytes).length < maxSize := by decide

def emptyString : StdString := ⟨[], length_empty_lt⟩

/-- The letters `a` and `b`, and a zero byte between them. -/
def zeroInside : StdString := ⟨[97, 0, 98], length_zeroInside_lt⟩

/-- An empty string is written and cannot be read; one with a zero byte is cut off there. -/
theorem empty_and_zero_lost : readStrs 1 (writeStrs [emptyString]) = .error .assertion ∧
      readStrs 1 (writeStrs [zeroInside]) = .ok ([[97]], []) := by
  decide

end MySuperLedger.FileUtil
