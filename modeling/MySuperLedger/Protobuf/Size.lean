import Mathlib.Data.String.Lemmas

/-! # Sizes of proto3 messages

How many bytes a field of a message takes, as `ByteSizeLong` counts them: a field
that has its default value takes none, a number is written in groups of seven
bits, and bytes are preceded by their length. Field numbers are below 16, so that
every tag is one byte.
-/

namespace Protobuf

def varintSize (n : Nat) : Nat := n.log2 / 7 + 1

/-- The tag and the length in front of `length` bytes. -/
def lengthHeader (length : Nat) : Nat := 1 + varintSize length

def uint64Field (n : UInt64) : Nat := if n = 0 then 0 else 1 + varintSize n.toNat

def boolField (b : Bool) : Nat := if b then 2 else 0

/-- An empty string is not written at all. -/
def bytesHeader (length : Nat) : Nat := if length = 0 then 0 else lengthHeader length

def bytesField (length : Nat) : Nat := bytesHeader length + length

def stringField (s : String) : Nat := bytesField s.utf8ByteSize

/-- A sub-message that is present is written even if it is empty. -/
def messageField (length : Nat) : Nat := lengthHeader length + length

@[simp] theorem uint64Field_zero : uint64Field 0 = 0 := rfl

@[simp] theorem boolField_false : boolField false = 0 := rfl

@[simp] theorem stringField_empty : stringField "" = 0 := rfl

theorem le_messageField (length : Nat) : length ≤ messageField length := Nat.le_add_left ..

theorem utf8ByteSize_replicate {c : Char} (hc : c.utf8Size = 1) (n : Nat) :
    (String.ofList (List.replicate n c)).utf8ByteSize = n := by
  induction n with
  | zero => rfl
  | succ n ih =>
    rw [List.replicate_succ', String.ofList_append, String.utf8ByteSize_append, ih,
      ← String.singleton_eq_ofList, String.utf8ByteSize_singleton, hc]

end Protobuf
