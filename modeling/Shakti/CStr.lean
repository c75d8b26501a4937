import Mathlib.Data.List.TakeWhile

/-!
# Shakti.CStr

Bytes and C strings.

The sources handle text as memory addresses and read it byte by byte until the
terminating NUL. `CStr` is the value such an address stands for: the bytes before
the NUL. That it contains no NUL itself is a field, so `strlen`, `streq` and
`memcpy` on it need no side conditions.
-/

namespace Shakti

/-- A run of raw bytes: a file's content, or part of a read buffer. -/
abbrev Bytes := List UInt8

/-- The bytes of a string literal of the source. -/
def utf8 (s : String) : Bytes := s.toUTF8.data.toList

/-- A NUL-terminated string, without its terminator. -/
structure CStr where
  bytes : Bytes
  /-- The first NUL ends the string. -/
  noNul : (0 : UInt8) ∉ bytes
  deriving DecidableEq

namespace CStr

@[ext] theorem ext {a b : CStr} (h : a.bytes = b.bytes) : a = b := by
  cases a
  cases b
  cases h
  rfl

/-- What is read at an address holding `b` and then a NUL: everything up to the
first NUL. -/
def read (b : Bytes) : CStr where
  bytes := b.takeWhile (· != 0)
  noNul h := by simpa using List.mem_takeWhile_imp h

/-- `strlen`. -/
def length (s : CStr) : Nat := s.bytes.length

/-- `load8(s + i)`: a byte of the string, or its terminator. -/
def load8 (s : CStr) (i : Nat) : UInt8 := s.bytes.getD i 0

/-- Concatenation, as the string builder does it. -/
def append (a b : CStr) : CStr where
  bytes := a.bytes ++ b.bytes
  noNul h := (List.mem_append.mp h).elim a.noNul b.noNul

instance : Append CStr := ⟨append⟩

@[simp] theorem append_bytes (a b : CStr) : (a ++ b).bytes = a.bytes ++ b.bytes := rfl

/-- Bytes without a NUL are read back whole. -/
theorem read_of_noNul {b : Bytes} (h : (0 : UInt8) ∉ b) : (read b).bytes = b := by
  refine List.takeWhile_eq_self_iff.mpr (fun x hx => ?_)
  simp only [bne_iff_ne, ne_eq]
  rintro rfl
  exact h hx

@[simp] theorem read_bytes_self (s : CStr) : read s.bytes = s :=
  CStr.ext (read_of_noNul s.noNul)

/-- Part of a C string is a C string. -/
theorem read_of_subset {b : Bytes} {s : CStr} (h : b ⊆ s.bytes) : (read b).bytes = b :=
  read_of_noNul (fun h0 => s.noNul (h h0))

end CStr

/-- A string literal of the source, as the C string it denotes. -/
def cstr (s : String) : CStr := CStr.read (utf8 s)

instance : Inhabited CStr := ⟨cstr ""⟩

end Shakti
