import Mathlib.Data.List.TakeWhile

/-!
# Shakti.Lib.Scan

Scanning a sequence for a delimiter: what stands before its first occurrence and
after it (`cut`), the pieces between occurrences (`segments`), and the suffixes
that start right after one (`lineSuffixes`).

Scanners written with a running position and "search from here to the end" loops
are these functions: the position is the suffix still to be read.
-/

namespace Scan

variable {α : Type} [DecidableEq α]

/-- What stands before the first `sep`, and after it; `none` without a `sep`. -/
def cut (sep : α) : List α → Option (List α × List α)
  | [] => none
  | c :: cs => if c = sep then some ([], cs) else (cut sep cs).map (fun p => (c :: p.1, p.2))

/-- The pieces between occurrences of `sep`. A last piece without a terminating
`sep` counts when it is not empty. -/
def segments (sep : α) : List α → List (List α)
  | [] => []
  | c :: cs =>
      if c = sep then [] :: segments sep cs
      else
        match segments sep cs with
        | [] => [[c]]
        | l :: ls => (c :: l) :: ls

/-- The non-empty suffixes that start right after a `sep`. -/
def suffixesAfter (sep : α) : List α → List (List α)
  | [] => []
  | c :: cs =>
      if c = sep ∧ cs ≠ [] then cs :: suffixesAfter sep cs else suffixesAfter sep cs

/-- The non-empty suffixes at which a line starts, lines being ended by `sep`. -/
def lineSuffixes (sep : α) (s : List α) : List (List α) :=
  if s = [] then [] else s :: suffixesAfter sep s

/-- The position of the last `x`. -/
def lastIndex (x : α) (l : List α) : Option Nat :=
  match l.reverse.findIdx? (· = x) with
  | none => none
  | some i => some (l.length - 1 - i)

/-! ### Up to a separator -/

theorem takeWhile_ne_append {sep : α} {a : List α} (h : sep ∉ a) (b : List α) :
    (a ++ sep :: b).takeWhile (· != sep) = a := by
  rw [List.takeWhile_append_of_pos (fun x hx => by simpa using ne_of_mem_of_not_mem hx h)]
  simp

/-- What stands behind a separator does not reach in front of the first one. -/
theorem takeWhile_ne_append_cons (sep : α) (a b : List α) :
    (a ++ sep :: b).takeWhile (· != sep) = a.takeWhile (· != sep) := by
  induction a with
  | nil => simp
  | cons c a ih =>
      by_cases hc : c = sep
      · simp [hc]
      · simp [hc, ih]

theorem dropWhile_ne_append {sep : α} {a : List α} (h : sep ∉ a) (b : List α) :
    (a ++ sep :: b).dropWhile (· != sep) = sep :: b := by
  rw [List.dropWhile_append_of_pos (fun x hx => by simpa using ne_of_mem_of_not_mem hx h)]
  simp

omit [DecidableEq α] in
/-- A list with an `x` in it splits at the last one. -/
theorem exists_last {x : α} {l : List α} (h : x ∈ l) :
    ∃ pre post, l = pre ++ x :: post ∧ x ∉ post := by
  obtain ⟨rpost, rpre, hl, hpost⟩ := List.eq_append_cons_of_mem (List.mem_reverse.mpr h)
  refine ⟨rpre.reverse, rpost.reverse, ?_, by rwa [List.mem_reverse]⟩
  rw [← List.reverse_reverse l, hl]
  simp

end Scan
