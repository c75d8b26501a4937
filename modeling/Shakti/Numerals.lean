import Mathlib.Data.Nat.Digits.Defs
import Shakti.PasswdLookups
import Shakti.Policy.Bounds

/-!
# Shakti.Numerals

The two numeral parsers, `_shk_parse_int` and `_identity_parse_uint`, on machine integers.

* `I64.Arith` — what becomes of the result of an operation. Under `I64.wrapping` the results are
  those of the machine; under `I64.withinMax` a result outside `0 ≤ x ≤ 4294967295` ends the run
  without a value, so that a run with a value has no such result.
* `I64.shkParseInt`, `I64.identityParseUint` — the parsers under any such reading.
  `I64.run_digitTurn` says that they do not depend on it (`I64.Exact`).
* `numeral` — what both are to return, from the value of the digits.
-/

namespace Shakti

open Memory

/-! ### The parsers -/

namespace I64

/-- What becomes of the result of an operation. -/
abbrev Arith := Int → Option Int

/-- Results of 64 bits. -/
def wrapping : Arith := fun x => some (x.bmod (2 ^ 64))

/-- No result may be negative or exceed `4294967295`. -/
def withinMax : Arith := fun x => if 0 ≤ x ∧ x ≤ 4294967295 then some x else none

/-- One turn of the loops of `_shk_parse_int` and `_identity_parse_uint`, at position `i` with
the value `v` so far. The former tests for a digit in two steps, the latter in one. -/
def digitTurn (arith : Arith) (load : Nat → Option UInt8) (stop : Nat) :
    Nat × Int → Option (Turn (Nat × Int) Int)
  | (i, v) =>
      if i < stop then do
        let c := ((← load i).toNat : Int)
        if c < 48 then return .done (-1)
        else if 57 < c then return .done (-1)
        else do
          let digit ← arith (c - 48)
          let room ← arith (4294967295 - digit)
          let most ← arith (room.tdiv 10)
          if most < v then return .done (-1)
          else do
            let tens ← arith (v * 10)
            let v ← arith (tens + digit)
            return .next (i + 1, v)
      else return .done v

/-- `_shk_parse_int`. -/
def shkParseInt (arith : Arith) (fuel : Nat) (s : CStr) : Option Int := do
  let n ← Checked.strlen fuel s
  if n = 0 then return -1
  else run (digitTurn arith (Checked.chars s) n) fuel (0, 0)

/-- `_identity_parse_uint`. -/
def identityParseUint (arith : Arith) (fuel : Nat) (load : Nat → Option UInt8) (start stop : Nat) :
    Option Int :=
  run (digitTurn arith load stop) fuel (start, 0)

end I64

/-! ### Their specification -/

/-- The number decimal digits denote. -/
def decimalValue (ds : Bytes) : Nat := Nat.ofDigits 10 (ds.reverse.map fun c => c.toNat - 48)

/-- Digits only, and at least one. -/
def AllDigits (ds : Bytes) : Prop := ds ≠ [] ∧ ∀ c ∈ ds, 48 ≤ c ∧ c ≤ 57

instance (ds : Bytes) : Decidable (AllDigits ds) :=
  have : Decidable (∀ c ∈ ds, 48 ≤ c ∧ c ≤ 57) := List.decidableBAll _ ds
  inferInstanceAs (Decidable (_ ∧ _))

/-- The value of a numeral that does not exceed `4294967295`, and `-1` for any other text. -/
def numeral (ds : Bytes) : Int :=
  if AllDigits ds ∧ decimalValue ds ≤ 4294967295 then decimalValue ds else -1

/-- Digits read from the front. -/
theorem foldl_digits (ds : Bytes) :
    ds.foldl (fun v c => v * 10 + (c.toNat - 48)) 0 = decimalValue ds := by
  induction ds using List.reverseRecOn with
  | nil => rfl
  | append_singleton ds c ih =>
      rw [List.foldl_append, ih, decimalValue, decimalValue, List.reverse_append,
        List.reverse_singleton, List.singleton_append, List.map_cons, Nat.ofDigits_cons,
        List.foldl_cons, List.foldl_nil]
      omega

/-- The `-1` that stands for no number. -/
def orMinusOne : Option Nat → Int
  | some n => n
  | none => -1

theorem orMinusOne_identityParseUint {ds : Bytes} (hds : ds ≠ []) :
    orMinusOne (identityParseUint ds) = numeral ds := by
  have hiff : ∀ n, identityParseUint ds = some n ↔
      (AllDigits ds ∧ decimalValue ds ≤ 4294967295) ∧ decimalValue ds = n := by
    intro n
    rw [identityParseUint_eq_some_iff, Decimal, foldl_digits]
    constructor
    · intro h
      rcases h with ⟨hempty, -⟩ | ⟨⟨-, hdigits, hval⟩, hmax⟩
      · exact absurd hempty hds
      · exact ⟨⟨⟨hds, hdigits⟩, by omega⟩, hval⟩
    · intro h
      obtain ⟨⟨⟨-, hdigits⟩, hmax⟩, hval⟩ := h
      exact Or.inr ⟨⟨hds, hdigits, hval⟩, by omega⟩
  rw [numeral]
  cases hparse : identityParseUint ds with
  | some n =>
      obtain ⟨hok, hval⟩ := (hiff n).mp hparse
      rw [if_pos hok, hval]
      rfl
  | none =>
      have hno : ¬ (AllDigits ds ∧ decimalValue ds ≤ 4294967295) := by
        intro hok
        have := (hiff (decimalValue ds)).mpr ⟨hok, rfl⟩
        rw [hparse] at this
        cases this
      rw [if_neg hno]
      rfl

/-- Both loops do the same. -/
theorem shkParseIntLoop_eq (ds : Bytes) (v : Nat) :
    shkParseIntLoop ds v = identityParseUintLoop ds v := by
  induction ds generalizing v with
  | nil => rfl
  | cons c ds ih =>
      rw [shkParseIntLoop, identityParseUintLoop]
      by_cases hlo : c < 48
      · rw [if_pos hlo, if_pos (Or.inl hlo)]
      · by_cases hhi : 57 < c
        · rw [if_neg hlo, if_pos hhi, if_pos (Or.inr hhi)]
        · rw [if_neg hlo, if_neg hhi, if_neg (not_or.mpr ⟨hlo, hhi⟩)]
          simp only [ih]

theorem orMinusOne_shkParseInt (s : CStr) : orMinusOne (shkParseInt s) = numeral s.bytes := by
  rw [shkParseInt, CStr.length]
  by_cases hempty : s.bytes = []
  · rw [if_pos (List.length_eq_zero_iff.mpr hempty), numeral, if_neg (fun h => h.1.1 hempty)]
    rfl
  · rw [if_neg (mt List.length_eq_zero_iff.mp hempty), shkParseIntLoop_eq]
    exact orMinusOne_identityParseUint hempty

namespace I64

/-! ### No result leaves the range -/

/-- Results up to `4294967295` are kept as they are. -/
def Exact (arith : Arith) : Prop := ∀ x : Int, 0 ≤ x → x ≤ 4294967295 → arith x = some x

theorem exact_wrapping : Exact wrapping := by
  intro x h0 hmax
  rw [wrapping, Int.bmod_eq_of_le (by omega) (by omega)]

theorem exact_withinMax : Exact withinMax := fun _ h0 hmax => if_pos ⟨h0, hmax⟩

/-- The guard is exact: it rejects a digit if and only if the value exceeds the maximum with it. -/
theorem guard_iff {v d : Int} (h0 : 0 ≤ d) (hd : d ≤ 9) :
    (4294967295 - d).tdiv 10 < v ↔ 4294967295 < v * 10 + d := by
  rw [Int.tdiv_eq_ediv_of_nonneg (by omega)]
  omega

/-- One turn from a value in range: no result of the turn leaves the range. -/
theorem digitTurn_eq {arith : Arith} (harith : Exact arith) {load : Nat → Option UInt8}
    {stop i v : Nat} {c : UInt8} (hi : i < stop) (hload : load i = some c) (hv : v ≤ 4294967295) :
    digitTurn arith load stop (i, (v : Int)) = some (
      if c < 48 ∨ 57 < c then .done (-1)
      else if (4294967295 - (c.toNat - 48)) / 10 < v then .done (-1)
      else .next (i + 1, ((v * 10 + (c.toNat - 48) : Nat) : Int))) := by
  have hlo : ((c.toNat : Int) < 48) ↔ c < 48 := by
    rw [UInt8.lt_iff_toNat_lt]
    exact Int.ofNat_lt
  have hhi : (57 < (c.toNat : Int)) ↔ 57 < c := by
    rw [UInt8.lt_iff_toNat_lt]
    exact Int.ofNat_lt
  simp only [digitTurn, if_pos hi, hload, Option.bind_eq_bind, Option.bind_some, hlo, hhi]
  by_cases hclo : c < 48
  · rw [if_pos hclo, if_pos (Or.inl hclo)]
    rfl
  by_cases hchi : 57 < c
  · rw [if_neg hclo, if_pos hchi, if_pos (Or.inr hchi)]
    rfl
  rw [if_neg hclo, if_neg hchi, if_neg (not_or.mpr ⟨hclo, hchi⟩)]
  rw [← hlo] at hclo
  rw [← hhi] at hchi
  obtain ⟨d, hd⟩ : ∃ d : Nat, c.toNat = d + 48 := ⟨c.toNat - 48, by omega⟩
  have hdigit : (c.toNat : Int) - 48 = d := by omega
  have hnat : c.toNat - 48 = d := by omega
  have hmost := @guard_iff v d (by omega) (by omega)
  have hdiv : (4294967295 - (d : Int)).tdiv 10 = (4294967295 - d) / 10 :=
    Int.tdiv_eq_ediv_of_nonneg (by omega)
  rw [hdigit, hnat, harith d (by omega) (by omega), Option.bind_some,
    harith (4294967295 - d) (by omega) (by omega), Option.bind_some,
    harith ((4294967295 - (d : Int)).tdiv 10) (by omega) (by omega), Option.bind_some]
  by_cases hover : (4294967295 - d) / 10 < v
  · rw [if_pos hover, if_pos (by omega)]
    rfl
  · -- The guard has let the digit pass, so the sum is in range, and so is the product.
    rw [if_neg hover, if_neg (by omega), harith (v * 10) (by omega) (by omega), Option.bind_some,
      harith (v * 10 + d) (by omega) (by omega)]
    rfl

/-- From a value in range the rest of the digits is read as by the loop on lists. -/
theorem run_digitTurn {arith : Arith} (harith : Exact arith) {l x : Bytes} {pos stop fuel v : Nat}
    (h : Spans l pos stop x) (hv : v ≤ 4294967295) (hfuel : x.length < fuel) :
    run (digitTurn arith (l[·]?) stop) fuel (pos, (v : Int)) =
      some (orMinusOne (identityParseUintLoop x v)) := by
  refine run_eq (fun n (st : Nat × Int) b => ∃ (x : Bytes) (v : Nat), x.length = n ∧
      Spans l st.1 stop x ∧ st.2 = v ∧ v ≤ 4294967295 ∧ b = orMinusOne (identityParseUintLoop x v))
    ?_ ⟨x, v, rfl, h, rfl, hv, rfl⟩ hfuel
  -- Every turn takes one digit, from a value in range to a value in range.
  intro n st b hexpect
  obtain ⟨i, w⟩ := st
  obtain ⟨x, v, rfl, h, hw, hv, rfl⟩ := hexpect
  dsimp only at h hw
  subst hw
  cases x with
  | nil =>
      left
      rw [digitTurn, if_neg h.not_lt]
      rfl
  | cons c x =>
      rw [digitTurn_eq harith h.lt h.head hv, identityParseUintLoop]
      by_cases hc : c < 48 ∨ 57 < c
      · rw [if_pos hc, if_pos hc]
        exact Or.inl rfl
      · rw [if_neg hc, if_neg hc]
        dsimp only
        by_cases hover : (4294967295 - (c.toNat - 48)) / 10 < v
        · rw [if_pos hover, if_pos hover]
          exact Or.inl rfl
        · rw [if_neg hover, if_neg hover]
          have hdigit : c.toNat ≤ 57 := UInt8.le_iff_toNat_le.mp (UInt8.not_lt.mp (not_or.mp hc).2)
          exact Or.inr ⟨x.length, _, Nat.lt_succ_self _, rfl, x, _, rfl, h.tail, rfl, by omega, rfl⟩

theorem shkParseInt_eq {arith : Arith} (harith : Exact arith) {s : CStr} {fuel : Nat}
    (hfuel : s.length < fuel) :
    shkParseInt arith fuel s = some (orMinusOne (Shakti.shkParseInt s)) := by
  rw [shkParseInt, Checked.strlen_eq hfuel, Shakti.shkParseInt, Option.bind_eq_bind,
    Option.bind_some]
  by_cases hempty : s.length = 0
  · rw [if_pos hempty, if_pos hempty]
    rfl
  · rw [if_neg hempty, if_neg hempty, shkParseIntLoop_eq]
    exact run_digitTurn harith (Checked.rest_zero s) (Nat.zero_le _) hfuel

theorem identityParseUint_eq {arith : Arith} (harith : Exact arith) {buf x : Bytes}
    {start stop fuel : Nat} (h : Spans buf start stop x) (hfuel : x.length < fuel) :
    identityParseUint arith fuel (buf[·]?) start stop =
      some (orMinusOne (Shakti.identityParseUint x)) :=
  run_digitTurn harith h (Nat.zero_le _) hfuel

end I64

/-- **The parsers agree and never wrap.** Whether results wrap around or must not exceed the
maximum, both return the value of a numeral that is in range, and `-1` for any other text. -/
theorem parsers_exact (s : CStr) {fuel : Nat} (hfuel : s.length < fuel) :
    (∀ arith ∈ [I64.wrapping, I64.withinMax],
      I64.shkParseInt arith fuel s = some (numeral s.bytes) ∧
      (s.bytes ≠ [] → ∀ (buf : Bytes) (start stop : Nat), Spans buf start stop s.bytes →
        I64.identityParseUint arith fuel (buf[·]?) start stop = some (numeral s.bytes))) ∧
    ∀ v d : Int, 0 ≤ d → d ≤ 9 → ((4294967295 - d).tdiv 10 < v ↔ 4294967295 < v * 10 + d) := by
  refine ⟨fun arith hmem => ?_, fun v d h0 hd => I64.guard_iff h0 hd⟩
  have harith : I64.Exact arith := by
    rcases List.mem_pair.mp hmem with rfl | rfl
    · exact I64.exact_wrapping
    · exact I64.exact_withinMax
  refine ⟨?_, fun hne buf start stop h => ?_⟩
  · rw [I64.shkParseInt_eq harith hfuel, orMinusOne_shkParseInt]
  · rw [I64.identityParseUint_eq harith h hfuel, orMinusOne_identityParseUint hne]

/-- The largest number there is, with zeros in front. -/
theorem parsers_exact_max :
    I64.shkParseInt I64.wrapping 13 (cstr "004294967295") = some 4294967295 := by
  have h := (@parsers_exact (cstr "004294967295") 13 (by decide)).1 I64.wrapping (by simp)
  rw [h.1]
  decide

end Shakti
