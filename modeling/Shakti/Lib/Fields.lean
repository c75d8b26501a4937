import Mathlib.Data.List.Infix

/-!
# Shakti.Lib.Fields

**Fields between separators.** A record writes its fields one after the other with fixed
texts between them, and escapes nothing.

* `OnlyBetween sep a b` — the text `a ++ sep ++ b` has `sep` between `a` and `b` and
  nowhere else.
* `fields_unique_iff` — the fields of a record can be recovered exactly when each
  separator stands only between its two neighbours.
* `onlyBetween_iff` — a separator that does not overlap itself stands only between its
  neighbours when neither of them contains it.
-/

namespace Fields

variable {α : Type} {sep sep' a b c : List α}

/-- `sep` stands in `a ++ sep ++ b` only between `a` and `b`. -/
def OnlyBetween (sep a b : List α) : Prop :=
  ∀ a' b', a' ++ sep ++ b' = a ++ sep ++ b → a' = a

/-- No end of `sep` is a beginning of it, but the empty one and the whole. -/
def Borderless (sep : List α) : Prop :=
  ∀ n, 0 < n → n < sep.length → sep.take n ≠ sep.drop (sep.length - n)

theorem OnlyBetween.right_eq (h : OnlyBetween sep a b) {a' b' : List α}
    (heq : a' ++ sep ++ b' = a ++ sep ++ b) : b' = b := by
  obtain rfl := h a' b' heq
  exact List.append_cancel_left heq

/-- A second place for the first separator, further to the left, is one between the first
two fields. -/
theorem OnlyBetween.left_eq (h : OnlyBetween sep a b) {x a' rest rest' : List α}
    (ha : a = a' ++ x) (heq : sep ++ rest' = x ++ sep ++ b ++ rest) : x = [] := by
  have hlen : x.length + b.length ≤ rest'.length := by
    have := congrArg List.length heq
    simp only [List.length_append] at this
    omega
  have hcut : sep ++ rest'.take (x.length + b.length) = x ++ sep ++ b := by
    have htake := congrArg (List.take (sep.length + (x.length + b.length))) heq
    rw [List.take_append, List.take_of_length_le (by omega), Nat.add_sub_cancel_left] at htake
    rw [htake]
    refine List.take_left' ?_
    simp only [List.length_append]
    omega
  have hsame := h a' (rest'.take (x.length + b.length))
    (by rw [ha, List.append_assoc, hcut]; simp only [List.append_assoc])
  simpa [hsame] using ha

/-- **Recovering the fields.** A record of three fields has no other reading exactly when
each separator stands only between its neighbours. -/
theorem fields_unique_iff :
    (∀ a' b' c', a' ++ sep ++ b' ++ sep' ++ c' = a ++ sep ++ b ++ sep' ++ c →
      a' = a ∧ b' = b ∧ c' = c) ↔ OnlyBetween sep a b ∧ OnlyBetween sep' b c := by
  constructor
  · intro h
    constructor
    · intro a' b' heq
      exact (h a' b' c (by rw [heq])).1
    · intro b' c' heq
      refine (h a b' c' ?_).2.1
      simp only [List.append_assoc] at heq ⊢
      rw [heq]
  · rintro ⟨hab, hbc⟩ a' b' c' heq
    -- It is enough to find the first field.
    suffices ha : a' = a by
      subst ha
      have hrest : b' ++ sep' ++ c' = b ++ sep' ++ c := by
        simpa only [List.append_assoc, List.append_cancel_left_eq] using heq
      exact ⟨rfl, hbc b' c' hrest, hbc.right_eq hrest⟩
    simp only [List.append_assoc] at heq
    rcases List.append_eq_append_iff.mp heq with ⟨x, ha, hx⟩ | ⟨x, ha, hx⟩
    · -- The other reading puts the first separator further to the left.
      have hx : sep ++ (b' ++ (sep' ++ c')) = x ++ sep ++ b ++ (sep' ++ c) := by
        simpa only [List.append_assoc] using hx
      obtain rfl := hab.left_eq ha hx
      simpa using ha.symm
    · -- It puts it further to the right: then the second separator is where it was.
      have hdrop : (x ++ sep ++ b').drop sep.length ++ sep' ++ c' = b ++ sep' ++ c := by
        have htail := congrArg (List.drop sep.length) hx
        have hassoc : x ++ (sep ++ (b' ++ (sep' ++ c'))) = (x ++ sep ++ b') ++ (sep' ++ c') := by
          simp only [List.append_assoc]
        rw [List.drop_left, hassoc, List.drop_append_of_le_length (by simp; omega)] at htail
        rw [List.append_assoc, ← htail, List.append_assoc]
      have hc := hbc.right_eq hdrop
      have hcut : a' ++ sep ++ b' = a ++ sep ++ b := by
        rw [hc] at heq
        exact List.append_cancel_right (by simpa only [List.append_assoc] using heq)
      exact hab a' b' hcut

/-- Two places of a borderless text are one, or do not overlap. -/
theorem Borderless.shift (h : Borderless sep) {x y z : List α} (heq : sep ++ y = x ++ sep ++ z) :
    x = [] ∨ ∃ w, x = sep ++ w ∧ y = w ++ sep ++ z := by
  rw [List.append_assoc] at heq
  rcases List.append_eq_append_iff.mp heq with ⟨w, hx, hy⟩ | ⟨w, hsep, hw⟩
  · exact Or.inr ⟨w, hx, by rw [hy, List.append_assoc]⟩
  · by_contra hno
    rw [not_or] at hno
    have hxlen : 0 < x.length := List.length_pos_iff.mpr hno.1
    have hlen : sep.length = x.length + w.length := by rw [hsep, List.length_append]
    by_cases hwnil : w = []
    · refine hno.2 ⟨[], by simpa [hwnil] using hsep.symm, ?_⟩
      simpa [hwnil] using hw.symm
    · refine h w.length (List.length_pos_iff.mpr hwnil) (by omega) ?_
      have htake : sep.take w.length = w := by
        have := congrArg (List.take w.length) hw
        rwa [List.take_append_of_le_length (by omega), List.take_left] at this
      have hdrop : sep.drop (sep.length - w.length) = w := by
        rw [show sep.length - w.length = x.length by omega]
        nth_rewrite 1 [hsep]
        exact List.drop_left
      rw [htake, hdrop]

/-- A borderless separator stands only between fields that do not contain it. -/
theorem onlyBetween_iff (h : Borderless sep) (hne : sep ≠ []) :
    OnlyBetween sep a b ↔ ¬ sep <:+: a ∧ ¬ sep <:+: b := by
  have hpos : 0 < sep.length := List.length_pos_iff.mpr hne
  constructor
  · intro hob
    constructor
    · rintro ⟨p, q, rfl⟩
      have hlen := congrArg List.length (hob p (q ++ sep ++ b) (by simp only [List.append_assoc]))
      simp only [List.length_append] at hlen
      omega
    · rintro ⟨p, q, rfl⟩
      have hlen := congrArg List.length (hob (a ++ sep ++ p) q (by simp only [List.append_assoc]))
      simp only [List.length_append] at hlen
      omega
  · rintro ⟨ha, hb⟩ a' b' heq
    simp only [List.append_assoc] at heq
    rcases List.append_eq_append_iff.mp heq with ⟨x, hx, hrest⟩ | ⟨x, hx, hrest⟩
    · rcases h.shift (by rw [hrest, List.append_assoc]) with rfl | ⟨w, rfl, -⟩
      · simpa using hx.symm
      · exact absurd ⟨a', w, by rw [hx, List.append_assoc]⟩ ha
    · rcases h.shift (by rw [hrest, List.append_assoc]) with rfl | ⟨w, -, hw⟩
      · simpa using hx
      · exact absurd ⟨w, b', hw.symm⟩ hb

end Fields
