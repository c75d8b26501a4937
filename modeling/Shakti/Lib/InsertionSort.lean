import Shakti.Lib.Memory

/-!
# Shakti.Lib.InsertionSort

Insertion sort in place: the next element moves left, swap by swap, past every element
that is not below it.

* `insertBack`, `sortBack` — the sort on lists; `sortBack_perm` and `sortBack_pairwise` say
  that it is one, for any total and transitive comparison.
* `sink`, `sortInPlace` — the loops over a vector, with every access checked as in `Memory`
  and a comparison that may itself fail. `sortInPlace_eq` says that they end, in bounds, with
  the list `sortBack` computes.
-/

namespace Memory

variable {α : Type}

/-! ### On lists -/

/-- Put `x` behind the last element of `s` that is below it. -/
def insertBack (le : α → α → Bool) (s : List α) (x : α) : List α :=
  let keep := (s.reverse.dropWhile (fun a => !le a x)).reverse
  keep ++ x :: s.drop keep.length

/-- Insert one element after the other. -/
def sortBack (le : α → α → Bool) (l : List α) : List α := l.foldl (insertBack le) []

section Lists

variable {le : α → α → Bool}

theorem insertBack_concat (s : List α) (a x : α) :
    insertBack le (s ++ [a]) x = if le a x then s ++ [a, x] else insertBack le s x ++ [a] := by
  cases h : le a x with
  | true => simp [insertBack, h]
  | false =>
      have hlen : (s.reverse.dropWhile (fun a => !le a x)).length ≤ s.length := by
        simpa using (List.dropWhile_suffix (l := s.reverse) (fun a => !le a x)).length_le
      simp [insertBack, h, List.drop_append_of_le_length hlen]

theorem insertBack_perm (s : List α) (x : α) : (insertBack le s x).Perm (x :: s) := by
  induction s using List.reverseRecOn with
  | nil => exact List.Perm.refl _
  | append_singleton s a ih =>
      rw [insertBack_concat]
      cases le a x with
      | true =>
          have hmove : (s ++ [a, x]).Perm (x :: (s ++ [a])) := by
            simpa using List.perm_append_singleton x (s ++ [a])
          exact hmove
      | false => exact ih.append_right [a]

theorem insertBack_pairwise (htotal : ∀ a b, le a b || le b a)
    (htrans : ∀ a b c, le a b → le b c → le a c) {s : List α}
    (hs : s.Pairwise (fun a b => le a b)) (x : α) :
    (insertBack le s x).Pairwise (fun a b => le a b) := by
  induction s using List.reverseRecOn with
  | nil => exact List.pairwise_singleton _ _
  | append_singleton s a ih =>
      obtain ⟨hs', -, hall⟩ := List.pairwise_append.mp hs
      have hbelow : ∀ b ∈ s, le b a := fun b hb => hall b hb a List.mem_cons_self
      rw [insertBack_concat]
      cases h : le a x with
      | true =>
          have hbelow' : ∀ b ∈ s ++ [a], le b x := by
            intro b hb
            rcases List.mem_append.mp hb with hb | hb
            · exact htrans b a x (hbelow b hb) h
            · exact List.mem_singleton.mp hb ▸ h
          have hconcat : s ++ [a, x] = (s ++ [a]) ++ [x] := by simp
          rw [if_pos rfl, hconcat]
          refine List.pairwise_append.mpr ⟨hs, List.pairwise_singleton _ _, ?_⟩
          intro b hb c hc
          obtain rfl := List.mem_singleton.mp hc
          exact hbelow' b hb
      | false =>
          have hax : le x a := by simpa [h] using htotal a x
          rw [if_neg (by simp)]
          refine List.pairwise_append.mpr ⟨ih hs', List.pairwise_singleton _ _, ?_⟩
          intro b hb c hc
          obtain rfl := List.mem_singleton.mp hc
          rcases List.mem_cons.mp ((insertBack_perm s x).mem_iff.mp hb) with rfl | hb
          · exact hax
          · exact hbelow b hb

theorem foldl_insertBack_perm (s l : List α) : (l.foldl (insertBack le) s).Perm (s ++ l) := by
  induction l generalizing s with
  | nil => simp
  | cons x l ih =>
      rw [List.foldl_cons]
      exact (ih _).trans (((insertBack_perm s x).append_right l).trans List.perm_middle.symm)

/-- Nothing is lost or repeated. -/
theorem sortBack_perm (l : List α) : (sortBack le l).Perm l := foldl_insertBack_perm [] l

theorem foldl_insertBack_pairwise (htotal : ∀ a b, le a b || le b a)
    (htrans : ∀ a b c, le a b → le b c → le a c) {s : List α}
    (hs : s.Pairwise (fun a b => le a b)) (l : List α) :
    (l.foldl (insertBack le) s).Pairwise (fun a b => le a b) := by
  induction l generalizing s with
  | nil => exact hs
  | cons x l ih => exact ih (insertBack_pairwise htotal htrans hs x)

/-- The result is in order. -/
theorem sortBack_pairwise (htotal : ∀ a b, le a b || le b a)
    (htrans : ∀ a b c, le a b → le b c → le a c) (l : List α) :
    (sortBack le l).Pairwise (fun a b => le a b) :=
  foldl_insertBack_pairwise htotal htrans List.Pairwise.nil l

/-- The order of the input does not matter. -/
theorem sortBack_eq_of_perm (htotal : ∀ a b, le a b || le b a)
    (htrans : ∀ a b c, le a b → le b c → le a c) (hantisymm : ∀ a b, le a b → le b a → a = b)
    {l l' : List α} (h : l.Perm l') : sortBack le l = sortBack le l' := by
  have hperm : (sortBack le l).Perm (sortBack le l') :=
    (sortBack_perm l).trans (h.trans (sortBack_perm l').symm)
  exact hperm.eq_of_pairwise (fun a b _ _ => hantisymm a b)
    (sortBack_pairwise htotal htrans l) (sortBack_pairwise htotal htrans l')

end Lists

/-! ### In place -/

/-- Write an element of a vector. -/
def setElem (v : List α) (i : Nat) (x : α) : Option (List α) :=
  if i < v.length then some (v.set i x) else none

/-- One turn of the inner loop: stop at an element that is not above, or swap with it. -/
def sinkTurn (le : α → α → Option Bool) :
    List α × Nat → Option (Turn (List α × Nat) (List α))
  | (v, j) =>
      if 0 < j then do
        let a ← v[j - 1]?
        let b ← v[j]?
        let stop ← le a b
        if stop then return .done v
        else do
          let v ← setElem v (j - 1) b
          let v ← setElem v j a
          return .next (v, j - 1)
      else return .done v

/-- Move the element at `i` to its place. -/
def sink (le : α → α → Option Bool) (fuel : Nat) (v : List α) (i : Nat) : Option (List α) :=
  run (sinkTurn le) fuel (v, i)

/-- One turn of the outer loop. -/
def sortTurn (le : α → α → Option Bool) (n fuel : Nat) :
    List α × Nat → Option (Turn (List α × Nat) (List α))
  | (v, i) =>
      if i < n then do
        let v ← sink le fuel v i
        return .next (v, i + 1)
      else return .done v

/-- Sort a vector in place, from its second element on. -/
def sortInPlace (le : α → α → Option Bool) (fuel : Nat) (v : List α) : Option (List α) :=
  run (sortTurn le v.length fuel) fuel (v, 1)

section InPlace

variable {le : α → α → Option Bool} {r : α → α → Bool}

/-- One turn, with `a` left of the element that moves. -/
theorem sinkTurn_eq (hle : ∀ a b, le a b = some (r a b)) (s : List α) (a x : α) (rest : List α) :
    sinkTurn le (s ++ a :: x :: rest, s.length + 1) =
      some (if r a x then .done (s ++ a :: x :: rest)
        else .next (s ++ x :: a :: rest, s.length)) := by
  cases h : r a x with
  | true => simp [sinkTurn, hle, h]
  | false => simp [sinkTurn, hle, h, setElem]

/-- The element behind `s` comes to its place in `s`. -/
theorem sink_eq (hle : ∀ a b, le a b = some (r a b)) {s : List α} {fuel : Nat}
    (hfuel : s.length < fuel) (x : α) (rest : List α) :
    sink le fuel (s ++ x :: rest) s.length = some (insertBack r s x ++ rest) := by
  refine run_eq (fun n st b => ∃ s rest, n = s.length ∧ st = (s ++ x :: rest, s.length) ∧
    b = insertBack r s x ++ rest) ?_ ⟨s, rest, rfl, rfl, rfl⟩ hfuel
  intro n st b h
  obtain ⟨s, rest, rfl, rfl, rfl⟩ := h
  rcases List.eq_nil_or_concat s with rfl | ⟨s, a, rfl⟩
  · exact Or.inl rfl
  · rw [List.concat_eq_append, insertBack_concat, List.append_assoc, List.singleton_append,
      List.length_append, List.length_singleton, sinkTurn_eq hle]
    cases h : r a x with
    | true =>
        left
        simp
    | false =>
        -- One swap, and the rest of the way is shorter.
        exact Or.inr ⟨s.length, (s ++ x :: a :: rest, s.length), by omega, rfl,
          s, a :: rest, rfl, rfl, by simp⟩

theorem length_insertBack (s : List α) (x : α) : (insertBack r s x).length = s.length + 1 := by
  rw [(insertBack_perm s x).length_eq, List.length_cons]

/-- The outer loop, with `s` behind it. -/
theorem run_sortTurn (hle : ∀ a b, le a b = some (r a b)) {n fuel fuel' : Nat} {s rest : List α}
    (hn : s.length + rest.length = n) (hfuel : n < fuel) (hfuel' : rest.length < fuel') :
    run (sortTurn le n fuel) fuel' (s ++ rest, s.length) =
      some (rest.foldl (insertBack r) s) := by
  refine run_eq (fun m st b => ∃ s rest, s.length + rest.length = n ∧ m = rest.length ∧
    st = (s ++ rest, s.length) ∧ b = rest.foldl (insertBack r) s) ?_
    ⟨s, rest, hn, rfl, rfl, rfl⟩ hfuel'
  intro m st b h
  obtain ⟨s, rest, hn, rfl, rfl, rfl⟩ := h
  cases rest with
  | nil =>
      rw [List.length_nil, Nat.add_zero] at hn
      exact Or.inl (by simp [sortTurn, hn])
  | cons x rest =>
      rw [List.length_cons] at hn
      have hsink := sink_eq hle (show s.length < fuel by omega) x rest
      refine Or.inr ⟨rest.length, (insertBack r s x ++ rest, s.length + 1), by simp, ?_,
        insertBack r s x, rest, ?_, rfl, ?_, rfl⟩
      · rw [sortTurn, if_pos (by omega), hsink]
        rfl
      · rw [length_insertBack]
        omega
      · rw [length_insertBack]

/-- **The sort in place** ends, stays in bounds and computes the sort on lists. -/
theorem sortInPlace_eq (hle : ∀ a b, le a b = some (r a b)) {v : List α} {fuel : Nat}
    (hfuel : v.length < fuel) : sortInPlace le fuel v = some (sortBack r v) := by
  cases v with
  | nil =>
      obtain ⟨k, rfl⟩ : ∃ k, fuel = k + 1 := ⟨fuel - 1, by simp at hfuel; omega⟩
      rfl
  | cons x v =>
      have hn : [x].length + v.length = (x :: v).length := by simp [Nat.add_comm]
      rw [List.length_cons] at hfuel
      exact run_sortTurn hle hn (by simpa using hfuel) (by omega)

end InPlace

end Memory
