import Mathlib.Data.List.Induction
import Mathlib.Data.List.TakeWhile

/-!
# Shakti.Lib.Memory

Loops over memory in which every access is checked.

A program reads a region (a partial function from positions to values) and writes
blocks it has allocated, whose cells hold nothing until they are written. Everything
runs in `Option`: `none` stands for an access outside the region or the block, for a
read of an unwritten cell, and for a loop that has used up its turns. A result `some a`
therefore says that the program ends and stays in bounds.

* `run` repeats a checked turn; `run_eq` is its rule of total correctness.
* `Spans l pos stop x` says that `x` is what `l` holds from `pos` up to `stop`. A scan by
  positions is proved against the function on lists that it computes.
-/

namespace Memory

variable {α σ β : Type}

/-! ### Loops -/

/-- What one turn of a loop does: go on, or leave with a result. -/
inductive Turn (σ β : Type)
  | next (s : σ)
  | done (b : β)

/-- At most `fuel` turns of a loop. -/
def run (turn : σ → Option (Turn σ β)) : Nat → σ → Option β
  | 0, _ => none
  | fuel + 1, s =>
      match turn s with
      | none => none
      | some (.next s) => run turn fuel s
      | some (.done b) => some b

/-- Total correctness. `Expects n s b` says that from `s` the loop is to end with `b`
within `n` more turns; each turn either ends so or leaves such a state, with fewer turns
to go. -/
theorem run_eq {turn : σ → Option (Turn σ β)} (Expects : Nat → σ → β → Prop)
    (step : ∀ n s b, Expects n s b → turn s = some (.done b) ∨
      ∃ m s', m < n ∧ turn s = some (.next s') ∧ Expects m s' b)
    {n fuel : Nat} {s : σ} {b : β} (h : Expects n s b) (hfuel : n < fuel) :
    run turn fuel s = some b := by
  induction fuel generalizing n s with
  | zero => omega
  | succ fuel ih =>
      rw [run]
      rcases step n s b h with hdone | ⟨m, s', hlt, hnext, hs'⟩
      · rw [hdone]
      · rw [hnext]
        exact ih hs' (by omega)

/-! ### Spans -/

/-- `x` is what `l` holds from `pos` up to `stop`. -/
structure Spans (l : List α) (pos stop : Nat) (x : List α) : Prop where
  isPrefix : x <+: l.drop pos
  stop_eq : stop = pos + x.length

namespace Spans

variable {l x : List α} {pos stop : Nat} {c : α} {p : α → Bool}

theorem getElem? (h : Spans l pos stop x) {i : Nat} (hi : i < x.length) :
    l[pos + i]? = x[i]? := by
  rw [← List.getElem?_drop]
  obtain ⟨t, ht⟩ := h.isPrefix
  rw [← ht, List.getElem?_append_left hi]

theorem head (h : Spans l pos stop (c :: x)) : l[pos]? = some c := by
  simpa using h.getElem? (i := 0) (by simp)

theorem lt (h : Spans l pos stop (c :: x)) : pos < stop := by
  have := h.stop_eq
  rw [List.length_cons] at this
  omega

theorem not_lt (h : Spans l pos stop []) : ¬ pos < stop := by
  have := h.stop_eq
  rw [List.length_nil] at this
  omega

theorem drop (h : Spans l pos stop x) {k : Nat} (hk : k ≤ x.length) :
    Spans l (pos + k) stop (x.drop k) where
  isPrefix := by
    rw [← List.drop_drop]
    obtain ⟨t, ht⟩ := h.isPrefix
    rw [← ht, List.drop_append_of_le_length hk]
    exact List.prefix_append _ _
  stop_eq := by
    have := h.stop_eq
    rw [List.length_drop]
    omega

theorem tail (h : Spans l pos stop (c :: x)) : Spans l (pos + 1) stop x := by
  simpa using h.drop (k := 1) (by simp)

/-- A prefix of a span is a span. -/
theorem of_isPrefix (h : Spans l pos stop x) {y : List α} (hy : y <+: x) :
    Spans l pos (pos + y.length) y :=
  ⟨hy.trans h.isPrefix, rfl⟩

/-- What is left after a prefix of a span. -/
theorem of_append {a b : List α} (h : Spans l pos stop (a ++ b)) :
    Spans l (pos + a.length) stop b := by
  simpa using h.drop (k := a.length) (by simp)

/-- A suffix of a span is a span. -/
theorem of_suffix (h : Spans l pos stop x) {y : List α} (hy : y <:+ x) :
    ∃ p, Spans l p stop y := by
  obtain ⟨t, rfl⟩ := hy
  exact ⟨_, h.of_append⟩

theorem pos_unique {p : Nat} (h : Spans l pos stop x) (h' : Spans l p stop x) : pos = p := by
  have := h.stop_eq
  have := h'.stop_eq
  omega

/-- A shorter span with the same stop starts later. -/
theorem pos_lt {p : Nat} {y : List α} (h : Spans l pos stop x) (h' : Spans l p stop y)
    (hlen : y.length < x.length) : pos < p := by
  have := h.stop_eq
  have := h'.stop_eq
  omega

/-- A step that does not leave the span. -/
theorem step (h : Spans l pos stop x) :
    Spans l (if pos < stop then pos + 1 else pos) stop (x.drop 1) := by
  cases x with
  | nil => rwa [if_neg h.not_lt]
  | cons c x =>
      rw [if_pos h.lt]
      exact h.tail

theorem takeWhile (h : Spans l pos stop x) (p : α → Bool) :
    Spans l pos (pos + (x.takeWhile p).length) (x.takeWhile p) :=
  h.of_isPrefix (List.takeWhile_prefix p)

theorem dropWhile (h : Spans l pos stop x) (p : α → Bool) :
    Spans l (pos + (x.takeWhile p).length) stop (x.dropWhile p) := by
  rw [← List.takeWhile_append_dropWhile (p := p) (l := x)] at h
  exact h.of_append

end Spans

/-! ### Scans -/

/-- One turn of `while (pos < stop) { if (!keep(load(pos))) break; pos = pos + 1; }`. -/
def scanTurn (load : Nat → Option α) (keep : α → Bool) (stop pos : Nat) :
    Option (Turn Nat Nat) :=
  if pos < stop then do
    let c ← load pos
    if keep c then return .next (pos + 1) else return .done pos
  else return .done pos

/-- Move a position forward over what `keep` accepts. -/
def scan (load : Nat → Option α) (keep : α → Bool) (stop fuel pos : Nat) : Option Nat :=
  run (scanTurn load keep stop) fuel pos

theorem scan_eq {l x : List α} {pos stop fuel : Nat} (keep : α → Bool)
    (h : Spans l pos stop x) (hfuel : x.length < fuel) :
    scan (l[·]?) keep stop fuel pos = some (pos + (x.takeWhile keep).length) := by
  refine run_eq (fun n pos b =>
    ∃ x, x.length = n ∧ Spans l pos stop x ∧ b = pos + (x.takeWhile keep).length)
    ?_ ⟨x, rfl, h, rfl⟩ hfuel
  rintro n pos b ⟨x, rfl, h, rfl⟩
  cases x with
  | nil =>
      left
      simp [scanTurn, h.not_lt]
  | cons c x =>
      cases hc : keep c with
      | false =>
          left
          simp [scanTurn, h.lt, h.head, hc]
      | true =>
          refine Or.inr ⟨x.length, pos + 1, by simp, ?_, x, rfl, h.tail, ?_⟩
          · simp [scanTurn, h.lt, h.head, hc]
          · rw [List.takeWhile_cons_of_pos hc, List.length_cons]
            omega

/-- One turn of `while (stop > pos) { if (!keep(load(stop - 1))) break; stop = stop - 1; }`. -/
def scanBackTurn (load : Nat → Option α) (keep : α → Bool) (pos stop : Nat) :
    Option (Turn Nat Nat) :=
  if pos < stop then do
    let c ← load (stop - 1)
    if keep c then return .next (stop - 1) else return .done stop
  else return .done stop

/-- Move an end position backward over what `keep` accepts. -/
def scanBack (load : Nat → Option α) (keep : α → Bool) (pos fuel stop : Nat) : Option Nat :=
  run (scanBackTurn load keep pos) fuel stop

theorem scanBack_eq {l x : List α} {pos stop fuel : Nat} (keep : α → Bool)
    (h : Spans l pos stop x) (hfuel : x.length < fuel) :
    scanBack (l[·]?) keep pos fuel stop =
      some (pos + (x.reverse.dropWhile keep).length) := by
  refine run_eq (fun n stop b =>
    ∃ x, x.length = n ∧ Spans l pos stop x ∧ b = pos + (x.reverse.dropWhile keep).length)
    ?_ ⟨x, rfl, h, rfl⟩ hfuel
  rintro n stop b ⟨x, rfl, h, rfl⟩
  rcases List.eq_nil_or_concat x with rfl | ⟨x, c, rfl⟩
  · left
    simpa [scanBackTurn, h.not_lt] using h.stop_eq
  · rw [List.concat_eq_append] at h ⊢
    have hstop : stop = pos + x.length + 1 := by
      simpa [Nat.add_assoc] using h.stop_eq
    have hload : l[stop - 1]? = some c := by
      rw [show stop - 1 = pos + x.length by omega, h.getElem? (by simp)]
      simp
    have hlt : pos < stop := by omega
    cases hc : keep c with
    | false =>
        left
        have hleave : scanBackTurn (l[·]?) keep pos stop = some (.done stop) := by
          simp [scanBackTurn, hlt, hload, hc]
        rw [hleave, hstop]
        simp [hc, Nat.add_assoc]
    | true =>
        refine Or.inr ⟨x.length, stop - 1, by simp, by simp [scanBackTurn, hlt, hload, hc],
          x, rfl, ?_, by simp [hc]⟩
        simpa [hstop] using h.of_isPrefix (List.prefix_append x [c])

/-! ### Blocks -/

/-- A block of allocated cells; `none` is a cell not written yet. -/
abbrev Block (α : Type) := List (Option α)

/-- A fresh block. -/
def alloc (n : Nat) : Block α := List.replicate n none

/-- Write one cell of a block. -/
def store (b : Block α) (i : Nat) (c : α) : Option (Block α) :=
  if i < b.length then some (b.set i (some c)) else none

/-- Copy `n` cells of a region, from `src` on, to the start of a block. -/
def copy (load : Nat → Option α) (src : Nat) : Nat → Block α → Option (Block α)
  | 0, b => some b
  | n + 1, b => do
      let b ← copy load src n b
      let c ← load (src + n)
      store b n c

theorem store_append (b : Block α) (d : Option α) (b' : Block α) (c : α) :
    store (b ++ d :: b') b.length c = some (b ++ some c :: b') := by
  simp [store]

theorem copy_eq {l x : List α} {src stop : Nat} (h : Spans l src stop x) {b : Block α}
    (hb : x.length ≤ b.length) :
    copy (l[·]?) src x.length b = some (x.map some ++ b.drop x.length) := by
  induction x using List.reverseRecOn generalizing stop with
  | nil => simp [copy]
  | append_singleton x c ih =>
      have hload : l[src + x.length]? = some c := by
        rw [h.getElem? (by simp)]
        simp
      rw [List.length_append, List.length_singleton] at hb ⊢
      have hcopied := ih (h.of_isPrefix (List.prefix_append x [c])) (by omega)
      have hcell : b.drop x.length = b[x.length] :: b.drop (x.length + 1) :=
        List.drop_eq_getElem_cons (by omega)
      simp only [copy, hcopied, hload, Option.bind_eq_bind, Option.bind_some, hcell]
      have hstore := store_append (x.map some) b[x.length] (b.drop (x.length + 1)) c
      rw [List.length_map] at hstore
      rw [hstore]
      simp

/-- A copy with room for one more cell, which is then written. -/
theorem copy_store {l x : List α} {src stop : Nat} (h : Spans l src stop x) (c : α) :
    (do let b ← copy (l[·]?) src x.length (alloc (x.length + 1)); store b x.length c) =
      some (x.map some ++ [some c]) := by
  have hcopy := copy_eq h (b := alloc (x.length + 1)) (by simp [alloc])
  rw [hcopy]
  simp [store, alloc]

end Memory
