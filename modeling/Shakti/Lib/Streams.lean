import Shakti.Lib.Prog

/-!
# Shakti.Lib.Streams

**What a program passes on.** The events of a run bring items in at one place (`src`) and put
items out at another (`dst`); each of the two is a function from events to lists of items.

* `Sent dst fails tr text` — what the run put out is, in order, part of `text`, and all of it where
  no event failed.
* `Owes src dst fails debt p` — in every complete run of `p`, what is put out is the debt `p`
  started with and then what came in. A program without a debt copies.

A debt is made by an event that brings something in (`Owes.call`) and paid by the first part of a
sequence (`Owes.bind`); a part that passes nothing on leaves it to the next (`Owes.later`). So a
loop that reads a piece and writes it out is a copy, whichever of its writes fail.
-/

namespace Effects

namespace Prog

variable {S : Sig} {α β γ : Type} {src dst : Event S → List γ} {fails : Event S → Prop}

/-- What the run put out, in order, against what it should have. -/
structure Sent (dst : Event S → List γ) (fails : Event S → Prop) (tr : List (Event S))
    (text : List γ) : Prop where
  inOrder : List.Sublist (tr.flatMap dst) text
  whole : (∀ e ∈ tr, ¬ fails e) → tr.flatMap dst = text

theorem Sent.append {tr tr' : List (Event S)} {text text' : List γ} (h : Sent dst fails tr text)
    (h' : Sent dst fails tr' text') : Sent dst fails (tr ++ tr') (text ++ text') where
  inOrder := by
    rw [List.flatMap_append]
    exact h.inOrder.append h'.inOrder
  whole hall := by
    rw [List.forall_mem_append] at hall
    rw [List.flatMap_append, h.whole hall.1, h'.whole hall.2]

/-- One event. -/
theorem Sent.event (e : Event S) : Sent dst fails [e] (dst e) :=
  ⟨by simp, by simp⟩

/-- A run that puts nothing out has nothing to put out. -/
theorem Sent.nil {tr : List (Event S)} (h : tr.flatMap dst = []) : Sent dst fails tr [] :=
  ⟨by rw [h], fun _ => h⟩

/-- What is put out by a run that neither brings in nor puts out is what it was before. -/
theorem flatMap_eq_nil_of_avoids {P : S.Call → Prop} {p : Prog S α} {tr : List (Event S)} {a : α}
    (hp : Avoids P p) (hnil : ∀ e, ¬ P e.call → dst e = []) (h : Returns p tr a) :
    tr.flatMap dst = [] :=
  List.flatMap_eq_nil_iff.mpr fun e he => hnil e (hp.returns h e he)

/-- The program puts out its debt, and then what came in. -/
def Owes (src dst : Event S → List γ) (fails : Event S → Prop) (debt : List γ) (p : Prog S α) :
    Prop :=
  ∀ tr a, Returns p tr a → Sent dst fails tr (debt ++ tr.flatMap src)

namespace Owes

variable {debt : List γ}

theorem pure (a : α) : Owes src dst fails [] (Pure.pure a : Prog S α) := by
  intro tr b h
  obtain ⟨rfl, -⟩ := returns_pure_iff.mp h
  exact Sent.nil rfl

/-- The first part pays the debt. -/
theorem bind {p : Prog S α} {f : α → Prog S β} (hp : Owes src dst fails debt p)
    (hf : ∀ a, Owes src dst fails [] (f a)) : Owes src dst fails debt (p >>= f) := by
  intro tr b h
  obtain ⟨t₁, t₂, a, rfl, h₁, h₂⟩ := returns_bind_iff.mp h
  rw [List.flatMap_append, ← List.append_assoc]
  exact (hp t₁ a h₁).append (hf a t₂ b h₂)

/-- A program that brings nothing in and puts nothing out. -/
theorem of_avoids {P : S.Call → Prop} {p : Prog S α} (hp : Avoids P p)
    (hnil : ∀ e, ¬ P e.call → src e = [] ∧ dst e = []) : Owes src dst fails [] p := by
  intro tr a h
  rw [flatMap_eq_nil_of_avoids hp (fun e he => (hnil e he).1) h]
  exact Sent.nil (flatMap_eq_nil_of_avoids hp (fun e he => (hnil e he).2) h)

/-- It leaves the debt to what follows. -/
theorem later {P : S.Call → Prop} {p : Prog S α} {f : α → Prog S β} (hp : Avoids P p)
    (hnil : ∀ e, ¬ P e.call → src e = [] ∧ dst e = [])
    (hf : ∀ a, Owes src dst fails debt (f a)) : Owes src dst fails debt (p >>= f) := by
  intro tr b h
  obtain ⟨t₁, t₂, a, rfl, h₁, h₂⟩ := returns_bind_iff.mp h
  rw [List.flatMap_append, flatMap_eq_nil_of_avoids hp (fun e he => (hnil e he).1) h₁]
  have hnone : Sent dst fails t₁ [] :=
    Sent.nil (flatMap_eq_nil_of_avoids hp (fun e he => (hnil e he).2) h₁)
  exact hnone.append (hf a t₂ b h₂)

/-- What an event brings in is owed. -/
theorem call {c : S.Call} {k : S.Answer c → Prog S α} (hout : ∀ r, dst ⟨c, r⟩ = [])
    (hk : ∀ r, Owes src dst fails (debt ++ src ⟨c, r⟩) (k r)) :
    Owes src dst fails debt (.call c k) := by
  intro tr a h
  obtain ⟨r, tr', rfl, hrest⟩ := returns_call_iff.mp h
  rw [List.flatMap_cons, ← List.append_assoc]
  obtain ⟨hsub, hall⟩ := hk r tr' a hrest
  refine ⟨?_, fun hfail => ?_⟩
  · rw [List.flatMap_cons, hout]
    exact hsub
  · rw [List.flatMap_cons, hout]
    exact hall (List.forall_mem_cons.mp hfail).2

theorem ite {b : Prop} [Decidable b] {p q : Prog S α} (hp : b → Owes src dst fails debt p)
    (hq : ¬ b → Owes src dst fails debt q) : Owes src dst fails debt (if b then p else q) := by
  split
  · exact hp ‹_›
  · exact hq ‹_›

end Owes

end Prog

end Effects
