import Mathlib.Data.List.Induction

/-!
# Shakti.Lib.Writes

Records filled by a sequence of key-value writes.

A configuration reader keeps a record and applies one `key = value` line after the
other. Each field listens to one key (`Field`): after the whole sequence it holds
what the values of that key, in their order, made of it (`Field.fill`), and nothing
else in the sequence matters to it.
-/

namespace Writes

variable {κ ν σ β : Type} [DecidableEq κ]

/-- The values written to a key, in order. -/
def valuesOf (key : κ) : List (κ × ν) → List ν
  | [] => []
  | kv :: kvs => if kv.1 = key then kv.2 :: valuesOf key kvs else valuesOf key kvs

/-- The value of the last write to a key. -/
def lastValue (key : κ) (kvs : List (κ × ν)) : Option ν := (valuesOf key kvs).getLast?

/-- A record after a sequence of writes. -/
def fill (set : σ → κ → ν → σ) (s : σ) (kvs : List (κ × ν)) : σ :=
  kvs.foldl (fun s kv => set s kv.1 kv.2) s

/-- A key that is not written has none. -/
theorem valuesOf_of_not_mem {key : κ} {kvs : List (κ × ν)} (h : key ∉ kvs.map Prod.fst) :
    valuesOf key kvs = [] := by
  induction kvs with
  | nil => rfl
  | cons kv kvs ih =>
      rw [List.map_cons, List.mem_cons, not_or] at h
      rw [valuesOf, if_neg (Ne.symm h.1), ih h.2]

/-- A key written once has one value. -/
theorem valuesOf_of_mem {key : κ} {v : ν} {kvs : List (κ × ν)} (hnodup : (kvs.map Prod.fst).Nodup)
    (h : (key, v) ∈ kvs) : valuesOf key kvs = [v] := by
  induction kvs with
  | nil => simp at h
  | cons kv kvs ih =>
      rw [List.map_cons, List.nodup_cons] at hnodup
      rcases List.mem_cons.mp h with rfl | hlater
      · rw [valuesOf, if_pos rfl, valuesOf_of_not_mem hnodup.1]
      · have hne : kv.1 ≠ key := by
          intro heq
          exact hnodup.1 (heq ▸ List.mem_map_of_mem hlater)
        rw [valuesOf, if_neg hne, ih hnodup.2 hlater]

theorem valuesOf_append (key : κ) (xs ys : List (κ × ν)) :
    valuesOf key (xs ++ ys) = valuesOf key xs ++ valuesOf key ys := by
  induction xs with
  | nil => rfl
  | cons kv xs ih =>
      rw [List.cons_append, valuesOf, valuesOf, ih]
      split <;> rfl

/-- Of two sequences of writes, the later one counts where it has the key. -/
theorem lastValue_append (key : κ) (xs ys : List (κ × ν)) :
    lastValue key (xs ++ ys) = (lastValue key ys).or (lastValue key xs) := by
  rw [lastValue, valuesOf_append, List.getLast?_append, lastValue, lastValue]

/-- Renaming the keys apart changes nothing. -/
theorem valuesOf_map {κ' : Type} [DecidableEq κ'] {name : κ → κ'}
    (hname : Function.Injective name) (key : κ) (kvs : List (κ × ν)) :
    valuesOf (name key) (kvs.map (fun kv => (name kv.1, kv.2))) = valuesOf key kvs := by
  induction kvs with
  | nil => rfl
  | cons kv kvs ih => simp only [List.map_cons, valuesOf, hname.eq_iff, ih]

/-- The field `get` listens to `key`: a write to it turns the field's content `b` into
`put b v`, and no other write touches it. -/
structure Field (set : σ → κ → ν → σ) (get : σ → β) (key : κ) (put : β → ν → β) : Prop where
  atKey : ∀ s v, get (set s key v) = put (get s) v
  other : ∀ s k v, k ≠ key → get (set s k v) = get s

section

variable {set : σ → κ → ν → σ} {get : σ → β} {key : κ} {put : β → ν → β}

/-- A field after a sequence of writes: the values of its key, put one after the other. -/
theorem Field.fill (h : Field set get key put) (s : σ) (kvs : List (κ × ν)) :
    get (Writes.fill set s kvs) = (valuesOf key kvs).foldl put (get s) := by
  induction kvs generalizing s with
  | nil => rfl
  | cons kv kvs ih =>
      obtain ⟨k, v⟩ := kv
      have hstep : get (Writes.fill set s ((k, v) :: kvs))
          = (valuesOf key kvs).foldl put (get (set s k v)) := ih _
      by_cases hk : k = key
      · subst hk
        rw [hstep, h.atKey, valuesOf, if_pos rfl, List.foldl_cons]
      · rw [hstep, h.other s k v hk, valuesOf, if_neg hk]

/-- Where a write forgets what the field held, the last one counts. -/
theorem Field.fill_last {put : ν → β} (h : Field set get key (fun _ v => put v)) (s : σ)
    (kvs : List (κ × ν)) :
    get (Writes.fill set s kvs) = ((lastValue key kvs).map put).getD (get s) := by
  rw [h.fill, lastValue]
  induction valuesOf key kvs using List.reverseRecOn with
  | nil => rfl
  | append_singleton vs v _ => simp

/-- A written value replaces what a field held, or is ignored, whatever that was. -/
def ReplacesOrKeeps (put : β → ν → β) : Prop := ∀ v, (∀ b, put b v = b) ∨ ∃ w, ∀ b, put b v = w

theorem mem_valuesOf {key : κ} {v : ν} {kvs : List (κ × ν)} (h : (key, v) ∈ kvs) :
    v ∈ valuesOf key kvs := by
  induction kvs with
  | nil => cases h
  | cons kv kvs ih =>
      rw [valuesOf]
      rcases List.mem_cons.mp h with rfl | hlater
      · rw [if_pos rfl]
        exact List.mem_cons_self ..
      · split
        · exact List.mem_cons_of_mem _ (ih hlater)
        · exact ih hlater

/-- After a value that replaces, it does not matter what the field held before. -/
theorem foldl_replaced {put : β → ν → β} {vs : List ν} {u : ν}
    (hu : ∃ w, ∀ b, put b u = w) (hmem : u ∈ vs) (b b' : β) :
    vs.foldl put b = vs.foldl put b' := by
  obtain ⟨w, hw⟩ := hu
  obtain ⟨pre, post, rfl⟩ := List.append_of_mem hmem
  rw [List.foldl_append, List.foldl_append, List.foldl_cons, List.foldl_cons, hw, hw]

/-- Writes that leave a field as it is in two records that differ in it leave it as it is
in every record. -/
theorem Field.keeps (h : Field set get key put) (hput : ReplacesOrKeeps put) {s s' : σ}
    {kvs : List (κ × ν)} (hs : get (Writes.fill set s kvs) = get s)
    (hs' : get (Writes.fill set s' kvs) = get s') (hne : get s ≠ get s') {k : κ} {v : ν}
    (hmem : (k, v) ∈ kvs) (r : σ) : get (set r k v) = get r := by
  by_cases hk : k = key
  · subst hk
    rw [h.atKey]
    rcases hput v with hkeep | hreplace
    · exact hkeep _
    · rw [h.fill] at hs hs'
      have hsame := foldl_replaced hreplace (mem_valuesOf hmem) (get s) (get s')
      exact absurd (hs.symm.trans (hsame.trans hs')) hne
  · exact h.other r k v hk

end

end Writes
