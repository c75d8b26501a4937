import Shakti.Lib.Memory

/-!
# Shakti.Lib.Blocks

Blocks that are written in pieces.

* `put b i x` — the block `b` with `x` in its cells from `i` on; what lies before and
  behind is kept. Pieces put one behind the other are one piece (`put_put`).
* `store_eq_put`, `copyTo_eq`, `fill_eq` — the checked accesses of a program, a single store,
  a copy and a transfer by the system, put pieces where there is room for them.
* `store_front`, `copyTo_front` — a block that is written from its start on: what is put behind
  the front makes the front longer.
-/

namespace Memory

variable {α : Type}

/-- Read one cell of a block. -/
def loadCell (b : Block α) (i : Nat) : Option α := (b[i]?).join

/-- A block whose cells are all written is read like the list of what was written. -/
theorem loadCell_map (x : List α) : loadCell (x.map some) = (x[·]?) := by
  funext i
  rw [loadCell, List.getElem?_map]
  cases x[i]? with
  | none => rfl
  | some c => rfl

/-- `b` with `x` in its cells from `i` on. -/
def put (b : Block α) (i : Nat) (x : List α) : Block α :=
  b.take i ++ x.map some ++ b.drop (i + x.length)

theorem length_put {b : Block α} {i : Nat} {x : List α} (h : i + x.length ≤ b.length) :
    (put b i x).length = b.length := by
  simp only [put, List.length_append, List.length_take, List.length_map, List.length_drop]
  omega

@[simp] theorem put_nil (b : Block α) (i : Nat) : put b i [] = b := by
  simp [put]

/-- A piece put behind a piece. -/
theorem put_put {b : Block α} {i : Nat} {x : List α} (h : i + x.length ≤ b.length)
    (y : List α) : put (put b i x) (i + x.length) y = put b i (x ++ y) := by
  have hfront : (b.take i ++ x.map some).length = i + x.length := by
    rw [List.length_append, List.length_take, List.length_map]
    omega
  have htake : (put b i x).take (i + x.length) = b.take i ++ x.map some := by
    rw [put, ← hfront]
    exact List.take_left
  have hdrop : (put b i x).drop (i + x.length + y.length) =
      b.drop (i + x.length + y.length) := by
    rw [put, ← List.drop_drop, ← hfront, List.drop_left, hfront, List.drop_drop]
  rw [put, htake, hdrop, put, List.map_append, List.length_append]
  simp only [List.append_assoc, Nat.add_assoc]

theorem store_eq_put {b : Block α} {i : Nat} (h : i < b.length) (c : α) :
    store b i c = some (put b i [c]) := by
  rw [store, if_pos h, put, List.set_eq_take_append_cons_drop, if_pos h]
  simp

/-- Copy `n` cells of a region, from `src` on, into a block, from `i` on. -/
def copyTo (load : Nat → Option α) (src i : Nat) : Nat → Block α → Option (Block α)
  | 0, b => some b
  | n + 1, b => do
      let b ← copyTo load src i n b
      let c ← load (src + n)
      store b (i + n) c

theorem copyTo_eq {l x : List α} {src stop i : Nat} (h : Spans l src stop x) {b : Block α}
    (hroom : i + x.length ≤ b.length) :
    copyTo (l[·]?) src i x.length b = some (put b i x) := by
  induction x using List.reverseRecOn generalizing stop with
  | nil => simp [copyTo]
  | append_singleton x c ih =>
      have hload : l[src + x.length]? = some c := by
        rw [h.getElem? (by simp)]
        simp
      rw [List.length_append, List.length_singleton] at hroom ⊢
      have hcopied := ih (h.of_isPrefix (List.prefix_append x [c])) (by omega)
      have hlen : (put b i x).length = b.length := length_put (by omega)
      have hstore := store_eq_put (b := put b i x) (i := i + x.length) (by omega) c
      simp only [copyTo, hcopied, hload, Option.bind_eq_bind, Option.bind_some, hstore]
      rw [put_put (by omega)]

/-- Bytes the system delivers into a block, from `i` on. -/
def fill (b : Block α) (i : Nat) (x : List α) : Option (Block α) :=
  if i + x.length ≤ b.length then some (put b i x) else none

theorem fill_eq {b : Block α} {i : Nat} {x : List α} (h : i + x.length ≤ b.length) :
    fill b i x = some (put b i x) := if_pos h

/-! ### Writing on behind the front -/

theorem put_zero (b : Block α) (x : List α) : put b 0 x = x.map some ++ b.drop x.length := by
  rw [put, List.take_zero, List.nil_append, Nat.zero_add]

theorem put_put_front {b : Block α} {x : List α} (h : x.length ≤ b.length) (y : List α) :
    put (put b 0 x) x.length y = put b 0 (x ++ y) := by
  have hput := @put_put α b 0 x (by omega) y
  rwa [Nat.zero_add] at hput

theorem store_front {b : Block α} {x : List α} {i : Nat} (hi : i = x.length) (h : i < b.length)
    (c : α) : store (put b 0 x) i c = some (put b 0 (x ++ [c])) := by
  subst hi
  have hlen : (put b 0 x).length = b.length := length_put (by omega)
  rw [store_eq_put (by omega), put_put_front h.le]

theorem copyTo_front {l x y : List α} {b : Block α} {src stop i n : Nat} (h : Spans l src stop y)
    (hi : i = x.length) (hn : n = y.length) (hroom : i + n ≤ b.length) :
    copyTo (l[·]?) src i n (put b 0 x) = some (put b 0 (x ++ y)) := by
  subst hi hn
  have hlen : (put b 0 x).length = b.length := length_put (by omega)
  rw [copyTo_eq h (by omega), put_put_front (by omega)]

/-- The cell behind a front. -/
theorem loadCell_append (b : Block α) (d : Option α) (b' : Block α) :
    loadCell (b ++ d :: b') b.length = d := by
  rw [loadCell, List.getElem?_append_right (Nat.le_refl _), Nat.sub_self]
  exact Option.join_some

@[simp] theorem length_alloc (n : Nat) : (alloc n : Block α).length = n := List.length_replicate

/-- A fresh block is read as far as its front has been written. -/
theorem loadCell_put_alloc (x : List α) (n : Nat) : loadCell (put (alloc n) 0 x) = (x[·]?) := by
  funext i
  rw [put_zero, loadCell]
  by_cases hi : i < x.length
  · rw [List.getElem?_append_left (by rwa [List.length_map]), ← loadCell, loadCell_map]
  · have hnone : x[i]? = none := List.getElem?_eq_none (by omega)
    rw [List.getElem?_append_right (by rw [List.length_map]; omega), hnone]
    change ((List.replicate n none).drop x.length)[_]?.join = none
    rw [List.drop_replicate, List.getElem?_replicate]
    split <;> rfl

end Memory
