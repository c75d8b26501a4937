import Mathlib.Algebra.Ring.Nat
import Shakti.Lib.Memory

/-!
# Shakti.Lib.Words

Words in memory: little-endian numbers of `w` bytes in blocks of bytes.

* `loadWord`, `storeWord` — the accesses, checked as in `Memory`: all bytes of the word lie in
  the block, and a word that is read has been written.
* `words w vs` — the array of the numbers `vs`. `loadWord_words` reads its `i`-th entry at
  `i * w`, and `storeWord_words` appends one.
-/

namespace Memory

variable {α : Type}

/-! ### The bytes of a number -/

/-- The low `w` bytes of a number, lowest first. -/
def wordBytes : Nat → Nat → List UInt8
  | 0, _ => []
  | w + 1, v => UInt8.ofNat v :: wordBytes w (v / 256)

/-- The number of some bytes. -/
def wordValue : List UInt8 → Nat
  | [] => 0
  | c :: cs => c.toNat + 256 * wordValue cs

@[simp] theorem length_wordBytes (w v : Nat) : (wordBytes w v).length = w := by
  induction w generalizing v with
  | zero => rfl
  | succ w ih => rw [wordBytes, List.length_cons, ih]

/-- The bytes of a number above `w` bytes are not seen. -/
theorem wordBytes_mod (w v : Nat) : wordBytes w (v % 256 ^ w) = wordBytes w v := by
  induction w generalizing v with
  | zero => rfl
  | succ w ih =>
      have hbyte : UInt8.ofNat (v % 256 ^ (w + 1)) = UInt8.ofNat v := by
        apply UInt8.toNat_inj.mp
        rw [UInt8.toNat_ofNat', UInt8.toNat_ofNat', Nat.pow_succ']
        exact Nat.mod_mod_of_dvd v (Nat.dvd_mul_right 256 _)
      rw [wordBytes, wordBytes, hbyte, Nat.pow_succ', Nat.mod_mul_right_div_self, ih]

/-- A number that is stored in `w` bytes and read back is cut to `w` bytes. -/
theorem wordValue_wordBytes (w v : Nat) : wordValue (wordBytes w v) = v % 256 ^ w := by
  induction w generalizing v with
  | zero => rw [wordBytes, wordValue, Nat.pow_zero, Nat.mod_one]
  | succ w ih =>
      have hbyte : (UInt8.ofNat v).toNat = v % 256 := UInt8.toNat_ofNat'
      rw [wordBytes, wordValue, ih, hbyte, Nat.pow_succ', Nat.mod_mul]

/-! ### Accesses -/

/-- The contents of cells that have all been written. -/
def contents : Block α → Option (List α)
  | [] => some []
  | none :: _ => none
  | some c :: b => (contents b).map (c :: ·)

/-- Read a word. -/
def loadWord (w : Nat) (b : Block UInt8) (off : Nat) : Option Nat :=
  if off + w ≤ b.length then (contents ((b.drop off).take w)).map wordValue else none

/-- Write a word. -/
def storeWord (w : Nat) (b : Block UInt8) (off v : Nat) : Option (Block UInt8) :=
  if off + w ≤ b.length then
    some (b.take off ++ (wordBytes w v).map some ++ b.drop (off + w))
  else none

theorem contents_map_some (cs : List α) : contents (cs.map some) = some cs := by
  induction cs with
  | nil => rfl
  | cons c cs ih => rw [List.map_cons, contents, ih, Option.map_some]

/-! ### Arrays -/

/-- The array of some numbers. -/
def words (w : Nat) (vs : List Nat) : Block UInt8 := vs.flatMap (fun v => (wordBytes w v).map some)

@[simp] theorem words_nil (w : Nat) : words w [] = [] := rfl

theorem words_append (w : Nat) (us vs : List Nat) : words w (us ++ vs) = words w us ++ words w vs :=
  List.flatMap_append

theorem words_singleton (w v : Nat) : words w [v] = (wordBytes w v).map some := by
  rw [words, List.flatMap_singleton]

@[simp] theorem length_words (w : Nat) (vs : List Nat) : (words w vs).length = vs.length * w := by
  induction vs with
  | nil => simp
  | cons v vs ih =>
      rw [← List.singleton_append, words_append, words_singleton, List.length_append, ih]
      simp [Nat.add_mul, Nat.add_comm]

/-- The `i`-th entry stands at `i * w`. -/
theorem loadWord_words {w i v : Nat} {vs : List Nat} (h : vs[i]? = some v) (b : Block UInt8) :
    loadWord w (words w vs ++ b) (i * w) = some (v % 256 ^ w) := by
  obtain ⟨hi, hv⟩ := List.getElem?_eq_some_iff.mp h
  have hsplit : words w vs = words w (vs.take i) ++ ((wordBytes w v).map some ++
      words w (vs.drop (i + 1))) := by
    rw [← words_singleton, ← words_append, ← words_append, ← hv, List.singleton_append,
      ← List.drop_eq_getElem_cons hi, List.take_append_drop]
  have hlen : (words w (vs.take i)).length = i * w := by
    rw [length_words, List.length_take, Nat.min_eq_left hi.le]
  have hbound : i * w + w ≤ (words w vs ++ b).length := by
    rw [hsplit]
    simp only [List.length_append, hlen, List.length_map, length_wordBytes]
    omega
  have hword : ((words w vs ++ b).drop (i * w)).take w = (wordBytes w v).map some := by
    rw [hsplit, List.append_assoc, List.append_assoc, ← hlen, List.drop_left]
    exact List.take_left' (by simp)
  rw [loadWord, if_pos hbound, hword, contents_map_some, Option.map_some, wordValue_wordBytes]

/-- A word written behind an array extends it, when there is room. -/
theorem storeWord_words {w : Nat} {b : Block UInt8} (hroom : w ≤ b.length) (vs : List Nat)
    (v : Nat) :
    storeWord w (words w vs ++ b) (vs.length * w) v
      = some (words w (vs ++ [v]) ++ b.drop w) := by
  have hlen : (words w vs).length = vs.length * w := length_words w vs
  have hbound : vs.length * w + w ≤ (words w vs ++ b).length := by
    rw [List.length_append, hlen]
    omega
  rw [storeWord, if_pos hbound, ← hlen, List.take_left, List.drop_length_add_append,
    words_append, words_singleton]

/-! ### Loops that fill an array -/

/-- A loop that stores the word `f i` at `i * w` in its turn `i`, up to `n`. Started behind an
array, it extends it, when there is room. -/
theorem run_storeWords {σ β : Type} {turn : σ → Option (Turn σ β)} {w n : Nat} {f : Nat → Nat}
    (state : Nat → Block UInt8 → σ) (result : Nat → Block UInt8 → β)
    (hnext : ∀ i b b', i < n → storeWord w b (i * w) (f i) = some b' →
      turn (state i b) = some (.next (state (i + 1) b')))
    (hdone : ∀ i b, n ≤ i → turn (state i b) = some (.done (result i b)))
    (vs : List Nat) {rest : Block UInt8} (hroom : (n - vs.length) * w ≤ rest.length)
    {fuel : Nat} (hfuel : n < fuel) :
    run turn fuel (state vs.length (words w vs ++ rest))
      = some (result (max n vs.length) (words w (vs ++ ((List.range n).drop vs.length).map f) ++
          rest.drop ((n - vs.length) * w))) := by
  refine run_eq (fun m s b => ∃ vs rest, m = n - vs.length ∧
      s = state vs.length (words w vs ++ rest) ∧
      (n - vs.length) * w ≤ rest.length ∧
      b = result (max n vs.length) (words w (vs ++ ((List.range n).drop vs.length).map f) ++
        rest.drop ((n - vs.length) * w)))
    ?_ ⟨vs, rest, rfl, rfl, hroom, rfl⟩ (by omega)
  intro m s b hleft
  obtain ⟨vs, rest, rfl, rfl, hroom, rfl⟩ := hleft
  by_cases hi : vs.length < n
  · -- One word more is in the array, and one place less behind it.
    obtain ⟨k, hk⟩ : ∃ k, n - vs.length = k + 1 := ⟨n - vs.length - 1, by omega⟩
    have hk' : n - (vs ++ [f vs.length]).length = k := by
      rw [List.length_append, List.length_singleton]
      omega
    rw [hk, Nat.succ_mul] at hroom
    have hstore := storeWord_words (by omega : w ≤ rest.length) vs (f vs.length)
    have hturn := hnext _ _ _ hi hstore
    have hrange : (List.range n).drop vs.length
        = vs.length :: (List.range n).drop (vs.length + 1) := by
      rw [List.drop_eq_getElem_cons (by simpa using hi), List.getElem_range]
    refine Or.inr ⟨k, _, by omega, hturn, vs ++ [f vs.length], rest.drop w, hk'.symm, ?_, ?_, ?_⟩
    · rw [List.length_append, List.length_singleton]
    · rw [hk', List.length_drop]
      omega
    · rw [hk', hk, List.drop_drop, Nat.succ_mul, Nat.add_comm w, hrange, List.map_cons,
        List.length_append, List.length_singleton, List.append_assoc, List.singleton_append]
      rw [Nat.max_eq_left hi.le, Nat.max_eq_left hi]
  · refine Or.inl ?_
    have hzero : n - vs.length = 0 := by omega
    have hnil : (List.range n).drop vs.length = [] := by simpa using Nat.le_of_not_lt hi
    rw [hdone _ _ (Nat.le_of_not_lt hi), hzero, hnil, Nat.max_eq_right (Nat.le_of_not_lt hi)]
    simp

end Memory
