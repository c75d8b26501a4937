import Mathlib.Data.List.Infix
import Shakti.Lib.Scan

/-!
# Shakti.Lib.Records

**Text in records**: segments ended by one separator, and the pieces of a segment between
occurrences of another.

* `piece sep k l` — the `k`-th piece of `l`, if it has so many.
* `lines_induction` — a text is a segment without a separator, or one with a separator behind
  it and more text. The facts about `Scan.segments` follow from its two equations
  (`segments_of_notMem`, `segments_append`).
* `segments_take` — the segments of a text that is cut short: whole ones, and at most one that
  the cut has split. `piece_of_isPrefix` says which pieces of that one are whole.
* `fromPiece sep k l` — what is left of `l` from its `k`-th piece on.
* `lineSuffixes_split` — where in the text a segment stands.
-/

namespace Records

open Scan

variable {α : Type} [DecidableEq α] {sep : α}

/-! ### Cutting at a separator -/

theorem cut_of_notMem {l : List α} (h : sep ∉ l) : cut sep l = none := by
  induction l with
  | nil => rfl
  | cons c l ih =>
      rw [List.mem_cons, not_or] at h
      rw [cut, if_neg (Ne.symm h.1), ih h.2]
      rfl

theorem cut_append {a : List α} (h : sep ∉ a) (b : List α) :
    cut sep (a ++ sep :: b) = some (a, b) := by
  induction a with
  | nil => simp [cut]
  | cons c a ih =>
      rw [List.mem_cons, not_or] at h
      rw [List.cons_append, cut, if_neg (Ne.symm h.1), ih h.2]
      rfl

/-- A text without a separator, or one that splits at its first. -/
theorem cut_cases (sep : α) (l : List α) :
    sep ∉ l ∧ cut sep l = none ∨ ∃ a b, l = a ++ sep :: b ∧ sep ∉ a ∧ cut sep l = some (a, b) := by
  by_cases h : sep ∈ l
  · obtain ⟨a, b, rfl, ha⟩ := List.eq_append_cons_of_mem h
    exact Or.inr ⟨a, b, rfl, ha, cut_append ha b⟩
  · exact Or.inl ⟨h, cut_of_notMem h⟩

/-- Induction on the segments of a text. -/
theorem lines_induction {motive : List α → Prop} (last : ∀ l, sep ∉ l → motive l)
    (line : ∀ l rest, sep ∉ l → motive rest → motive (l ++ sep :: rest)) (s : List α) :
    motive s := by
  induction hn : s.length using Nat.strongRecOn generalizing s with
  | ind n ih =>
      rcases cut_cases sep s with ⟨h, -⟩ | ⟨l, rest, rfl, hl, -⟩
      · exact last s h
      · refine line l rest hl (ih rest.length ?_ rest rfl)
        rw [← hn, List.length_append, List.length_cons]
        omega

/-! ### Pieces -/

/-- The `k`-th piece between separators. -/
def piece (sep : α) : Nat → List α → Option (List α)
  | 0, l => some (l.takeWhile (· != sep))
  | k + 1, l =>
      match cut sep l with
      | none => none
      | some (_, rest) => piece sep k rest

@[simp] theorem piece_zero (l : List α) : piece sep 0 l = some (l.takeWhile (· != sep)) := rfl

theorem piece_succ_of_notMem {l : List α} (h : sep ∉ l) (k : Nat) : piece sep (k + 1) l = none := by
  rw [piece, cut_of_notMem h]

theorem piece_succ_append {a : List α} (h : sep ∉ a) (b : List α) (k : Nat) :
    piece sep (k + 1) (a ++ sep :: b) = piece sep k b := by
  rw [piece, cut_append h]

/-- Every piece before an existing one exists. -/
theorem exists_piece {l v : List α} {k : Nat} (h : piece sep (k + 1) l = some v) :
    ∃ w, piece sep k l = some w := by
  induction k generalizing l with
  | zero => exact ⟨_, rfl⟩
  | succ k ih =>
      rcases cut_cases sep l with ⟨hl, -⟩ | ⟨a, b, rfl, ha, -⟩
      · simp [piece_succ_of_notMem hl] at h
      · rw [piece_succ_append ha] at h ⊢
        exact ih h

/-- A text with a second piece has a separator. -/
theorem mem_of_piece {l v : List α} {k : Nat} (h : piece sep (k + 1) l = some v) : sep ∈ l := by
  by_contra hl
  simp [piece_succ_of_notMem hl] at h

/-- The separator is in no piece. -/
theorem notMem_piece {l v : List α} {k : Nat} (h : piece sep k l = some v) : sep ∉ v := by
  induction k generalizing l with
  | zero =>
      obtain rfl := Option.some.inj h
      intro hmem
      simpa using List.mem_takeWhile_imp hmem
  | succ k ih =>
      rcases cut_cases sep l with ⟨hl, -⟩ | ⟨a, b, rfl, ha, -⟩
      · simp [piece_succ_of_notMem hl] at h
      · exact ih (by rwa [piece_succ_append ha] at h)

/-- The pieces of a prefix: the last of them may be shortened, those before it are whole. -/
theorem piece_of_isPrefix {p l : List α} (hp : p <+: l) {k : Nat} {v : List α}
    (h : piece sep k p = some v) :
    (∃ w, piece sep k l = some w ∧ v <+: w) ∧
      (piece sep (k + 1) p ≠ none → piece sep k l = some v) := by
  obtain ⟨t, rfl⟩ := hp
  induction k generalizing p with
  | zero =>
      obtain rfl := Option.some.inj h
      rcases cut_cases sep p with ⟨hp, -⟩ | ⟨a, b, rfl, ha, -⟩
      · have hall : p.takeWhile (· != sep) = p := by
          rw [List.takeWhile_eq_self_iff]
          exact fun x hx => by simpa using ne_of_mem_of_not_mem hx hp
        refine ⟨⟨_, rfl, ?_⟩, fun hno => absurd (piece_succ_of_notMem hp 0) hno⟩
        rw [hall, List.takeWhile_append_of_pos (fun x hx => by
          simpa using ne_of_mem_of_not_mem hx hp)]
        exact List.prefix_append _ _
      · have hwhole : ((a ++ sep :: b) ++ t).takeWhile (· != sep)
            = (a ++ sep :: b).takeWhile (· != sep) := by
          rw [List.append_assoc, List.cons_append, takeWhile_ne_append ha, takeWhile_ne_append ha]
        rw [piece_zero, hwhole]
        exact ⟨⟨_, rfl, List.prefix_rfl⟩, fun _ => rfl⟩
  | succ k ih =>
      rcases cut_cases sep p with ⟨hp, -⟩ | ⟨a, b, rfl, ha, -⟩
      · simp [piece_succ_of_notMem hp] at h
      · rw [piece_succ_append ha] at h
        rw [List.append_assoc, List.cons_append, piece_succ_append ha, piece_succ_append ha]
        exact ih h

/-! ### The text from a piece on -/

/-- What is left of the text from its `k`-th piece on. -/
def fromPiece (sep : α) : Nat → List α → Option (List α)
  | 0, l => some l
  | k + 1, l =>
      match cut sep l with
      | none => none
      | some (_, rest) => fromPiece sep k rest

theorem fromPiece_succ_of_notMem {l : List α} (h : sep ∉ l) (k : Nat) :
    fromPiece sep (k + 1) l = none := by
  rw [fromPiece, cut_of_notMem h]

theorem fromPiece_succ_append {a : List α} (h : sep ∉ a) (b : List α) (k : Nat) :
    fromPiece sep (k + 1) (a ++ sep :: b) = fromPiece sep k b := by
  rw [fromPiece, cut_append h]

/-- A piece is what stands there before the next separator. -/
theorem piece_eq_fromPiece (k : Nat) (l : List α) :
    piece sep k l = (fromPiece sep k l).map (·.takeWhile (· != sep)) := by
  induction k generalizing l with
  | zero => rfl
  | succ k ih =>
      rcases cut_cases sep l with ⟨h, -⟩ | ⟨a, b, rfl, ha, -⟩
      · rw [piece_succ_of_notMem h, fromPiece_succ_of_notMem h]
        rfl
      · rw [piece_succ_append ha, fromPiece_succ_append ha, ih]

/-- What stands behind a text stands behind each of its pieces. -/
theorem fromPiece_append {p w : List α} {k : Nat} (h : fromPiece sep k p = some w) (t : List α) :
    fromPiece sep k (p ++ t) = some (w ++ t) := by
  induction k generalizing p with
  | zero =>
      obtain rfl := Option.some.inj h
      rfl
  | succ k ih =>
      rcases cut_cases sep p with ⟨hp, -⟩ | ⟨a, b, rfl, ha, -⟩
      · simp [fromPiece_succ_of_notMem hp] at h
      · rw [fromPiece_succ_append ha] at h
        rw [List.append_assoc, List.cons_append, fromPiece_succ_append ha]
        exact ih h

theorem fromPiece_length_le {l w : List α} {k : Nat} (h : fromPiece sep k l = some w) :
    w.length ≤ l.length := by
  induction k generalizing l with
  | zero =>
      obtain rfl := Option.some.inj h
      exact le_rfl
  | succ k ih =>
      rcases cut_cases sep l with ⟨hl, -⟩ | ⟨a, b, rfl, ha, -⟩
      · simp [fromPiece_succ_of_notMem hl] at h
      · have hle := ih (by rwa [fromPiece_succ_append ha] at h)
        rw [List.length_append, List.length_cons]
        omega

/-- A piece that only a longer text has starts behind the shorter one. -/
theorem fromPiece_length_lt {p t w : List α} {k : Nat} (hp : fromPiece sep k p = none)
    (h : fromPiece sep k (p ++ t) = some w) : w.length < t.length := by
  induction k generalizing p with
  | zero => simp [fromPiece] at hp
  | succ k ih =>
      rcases cut_cases sep p with ⟨hno, -⟩ | ⟨a, b, rfl, ha, -⟩
      · rcases cut_cases sep t with ⟨ht, -⟩ | ⟨a, b, rfl, ha, -⟩
        · rw [fromPiece_succ_of_notMem (by simp [hno, ht])] at h
          contradiction
        · have hpa : sep ∉ p ++ a := by simp [hno, ha]
          rw [← List.append_assoc, fromPiece_succ_append hpa] at h
          have hle := fromPiece_length_le h
          rw [List.length_append, List.length_cons]
          omega
      · rw [fromPiece_succ_append ha] at hp
        rw [List.append_assoc, List.cons_append, fromPiece_succ_append ha] at h
        exact ih hp h

/-! ### Segments -/

theorem segments_of_notMem {l : List α} (h : sep ∉ l) :
    segments sep l = if l = [] then [] else [l] := by
  induction l with
  | nil => rfl
  | cons c l ih =>
      rw [List.mem_cons, not_or] at h
      rw [segments, if_neg (Ne.symm h.1), ih h.2]
      by_cases hl : l = [] <;> simp [hl]

theorem segments_append {l : List α} (h : sep ∉ l) (rest : List α) :
    segments sep (l ++ sep :: rest) = l :: segments sep rest := by
  induction l with
  | nil => simp [segments]
  | cons c l ih =>
      rw [List.mem_cons, not_or] at h
      rw [List.cons_append, segments, if_neg (Ne.symm h.1), ih h.2]

/-- A segment has no separator in it. -/
theorem notMem_of_mem_segments {s l : List α} (h : l ∈ segments sep s) : sep ∉ l := by
  induction s using @lines_induction α _ sep with
  | last s hs =>
      rw [segments_of_notMem hs] at h
      split at h
      · simp at h
      · rwa [List.mem_singleton.mp h]
  | line a rest ha ih =>
      rw [segments_append ha, List.mem_cons] at h
      rcases h with rfl | h
      · exact ha
      · exact ih h

theorem segments_subset {s l : List α} (h : l ∈ segments sep s) : l ⊆ s := by
  induction s using @lines_induction α _ sep with
  | last s hs =>
      rw [segments_of_notMem hs] at h
      split at h
      · simp at h
      · rw [List.mem_singleton.mp h]
        exact fun _ hx => hx
  | line a rest ha ih =>
      rw [segments_append ha, List.mem_cons] at h
      rcases h with rfl | h
      · exact List.subset_append_left _ _
      · exact fun x hx => List.mem_append_right a (List.mem_cons_of_mem _ (ih h hx))

/-- The segments of a text that is cut short: a segment of it is whole, or is the last and a
prefix of the one in its place. -/
theorem segments_take {s : List α} {n : Nat} {pre post : List (List α)} {q : List α}
    (h : segments sep (s.take n) = pre ++ q :: post) :
    (∃ post', segments sep s = pre ++ q :: post') ∨
      post = [] ∧ ∃ l post', segments sep s = pre ++ l :: post' ∧ q <+: l := by
  induction s using @lines_induction α _ sep generalizing n pre with
  | last s hs =>
      have htake : sep ∉ s.take n := fun hmem => hs (List.mem_of_mem_take hmem)
      rw [segments_of_notMem htake] at h
      split at h
      · simp at h
      case isFalse hne =>
        obtain ⟨rfl, hq, rfl⟩ : pre = [] ∧ s.take n = q ∧ post = [] := by
          cases pre <;> simp_all
        have hs' : s ≠ [] := by
          rintro rfl
          simp at hne
        refine Or.inr ⟨rfl, s, [], ?_, hq ▸ List.take_prefix n s⟩
        rw [segments_of_notMem hs, if_neg hs']
        rfl
  | line l rest hl ih =>
      rw [segments_append hl]
      by_cases hn : n ≤ l.length
      · -- The cut is in the first segment.
        have htake : (l ++ sep :: rest).take n = l.take n := List.take_append_of_le_length hn
        have hmem : sep ∉ l.take n := fun h => hl (List.mem_of_mem_take h)
        rw [htake, segments_of_notMem hmem] at h
        split at h
        · simp at h
        · obtain ⟨rfl, hq, rfl⟩ : pre = [] ∧ l.take n = q ∧ post = [] := by
            cases pre <;> simp_all
          exact Or.inr ⟨rfl, l, segments sep rest, rfl, hq ▸ List.take_prefix n l⟩
      · obtain ⟨m, rfl⟩ : ∃ m, n = l.length + (m + 1) := ⟨n - l.length - 1, by omega⟩
        rw [List.take_length_add_append, List.take_succ_cons, segments_append hl] at h
        cases pre with
        | nil =>
            obtain ⟨rfl, -⟩ := List.cons.inj h
            exact Or.inl ⟨segments sep rest, rfl⟩
        | cons a pre =>
            obtain ⟨rfl, htail⟩ := List.cons.inj h
            rcases ih htail with ⟨post', hwhole⟩ | ⟨hpost, l', post', hsplit, hq⟩
            · exact Or.inl ⟨post', by rw [hwhole]; rfl⟩
            · exact Or.inr ⟨hpost, l', post', by rw [hsplit]; rfl, hq⟩

/-! ### Where segments stand -/

/-- The length of segments with a separator behind each. -/
def span : List (List α) → Nat
  | [] => 0
  | l :: segs => l.length + 1 + span segs

omit [DecidableEq α] in
theorem span_append (as bs : List (List α)) : span (as ++ bs) = span as + span bs := by
  induction as with
  | nil => rw [List.nil_append, span, Nat.zero_add]
  | cons l as ih =>
      rw [List.cons_append, span, span, ih]
      omega

/-- The text starts with the segment `l`: behind it is nothing, or a separator and more. -/
def Heads (sep : α) (l s : List α) : Prop := sep ∉ l ∧ (s = l ∨ ∃ rest, s = l ++ sep :: rest)

theorem suffixesAfter_of_notMem {l : List α} (h : sep ∉ l) : suffixesAfter sep l = [] := by
  induction l with
  | nil => rfl
  | cons c l ih =>
      rw [List.mem_cons, not_or] at h
      rw [suffixesAfter, if_neg (fun hc => h.1 hc.1.symm), ih h.2]

theorem suffixesAfter_append {l : List α} (h : sep ∉ l) (rest : List α) :
    suffixesAfter sep (l ++ sep :: rest) = lineSuffixes sep rest := by
  induction l with
  | nil => by_cases hrest : rest = [] <;> simp [suffixesAfter, lineSuffixes, hrest]
  | cons c l ih =>
      rw [List.mem_cons, not_or] at h
      rw [List.cons_append, suffixesAfter, if_neg (fun hc => h.1 hc.1.symm), ih h.2]

theorem lineSuffixes_of_notMem {l : List α} (h : sep ∉ l) :
    lineSuffixes sep l = if l = [] then [] else [l] := by
  rw [lineSuffixes, suffixesAfter_of_notMem h]

theorem lineSuffixes_append {l : List α} (h : sep ∉ l) (rest : List α) :
    lineSuffixes sep (l ++ sep :: rest) = (l ++ sep :: rest) :: lineSuffixes sep rest := by
  rw [lineSuffixes, if_neg (by simp), suffixesAfter_append h]

/-- A segment of a text and the suffix it starts stand in the same place: the suffix is the
segment and then nothing, or a separator and more; and in front of it are the segments before,
each with the suffix it starts. -/
theorem lineSuffixes_split {s : List α} {pre post : List (List α)} {l : List α}
    (h : segments sep s = pre ++ l :: post) :
    ∃ before behind, lineSuffixes sep s = before ++ s.drop (span pre) :: behind ∧
      before.length = pre.length ∧ (∀ q ∈ pre, ∃ rest, q ++ sep :: rest ∈ before) ∧
      span pre ≤ s.length ∧ Heads sep l (s.drop (span pre)) := by
  induction s using @lines_induction α _ sep generalizing pre with
  | last s hs =>
      rw [segments_of_notMem hs] at h
      split at h
      · simp at h
      case isFalse hne =>
        obtain ⟨rfl, rfl, rfl⟩ : pre = [] ∧ s = l ∧ post = [] := by
          cases pre <;> simp_all
        refine ⟨[], [], ?_, rfl, by simp, Nat.zero_le _, hs, Or.inl rfl⟩
        rw [lineSuffixes_of_notMem hs, if_neg hne]
        rfl
  | line a rest ha ih =>
      rw [segments_append ha] at h
      rw [lineSuffixes_append ha]
      cases pre with
      | nil =>
          obtain ⟨rfl, -⟩ := List.cons.inj h
          exact ⟨[], lineSuffixes sep rest, rfl, rfl, by simp, Nat.zero_le _, ha,
            Or.inr ⟨rest, rfl⟩⟩
      | cons q pre =>
          obtain ⟨rfl, htail⟩ := List.cons.inj h
          obtain ⟨before, behind, hsuffixes, hcount, hpre, hle, hheads⟩ := ih htail
          -- The first segment and its separator are dropped with the ones behind it.
          have hdrop : (a ++ sep :: rest).drop (span (a :: pre)) = rest.drop (span pre) := by
            rw [span, List.drop_append, List.drop_of_length_le (by omega), List.nil_append,
              show a.length + 1 + span pre - a.length = span pre + 1 by omega,
              List.drop_succ_cons]
          rw [hdrop]
          refine ⟨(a ++ sep :: rest) :: before, behind, by rw [hsuffixes]; rfl,
            by simp [hcount], ?_, ?_, hheads⟩
          · intro q hq
            rcases List.mem_cons.mp hq with rfl | hq
            · exact ⟨rest, List.mem_cons_self ..⟩
            · obtain ⟨rest', hmem⟩ := hpre q hq
              exact ⟨rest', List.mem_cons_of_mem _ hmem⟩
          · rw [List.length_append, List.length_cons, span]
            omega

/-- Every suffix that starts a line starts a segment. -/
theorem exists_segment {s t : List α} {before behind : List (List α)}
    (h : lineSuffixes sep s = before ++ t :: behind) :
    ∃ pre l post, segments sep s = pre ++ l :: post ∧ pre.length = before.length ∧
      l = t.takeWhile (· != sep) := by
  induction s using @lines_induction α _ sep generalizing before with
  | last s hs =>
      rw [lineSuffixes_of_notMem hs] at h
      split at h
      · simp at h
      case isFalse hne =>
        obtain ⟨rfl, rfl, rfl⟩ : before = [] ∧ s = t ∧ behind = [] := by
          cases before <;> simp_all
        refine ⟨[], s, [], ?_, rfl, ?_⟩
        · rw [segments_of_notMem hs, if_neg hne]
          rfl
        · rw [eq_comm, List.takeWhile_eq_self_iff]
          exact fun x hx => by simpa using ne_of_mem_of_not_mem hx hs
  | line a rest ha ih =>
      rw [lineSuffixes_append ha] at h
      rw [segments_append ha]
      cases before with
      | nil =>
          obtain ⟨rfl, -⟩ := List.cons.inj h
          exact ⟨[], a, segments sep rest, rfl, rfl, (takeWhile_ne_append ha rest).symm⟩
      | cons b before =>
          obtain ⟨-, htail⟩ := List.cons.inj h
          obtain ⟨pre, l, post, hseg, hlen, hl⟩ := ih htail
          exact ⟨a :: pre, l, post, by rw [hseg]; rfl, by simp [hlen], hl⟩

theorem Heads.takeWhile {l s : List α} (h : Heads sep l s) : s.takeWhile (· != sep) = l := by
  obtain ⟨hno, rfl | ⟨rest, rfl⟩⟩ := h
  · rw [List.takeWhile_eq_self_iff]
    exact fun x hx => by simpa using ne_of_mem_of_not_mem hx hno
  · exact takeWhile_ne_append hno rest

/-- A text without a separator that the whole starts with, the segment starts with. -/
theorem Heads.isPrefix_iff {l s v : List α} (h : Heads sep l s) (hv : sep ∉ v) :
    v <+: s ↔ v <+: l := by
  constructor
  · intro hprefix
    have hself : piece sep 0 v = some v := by
      rw [piece_zero, Option.some.injEq, List.takeWhile_eq_self_iff]
      exact fun x hx => by simpa using ne_of_mem_of_not_mem hx hv
    obtain ⟨⟨w, hw, hvw⟩, -⟩ := piece_of_isPrefix hprefix hself
    rw [piece_zero, h.takeWhile, Option.some.injEq] at hw
    rwa [hw]
  · intro hprefix
    refine hprefix.trans ?_
    rcases h.2 with rfl | ⟨rest, rfl⟩
    · exact List.prefix_rfl
    · exact List.prefix_append _ _

/-- A segment of a text that is cut short is a prefix of the one in its place, and is that one
when the text goes on behind it. -/
theorem Heads.take {s u p l : List α} (hp : Heads sep p u) (hl : Heads sep l s)
    (hu : u <+: s) : p <+: l ∧ (u = p ∨ p = l) := by
  rcases hp.2 with rfl | ⟨rest, rfl⟩
  · exact ⟨(hl.isPrefix_iff hp.1).mp hu, Or.inl rfl⟩
  · obtain ⟨t, rfl⟩ := hu
    have hsame : p = l := by
      rw [← hl.takeWhile, List.append_assoc, List.cons_append, takeWhile_ne_append hp.1]
    exact ⟨hsame ▸ List.prefix_rfl, Or.inr hsame⟩

end Records
