import Shakti.Policy.Comments

/-!
# Shakti.Policy.QuotedStrings

The strings that the item reader of `_shk_parse_str_array` finds in a value.

A string starts at a quote character of either kind, outside of every string that starts before
it, and ends at the next one of its kind, or with the text. `mem_shkParseStrArray_iff` says that
the entries of a value are the strings that stand so between its first bracket and its last.
-/

namespace Shakti

open Writes

/-! ### Strings -/

/-- The quote character of the string that is open after the bytes, if any; in a string only
its own quote character counts. -/
def quoteState : Option UInt8 → Bytes → Option UInt8
  | open?, [] => open?
  | none, c :: cs => quoteState (if IsQuote c then some c else none) cs
  | some q, c :: cs => quoteState (if c = q then none else some q) cs

/-- A string of either style that starts outside every other: it ends at the next quote
character of its own, or with the text. -/
def QuotedEntry (body entry : Bytes) : Prop :=
  ∃ pre q post, body = pre ++ q :: (entry ++ post) ∧ quoteState none pre = none ∧ IsQuote q ∧
    q ∉ entry ∧ (post = [] ∨ ∃ post', post = q :: post')

/-- The string stands between the opening bracket of a value and its last closing one. -/
def StandsQuoted (v : CStr) (entry : Bytes) : Prop :=
  ∃ body after, v.bytes = 91 :: (body ++ 93 :: after) ∧ 93 ∉ after ∧ QuotedEntry body entry

/-! ### What the item reader finds -/

theorem quoteState_append (open? : Option UInt8) (x y : Bytes) :
    quoteState open? (x ++ y) = quoteState (quoteState open? x) y := by
  induction x generalizing open? with
  | nil => cases open? <;> rfl
  | cons c x ih => cases open? <;> exact ih _

/-- Without its quote character a string stays open. -/
theorem quoteState_inside {q : UInt8} {x : Bytes} (h : q ∉ x) :
    quoteState (some q) x = some q := by
  induction x with
  | nil => rfl
  | cons c x ih =>
      rw [List.mem_cons, not_or] at h
      rw [quoteState, if_neg (Ne.symm h.1), ih h.2]

/-- A string that is open is closed by its quote character, or not at all. -/
theorem exists_of_quoteState {q : UInt8} {x : Bytes} (h : quoteState (some q) x = none) :
    ∃ s y, x = s ++ q :: y ∧ q ∉ s ∧ quoteState none y = none := by
  induction x with
  | nil => cases h
  | cons c x ih =>
      rw [quoteState] at h
      split at h
      case isTrue hc => exact ⟨[], x, by rw [hc]; rfl, List.not_mem_nil, h⟩
      case isFalse hc =>
        obtain ⟨s, y, rfl, hs, hy⟩ := ih h
        refine ⟨c :: s, y, rfl, ?_, hy⟩
        rw [List.mem_cons, not_or]
        exact ⟨Ne.symm hc, hs⟩

/-- The first quote character splits a text in one way. -/
theorem quote_split {q : UInt8} {s t x y : Bytes} (hs : q ∉ s) (ht : q ∉ t)
    (h : s ++ q :: x = t ++ q :: y) : s = t ∧ x = y := by
  have hst : s = t := by
    rw [← Scan.takeWhile_ne_append hs x, h, Scan.takeWhile_ne_append ht y]
  subst hst
  exact ⟨rfl, (List.cons.inj (List.append_cancel_left h)).2⟩

/-- A byte that is no quote does not start a string. -/
theorem quotedEntry_cons {c : UInt8} (hc : ¬ IsQuote c) (body entry : Bytes) :
    QuotedEntry (c :: body) entry ↔ QuotedEntry body entry := by
  constructor
  · intro ⟨pre, q, post, hbody, hstate, hq, hentry, hpost⟩
    cases pre with
    | nil =>
        obtain ⟨rfl, -⟩ := List.cons.inj hbody
        exact absurd hq hc
    | cons c' pre =>
        rw [List.cons_append, List.cons.injEq] at hbody
        rw [← hbody.1, quoteState, if_neg hc] at hstate
        exact ⟨pre, q, post, hbody.2, hstate, hq, hentry, hpost⟩
  · intro ⟨pre, q, post, hbody, hstate, hq, hentry, hpost⟩
    exact ⟨c :: pre, q, post, by rw [hbody]; rfl, by rwa [quoteState, if_neg hc], hq, hentry, hpost⟩

/-- A closed string is an entry, and the others stand behind it. -/
theorem quotedEntry_string {q : UInt8} (hq : IsQuote q) {s : Bytes} (hs : q ∉ s)
    (body entry : Bytes) :
    QuotedEntry (q :: (s ++ q :: body)) entry ↔ entry = s ∨ QuotedEntry body entry := by
  constructor
  · intro ⟨pre, q', post, hbody, hstate, hq', hentry, hpost⟩
    cases pre with
    | nil =>
        obtain ⟨rfl, hrest⟩ := List.cons.inj hbody
        obtain rfl | ⟨post, rfl⟩ := hpost
        · rw [List.append_nil] at hrest
          exact absurd (hrest ▸ by simp) hentry
        · exact Or.inl (quote_split hs hentry hrest).1.symm
    | cons c pre =>
        rw [List.cons_append, List.cons.injEq] at hbody
        obtain ⟨rfl, hrest⟩ := hbody
        rw [quoteState, if_pos hq] at hstate
        obtain ⟨t, pre, rfl, ht, hstate⟩ := exists_of_quoteState hstate
        rw [List.append_assoc, List.cons_append] at hrest
        exact Or.inr ⟨pre, q', post, (quote_split hs ht hrest).2, hstate, hq', hentry, hpost⟩
  · intro h
    rcases h with rfl | ⟨pre, q', post, rfl, hstate, hq', hentry, hpost⟩
    · exact ⟨[], q, q :: body, rfl, rfl, hq, hs, Or.inr ⟨body, rfl⟩⟩
    · refine ⟨q :: (s ++ [q]) ++ pre, q', post, by simp, ?_, hq', hentry, hpost⟩
      rw [List.cons_append, quoteState, if_pos hq, List.append_assoc, quoteState_append,
        quoteState_inside hs, List.singleton_append, quoteState, if_pos rfl, hstate]

/-- A string that is not closed is the last entry. -/
theorem quotedEntry_unclosed {q : UInt8} (hq : IsQuote q) {s : Bytes} (hs : q ∉ s)
    (entry : Bytes) : QuotedEntry (q :: s) entry ↔ entry = s := by
  constructor
  · intro ⟨pre, q', post, hbody, hstate, hq', hentry, hpost⟩
    cases pre with
    | nil =>
        obtain ⟨rfl, hrest⟩ := List.cons.inj hbody
        obtain rfl | ⟨post, rfl⟩ := hpost
        · rw [hrest, List.append_nil]
        · exact absurd (hrest ▸ by simp) hs
    | cons c pre =>
        rw [List.cons_append, List.cons.injEq] at hbody
        obtain ⟨rfl, hrest⟩ := hbody
        rw [quoteState, if_pos hq] at hstate
        obtain ⟨t, pre, rfl, -, -⟩ := exists_of_quoteState hstate
        exact absurd (hrest ▸ by simp) hs
  · intro h
    exact ⟨[], q, [], by rw [h, List.append_nil]; rfl, rfl, hq, h ▸ hs, Or.inl rfl⟩

/-- **What the item reader finds** between the brackets of an array: the strings of either
style, read from the left. -/
theorem mem_arrayEntries_iff {body : Bytes} (h0 : (0 : UInt8) ∉ body) (entry : Bytes) :
    (∃ p ∈ arrayEntries body, p.bytes = entry) ↔ QuotedEntry body entry := by
  induction hlen : body.length using Nat.strong_induction_on generalizing body with
  | _ n ih =>
      -- On the length of what is unread: a turn that reads a string may skip many bytes at once.
      subst hlen
      cases body with
      | nil =>
          constructor
          · intro ⟨p, hp, _⟩
            cases hp
          · intro ⟨pre, q, post, hbody, _⟩
            simp at hbody
      | cons c body =>
          rw [List.mem_cons, not_or] at h0
          by_cases hc : IsQuote c
          · by_cases hmem : c ∈ body
            · obtain ⟨s, rest, rfl, hs⟩ := List.eq_append_cons_of_mem hmem
              simp only [List.mem_append, List.mem_cons, not_or] at h0
              have htail := ih rest.length (by simp; omega) h0.2.2.2 rfl
              have hturn := arrayEntries_string hc (s := ⟨s, h0.2.1⟩) hs rest
              rw [hturn, quotedEntry_string hc hs, ← htail]
              simp [eq_comm]
            · -- The string is not closed: it is read to the end.
              have hturn : arrayTurn (c :: body) = (some (CStr.read body), []) := by
                have hdrop : (c :: body).dropWhile isTrimmed = c :: body := by
                  simp [hc.not_isTrimmed]
                have hall : ∀ x ∈ body, (x != c) = true := fun x hx => by
                  simpa using ne_of_mem_of_not_mem hx hmem
                rw [arrayTurn, hdrop]
                simp only [if_pos (show c = 34 ∨ c = 39 from hc)]
                rw [List.takeWhile_eq_self_iff.mpr hall, List.dropWhile_eq_nil_iff.mpr hall]
                rfl
              rw [arrayEntries_of_turn (List.cons_ne_nil c body) hturn,
                quotedEntry_unclosed hc hmem]
              simp [arrayEntries, arrayItems, CStr.read_of_noNul h0.2, eq_comm]
          · rw [arrayEntries_cons hc, quotedEntry_cons hc]
            exact ih body.length (by simp) h0.2 rfl

/-- The entries of a value are the strings that stand in it. -/
theorem mem_shkParseStrArray_iff (v : CStr) (entry : Bytes) :
    (∃ p ∈ shkParseStrArray v, p.bytes = entry) ↔ StandsQuoted v entry := by
  by_cases hclosed : ∃ body after, v.bytes = 91 :: (body ++ 93 :: after) ∧ 93 ∉ after
  · obtain ⟨body, after, hv, hafter⟩ := hclosed
    have hbody : (0 : UInt8) ∉ body := fun hmem => v.noNul (by simp [hv, hmem])
    rw [shkParseStrArray_bracket hv, arrayBody_append hafter]
    refine (mem_arrayEntries_iff hbody entry).trans
      ⟨fun h => ⟨body, after, hv, hafter, h⟩, fun h => ?_⟩
    obtain ⟨body', after', hv', hafter', h⟩ := h
    have hsame := congrArg arrayBody (List.cons.inj (hv.symm.trans hv')).2
    rw [arrayBody_append hafter, arrayBody_append hafter'] at hsame
    rwa [hsame]
  · -- Without a closing bracket the reader finds nothing.
    have hnone : shkParseStrArray v = [] := by
      by_cases hopen : ∃ rest, v.bytes = 91 :: rest
      · obtain ⟨rest, hv⟩ := hopen
        have hmem : (93 : UInt8) ∉ rest := by
          intro hmem
          obtain ⟨body, after, rfl, hafter⟩ := Scan.exists_last hmem
          exact hclosed ⟨body, after, hv, hafter⟩
        rw [shkParseStrArray_bracket hv, arrayBody_of_not_mem hmem]
        rfl
      · exact shkParseStrArray_other fun rest hv => hopen ⟨rest, hv⟩
    rw [hnone]
    constructor
    · intro h
      obtain ⟨p, hp, -⟩ := h
      cases hp
    · intro h
      obtain ⟨body, after, hv, hafter, -⟩ := h
      exact absurd ⟨body, after, hv, hafter⟩ hclosed

/-- The list a rule has for a key: the entries of its last value. -/
theorem mem_lastList_iff {key : CStr} {block : List (CStr × CStr)} {s : Bytes} :
    (∃ p ∈ ((lastValue key block).map shkParseStrArray).getD [], p.bytes = s) ↔
      ∃ v, lastValue key block = some v ∧ StandsQuoted v s := by
  cases lastValue key block with
  | none => simp
  | some v => simpa using mem_shkParseStrArray_iff v s

end Shakti
