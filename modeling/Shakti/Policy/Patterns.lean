import Mathlib.Data.List.GetD
import Shakti.Validate

/-!
# Shakti.Policy.Patterns

What the kinds of command patterns match.

`command_matches` tells the kinds of patterns apart by their last two bytes and by
their slashes. A pattern that names a path matches that very command
(`commandMatches_namesPath`); a directory pattern and a basename pattern look at the
command's binary portion (`commandMatches_directory`, `commandMatches_basename`).
-/

namespace Shakti

/-! ### The last slash -/

theorem lastIndex_eq_none {x : UInt8} {l : Bytes} (h : x ∉ l) : Scan.lastIndex x l = none := by
  have hnone : l.reverse.findIdx? (· = x) = none := by
    rw [List.findIdx?_eq_none_iff]
    intro y hy
    simpa using ne_of_mem_of_not_mem (List.mem_reverse.mp hy) h
  simp only [Scan.lastIndex, hnone]

theorem lastIndex_append {x : UInt8} {pre post : Bytes} (h : x ∉ post) :
    Scan.lastIndex x (pre ++ x :: post) = some pre.length := by
  have hpost : post.reverse.findIdx? (· = x) = none := by
    rw [List.findIdx?_eq_none_iff]
    intro y hy
    simpa using ne_of_mem_of_not_mem (List.mem_reverse.mp hy) h
  have hfind : (pre ++ x :: post).reverse.findIdx? (· = x) = some post.length := by
    rw [List.reverse_append, List.reverse_cons, List.append_assoc, List.findIdx?_append, hpost]
    simp [List.findIdx?_cons]
  simp only [Scan.lastIndex, hfind]
  rw [List.length_append, List.length_cons]
  congr 1
  omega

/-! ### The kinds of patterns -/

/-- A pattern that ends with ` *`. -/
def CStr.EndsWithArgs (pattern : CStr) : Prop := [32, 42] <:+ pattern.bytes

/-- The pattern of the binaries of a directory: the directory and `/*`. -/
def CStr.IsDirectory (pattern : CStr) (dir : Bytes) : Prop := pattern.bytes = dir ++ [47, 42]

/-- A pattern with a slash and without a trailing wildcard. -/
structure CStr.NamesPath (pattern : CStr) : Prop where
  slash : 47 ∈ pattern.bytes
  noArgs : ¬ pattern.EndsWithArgs
  noDirectory : ∀ dir, ¬ pattern.IsDirectory dir

/-- A pattern without a slash that is no wildcard. -/
structure CStr.IsBasename (pattern : CStr) : Prop where
  noSlash : 47 ∉ pattern.bytes
  noArgs : ¬ pattern.EndsWithArgs
  notAll : pattern ≠ cstr "ALL"
  notStar : pattern ≠ cstr "*"

theorem endsWithStar_iff {pattern : CStr} {c : UInt8} :
    endsWithStar pattern c = true ↔ [c, 42] <:+ pattern.bytes := by
  obtain ⟨l, hnul⟩ := pattern
  simp only [endsWithStar, CStr.length, CStr.load8, Bool.and_eq_true, beq_iff_eq]
  constructor
  · rintro ⟨⟨hlen, h1⟩, h2⟩
    replace hlen : 2 ≤ l.length := of_decide_eq_true hlen
    refine ⟨l.take (l.length - 2), ?_⟩
    rw [List.getD_eq_getElem _ _ (by omega)] at h1 h2
    have hdrop : l.drop (l.length - 2) = [c, 42] := by
      rw [List.drop_eq_getElem_cons (by omega), List.drop_eq_getElem_cons (by omega), h1,
        List.drop_eq_nil_of_le (by omega)]
      simp only [show l.length - 2 + 1 = l.length - 1 by omega, h2]
    rw [← hdrop, List.take_append_drop]
  · rintro ⟨d, rfl⟩
    simp

theorem memeq_self_iff {c p : CStr} :
    (c.length = p.length ∧ memeq c.bytes p.bytes c.length = true) ↔ c = p := by
  constructor
  · rintro ⟨hlen, heq⟩
    refine CStr.ext ?_
    have h : c.bytes.take c.length = p.bytes.take p.length := by
      rw [← hlen]
      simpa [memeq] using heq
    simpa [CStr.length] using h
  · rintro rfl
    simp [memeq]

theorem command_eq_binPortion_append (command : CStr) :
    command.bytes = binPortion command ++ command.bytes.dropWhile (· != 32) :=
  List.takeWhile_append_dropWhile.symm

/-! ### What they match -/

/-- A pattern that names a path matches that command line only. -/
theorem commandMatches_namesPath {c p : CStr} (hp : p.NamesPath) :
    commandMatches c p = true ↔ c = p := by
  have hall : p ≠ cstr "ALL" := by
    rintro rfl
    exact absurd hp.slash (by decide)
  have hstar : p ≠ cstr "*" := by
    rintro rfl
    exact absurd hp.slash (by decide)
  have hargs : endsWithStar p 32 = false :=
    Bool.eq_false_iff.mpr (fun h => hp.noArgs (endsWithStar_iff.mp h))
  have hdir : endsWithStar p 47 = false := by
    refine Bool.eq_false_iff.mpr (fun h => ?_)
    obtain ⟨d, hd⟩ := endsWithStar_iff.mp h
    exact hp.noDirectory d hd.symm
  have hslash : p.bytes.any (· == 47) = true := by
    simpa using hp.slash
  simp [commandMatches, hall, hstar, hargs, hdir, hslash, memeq_self_iff]

/-- The splits of a run of bytes at its last `x` agree. -/
theorem append_cons_inj_of_notMem {x : UInt8} {pre post pre' post' : Bytes} (h : x ∉ post)
    (h' : x ∉ post') : pre ++ x :: post = pre' ++ x :: post' ↔ pre = pre' ∧ post = post' := by
  constructor
  · intro heq
    have hlen : Scan.lastIndex x (pre ++ x :: post) = some pre.length := lastIndex_append h
    rw [heq, lastIndex_append h', Option.some_inj] at hlen
    obtain ⟨hpre, hpost⟩ := List.append_inj heq hlen.symm
    exact ⟨hpre, (List.cons.inj hpost).2⟩
  · rintro ⟨rfl, rfl⟩
    rfl

/-- A directory pattern matches itself and the binaries right in its directory. -/
theorem commandMatches_directory {c p : CStr} {dir : Bytes} (hp : p.IsDirectory dir) :
    commandMatches c p = true ↔
      c = p ∨ ∃ base, binPortion c = dir ++ 47 :: base ∧ 47 ∉ base := by
  have hall : p ≠ cstr "ALL" := by
    rintro rfl
    exact absurd (List.suffix_append dir [47, 42]) (hp ▸ by decide)
  have hstar : p ≠ cstr "*" := by
    rintro rfl
    exact absurd (List.suffix_append dir [47, 42]) (hp ▸ by decide)
  have hargs : endsWithStar p 32 = false := by
    refine Bool.eq_false_iff.mpr (fun h => ?_)
    obtain ⟨d, hd⟩ := endsWithStar_iff.mp h
    have := (List.append_inj' (hd.trans hp) rfl).2
    simp at this
  have hdir : endsWithStar p 47 = true := endsWithStar_iff.mpr ⟨dir, hp.symm⟩
  have hlen : p.length - 2 = dir.length := by
    simp [CStr.length, show p.bytes = _ from hp]
  -- Of the five tests only the one for `/*` is left.
  simp only [commandMatches, hall, hstar, hargs, hdir, hlen, if_false, if_true, memeq_self_iff,
    Bool.false_eq_true]
  split
  case isTrue heq => simp [heq]
  case isFalse hne =>
    rw [or_iff_right hne]
    have hc := command_eq_binPortion_append c
    generalize binPortion c = bin at *
    generalize c.bytes.dropWhile (· != 32) = rest at hc
    -- The source compares up to the last slash, which is the one in front of `base`.
    by_cases hslash : 47 ∈ bin
    · obtain ⟨pre, post, rfl, hpost⟩ := Scan.exists_last hslash
      have htake : pre.length = dir.length →
          memeq c.bytes p.bytes dir.length = decide (pre = dir) := by
        intro hpl
        rw [memeq, hc, show p.bytes = _ from hp, List.append_assoc, List.take_left' hpl,
          List.take_left' rfl, Bool.beq_eq_decide_eq]
      have hsplit : (∃ base, pre ++ 47 :: post = dir ++ 47 :: base ∧ 47 ∉ base) ↔
          pre = dir := by
        constructor
        · rintro ⟨base, heq, hbase⟩
          exact ((append_cons_inj_of_notMem hpost hbase).mp heq).1
        · rintro rfl
          exact ⟨post, rfl, hpost⟩
      rw [lastIndex_append hpost, hsplit]
      dsimp only
      split
      case isTrue h0 =>
        rw [decide_eq_true_eq, List.eq_nil_of_length_eq_zero h0, List.length_eq_zero_iff]
      case isFalse =>
        constructor
        · intro h
          obtain ⟨hpl, hm⟩ := Bool.and_eq_true_iff.mp h
          rw [htake (by simpa using hpl)] at hm
          simpa using hm
        · rintro rfl
          simp [htake rfl]
    · rw [lastIndex_eq_none hslash]
      refine iff_of_false Bool.false_ne_true ?_
      rintro ⟨base, rfl, -⟩
      simp at hslash

/-- A basename pattern matches itself and the binaries of that name. -/
theorem commandMatches_basename {c p : CStr} (hp : p.IsBasename) :
    commandMatches c p = true ↔
      c = p ∨ binPortion c = p.bytes ∨ ∃ dir, binPortion c = dir ++ 47 :: p.bytes := by
  have hargs : endsWithStar p 32 = false :=
    Bool.eq_false_iff.mpr (fun h => hp.noArgs (endsWithStar_iff.mp h))
  have hdir : endsWithStar p 47 = false := by
    refine Bool.eq_false_iff.mpr (fun h => ?_)
    obtain ⟨d, hd⟩ := endsWithStar_iff.mp h
    exact hp.noSlash (hd ▸ by simp)
  have hslash : p.bytes.any (· == 47) = false := by
    simpa [List.any_eq_false] using fun x hx => ne_of_mem_of_not_mem hx hp.noSlash
  simp only [commandMatches, hp.notAll, hp.notStar, hargs, hdir, hslash, if_false, if_true,
    memeq_self_iff, Bool.false_eq_true, Bool.not_false]
  split
  case isTrue heq => simp [heq]
  case isFalse hne =>
    rw [or_iff_right hne]
    have hc := command_eq_binPortion_append c
    generalize binPortion c = bin at *
    generalize c.bytes.dropWhile (· != 32) = rest at hc
    -- What the source compares is `name`, the binary portion behind its last slash.
    have hname : ∀ name start, bin.drop start = name → start ≤ bin.length →
        ((decide (bin.length - start = p.length) &&
          memeq (c.bytes.drop start) p.bytes p.length) = true ↔ name = p.bytes) := by
      rintro name start rfl hstart
      rw [hc, List.drop_append_of_le_length hstart, ← List.length_drop, Bool.and_eq_true,
        decide_eq_true_eq]
      constructor
      · rintro ⟨hlen, hm⟩
        rw [memeq, List.take_left' hlen] at hm
        simpa [CStr.length] using hm
      · intro heq
        have hlen : (bin.drop start).length = p.length := congrArg List.length heq
        refine ⟨hlen, ?_⟩
        rw [memeq, List.take_left' hlen, heq]
        simp [CStr.length]
    by_cases hbin : 47 ∈ bin
    · obtain ⟨pre, post, rfl, hpost⟩ := Scan.exists_last hbin
      rw [lastIndex_append hpost, hname post (pre.length + 1) (by simp) (by simp)]
      constructor
      · rintro rfl
        exact Or.inr ⟨pre, rfl⟩
      · rintro (heq | ⟨dir, heq⟩)
        · exact absurd (heq ▸ hbin) hp.noSlash
        · exact ((append_cons_inj_of_notMem hpost hp.noSlash).mp heq).2
    · rw [lastIndex_eq_none hbin, hname bin 0 rfl (Nat.zero_le _)]
      refine (or_iff_left ?_).symm
      rintro ⟨dir, rfl⟩
      simp at hbin

end Shakti
