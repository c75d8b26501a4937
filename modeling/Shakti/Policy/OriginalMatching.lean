import Shakti.Lib.UnixPath
import Shakti.Policy.Matching

/-!
# Shakti.Policy.OriginalMatching

The matcher the port replaced, and where the two differ.

`RustOld.commandMatches` is `command_matches` of the Rust original. It compares directories and
names as paths, by their components; the port compares their bytes around the last slash.

* `SpelledApart` — the commands and patterns the two read differently: a directory or a name
  with slashes and `.` segments that the pattern's is written without, or nothing behind the
  last slash.
* `commandMatches_eq_original_iff` — everywhere else they agree.
-/

namespace Shakti

/-! ### The original -/

namespace RustOld

/-- `str::strip_suffix`. -/
def stripSuffix (s suffix : Bytes) : Option Bytes :=
  if suffix.isSuffixOf s then some (s.take (s.length - suffix.length)) else none

/-- The binary portion: `command.find(' ')`, and what stands before it. -/
def cmdBinary (command : CStr) : Bytes :=
  match command.bytes.findIdx? (· == 32) with
  | some idx => command.bytes.take idx
  | none => command.bytes

/-- `command_matches` of `validate.rs`. Paths are compared by their components. -/
def commandMatches (command pattern : CStr) : Bool :=
  if pattern = cstr "ALL" || pattern = cstr "*" then true
  else if command = pattern then true
  else
    match stripSuffix pattern.bytes [32, 42] with
    | some pre =>
        command.bytes == pre || (decide (pre.length < command.bytes.length)
          && command.bytes.getD pre.length 0 == 32 && pre.isPrefixOf command.bytes)
    | none =>
        match stripSuffix pattern.bytes [47, 42], UnixPath.parent (cmdBinary command) with
        | some dirPrefix, some parent =>
            decide (parent =
              UnixPath.components (if dirPrefix.isEmpty then [47] else dirPrefix))
        | _, _ =>
            if !pattern.bytes.contains 47 then
              match UnixPath.fileName (cmdBinary command) with
              | some basename => basename == pattern.bytes
              | none => false
            else false

theorem stripSuffix_append (a suffix : Bytes) : stripSuffix (a ++ suffix) suffix = some a := by
  simp [stripSuffix]

theorem stripSuffix_eq_none {s suffix : Bytes} (h : ¬ suffix <:+ s) :
    stripSuffix s suffix = none := by
  rw [stripSuffix, if_neg (by simpa using h)]

/-- Both take the same bytes for the binary. -/
theorem cmdBinary_eq (command : CStr) : cmdBinary command = binPortion command := by
  rw [cmdBinary, binPortion]
  induction command.bytes with
  | nil => rfl
  | cons c cs ih =>
      by_cases hc : c = 32
      · simp [List.findIdx?_cons, hc]
      · rw [List.findIdx?_cons, List.takeWhile_cons_of_pos (by simpa using hc), ← ih]
        cases cs.findIdx? (· == 32) <;> simp [hc]

/-! ### What the original matches -/

variable {c p : CStr}

theorem commandMatches_args {q : Bytes} (hp : p.bytes = q ++ [32, 42]) (hne : c ≠ p)
    (hwild : ¬ (p = cstr "ALL" ∨ p = cstr "*")) :
    commandMatches c p = true ↔ c.bytes = q ∨ q ++ [32] <+: c.bytes := by
  have hmore : ((q.length < c.bytes.length ∧ c.bytes.getD q.length 0 = 32) ∧ q <+: c.bytes) ↔
      q ++ [32] <+: c.bytes := by
    constructor
    · intro ⟨⟨hlt, hspace⟩, t, ht⟩
      rw [← ht] at hlt hspace ⊢
      cases t with
      | nil => simp at hlt
      | cons d t =>
          obtain rfl : d = 32 := by simpa using hspace
          exact ⟨t, by simp⟩
    · intro ⟨t, ht⟩
      rw [← ht]
      exact ⟨by simp, ⟨[32] ++ t, by simp⟩⟩
  rw [List.getD_eq_getElem?_getD] at hmore
  rw [commandMatches, hp, stripSuffix_append]
  simp [not_or.mp hwild, hne, hmore]

theorem commandMatches_directory {d : Bytes} (hp : p.IsDirectory d) (hne : c ≠ p)
    (hwild : ¬ (p = cstr "ALL" ∨ p = cstr "*")) (hargs : ¬ p.EndsWithArgs) :
    commandMatches c p = true ↔
      UnixPath.parent (binPortion c) = some (UnixPath.components (UnixPath.dirOf d)) := by
  rw [commandMatches, stripSuffix_eq_none hargs, show p.bytes = _ from hp, stripSuffix_append,
    cmdBinary_eq]
  cases UnixPath.parent (binPortion c) with
  | none => simp [not_or.mp hwild, hne]
  | some parent => simp [not_or.mp hwild, hne, UnixPath.dirOf]

theorem commandMatches_noWildcard (hne : c ≠ p) (hwild : ¬ (p = cstr "ALL" ∨ p = cstr "*"))
    (hargs : ¬ p.EndsWithArgs) (hdir : ¬ [47, 42] <:+ p.bytes) :
    commandMatches c p = true ↔
      47 ∉ p.bytes ∧ UnixPath.fileName (binPortion c) = some p.bytes := by
  rw [commandMatches, stripSuffix_eq_none hargs, stripSuffix_eq_none hdir, cmdBinary_eq]
  by_cases hslash : 47 ∈ p.bytes
  · simp [not_or.mp hwild, hne, hslash]
  · cases UnixPath.fileName (binPortion c) with
    | none => simp [not_or.mp hwild, hne, hslash]
    | some base => simp [not_or.mp hwild, hne, hslash]

end RustOld

/-! ### Where they differ -/

/-- Spellings of a binary that the port and the original read differently under a pattern. -/
inductive PathApart (bin : Bytes) (pattern : CStr) : Prop
  /-- A name in a directory that is the pattern's but for added slashes and `.` segments; some
  are added to the directory, or stand behind the name. -/
  | directorySpelling (d dir name tail : Bytes) : pattern.IsDirectory d →
      bin = dir ++ 47 :: (name ++ tail) → 47 ∉ name → ¬ UnixPath.Filler name →
      UnixPath.Respelled dir d → UnixPath.Trails tail → dir ≠ d ∨ tail ≠ [] →
      PathApart bin pattern
  /-- The directory itself, with a slash or `/.` behind it. -/
  | directoryItself (d base : Bytes) : pattern.IsDirectory d → bin = d ++ 47 :: base →
      base = [] ∨ base = [46] → PathApart bin pattern
  /-- The name, with slashes or `/.` behind it. -/
  | nameSpelling (dir tail : Bytes) : 47 ∉ pattern.bytes → ¬ UnixPath.Filler pattern.bytes →
      pattern.bytes ≠ [46, 46] → bin = dir ++ (pattern.bytes ++ tail) →
      dir = [] ∨ (∃ x, dir = x ++ [47]) → UnixPath.Trails tail → tail ≠ [] →
      PathApart bin pattern
  /-- A pattern that names no file. -/
  | noName : pattern.bytes = [] ∨ pattern.bytes = [46] ∨ pattern.bytes = [46, 46] →
      bin = pattern.bytes ∨ 47 :: pattern.bytes <:+ bin → PathApart bin pattern

/-- The port and the original read the command and the pattern differently. -/
structure SpelledApart (command pattern : CStr) : Prop where
  notWildcard : ¬ (pattern = cstr "ALL" ∨ pattern = cstr "*")
  notExact : command ≠ pattern
  notArgs : ¬ pattern.EndsWithArgs
  apart : PathApart (binPortion command) pattern

/-- In a directory byte by byte and as a path: the same but for the spellings apart. -/
theorem directory_agrees_iff {bin d : Bytes} {p : CStr} (hp : p.IsDirectory d) :
    ((∃ base, bin = d ++ 47 :: base ∧ 47 ∉ base) ↔
        UnixPath.parent bin = some (UnixPath.components (UnixPath.dirOf d))) ↔
      ¬ PathApart bin p := by
  have hsame : ∀ d', p.IsDirectory d' → d' = d := fun d' hd' =>
    (List.append_inj' (hd'.symm.trans hp) rfl).1
  have hslash : 47 ∈ p.bytes := by
    rw [show p.bytes = _ from hp]
    simp
  -- The original drops a last component that names nothing, so the parent would be its own.
  have hitself : ∀ base, bin = d ++ 47 :: base → UnixPath.Filler base →
      UnixPath.parent bin ≠ some (UnixPath.components (UnixPath.dirOf d)) := by
    intro base hbin hbase hparent
    rw [UnixPath.parent, hbin, UnixPath.components_slash hbase.notMem, hbase.segment,
      Option.toList_none, List.append_nil] at hparent
    exact UnixPath.parentOf_ne_self _ hparent
  constructor
  · intro hiff hapart
    cases hapart with
    | directorySpelling d' dir name tail hd' hbin hname hfill hrespelled htail hmore =>
        obtain rfl := hsame d' hd'
        have hparent := UnixPath.parent_eq_some_iff.mpr
          ⟨dir, name, tail, hbin, hname, hfill, hrespelled, htail⟩
        obtain ⟨base, hbase, hnoSlash⟩ := hiff.mpr hparent
        cases htail with
        | nil =>
            rw [List.append_nil] at hbin
            have hdir := ((append_cons_inj_of_notMem hname hnoSlash).mp
              (hbin.symm.trans hbase)).1
            exact hmore.elim (fun hne => hne hdir) (fun hne => hne rfl)
        | @slash tail s _ hs =>
            rw [← List.append_assoc, ← List.cons_append, ← List.append_assoc] at hbin
            obtain ⟨-, rfl⟩ := (append_cons_inj_of_notMem hs.notMem hnoSlash).mp
              (hbin.symm.trans hbase)
            exact hitself s hbase hs hparent
    | directoryItself d' base hd' hbin hbase =>
        obtain rfl := hsame d' hd'
        exact hitself base hbin hbase (hiff.mp
          ⟨base, hbin, UnixPath.Filler.notMem (show UnixPath.Filler base from hbase)⟩)
    | nameSpelling _ _ hno => exact hno hslash
    | noName hp' =>
        rcases hp' with h | h | h <;> simp [h] at hslash
  · intro hno
    constructor
    · intro hnamed
      obtain ⟨base, hbin, hbase⟩ := hnamed
      have hbase' : ¬ UnixPath.Filler base := fun h => hno (.directoryItself d base hp hbin h)
      -- The base is a component of its own, and what is left without it is the directory.
      obtain ⟨component, hsegment, -⟩ := UnixPath.exists_segment hbase'
      rw [UnixPath.parent, hbin, UnixPath.components_slash hbase]
      exact UnixPath.parentOf_append_segment hsegment
    · intro hparent
      obtain ⟨dir, name, tail, hbin, hname, hfill, hrespelled, htail⟩ :=
        UnixPath.parent_eq_some_iff.mp hparent
      by_cases hmore : dir ≠ d ∨ tail ≠ []
      · exact absurd (.directorySpelling d dir name tail hp hbin hname hfill hrespelled htail hmore)
          hno
      · obtain ⟨hdir, htail⟩ := not_or.mp hmore
        obtain rfl := not_not.mp hdir
        obtain rfl := not_not.mp htail
        exact ⟨name, by rw [hbin, List.append_nil], hname⟩

/-- Of a name byte by byte and as a path: the same but for the spellings apart. -/
theorem name_agrees_iff {bin : Bytes} {p : CStr} (hp : 47 ∉ p.bytes) :
    (bin = p.bytes ∨ 47 :: p.bytes <:+ bin ↔ UnixPath.fileName bin = some p.bytes) ↔
      ¬ PathApart bin p := by
  have hnoDirectory : ∀ d, ¬ p.IsDirectory d := by
    intro d hd
    exact hp (by rw [show p.bytes = _ from hd]; simp)
  constructor
  · intro hiff hapart
    cases hapart with
    | directorySpelling d _ _ _ hd => exact hnoDirectory d hd
    | directoryItself d _ hd => exact hnoDirectory d hd
    | nameSpelling dir tail _ hfill hdots hbin hdir htail hmore =>
        have hname := (UnixPath.fileName_eq_some_iff hp).mpr
          ⟨hfill, hdots, dir, tail, hbin, hdir, htail⟩
        -- Behind the last slash stands nothing, or a dot.
        obtain ⟨x, s, hs, hx⟩ : ∃ x s, UnixPath.Filler s ∧ bin = x ++ 47 :: s := by
          cases htail with
          | nil => exact absurd rfl hmore
          | @slash tail s _ hs =>
              exact ⟨dir ++ (p.bytes ++ tail), s, hs, by rw [hbin]; simp⟩
        rcases hiff.mpr hname with h | ⟨y, h⟩
        · exact hp (by rw [← h, hx]; simp)
        · obtain ⟨-, hsp⟩ := (append_cons_inj_of_notMem hs.notMem hp).mp (hx.symm.trans h.symm)
          exact hfill (hsp ▸ hs)
    | noName hno hbin =>
        obtain ⟨hne, hdot, hdots⟩ := UnixPath.fileName_eq_some (hiff.mp hbin)
        rcases hno with h | h | h
        · exact hne h
        · exact hdot h
        · exact hdots h
  · intro hno
    constructor
    · intro hbin
      have hname : ¬ (p.bytes = [] ∨ p.bytes = [46] ∨ p.bytes = [46, 46]) :=
        fun h => hno (.noName h hbin)
      simp only [not_or] at hname
      obtain ⟨hne, hdot, hdots⟩ := hname
      have hlast := fun comps => UnixPath.fileNameOf_append_segment comps hne hdot hdots
      rcases hbin with rfl | ⟨dir, rfl⟩
      · rw [UnixPath.fileName, UnixPath.components_of_notMem hp, if_neg hdot]
        exact hlast []
      · rw [UnixPath.fileName, UnixPath.components_slash hp]
        exact hlast _
    · intro hname
      obtain ⟨hfill, hdots, dir, tail, hbin, hdir, htail⟩ :=
        (UnixPath.fileName_eq_some_iff hp).mp hname
      by_cases hmore : tail = []
      · rw [hmore, List.append_nil] at hbin
        rcases hdir with rfl | ⟨x, rfl⟩
        · exact Or.inl hbin
        · exact Or.inr ⟨x, by rw [hbin, List.append_assoc]; rfl⟩
      · exact absurd (.nameSpelling dir tail hp hfill hdots hbin hdir htail hmore) hno

/-- **The port and the original.** They give the same answer exactly when the command and the
pattern are not spelled apart. -/
theorem commandMatches_eq_original_iff (c p : CStr) :
    commandMatches c p = RustOld.commandMatches c p ↔ ¬ SpelledApart c p := by
  by_cases hwild : p = cstr "ALL" ∨ p = cstr "*"
  · refine iff_of_true ?_ fun h => h.notWildcard hwild
    rcases hwild with rfl | rfl <;> simp [commandMatches, RustOld.commandMatches]
  by_cases hne : c = p
  · refine iff_of_true ?_ fun h => h.notExact hne
    rw [(commandMatches_iff c p).mpr (.exact hne)]
    simp [RustOld.commandMatches, hne]
  by_cases hargs : p.EndsWithArgs
  · refine iff_of_true ?_ fun h => h.notArgs hargs
    obtain ⟨q, hq⟩ := hargs
    rw [Bool.eq_iff_iff, commandMatches_args hq.symm,
      RustOld.commandMatches_args hq.symm hne hwild]
  -- What is left is the directory patterns and the patterns compared by name.
  have hapart : SpelledApart c p ↔ PathApart (binPortion c) p :=
    ⟨SpelledApart.apart, fun h => ⟨hwild, hne, hargs, h⟩⟩
  rw [hapart, Bool.eq_iff_iff]
  by_cases hdir : [47, 42] <:+ p.bytes
  · obtain ⟨d, hd⟩ := hdir
    have hp : p.IsDirectory d := hd.symm
    rw [commandMatches_directory hp, or_iff_right hne,
      RustOld.commandMatches_directory hp hne hwild hargs, directory_agrees_iff hp]
  rw [RustOld.commandMatches_noWildcard hne hwild hargs hdir]
  by_cases hslash : 47 ∈ p.bytes
  · have hp : p.NamesPath := ⟨hslash, hargs, fun d hd => hdir ⟨d, hd.symm⟩⟩
    rw [commandMatches_namesPath hp]
    refine iff_of_true (iff_of_false hne fun h => h.1 hslash) ?_
    intro h
    cases h with
    | directorySpelling d _ _ _ hd => exact hp.noDirectory d hd
    | directoryItself d _ hd => exact hp.noDirectory d hd
    | nameSpelling _ _ hno => exact hno hslash
    | noName hno => rcases hno with h | h | h <;> simp [h] at hslash
  · have hp : p.IsBasename :=
      ⟨hslash, hargs, fun h => hwild (Or.inl h), fun h => hwild (Or.inr h)⟩
    have hsuffix : (∃ dir, binPortion c = dir ++ 47 :: p.bytes) ↔
        47 :: p.bytes <:+ binPortion c := exists_congr fun _ => eq_comm
    rw [commandMatches_basename hp, or_iff_right hne, hsuffix, and_iff_right hslash,
      name_agrees_iff hslash]

/-- A deny pattern of the directory passes over the doubled slash, which the original sees
through; and the empty pattern matches a command, which it did not. -/
theorem commandMatches_ne_original :
    (commandMatches (cstr "/usr/bin//ls") (cstr "/usr/bin/*") = false ∧
      RustOld.commandMatches (cstr "/usr/bin//ls") (cstr "/usr/bin/*") = true) ∧
    commandMatches (cstr "/usr/bin/") (cstr "") = true ∧
      RustOld.commandMatches (cstr "/usr/bin/") (cstr "") = false := by
  decide

end Shakti
