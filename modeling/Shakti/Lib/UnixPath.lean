import Mathlib.Data.List.Basic
import Shakti.Lib.Scan

/-!
# Shakti.Lib.UnixPath

**Unix paths by their components.** Two paths are the same when their components are: repeated
slashes and interior `.` segments leave no component, a trailing slash leaves none either, a
leading `.` and every `..` stay.

* `components` — the components of a path, given as bytes.
* `parent`, `fileName` — without the last component, and the last component when it is a name.
  A parent is given by its components.
* `components_slash` — what the text after the last slash adds.
* `Respelled` — the same path on the bytes, but for slashes and `.` segments; it is the same
  directory then, and only then (`components_dirOf_eq_iff`). `parent_eq_some_iff` and
  `fileName_eq_some_iff` say on the bytes what a parent and a file name are.
-/

namespace UnixPath

/-- A component of a path. -/
inductive Component
  | rootDir
  | curDir
  | parentDir
  | normal (name : List UInt8)
  deriving DecidableEq

/-- The component a segment between slashes stands for, if any. -/
def segment (s : List UInt8) : Option Component :=
  if s = [] then none
  else if s = [46] then none
  else if s = [46, 46] then some .parentDir
  else some (.normal s)

/-- The component in front of those of the segments: the root of an absolute path, and the
leading `.` of a relative one. -/
def front (path : List UInt8) : List Component :=
  if path.head? = some 47 then [.rootDir]
  else if (path.splitOn 47).head? = some [46] then [.curDir]
  else []

/-- The components of a path. -/
def components (path : List UInt8) : List Component :=
  front path ++ (path.splitOn 47).filterMap segment

/-- The path without its last component; the root and the empty path have no parent. -/
def parentOf (comps : List Component) : Option (List Component) :=
  match comps.getLast? with
  | none => none
  | some .rootDir => none
  | some _ => some comps.dropLast

/-- The last component, when it is a name. -/
def fileNameOf (comps : List Component) : Option (List UInt8) :=
  match comps.getLast? with
  | some (.normal name) => some name
  | _ => none

/-- The components of the parent of a path. -/
def parent (path : List UInt8) : Option (List Component) := parentOf (components path)

/-- The file name of a path. -/
def fileName (path : List UInt8) : Option (List UInt8) := fileNameOf (components path)

/-! ### The last segment -/

/-- The directory before a slash: the root when nothing stands there. -/
def dirOf (dir : List UInt8) : List UInt8 := if dir = [] then [47] else dir

/-- What stands behind the last slash adds the component of its segment. -/
theorem components_slash {base : List UInt8} (h : 47 ∉ base) (dir : List UInt8) :
    components (dir ++ 47 :: base) = components (dirOf dir) ++ (segment base).toList := by
  have hsplit : (dir ++ 47 :: base).splitOn 47 = dir.splitOn 47 ++ [base] := by
    rw [List.splitOn_append_cons_self, List.splitOn_eq_singleton h]
  cases dir with
  | nil =>
      have hroot : ([47] : List UInt8).splitOn 47 = [[], []] := by decide
      rw [List.nil_append, List.splitOn_nil] at hsplit
      rw [List.nil_append, components, hsplit, dirOf, if_pos rfl, components, hroot]
      have hnil : segment [] = none := rfl
      cases hs : segment base <;> simp [front, hs, hnil]
  | cons c cs =>
      have hfront : front (c :: cs ++ 47 :: base) = front (c :: cs) := by
        rw [front, front, hsplit, List.head?_append_of_ne_nil _ (List.splitOn_ne_nil _ _)]
        rfl
      rw [components, hfront, hsplit, List.filterMap_append, dirOf, if_neg (by simp), components,
        List.append_assoc]
      cases hs : segment base <;> simp [hs]

/-- A path without a slash. -/
theorem components_of_notMem {path : List UInt8} (h : 47 ∉ path) :
    components path = if path = [46] then [.curDir] else (segment path).toList := by
  have hhead : path.head? ≠ some 47 := by
    intro hc
    exact h (List.mem_of_mem_head? hc)
  rw [components, front, if_neg hhead, List.splitOn_eq_singleton h]
  by_cases hdot : path = [46]
  · simp [hdot, segment]
  · cases hs : segment path <;> simp [hdot, hs]

/-- The parent of a path with a name behind its last slash is the directory before it. -/
theorem parentOf_append_segment {comps : List Component} {base : List UInt8} {c : Component}
    (h : segment base = some c) : parentOf (comps ++ (segment base).toList) = some comps := by
  have hroot : c ≠ .rootDir := by
    rintro rfl
    unfold segment at h
    split_ifs at h <;> cases h
  rw [h]
  cases c <;> simp_all [parentOf]

theorem parentOf_eq_some {comps parent : List Component} (h : parentOf comps = some parent) :
    comps ≠ [] ∧ parent = comps.dropLast := by
  rw [parentOf] at h
  cases hlast : comps.getLast? with
  | none =>
      rw [hlast] at h
      cases h
  | some c =>
      refine ⟨?_, ?_⟩
      · rintro rfl
        simp at hlast
      · rw [hlast] at h
        cases c with
        | rootDir => cases h
        | _ => exact (Option.some_inj.mp h).symm

/-- No path is its own parent. -/
theorem parentOf_ne_self (comps : List Component) : parentOf comps ≠ some comps := by
  intro h
  obtain ⟨hne, heq⟩ := parentOf_eq_some h
  have hlen := congrArg List.length heq
  have hpos := List.length_pos_iff.mpr hne
  rw [List.length_dropLast] at hlen
  omega

theorem fileNameOf_append_segment (comps : List Component) {base : List UInt8} (hne : base ≠ [])
    (hdot : base ≠ [46]) (hdots : base ≠ [46, 46]) :
    fileNameOf (comps ++ (segment base).toList) = some base := by
  simp [segment, hne, hdot, hdots, fileNameOf]

/-- A file name is neither empty nor one or two dots. -/
theorem fileName_eq_some {path name : List UInt8} (h : fileName path = some name) :
    name ≠ [] ∧ name ≠ [46] ∧ name ≠ [46, 46] := by
  have hmem : Component.normal name ∈ components path := by
    unfold fileName fileNameOf at h
    split at h
    case h_1 c hlast =>
      cases h
      exact List.mem_of_getLast? hlast
    case h_2 => cases h
  have hfront : Component.normal name ∉ front path := by
    unfold front
    split_ifs <;> simp
  obtain ⟨s, -, hs⟩ := List.mem_filterMap.mp ((List.mem_append.mp hmem).resolve_left hfront)
  unfold segment at hs
  split_ifs at hs with hnil hdot hdots
  · simp at hs
  · obtain rfl : s = name := by simpa using hs
    exact ⟨hnil, hdot, hdots⟩

/-! ### The same path, spelled otherwise -/

/-- What stands between two slashes and names nothing. -/
def Filler (s : List UInt8) : Prop := s = [] ∨ s = [46]

/-- Slashes behind a path, each with nothing or a dot behind it. -/
inductive Trails : List UInt8 → Prop
  | nil : Trails []
  | slash {tail s : List UInt8} : Trails tail → Filler s → Trails (tail ++ 47 :: s)

/-- The same segments between the slashes, but for slashes and `.` segments that one of the two
has more than the other. -/
inductive Respelled : List UInt8 → List UInt8 → Prop
  | first {s : List UInt8} : 47 ∉ s → Respelled s s
  | segment {x y s : List UInt8} : 47 ∉ s → Respelled x y →
      Respelled (x ++ 47 :: s) (y ++ 47 :: s)
  | left {x y s : List UInt8} : Filler s → Respelled x y → Respelled (x ++ 47 :: s) y
  | right {x y s : List UInt8} : Filler s → Respelled x y → Respelled x (y ++ 47 :: s)

theorem Filler.notMem {s : List UInt8} (h : Filler s) : 47 ∉ s := by
  rcases h with rfl | rfl <;> decide

theorem Filler.segment {s : List UInt8} (h : Filler s) : segment s = none := by
  rcases h with rfl | rfl <;> decide

theorem exists_segment {s : List UInt8} (h : ¬ Filler s) :
    ∃ c, UnixPath.segment s = some c ∧ c ≠ .rootDir := by
  rw [Filler, not_or] at h
  rw [UnixPath.segment, if_neg h.1, if_neg h.2]
  split_ifs <;> exact ⟨_, rfl, nofun⟩

theorem segment_inj {s t : List UInt8} (hs : ¬ Filler s) (ht : ¬ Filler t)
    (h : UnixPath.segment s = UnixPath.segment t) : s = t := by
  rw [Filler, not_or] at hs ht
  rw [UnixPath.segment, UnixPath.segment, if_neg hs.1, if_neg hs.2, if_neg ht.1, if_neg ht.2] at h
  split_ifs at h with h₁ h₂ h₂
  · rw [h₁, h₂]
  · cases h
  · cases h
  · simpa using h

/-- A path is one segment, or a path with a slash and a segment behind it. -/
@[elab_as_elim] theorem path_induction {motive : List UInt8 → Prop}
    (first : ∀ s, 47 ∉ s → motive s)
    (slash : ∀ x s, 47 ∉ s → motive x → motive (x ++ 47 :: s)) (p : List UInt8) : motive p := by
  induction hlen : p.length using Nat.strong_induction_on generalizing p with
  | _ n ih =>
      by_cases h : (47 : UInt8) ∈ p
      · obtain ⟨x, s, rfl, hs⟩ := Scan.exists_last h
        exact slash x s hs (ih x.length (by simp at hlen; omega) x rfl)
      · exact first p h

theorem components_dirOf_slash {s : List UInt8} (h : 47 ∉ s) (x : List UInt8) :
    components (dirOf (x ++ 47 :: s)) = components (dirOf x) ++ (UnixPath.segment s).toList := by
  rw [dirOf, if_neg (by simp), components_slash h]

theorem dirOf_of_ne_nil {x : List UInt8} (h : x ≠ []) : dirOf x = x := if_neg h

/-- A directory without a slash in it has one component, and the directory has the spelling that
the component has. -/
theorem components_dirOf_first {s : List UInt8} (h : 47 ∉ s) :
    ∃ c, components (dirOf s) = [c] ∧
      (c = .rootDir ∧ s = [] ∨ c = .curDir ∧ s = [46] ∨
        UnixPath.segment s = some c ∧ ¬ Filler s) := by
  by_cases hnil : s = []
  · subst hnil
    exact ⟨.rootDir, by decide, Or.inl ⟨rfl, rfl⟩⟩
  rw [dirOf_of_ne_nil hnil, components_of_notMem h]
  by_cases hdot : s = [46]
  · exact ⟨.curDir, by rw [if_pos hdot], Or.inr (Or.inl ⟨rfl, hdot⟩)⟩
  · have hfill : ¬ Filler s := not_or.mpr ⟨hnil, hdot⟩
    obtain ⟨c, hc, -⟩ := exists_segment hfill
    exact ⟨c, by rw [if_neg hdot, hc]; rfl, Or.inr (Or.inr ⟨hc, hfill⟩)⟩

theorem components_dirOf_ne_nil (x : List UInt8) : components (dirOf x) ≠ [] := by
  induction x using path_induction with
  | first s h =>
      obtain ⟨c, hc, -⟩ := components_dirOf_first h
      rw [hc]
      exact List.cons_ne_nil c []
  | slash x s h ih =>
      rw [components_dirOf_slash h]
      exact fun hnil => ih (List.append_eq_nil_iff.mp hnil).1

theorem Respelled.components_eq {x y : List UInt8} (h : Respelled x y) :
    components (dirOf x) = components (dirOf y) := by
  induction h with
  | first => rfl
  | segment hs _ ih => rw [components_dirOf_slash hs, components_dirOf_slash hs, ih]
  | left hs _ ih =>
      rw [components_dirOf_slash hs.notMem, hs.segment, ih, Option.toList_none, List.append_nil]
  | right hs _ ih =>
      rw [components_dirOf_slash hs.notMem, hs.segment, ih, Option.toList_none, List.append_nil]

/-- A directory whose only component is that of a first segment. -/
theorem respelled_first {s y : List UInt8} (hs : 47 ∉ s)
    (h : components (dirOf s) = components (dirOf y)) : Respelled s y := by
  induction y using path_induction with
  | first t ht =>
      obtain ⟨c, hc, hcs⟩ := components_dirOf_first hs
      obtain ⟨d, hd, hdt⟩ := components_dirOf_first ht
      rw [hc, hd, List.cons.injEq] at h
      obtain ⟨rfl, -⟩ := h
      have hst : s = t := by
        rcases hcs with ⟨rfl, hs'⟩ | ⟨rfl, hs'⟩ | ⟨hseg, hs'⟩
        · rcases hdt with ⟨-, ht'⟩ | ⟨h, -⟩ | ⟨h, ht'⟩
          · rw [hs', ht']
          · cases h
          · obtain ⟨c, hc', hroot⟩ := exists_segment ht'
            exact absurd (Option.some.inj (hc'.symm.trans h)) hroot
        · rcases hdt with ⟨h, -⟩ | ⟨-, ht'⟩ | ⟨h, ht'⟩
          · cases h
          · rw [hs', ht']
          · rw [UnixPath.segment] at h
            split_ifs at h <;> cases h
        · rcases hdt with ⟨rfl, -⟩ | ⟨rfl, -⟩ | ⟨h, ht'⟩
          · obtain ⟨c, hc', hroot⟩ := exists_segment hs'
            exact absurd (Option.some.inj (hc'.symm.trans hseg)) hroot
          · rw [UnixPath.segment] at hseg
            split_ifs at hseg <;> cases hseg
          · exact segment_inj hs' ht' (hseg.trans h.symm)
      rw [hst]
      exact .first ht
  | slash y t ht ih =>
      rw [components_dirOf_slash ht] at h
      by_cases hfill : Filler t
      · rw [hfill.segment, Option.toList_none, List.append_nil] at h
        exact .right hfill (ih h)
      · obtain ⟨c, hc, -⟩ := components_dirOf_first hs
        obtain ⟨d, hd, -⟩ := exists_segment hfill
        rw [hc, hd] at h
        have hlen := congrArg List.length h
        have hpos := List.length_pos_iff.mpr (components_dirOf_ne_nil y)
        rw [List.length_append, Option.toList_some, List.length_singleton,
          List.length_singleton] at hlen
        omega

theorem Respelled.symm {x y : List UInt8} (h : Respelled x y) : Respelled y x := by
  induction h with
  | first hs => exact .first hs
  | segment hs _ ih => exact .segment hs ih
  | left hs _ ih => exact .right hs ih
  | right hs _ ih => exact .left hs ih

/-- **Two directories are the same as paths** exactly when they are spelled alike but for slashes
and `.` segments. -/
theorem components_dirOf_eq_iff {x y : List UInt8} :
    components (dirOf x) = components (dirOf y) ↔ Respelled x y := by
  refine ⟨fun h => ?_, Respelled.components_eq⟩
  induction x using path_induction generalizing y with
  | first s hs => exact respelled_first hs h
  | slash x s hs ihx =>
      by_cases hfill : Filler s
      · refine .left hfill (ihx ?_)
        rwa [components_dirOf_slash hs, hfill.segment, Option.toList_none, List.append_nil] at h
      · obtain ⟨c, hc, -⟩ := exists_segment hfill
        induction y using path_induction with
        | first t ht => exact (respelled_first ht h.symm).symm
        | slash y t ht ihy =>
            by_cases hfill' : Filler t
            · refine .right hfill' (ihy ?_)
              rwa [components_dirOf_slash ht, hfill'.segment, Option.toList_none,
                List.append_nil] at h
            · obtain ⟨d, hd, -⟩ := exists_segment hfill'
              rw [components_dirOf_slash hs, components_dirOf_slash ht, hc, hd] at h
              obtain ⟨hxy, hcd⟩ := List.append_inj' h rfl
              have hst : s = t := segment_inj hfill hfill' (by
                rw [hc, hd]
                exact congrArg some (List.cons.inj hcd).1)
              rw [hst]
              exact .segment ht (ihx hxy)

/-! ### The parent and the name, on the bytes -/

theorem components_trails {x tail : List UInt8} (hx : x ≠ []) (h : Trails tail) :
    components (x ++ tail) = components x := by
  induction h with
  | nil => rw [List.append_nil]
  | @slash tail s _ hs ih =>
      have hne : x ++ tail ≠ [] := by simp [hx]
      rw [← List.append_assoc, components_slash hs.notMem, hs.segment, Option.toList_none,
        List.append_nil, dirOf_of_ne_nil hne, ih]

/-- The parent of a path, on its bytes: what stands before the last name in it. -/
theorem parent_eq_some_iff {p d : List UInt8} :
    parent p = some (components (dirOf d)) ↔
      ∃ dir name tail, p = dir ++ 47 :: (name ++ tail) ∧ 47 ∉ name ∧ ¬ Filler name ∧
        Respelled dir d ∧ Trails tail := by
  constructor
  · intro h
    induction p using path_induction with
    | first s hs =>
        rw [parent] at h
        obtain ⟨-, hd⟩ := parentOf_eq_some h
        have hone : (components s).dropLast = [] := by
          rw [components_of_notMem hs]
          split
          · rfl
          · cases UnixPath.segment s <;> rfl
        exact absurd (hd.trans hone) (components_dirOf_ne_nil d)
    | slash x s hs ih =>
        rw [parent, components_slash hs] at h
        by_cases hfill : Filler s
        · rw [hfill.segment, Option.toList_none, List.append_nil] at h
          by_cases hx : x = []
          · subst hx
            have hroot : parentOf (components (dirOf [])) = none := by decide
            rw [hroot] at h
            cases h
          · rw [dirOf_of_ne_nil hx] at h
            obtain ⟨dir, name, tail, rfl, hname, hfill', hsame, htail⟩ := ih h
            exact ⟨dir, name, tail ++ 47 :: s, by simp, hname, hfill', hsame, .slash htail hfill⟩
        · obtain ⟨c, hc, -⟩ := exists_segment hfill
          rw [parentOf_append_segment hc] at h
          exact ⟨x, s, [], by simp, hs, hfill,
            components_dirOf_eq_iff.mp (Option.some.inj h), .nil⟩
  · intro ⟨dir, name, tail, hp, hname, hfill, hsame, htail⟩
    obtain ⟨c, hc, -⟩ := exists_segment hfill
    have hne : dir ++ 47 :: name ≠ [] := by simp
    rw [parent, hp, ← List.cons_append, ← List.append_assoc, components_trails hne htail,
      components_slash hname, parentOf_append_segment hc, hsame.components_eq]

/-- The name of a path, on its bytes. -/
theorem fileName_eq_some_iff {p name : List UInt8} (hname : 47 ∉ name) :
    fileName p = some name ↔ ¬ Filler name ∧ name ≠ [46, 46] ∧
      ∃ dir tail, p = dir ++ (name ++ tail) ∧ (dir = [] ∨ ∃ x, dir = x ++ [47]) ∧
        Trails tail := by
  constructor
  · intro h
    obtain ⟨hnil, hdot, hdots⟩ := fileName_eq_some h
    refine ⟨not_or.mpr ⟨hnil, hdot⟩, hdots, ?_⟩
    induction p using path_induction with
    | first s hs =>
        rw [fileName, components_of_notMem hs] at h
        split_ifs at h with hs'
        · simp [fileNameOf] at h
        · rw [UnixPath.segment] at h
          split_ifs at h with h₁ h₂
          · simp [fileNameOf] at h
          · simp [fileNameOf] at h
          · obtain rfl : s = name := by simpa [fileNameOf] using h
            exact ⟨[], [], by simp, Or.inl rfl, .nil⟩
    | slash x s hs ih =>
        rw [fileName, components_slash hs] at h
        by_cases hfill : Filler s
        · rw [hfill.segment, Option.toList_none, List.append_nil] at h
          by_cases hx : x = []
          · subst hx
            have hroot : fileNameOf (components (dirOf [])) = none := by decide
            rw [hroot] at h
            cases h
          · rw [dirOf_of_ne_nil hx] at h
            obtain ⟨dir, tail, rfl, hdir, htail⟩ := ih h
            exact ⟨dir, tail ++ 47 :: s, by simp, hdir, .slash htail hfill⟩
        · rw [Filler, not_or] at hfill
          rw [UnixPath.segment, if_neg hfill.1, if_neg hfill.2] at h
          split_ifs at h with h₁
          · simp [fileNameOf] at h
          · obtain rfl : s = name := by simpa [fileNameOf] using h
            exact ⟨x ++ [47], [], by simp, Or.inr ⟨x, rfl⟩, .nil⟩
  · intro ⟨hfill, hdots, dir, tail, hp, hdir, htail⟩
    obtain ⟨hnil, hdot⟩ := not_or.mp hfill
    have hne : dir ++ name ≠ [] := by simp [hnil]
    rw [fileName, hp, ← List.append_assoc, components_trails hne htail]
    rcases hdir with rfl | ⟨x, rfl⟩
    · rw [List.nil_append, components_of_notMem hname, if_neg hdot]
      exact fileNameOf_append_segment [] hnil hdot hdots
    · rw [List.append_assoc, List.singleton_append, components_slash hname]
      exact fileNameOf_append_segment _ hnil hdot hdots

end UnixPath
