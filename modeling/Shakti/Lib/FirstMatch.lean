import Mathlib.Data.List.Basic

/-!
# Shakti.Lib.FirstMatch

**First-match rule lists.** A request is decided by the first rule of a list that
decides it, and denied when none does.

* `First p rs pre r` — `r` is the first element of `rs` with `p`, after `pre`.
* `Grants decides grants rs` — the first element that decides grants. Lists are compared
  by what they grant: behind a common part (`grants_append_imp_iff`), and with some
  elements left out (`grants_kept_imp_iff`).
* `KeyedRules` — rules that decide for everybody, or for whoever holds their key.
  `Granted rs G` is the outcome for a holder of the keys `G`.
* `granted_mono_iff` — when holding more keys can never lose a grant: exactly when
  no denying rule that can decide stands before a granting rule that can decide.
-/

namespace FirstMatch

variable {ρ κ : Type}

/-! ### The first element with a property -/

/-- `r` is the first element of `rs` that satisfies `p`, and `pre` stands before it. -/
def First (p : ρ → Prop) (rs pre : List ρ) (r : ρ) : Prop :=
  (∃ post, rs = pre ++ r :: post) ∧ p r ∧ ∀ q ∈ pre, ¬ p q

variable {p : ρ → Prop} {rs pre pre' post' : List ρ} {r s : ρ}

theorem exists_first (hr : r ∈ rs) (hp : p r) : ∃ pre s, First p rs pre s := by
  induction rs with
  | nil => simp at hr
  | cons a rs ih =>
      by_cases ha : p a
      · exact ⟨[], a, ⟨rs, rfl⟩, ha, by simp⟩
      · have hr' : r ∈ rs := by
          rcases List.mem_cons.mp hr with rfl | hr'
          · exact absurd hp ha
          · exact hr'
        obtain ⟨pre, s, ⟨post, rfl⟩, hs, hpre⟩ := ih hr'
        refine ⟨a :: pre, s, ⟨post, rfl⟩, hs, fun q hq => ?_⟩
        rcases List.mem_cons.mp hq with rfl | hq
        · exact ha
        · exact hpre q hq

/-- Any element with `p` is the first one, or stands after it. -/
theorem First.le (h : First p rs pre r) (hrs : rs = pre' ++ s :: post') (hs : p s) :
    (pre = pre' ∧ r = s) ∨ ∃ mid, pre' = pre ++ r :: mid := by
  obtain ⟨⟨post, rfl⟩, hr, hpre⟩ := h
  rcases List.append_eq_append_iff.mp hrs with ⟨as, rfl, has⟩ | ⟨bs, rfl, hbs⟩
  · cases as with
    | nil => exact Or.inl ⟨by simp, by simpa using (List.cons.inj has).1⟩
    | cons a as =>
        obtain ⟨rfl, -⟩ := List.cons.inj has
        exact Or.inr ⟨as, rfl⟩
  · cases bs with
    | nil => exact Or.inl ⟨by simp, by simpa using (List.cons.inj hbs).1.symm⟩
    | cons b bs =>
        obtain ⟨rfl, -⟩ := List.cons.inj hbs
        exact absurd hs (hpre s (by simp))

/-- In front of the list, an element without `p` does not matter. -/
theorem First.cons (h : First p rs pre r) (hs : ¬ p s) : First p (s :: rs) (s :: pre) r := by
  obtain ⟨⟨post, rfl⟩, hr, hpre⟩ := h
  refine ⟨⟨post, rfl⟩, hr, ?_⟩
  intro q hq
  rcases List.mem_cons.mp hq with rfl | hq
  · exact hs
  · exact hpre q hq

theorem First.unique (h : First p rs pre r) (h' : First p rs pre' s) : pre = pre' ∧ r = s := by
  obtain ⟨⟨post', hrs⟩, hs, hpre'⟩ := h'
  rcases h.le hrs hs with heq | ⟨mid, rfl⟩
  · exact heq
  · exact absurd h.2.1 (hpre' r (by simp))

/-! ### What a list grants -/

variable {decides grants : ρ → Prop}

/-- The first element that decides grants. -/
def Grants (decides grants : ρ → Prop) (rs : List ρ) : Prop :=
  ∃ pre r, First decides rs pre r ∧ grants r

/-- A list does not grant when its first element that decides does not, or none decides. -/
theorem not_grants_iff :
    ¬ Grants decides grants rs ↔ ∀ pre r, First decides rs pre r → ¬ grants r :=
  ⟨fun h pre r hfirst hg => h ⟨pre, r, hfirst, hg⟩, fun h ⟨pre, r, hfirst, hg⟩ => h pre r hfirst hg⟩

theorem not_grants_nil : ¬ Grants decides grants ([] : List ρ) := by
  rintro ⟨pre, r, ⟨⟨post, hrs⟩, -⟩, -⟩
  simp at hrs

theorem grants_cons_iff {r : ρ} {rs : List ρ} :
    Grants decides grants (r :: rs) ↔
      (decides r ∧ grants r) ∨ (¬ decides r ∧ Grants decides grants rs) := by
  constructor
  · rintro ⟨pre, s, ⟨⟨post, hrs⟩, hs, hpre⟩, hg⟩
    cases pre with
    | nil =>
        obtain ⟨rfl, -⟩ := List.cons.inj hrs
        exact Or.inl ⟨hs, hg⟩
    | cons q pre =>
        obtain ⟨rfl, hrs'⟩ := List.cons.inj hrs
        exact Or.inr ⟨hpre r (by simp), pre, s, ⟨⟨post, hrs'⟩, hs,
          fun q hq => hpre q (by simp [hq])⟩, hg⟩
  · rintro (⟨hr, hg⟩ | ⟨hr, pre, s, ⟨⟨post, rfl⟩, hs, hpre⟩, hg⟩)
    · exact ⟨[], r, ⟨⟨rs, rfl⟩, hr, by simp⟩, hg⟩
    · refine ⟨r :: pre, s, ⟨⟨post, rfl⟩, hs, fun q hq => ?_⟩, hg⟩
      rcases List.mem_cons.mp hq with rfl | hq
      · exact hr
      · exact hpre q hq

/-- Behind elements that do not decide, the rest grants. -/
theorem grants_append_iff {as bs : List ρ} (has : ∀ a ∈ as, ¬ decides a) :
    Grants decides grants (as ++ bs) ↔ Grants decides grants bs := by
  induction as with
  | nil => rfl
  | cons a as ih =>
      rw [List.cons_append, grants_cons_iff, ih fun q hq => has q (by simp [hq])]
      simp [has a]

/-- What stands behind an element that decides does not matter. -/
theorem grants_append_of_decided {as bs cs : List ρ} (has : ∃ a ∈ as, decides a) :
    Grants decides grants (as ++ bs) ↔ Grants decides grants (as ++ cs) := by
  induction as with
  | nil => simp at has
  | cons a as ih =>
      rw [List.cons_append, List.cons_append, grants_cons_iff, grants_cons_iff]
      by_cases ha : decides a
      · simp [ha]
      · obtain ⟨q, hq, hd⟩ := has
        have hq' : q ∈ as := (List.mem_cons.mp hq).resolve_left fun h => ha (h ▸ hd)
        rw [ih ⟨q, hq', hd⟩]

/-- Two lists with a common part in front: one grants no more than the other exactly when
the common part decides, or the rest of the one grants no more than the rest of the
other. -/
theorem grants_append_imp_iff {as bs cs : List ρ} :
    (Grants decides grants (as ++ bs) → Grants decides grants (as ++ cs)) ↔
      ((∀ a ∈ as, ¬ decides a) → Grants decides grants bs → Grants decides grants cs) := by
  by_cases has : ∀ a ∈ as, ¬ decides a
  · rw [grants_append_iff has, grants_append_iff has]
    exact ⟨fun himp _ => himp, fun himp => himp has⟩
  · have hex : ∃ a ∈ as, decides a := by
      push Not at has
      exact has
    exact ⟨fun _ hno => absurd hno has, fun _ => (grants_append_of_decided hex).mp⟩

/-- Two lists element by element, where an element of the second that is passed over is
passed over in the first, and one that grants grants in the first: what the second
grants, the first grants through the same element. -/
theorem Grants.of_pairs {R : ρ → ρ → Prop} {as bs : List ρ} (hpairs : List.Forall₂ R as bs)
    (hpass : ∀ {a b}, R a b → ¬ decides b → ¬ decides a)
    (hgrant : ∀ {a b}, R a b → decides b → grants b → decides a ∧ grants a)
    (h : Grants decides grants bs) :
    ∃ pre pre' a b, First decides as pre a ∧ First decides bs pre' b ∧ R a b ∧
      grants a ∧ grants b := by
  induction hpairs with
  | nil => exact absurd h not_grants_nil
  | @cons a b as bs hab hpairs ih =>
      rcases grants_cons_iff.mp h with ⟨hdec, hg⟩ | ⟨hno, hrest⟩
      · obtain ⟨hdec', hg'⟩ := hgrant hab hdec hg
        exact ⟨[], [], a, b, ⟨⟨as, rfl⟩, hdec', by simp⟩, ⟨⟨bs, rfl⟩, hdec, by simp⟩, hab, hg', hg⟩
      · obtain ⟨pre, pre', a', b', hfirst, hfirst', hrest⟩ := ih hrest
        exact ⟨a :: pre, b :: pre', a', b', hfirst.cons (hpass hab hno), hfirst'.cons hno, hrest⟩

/-- The elements that are kept of a list some of whose elements are marked as left out. -/
def kept (l : List (ρ × Bool)) : List ρ := (l.filter Prod.snd).map Prod.fst

@[simp] theorem kept_append (l l' : List (ρ × Bool)) : kept (l ++ l') = kept l ++ kept l' := by
  simp [kept]

/-- Elements marked alike are kept or left out together. -/
@[simp] theorem kept_map (rs : List ρ) (keep : Bool) :
    kept (rs.map (·, keep)) = if keep then rs else [] := by
  cases keep <;> simp [kept, List.filter_map, Function.comp_def]

/-- An element that is left out decides first and does not grant, and the first kept
element that decides does grant. -/
def Reopened (decides grants : ρ → Prop) (l : List (ρ × Bool)) : Prop :=
  ∃ pre r mid s post, l = pre ++ (r, false) :: (mid ++ (s, true) :: post) ∧
    (∀ q ∈ pre, ¬ decides q.1) ∧ decides r ∧ ¬ grants r ∧
    (∀ q ∈ mid, q.2 = true → ¬ decides q.1) ∧ decides s ∧ grants s

/-- The kept elements grant through the first kept one that decides. -/
theorem grants_kept_iff {l : List (ρ × Bool)} :
    Grants decides grants (kept l) ↔
      ∃ mid s post, l = mid ++ (s, true) :: post ∧
        (∀ q ∈ mid, q.2 = true → ¬ decides q.1) ∧ decides s ∧ grants s := by
  induction l with
  | nil =>
      constructor
      · exact fun h => absurd h not_grants_nil
      · rintro ⟨mid, s, post, hl, -⟩
        simp at hl
  | cons x l ih =>
      obtain ⟨r, keep⟩ := x
      have hcons : ∀ {P : ρ × Bool → Prop} {mid : List (ρ × Bool)}, P (r, keep) →
          (∀ q ∈ mid, P q) → ∀ q ∈ (r, keep) :: mid, P q := by
        intro P mid hr hmid q hq
        rcases List.mem_cons.mp hq with rfl | hq
        · exact hr
        · exact hmid q hq
      -- An entry that is not kept is passed over; a kept one is asked first.
      cases keep with
      | false =>
          have hkept : kept ((r, false) :: l) = kept l := by simp [kept]
          rw [hkept, ih]
          constructor
          · rintro ⟨mid, s, post, rfl, hmid, hs⟩
            exact ⟨(r, false) :: mid, s, post, rfl, hcons (by simp) hmid, hs⟩
          · rintro ⟨mid, s, post, hl, hmid, hs⟩
            cases mid with
            | nil => simp at hl
            | cons q mid =>
                obtain ⟨rfl, rfl⟩ := List.cons.inj hl
                exact ⟨mid, s, post, rfl, fun q hq => hmid q (by simp [hq]), hs⟩
      | true =>
          have hkept : kept ((r, true) :: l) = r :: kept l := by simp [kept]
          rw [hkept, grants_cons_iff, ih]
          constructor
          · rintro (⟨hr, hg⟩ | ⟨hr, mid, s, post, rfl, hmid, hs⟩)
            · exact ⟨[], r, l, rfl, by simp, hr, hg⟩
            · exact ⟨(r, true) :: mid, s, post, rfl, hcons (fun _ => hr) hmid, hs⟩
          · rintro ⟨mid, s, post, hl, hmid, hs⟩
            cases mid with
            | nil =>
                obtain ⟨heq, -⟩ := List.cons.inj hl
                obtain ⟨rfl, -⟩ := Prod.mk.inj heq
                exact Or.inl hs
            | cons q mid =>
                obtain ⟨rfl, rfl⟩ := List.cons.inj hl
                exact Or.inr ⟨hmid (r, true) (by simp) rfl, mid, s, post, rfl,
                  fun q hq => hmid q (by simp [hq]), hs⟩

/-- **Leaving elements out grants nothing new** exactly when none that is left out closes
what a kept one behind it opens. -/
theorem grants_kept_imp_iff {l : List (ρ × Bool)} :
    (Grants decides grants (kept l) → Grants decides grants (l.map Prod.fst)) ↔
      ¬ Reopened decides grants l := by
  constructor
  · rintro himp ⟨pre, r, mid, s, post, rfl, hpre, hr, hgr, hmid, hs⟩
    have hkept : Grants decides grants
        (kept (pre ++ (r, false) :: (mid ++ (s, true) :: post))) := by
      refine grants_kept_iff.mpr ⟨pre ++ (r, false) :: mid, s, post, by simp, fun q hq => ?_, hs⟩
      rcases List.mem_append.mp hq with hq | hq
      · exact fun _ => hpre q hq
      · rcases List.mem_cons.mp hq with rfl | hq
        · simp
        · exact hmid q hq
    have hall := himp hkept
    have hpre' : ∀ a ∈ pre.map Prod.fst, ¬ decides a := by
      intro a ha
      obtain ⟨q, hq, rfl⟩ := List.mem_map.mp ha
      exact hpre q hq
    rw [List.map_append, List.map_cons, grants_append_iff hpre', grants_cons_iff] at hall
    rcases hall with ⟨-, hg⟩ | ⟨hno, -⟩
    · exact hgr hg
    · exact hno hr
  · intro hno hkept
    obtain ⟨mid, s, post, rfl, hmid, hs, hgs⟩ := grants_kept_iff.mp hkept
    -- The first element that decides is `s`, or a left-out one before it.
    have hex : s ∈ ((mid ++ (s, true) :: post).map Prod.fst) := by simp
    obtain ⟨pre, r, hfirst⟩ := exists_first (p := decides) hex hs
    refine ⟨pre, r, hfirst, ?_⟩
    by_contra hgr
    have hsplit : (mid ++ (s, true) :: post).map Prod.fst
        = mid.map Prod.fst ++ s :: post.map Prod.fst := by simp
    rcases hfirst.le hsplit hs with ⟨-, rfl⟩ | ⟨between, hbetween⟩
    · exact hgr hgs
    · obtain ⟨pre', tail, rfl, hpre', htail⟩ := List.map_eq_append_iff.mp hbetween
      obtain ⟨x, between', rfl, hx, -⟩ := List.map_eq_cons_iff.mp htail
      obtain ⟨r', keep⟩ := x
      obtain rfl : r' = r := hx
      have hkeep : keep = false := by
        cases keep with
        | false => rfl
        | true => exact absurd hfirst.2.1 (hmid (r', true) (by simp) rfl)
      subst hkeep
      refine hno ⟨pre', r', between', s, post, by simp, fun q hq => ?_, hfirst.2.1, hgr,
        fun q hq => hmid q (by simp [hq]), hs, hgs⟩
      exact hfirst.2.2 q.1 (hpre' ▸ List.mem_map_of_mem hq)

/-! ### Rules with keys -/

/-- How rules are read: which decide at all, which do so for everybody, which need
a key, and which grant. -/
structure KeyedRules (ρ κ : Type) where
  decisive : ρ → Prop
  always : ρ → Prop
  key : ρ → Option κ
  grants : ρ → Prop

namespace KeyedRules

variable (K : KeyedRules ρ κ)

/-- The rule decides for a holder of the keys `G`. -/
def Decides (G : List κ) (r : ρ) : Prop :=
  K.decisive r ∧ (K.always r ∨ ∃ g, K.key r = some g ∧ g ∈ G)

/-- The outcome for a holder of the keys `G`. -/
def Granted (rs : List ρ) (G : List κ) : Prop :=
  ∃ pre r, First (K.Decides G) rs pre r ∧ K.grants r

/-- Behind the rules `pre`, the rule `r` decides for some holder of keys. -/
def Selectable (pre : List ρ) (r : ρ) : Prop :=
  K.decisive r ∧ (∀ q ∈ pre, K.decisive q → ¬ K.always q) ∧
    (K.always r ∨ ∃ g, K.key r = some g ∧ ∀ q ∈ pre, K.decisive q → K.key q ≠ some g)

variable {K} {G H : List κ}

theorem Decides.mono (h : K.Decides G r) (hGH : G ⊆ H) : K.Decides H r := by
  obtain ⟨hd, ha | ⟨g, hk, hg⟩⟩ := h
  · exact ⟨hd, Or.inl ha⟩
  · exact ⟨hd, Or.inr ⟨g, hk, hGH hg⟩⟩

theorem selectable_of_first (h : First (K.Decides G) rs pre r) : K.Selectable pre r := by
  obtain ⟨-, ⟨hd, hr⟩, hpre⟩ := h
  refine ⟨hd, fun q hq hdq ha => hpre q hq ⟨hdq, Or.inl ha⟩, ?_⟩
  rcases hr with ha | ⟨g, hk, hg⟩
  · exact Or.inl ha
  · exact Or.inr ⟨g, hk, fun q hq hdq hkq => hpre q hq ⟨hdq, Or.inr ⟨g, hkq, hg⟩⟩⟩

/-- A rule behind which another one is selectable does not decide for everybody, so
it is selected through its key. -/
theorem Selectable.key_of_behind {mid : List ρ} (h : K.Selectable pre r)
    (hs : K.Selectable (pre ++ r :: mid) s) :
    ∃ g, K.key r = some g ∧ ∀ q ∈ pre, K.decisive q → K.key q ≠ some g :=
  h.2.2.resolve_left (hs.2.1 r (by simp) h.1)

/-- **When more keys never lose a grant.** Exactly when no denying rule that can
decide stands before a granting rule that can decide. -/
theorem granted_mono_iff :
    (∀ G H : List κ, G ⊆ H → K.Granted rs G → K.Granted rs H) ↔
      ∀ pre r mid s post, rs = pre ++ r :: (mid ++ s :: post) →
        K.Selectable pre r → K.Selectable (pre ++ r :: mid) s → K.grants s → K.grants r := by
  constructor
  · intro hmono pre r mid s post hrs hr hs hgs
    obtain ⟨g, hkr, hg⟩ := hr.key_of_behind hs
    -- The keys that select `s`, and those keys with the one that selects `r`.
    obtain ⟨G, hsG, hG⟩ : ∃ G, K.Decides G s ∧
        ∀ q ∈ pre ++ r :: mid, ¬ K.Decides G q := by
      rcases hs.2.2 with ha | ⟨k, hks, hk⟩
      · refine ⟨[], ⟨hs.1, Or.inl ha⟩, fun q hq hdec => ?_⟩
        rcases hdec with ⟨hdq, haq | ⟨_, _, hmem⟩⟩
        · exact hs.2.1 q hq hdq haq
        · simp at hmem
      · refine ⟨[k], ⟨hs.1, Or.inr ⟨k, hks, by simp⟩⟩, fun q hq hdec => ?_⟩
        rcases hdec with ⟨hdq, haq | ⟨k', hkq, hmem⟩⟩
        · exact hs.2.1 q hq hdq haq
        · rw [List.mem_singleton] at hmem
          exact hk q hq hdq (hmem ▸ hkq)
    have hfs : First (K.Decides G) rs (pre ++ r :: mid) s :=
      ⟨⟨post, by simpa using hrs⟩, hsG, hG⟩
    have hfr : First (K.Decides (g :: G)) rs pre r := by
      refine ⟨⟨mid ++ s :: post, hrs⟩, ⟨hr.1, Or.inr ⟨g, hkr, by simp⟩⟩, fun q hq hdec => ?_⟩
      rcases hdec with ⟨hdq, haq | ⟨k', hkq, hmem⟩⟩
      · exact hr.2.1 q hq hdq haq
      · rcases List.mem_cons.mp hmem with rfl | hmem
        · exact hg q hq hdq hkq
        · exact hG q (by simp [hq]) ⟨hdq, Or.inr ⟨k', hkq, hmem⟩⟩
    obtain ⟨pre', r', hfirst, hgr'⟩ := hmono G (g :: G) (by simp) ⟨_, s, hfs, hgs⟩
    obtain ⟨-, rfl⟩ := hfr.unique hfirst
    exact hgr'
  · intro hsafe G H hGH hG
    obtain ⟨preS, s, hfs, hgs⟩ := hG
    have hsel : K.Selectable preS s := selectable_of_first hfs
    obtain ⟨⟨post, hrs⟩, hsG, -⟩ := hfs
    have hsH : K.Decides H s := hsG.mono hGH
    have hmem : s ∈ rs := by simp [hrs]
    obtain ⟨preR, r, hfr⟩ := exists_first hmem hsH
    refine ⟨preR, r, hfr, ?_⟩
    rcases hfr.le hrs hsH with ⟨-, rfl⟩ | ⟨mid, rfl⟩
    · exact hgs
    · exact hsafe preR r mid s post (by simpa using hrs) (selectable_of_first hfr) hsel hgs

end KeyedRules

end FirstMatch
