import Shakti.Policy.Locality

/-!
# Shakti.Policy.CutBlocks

The blocks of a policy text and those of a beginning of it.

All rules that end before the cut are read as they are written (`exists_rules_append`). The last
block of the beginning has its front in common with the block of the whole text; at most the last
pair in front of the cut is torn, and the whole text has its key there too (`exists_cutBlock`).
-/

namespace Shakti

/-! ### Items before a cut -/

/-- Only a bracket starts a header. -/
theorem readItem_header_iff (c : UInt8) (cs : Bytes) :
    (∃ name, (readItem (c :: cs)).1 = .header name) ↔ c = 91 := by
  constructor
  · rintro ⟨name, h⟩
    by_contra hc
    simp only [readItem, if_neg hc] at h
    split at h
    · cases h
    · simp only [readKeyValue] at h
      split at h
      · split at h <;> cases h
      · cases h
  · rintro rfl
    simp [readItem, readHeader]

/-- The key of a line ends at its first `=`. -/
theorem readKeyValue_key {buf : Bytes} (h : 61 ∈ lineOf buf) :
    ∃ value, (readKeyValue buf).1 =
      .keyValue (shkCopyTrim ((lineOf buf).takeWhile (· != 61))) value := by
  unfold readKeyValue
  dsimp only
  rw [if_pos (by simpa using h)]
  split
  · exact ⟨_, rfl⟩
  · exact ⟨_, rfl⟩

/-- A pair that is read in front of a cut has its key in the whole text. -/
theorem readItem_keyValue_append {x : Bytes} {key value : CStr}
    (h : (readItem x).1 = .keyValue key value) (q : Bytes) :
    ∃ value', (readItem (x ++ q)).1 = .keyValue key value' := by
  cases x with
  | nil => cases h
  | cons c cs =>
      rw [List.cons_append]
      by_cases hskip : c = 35 ∨ c = 10 ∨ c = 13
      · simp [readItem, hskip] at h
      by_cases hopen : c = 91
      · simp [readItem, hopen, readHeader] at h
      simp only [readItem, if_neg hskip, if_neg hopen] at h ⊢
      have hmem : 61 ∈ lineOf (c :: cs) := by
        by_contra hno
        simp [readKeyValue, hno] at h
      obtain ⟨v, hv⟩ := readKeyValue_key hmem
      obtain ⟨t, ht⟩ := lineOf_append_prefix (c :: cs) q
      rw [List.cons_append] at ht
      have hmem' : 61 ∈ lineOf (c :: (cs ++ q)) := ht ▸ List.mem_append_left t hmem
      obtain ⟨v', hv'⟩ := readKeyValue_key hmem'
      have hkey : (lineOf (c :: (cs ++ q))).takeWhile (· != 61) =
          (lineOf (c :: cs)).takeWhile (· != 61) := by
        rw [ht, takeWhile_append_of_mem ⟨61, hmem, by decide⟩]
      obtain ⟨rfl, -⟩ := Item.keyValue.inj (hv.symm.trans h)
      exact ⟨v', by rw [hv', hkey]⟩

/-- What two texts may make of one turn that a cut falls into: a header stays one, and a pair
keeps its key. -/
def Torn (item : Item) (rest : List Item) : Prop :=
  (∀ name, item = .header name → ∃ name' rest', rest = .header name' :: rest') ∧
    ∀ key value, item = .keyValue key value → ∃ value' rest', rest = .keyValue key value' :: rest'

/-- A text and its beginning have their items in common, up to the last one of the
beginning. -/
theorem policyItems_prefix (p q : Bytes) :
    ∃ common last rest, policyItems p = common ++ last ∧ policyItems (p ++ q) = common ++ rest ∧
      (last = [] ∨ ∃ item, last = [item] ∧ Torn item rest) := by
  induction hlen : p.length using Nat.strong_induction_on generalizing p with
  | _ n ih =>
      by_cases hblank : p.dropWhile isBlank = []
      · exact ⟨[], [], policyItems (p ++ q), by simp [policyItems_eq p, hblank], rfl, Or.inl rfl⟩
      by_cases hturn : turnEnds (p.dropWhile isBlank) = true
      · have hlt := readItem_length_lt hblank
        have hle := (List.dropWhile_suffix isBlank (l := p)).length_le
        obtain ⟨common, last, rest, hp, hpq, hlast⟩ :=
          ih (readItem (p.dropWhile isBlank)).2.length (by omega) _ rfl
        have hself := policyItems_turn hblank hturn []
        rw [List.append_nil, List.append_nil] at hself
        refine ⟨(readItem (p.dropWhile isBlank)).1 :: common, last, rest, ?_, ?_, hlast⟩
        · rw [hself, hp, List.cons_append]
        · rw [policyItems_turn hblank hturn, hpq, List.cons_append]
      · -- The cut falls into this turn.
        have hopen := readItem_open (Bool.eq_false_iff.mpr hturn)
        have hwhole : policyItems (p ++ q) = (readItem (p.dropWhile isBlank ++ q)).1
            :: policyItems (readItem (p.dropWhile isBlank ++ q)).2 := by
          rw [policyItems_eq, dropWhile_isBlank_append hblank, if_neg (by simp [hblank])]
        refine ⟨[], [(readItem (p.dropWhile isBlank)).1], policyItems (p ++ q), ?_, rfl,
          Or.inr ⟨_, rfl, fun name hname => ?_, fun key value hpair => ?_⟩⟩
        · rw [policyItems_eq p, if_neg hblank, hopen]
          rfl
        · cases hdrop : p.dropWhile isBlank with
          | nil => exact absurd hdrop hblank
          | cons c cs =>
              rw [hdrop] at hname
              have hc := (readItem_header_iff c cs).mp ⟨name, hname⟩
              obtain ⟨name', hname'⟩ := (readItem_header_iff c (cs ++ q)).mpr hc
              rw [hwhole, hdrop, List.cons_append, hname']
              exact ⟨name', _, rfl⟩
        · obtain ⟨value', hvalue'⟩ := readItem_keyValue_append hpair q
          rw [hwhole, hvalue']
          exact ⟨value', _, rfl⟩

/-! ### Blocks before a cut -/

/-- What follows some items is added to their last block, or a header has ended it. -/
theorem blockOf_append (items : List Item) :
    (∀ xs, blockOf (items ++ xs) = blockOf items) ∨
      ∀ xs, blockOf (items ++ xs) = blockOf items ++ blockOf xs := by
  induction items with
  | nil => exact Or.inr fun xs => rfl
  | cons item items ih =>
      cases item with
      | skip => exact ih
      | header name => exact Or.inl fun xs => rfl
      | keyValue key value =>
          refine ih.imp (fun h xs => ?_) (fun h xs => ?_)
          · rw [List.cons_append, blockOf, h, blockOf]
          · rw [List.cons_append, blockOf, h, blockOf, List.cons_append]

/-- So the last rule block of some items stays as it is in a longer text, or goes on. -/
theorem ruleBlocks_getLast {items : List Item} {block : List (CStr × CStr)}
    (h : (ruleBlocks items).getLast? = some block) :
    (∀ xs, (ruleBlocks (items ++ xs))[(ruleBlocks items).length - 1]? = some block) ∨
      ∀ xs, (ruleBlocks (items ++ xs))[(ruleBlocks items).length - 1]? =
        some (block ++ blockOf xs) := by
  induction items with
  | nil => cases h
  | cons item items ih =>
      cases item with
      | skip => exact ih h
      | keyValue key value => exact ih h
      | header name =>
          simp only [List.cons_append, ruleBlocks] at h ⊢
          by_cases hname : name = cstr "rules"
          case neg =>
            simp only [if_neg hname] at h ⊢
            exact ih h
          case pos =>
            simp only [if_pos hname] at h ⊢
            cases hrest : ruleBlocks items with
            | nil =>
                rw [hrest] at h
                obtain rfl := Option.some.inj h
                exact (blockOf_append items).imp (fun happend xs => congrArg some (happend xs))
                  (fun happend xs => congrArg some (happend xs))
            | cons b bs =>
                rw [hrest, List.getLast?_cons_cons, ← hrest] at h
                have hindex : (blockOf items :: ruleBlocks items).length - 1 =
                    (ruleBlocks items).length - 1 + 1 := by
                  rw [hrest]
                  rfl
                rw [← hrest]
                simp only [hindex, List.getElem?_cons_succ]
                exact ih h

/-- Rule blocks start at headers. -/
theorem exists_header_of_ruleBlocks {items : List Item} (h : ruleBlocks items ≠ []) :
    ∃ pre name post, items = pre ++ .header name :: post := by
  induction items with
  | nil => exact absurd rfl h
  | cons item items ih =>
      cases item with
      | header name => exact ⟨[], name, items, rfl⟩
      | skip =>
          obtain ⟨pre, name, post, rfl⟩ := ih h
          exact ⟨.skip :: pre, name, post, rfl⟩
      | keyValue key value =>
          obtain ⟨pre, name, post, rfl⟩ := ih h
          exact ⟨.keyValue key value :: pre, name, post, rfl⟩

/-- Items after some others change no rule block of theirs but the last. -/
theorem ruleBlocks_append (items xs : List Item) :
    ∃ t, ruleBlocks (items ++ xs) = (ruleBlocks items).dropLast ++ t := by
  induction items with
  | nil => exact ⟨_, rfl⟩
  | cons item items ih =>
      obtain ⟨t, ht⟩ := ih
      cases item with
      | skip => exact ⟨t, ht⟩
      | keyValue key value => exact ⟨t, ht⟩
      | header name =>
          rw [List.cons_append, ruleBlocks, ruleBlocks]
          split
          case isFalse => exact ⟨t, ht⟩
          case isTrue =>
            cases hrest : ruleBlocks items with
            | nil => exact ⟨_, rfl⟩
            | cons b bs =>
                have hblock : blockOf (items ++ xs) = blockOf items := by
                  obtain ⟨pre, name', post, rfl⟩ :=
                    exists_header_of_ruleBlocks (hrest ▸ List.cons_ne_nil b bs)
                  rw [List.append_assoc, List.cons_append, blockOf_append_header,
                    blockOf_append_header]
                refine ⟨t, ?_⟩
                rw [hblock, ht, hrest, List.dropLast_cons_cons, List.cons_append]

theorem length_ruleBlocks_append (items xs : List Item) :
    (ruleBlocks (items ++ xs)).length = (ruleBlocks items).length + (ruleBlocks xs).length := by
  induction items with
  | nil => simp [ruleBlocks]
  | cons item items ih =>
      rw [List.cons_append, length_ruleBlocks_cons, length_ruleBlocks_cons, ih, Nat.add_assoc]

/-- One more item that is no header changes no rule block but the last. -/
theorem dropLast_ruleBlocks {items : List Item} {item : Item} (h : ∀ name, item ≠ .header name) :
    (ruleBlocks (items ++ [item])).dropLast = (ruleBlocks items).dropLast := by
  obtain ⟨t, ht⟩ := ruleBlocks_append items [item]
  have hnone : (ruleBlocks [item]).length = 0 := by
    rw [length_ruleBlocks_cons, if_neg (h _)]
    rfl
  have hlen := length_ruleBlocks_append items [item]
  rw [List.dropLast_eq_take, hlen, hnone, ht, List.take_left' (by simp)]

/-- All rules of a beginning but the last are rules of the text. -/
theorem exists_rules_append (p q : Bytes) :
    ∃ t, (parsePolicy (p ++ q)).rules = (parsePolicy p).rules.dropLast ++ t := by
  obtain ⟨common, last, rest, hp, hpq, hlast⟩ := policyItems_prefix p q
  have hblocks : ∃ t, ruleBlocks (common ++ rest) =
      (ruleBlocks (common ++ last)).dropLast ++ t := by
    rcases hlast with rfl | ⟨item, rfl, hheader, -⟩
    · rw [List.append_nil]
      exact ruleBlocks_append common rest
    · by_cases hitem : ∃ name, item = .header name
      · obtain ⟨name, rfl⟩ := hitem
        obtain ⟨name', rest', rfl⟩ := hheader name rfl
        rw [ruleBlocks_append_header, ruleBlocks_append_header common [] name]
        by_cases hname : name = cstr "rules"
        · refine ⟨ruleBlocks (.header name' :: rest'), ?_⟩
          simp [ruleBlocks, hname]
        · refine ⟨(ruleBlocks common).getLast?.toList ++ ruleBlocks (.header name' :: rest'), ?_⟩
          have hnone : ruleBlocks [.header name] = [] := by simp [ruleBlocks, hname]
          rw [hnone, List.append_nil, ← List.append_assoc, dropLast_append_toList]
      · rw [dropLast_ruleBlocks fun name hname => hitem ⟨name, hname⟩]
        exact ruleBlocks_append common rest
  obtain ⟨t, ht⟩ := hblocks
  refine ⟨t.map buildRule, ?_⟩
  rw [parsePolicy_eq, parsePolicy_eq]
  simp only [hp, hpq, ht, List.map_append, List.map_dropLast]

/-- Behind their common front, a block as it is read and as it is written: the same, or the one
pair that is torn, and more pairs of which the first has its key. -/
def TornPair (torn behind : List (CStr × CStr)) : Prop :=
  torn = [] ∨ ∃ key value value' more, torn = [(key, value)] ∧ behind = (key, value') :: more

/-- **The block that a cut falls into**, when any of its pairs stands in front of the cut, is a
block of the whole text, and the two have their front in common. -/
theorem exists_cutBlock (p q : Bytes) {block : List (CStr × CStr)}
    (hlast : (ruleBlocks (policyItems p)).getLast? = some block) (hne : block ≠ []) :
    ∃ front torn behind, block = front ++ torn ∧
      (ruleBlocks (policyItems (p ++ q)))[(ruleBlocks (policyItems p)).length - 1]? =
        some (front ++ behind) ∧ TornPair torn behind := by
  obtain ⟨common, last, rest, hp, hpq, hcut⟩ := policyItems_prefix p q
  rw [hp] at hlast ⊢
  rw [hpq]
  -- The blocks are those of the common items, whose last one may go on.
  have hcommon (hnone : ruleBlocks last = [])
      (htorn : TornPair (blockOf last) (blockOf rest)) : ∃ front torn behind,
      block = front ++ torn ∧
        (ruleBlocks (common ++ rest))[(ruleBlocks (common ++ last)).length - 1]? =
          some (front ++ behind) ∧ TornPair torn behind := by
    have hlen : (ruleBlocks (common ++ last)).length = (ruleBlocks common).length := by
      rw [length_ruleBlocks_append, hnone, List.length_nil, Nat.add_zero]
    rw [List.getLast?_eq_getElem?, hlen] at hlast
    rw [hlen]
    cases hfront : (ruleBlocks common).getLast? with
    | none =>
        rw [List.getLast?_eq_none_iff] at hfront
        rw [hfront, List.length_nil] at hlen
        rw [List.length_eq_zero_iff.mp hlen] at hlast
        cases hlast
    | some front =>
        rcases ruleBlocks_getLast hfront with hended | hopen
        · obtain rfl := Option.some.inj ((hended last).symm.trans hlast)
          exact ⟨front, [], [], by simp, by rw [hended, List.append_nil], Or.inl rfl⟩
        · obtain rfl := Option.some.inj ((hopen last).symm.trans hlast)
          exact ⟨front, _, _, rfl, hopen rest, htorn⟩
  rcases hcut with rfl | ⟨item, rfl, hheader, hpair⟩
  · exact hcommon rfl (Or.inl rfl)
  · cases item with
    | skip => exact hcommon rfl (Or.inl rfl)
    | keyValue key value =>
        obtain ⟨value', rest', rfl⟩ := hpair key value rfl
        exact hcommon rfl (Or.inr ⟨key, value, value', _, rfl, rfl⟩)
    | header name =>
        by_cases hname : name = cstr "rules"
        · -- The cut falls into the header, and no pair stands in front of it.
          rw [ruleBlocks_append_header, hname] at hlast
          have hblock : ruleBlocks [.header (cstr "rules")] = [[]] := rfl
          rw [hblock, List.getLast?_append, List.getLast?_singleton] at hlast
          exact absurd (Option.some.inj hlast).symm hne
        · exact hcommon (by simp [ruleBlocks, hname]) (Or.inl rfl)

end Shakti
