import Shakti.Policy.Bounds
import Shakti.Policy.Patterns

/-!
# Shakti.Policy.Matching

The meaning of a command pattern, and the accesses of `command_matches`.

* `Covers` — what a pattern says about a command, by the kind of the pattern.
* `commandMatches_iff` — `command_matches` decides it.
* `Checked.commandMatches` — the same function by positions, as `validate.cyr` writes it, with
  every access checked against the two strings.

`commandMatches_meaning` says both of the function by positions: it ends, stays inside the two
strings, and returns `1` when the pattern covers the command and `0` when it does not.
-/

namespace Shakti

/-! ### What a pattern covers -/

/-- The pattern covers the command. -/
inductive Covers (command pattern : CStr) : Prop
  | wildcard : pattern = cstr "ALL" ∨ pattern = cstr "*" → Covers command pattern
  | exact : command = pattern → Covers command pattern
  /-- `q *`: the words of `q`, and any arguments. -/
  | args (q : Bytes) : pattern.bytes = q ++ [32, 42] →
      command.bytes = q ∨ q ++ [32] <+: command.bytes → Covers command pattern
  /-- `d/*`: the binaries right in the directory `d`. -/
  | directory (d base : Bytes) : ¬ pattern.EndsWithArgs → pattern.IsDirectory d →
      binPortion command = d ++ 47 :: base → 47 ∉ base → Covers command pattern
  /-- A name: the binaries of that name, wherever they are. -/
  | basename : ¬ pattern.EndsWithArgs → ¬ [47, 42] <:+ pattern.bytes → 47 ∉ pattern.bytes →
      binPortion command = pattern.bytes ∨ 47 :: pattern.bytes <:+ binPortion command →
      Covers command pattern

/-- An argument pattern matches its words, alone or with a space behind them. -/
theorem commandMatches_args {c p : CStr} {q : Bytes} (hp : p.bytes = q ++ [32, 42]) :
    commandMatches c p = true ↔ c.bytes = q ∨ q ++ [32] <+: c.bytes := by
  have hall : p ≠ cstr "ALL" := by
    rintro rfl
    exact absurd (List.suffix_append q [32, 42]) (hp ▸ by decide)
  have hstar : p ≠ cstr "*" := by
    rintro rfl
    exact absurd (List.suffix_append q [32, 42]) (hp ▸ by decide)
  have hargs : endsWithStar p 32 = true := endsWithStar_iff.mpr ⟨q, hp.symm⟩
  have hlen : p.length - 2 = q.length := by
    simp [CStr.length, hp]
  have hpre : memeq c.bytes p.bytes q.length = true ↔ c.bytes.take q.length = q := by
    rw [memeq, hp, List.take_left' rfl, beq_iff_eq]
  -- The pattern without its ` *`, and the pattern with more words.
  have halone : (c.length = q.length ∧ memeq c.bytes p.bytes q.length = true) ↔ c.bytes = q := by
    rw [hpre]
    constructor
    · intro hwords
      obtain ⟨hcl, htake⟩ := hwords
      rwa [List.take_of_length_le (Nat.le_of_eq hcl)] at htake
    · rintro h
      exact ⟨congrArg List.length h, by rw [h, List.take_length]⟩
  have hmore : ((q.length < c.length ∧ c.load8 q.length = 32) ∧
      memeq c.bytes p.bytes q.length = true) ↔ q ++ [32] <+: c.bytes := by
    rw [hpre]
    constructor
    · intro hwords
      obtain ⟨⟨hlt, hspace⟩, htake⟩ := hwords
      replace hlt : q.length < c.bytes.length := hlt
      refine ⟨c.bytes.drop (q.length + 1), ?_⟩
      have hget : c.bytes[q.length] = 32 := by
        rwa [CStr.load8, List.getD_eq_getElem _ _ hlt] at hspace
      rw [List.append_assoc, List.singleton_append, ← hget, ← List.drop_eq_getElem_cons]
      nth_rewrite 1 [← htake]
      exact List.take_append_drop _ _
    · intro hwords
      obtain ⟨t, ht⟩ := hwords
      have hlt : q.length < c.length := by
        rw [CStr.length, ← ht]
        simp
      exact ⟨⟨hlt, by simp [CStr.load8, ← ht]⟩, by simp [← ht]⟩
  have hself : c = p → q ++ [32] <+: c.bytes := by
    rintro rfl
    exact ⟨[42], by simp [hp]⟩
  simp only [commandMatches, hall, hstar, hargs, hlen, if_false, if_true, memeq_self_iff]
  split
  case isTrue heq => simpa using Or.inr (hself heq)
  case isFalse hne =>
    rw [Bool.or_eq_true, Bool.and_eq_true, Bool.and_eq_true, Bool.and_eq_true, decide_eq_true_eq,
      decide_eq_true_eq, beq_iff_eq, halone, hmore]

/-- **The meaning of a command pattern.** -/
theorem commandMatches_iff (c p : CStr) : commandMatches c p = true ↔ Covers c p := by
  by_cases hwild : p = cstr "ALL" ∨ p = cstr "*"
  · refine iff_of_true ?_ (.wildcard hwild)
    rcases hwild with rfl | rfl <;> simp [commandMatches]
  -- The kinds of patterns exclude each other, so only one rule of `Covers` is left in each case.
  by_cases hargs : p.EndsWithArgs
  · obtain ⟨q, hq⟩ := hargs
    rw [commandMatches_args hq.symm]
    constructor
    · exact .args q hq.symm
    · intro hcovers
      cases hcovers with
      | wildcard h => exact absurd h hwild
      | exact h => exact Or.inr ⟨[42], by rw [h, ← hq]; simp⟩
      | args q' hq' hc =>
          obtain ⟨rfl, -⟩ := List.append_inj' (hq.trans hq') rfl
          exact hc
      | directory _ _ hno => exact absurd ⟨q, hq⟩ hno
      | basename hno => exact absurd ⟨q, hq⟩ hno
  by_cases hdir : [47, 42] <:+ p.bytes
  · obtain ⟨d, hd⟩ := hdir
    have hp : p.IsDirectory d := hd.symm
    rw [commandMatches_directory hp]
    constructor
    · rintro (heq | ⟨base, hc, hbase⟩)
      · exact .exact heq
      · exact .directory d base hargs hp hc hbase
    · intro hcovers
      cases hcovers with
      | wildcard h => exact absurd h hwild
      | exact h => exact Or.inl h
      | args q hq => exact absurd ⟨q, hq.symm⟩ hargs
      | directory d' base _ hd' hc hbase =>
          obtain ⟨rfl, -⟩ := List.append_inj' (hd.trans hd') rfl
          exact Or.inr ⟨base, hc, hbase⟩
      | basename _ hno => exact absurd ⟨d, hd⟩ hno
  by_cases hslash : 47 ∈ p.bytes
  · have hp : p.NamesPath := ⟨hslash, hargs, fun d hd => hdir ⟨d, hd.symm⟩⟩
    rw [commandMatches_namesPath hp]
    constructor
    · exact .exact
    · intro hcovers
      cases hcovers with
      | wildcard h => exact absurd h hwild
      | exact h => exact h
      | args q hq => exact absurd ⟨q, hq.symm⟩ hargs
      | directory d _ _ hd => exact absurd hd (hp.noDirectory d)
      | basename _ _ hno => exact absurd hslash hno
  · have hp : p.IsBasename :=
      ⟨hslash, hargs, fun h => hwild (Or.inl h), fun h => hwild (Or.inr h)⟩
    rw [commandMatches_basename hp]
    have hsuffix : (∃ dir, binPortion c = dir ++ 47 :: p.bytes) ↔
        47 :: p.bytes <:+ binPortion c := exists_congr fun _ => eq_comm
    rw [hsuffix]
    constructor
    · rintro (heq | hc)
      · exact .exact heq
      · exact .basename hargs hdir hslash hc
    · intro hcovers
      cases hcovers with
      | wildcard h => exact absurd h hwild
      | exact h => exact Or.inl h
      | args q hq => exact absurd ⟨q, hq.symm⟩ hargs
      | directory d _ _ hd => exact absurd ⟨d, hd.symm⟩ hdir
      | basename _ _ _ hc => exact Or.inr hc

/-! ### The function by positions -/

namespace Checked

open Memory

/-- One turn of `memeq(a + sa, b + sb, n)`. -/
def memeqTurn (a : Nat → Option UInt8) (sa : Nat) (b : Nat → Option UInt8) (sb n i : Nat) :
    Option (Turn Nat Nat) :=
  if i < n then do
    let x ← a (sa + i)
    let y ← b (sb + i)
    if x ≠ y then return .done 0 else return .next (i + 1)
  else return .done 1

/-- `memeq(a + sa, b + sb, n)`. -/
def memeq (fuel : Nat) (a : Nat → Option UInt8) (sa : Nat) (b : Nat → Option UInt8)
    (sb n : Nat) : Option Nat :=
  run (memeqTurn a sa b sb n) fuel 0

/-- The pattern of length `patLen` ends with the byte `c` and then `*`. -/
def endsWithStar (pattern : CStr) (patLen : Nat) (c : UInt8) : Option Bool :=
  if 2 ≤ patLen then do
    if (← chars pattern (patLen - 2)) = c then return (← chars pattern (patLen - 1)) = 42
    else return false
  else return false

/-- One turn of the search for the end of the binary portion; the state is `bin_end` and `k`. -/
def binEndTurn (command : CStr) (cmdLen : Nat) : Nat × Nat → Option (Turn (Nat × Nat) Nat)
  | (binEnd, k) =>
      if k < cmdLen then do
        if (← chars command k) = 32 then return .next (k, cmdLen) else return .next (binEnd, k + 1)
      else return .done binEnd

/-- `bin_end`. -/
def binEnd (fuel : Nat) (command : CStr) (cmdLen : Nat) : Option Nat :=
  run (binEndTurn command cmdLen) fuel (cmdLen, 0)

/-- One turn of the search for the last slash before `stop`; `none` is the source's `-1`. -/
def lastSlashTurn (command : CStr) (stop : Nat) :
    Option Nat × Nat → Option (Turn (Option Nat × Nat) (Option Nat))
  | (last, j) =>
      if j < stop then do
        let c ← chars command j
        return .next (if c = 47 then some j else last, j + 1)
      else return .done last

/-- `last_slash`, and `last` of the basename match. -/
def lastSlash (fuel : Nat) (command : CStr) (stop : Nat) : Option (Option Nat) :=
  run (lastSlashTurn command stop) fuel (none, 0)

/-- One turn of the search for a slash in the pattern. -/
def hasSlashTurn (pattern : CStr) (patLen : Nat) : Bool × Nat → Option (Turn (Bool × Nat) Bool)
  | (has, p) =>
      if p < patLen then do
        if (← chars pattern p) = 47 then return .next (true, patLen) else return .next (has, p + 1)
      else return .done has

/-- `has_slash`. -/
def hasSlash (fuel : Nat) (pattern : CStr) (patLen : Nat) : Option Bool :=
  run (hasSlashTurn pattern patLen) fuel (false, 0)

/-- The match against a pattern that ends with a space and `*`. -/
def matchesArgs (fuel : Nat) (command pattern : CStr) (cmdLen patLen : Nat) : Option Nat := do
  let prefixLen := patLen - 2
  let alone ← (if cmdLen = prefixLen then
    memeq fuel (chars command) 0 (chars pattern) 0 prefixLen else return 0)
  if alone = 1 then return 1
  else if prefixLen < cmdLen then do
    if (← chars command prefixLen) = 32 then do
      if (← memeq fuel (chars command) 0 (chars pattern) 0 prefixLen) = 1 then return 1
      else return 0
    else return 0
  else return 0

/-- The match against a pattern that ends with a slash and `*`. -/
def matchesDirectory (fuel : Nat) (command pattern : CStr) (patLen stop : Nat) : Option Nat := do
  let dirLen := patLen - 2
  match ← lastSlash fuel command stop with
  | none => return 0
  | some last =>
      if dirLen = 0 then if last = 0 then return 1 else return 0
      else if last ≠ dirLen then return 0
      else memeq fuel (chars command) 0 (chars pattern) 0 dirLen

/-- The match against a name. -/
def matchesBasename (fuel : Nat) (command pattern : CStr) (patLen stop : Nat) : Option Nat := do
  let last ← lastSlash fuel command stop
  let baseStart := match last with
    | none => 0
    | some last => last + 1
  if stop - baseStart ≠ patLen then return 0
  else memeq fuel (chars command) baseStart (chars pattern) 0 patLen

/-- `command_matches`: `1` or `0`. -/
def commandMatches (fuel : Nat) (command pattern : CStr) : Option Nat := do
  if ← streq fuel pattern (cstr "ALL") then return 1
  else if ← streq fuel pattern (cstr "*") then return 1
  else do
    let cmdLen ← strlen fuel command
    let patLen ← strlen fuel pattern
    let same ← (if cmdLen = patLen then memeq fuel (chars command) 0 (chars pattern) 0 cmdLen
      else return 0)
    if same = 1 then return 1
    else if ← endsWithStar pattern patLen 32 then matchesArgs fuel command pattern cmdLen patLen
    else do
      let stop ← binEnd fuel command cmdLen
      if ← endsWithStar pattern patLen 47 then matchesDirectory fuel command pattern patLen stop
      else if ← hasSlash fuel pattern patLen then return 0
      else matchesBasename fuel command pattern patLen stop

/-! ### It stays in bounds -/

theorem memeq_eq {a b x y : Bytes} {sa ea sb eb n fuel : Nat} (hx : Spans a sa ea x)
    (hy : Spans b sb eb y) (hxn : n ≤ x.length) (hyn : n ≤ y.length) (hfuel : n < fuel) :
    memeq fuel (a[·]?) sa (b[·]?) sb n = some (if x.take n = y.take n then 1 else 0) := by
  -- The measure `m` is what is still to be compared: `i` bytes have agreed already.
  refine run_eq (fun m i r => ∃ x' y', x'.length = m ∧ y'.length = m ∧ n = i + m ∧
      (x.take n).drop i = x' ∧ (y.take n).drop i = y' ∧ r = if x' = y' then 1 else 0)
    ?_ ⟨x.take n, y.take n, by simp [hxn], by simp [hyn], by omega, rfl, rfl, rfl⟩ hfuel
  rintro m i r ⟨x', y', hx', hy', rfl, hxd, hyd, rfl⟩
  cases x' with
  | nil =>
      left
      rw [List.length_nil] at hx'
      subst hx'
      obtain rfl := List.eq_nil_of_length_eq_zero hy'
      simp [memeqTurn]
  | cons c x' =>
      cases y' with
      | nil =>
          rw [List.length_cons] at hx'
          rw [List.length_nil] at hy'
          omega
      | cons d y' =>
          rw [List.length_cons] at hx' hy'
          have hcx : x[i]? = some c := by
            have := congrArg (·[0]?) hxd
            simpa [List.getElem?_take, show i < i + m by omega] using this
          have hdy : y[i]? = some d := by
            have := congrArg (·[0]?) hyd
            simpa [List.getElem?_take, show i < i + m by omega] using this
          have hca : a[sa + i]? = some c := by rw [hx.getElem? (by omega), hcx]
          have hdb : b[sb + i]? = some d := by rw [hy.getElem? (by omega), hdy]
          by_cases hcd : c = d
          · subst hcd
            refine Or.inr ⟨x'.length, i + 1, by omega, ?_, x', y', rfl, by omega, by omega, ?_, ?_,
              by simp⟩
            · simp [memeqTurn, hca, hdb, show i < i + m by omega]
            · rw [← List.drop_drop, hxd, List.drop_one, List.tail_cons]
            · rw [← List.drop_drop, hyd, List.drop_one, List.tail_cons]
          · left
            simp [memeqTurn, hca, hdb, hcd, show i < i + m by omega]

/-- `memeq` on the beginnings of two strings. -/
theorem memeq_chars {a b : CStr} {n fuel : Nat} (ha : n ≤ a.length) (hb : n ≤ b.length)
    (hfuel : n < fuel) :
    memeq fuel (chars a) 0 (chars b) 0 n = some (Shakti.memeq a.bytes b.bytes n).toNat := by
  rw [chars_eq, chars_eq, memeq_eq (rest_zero a) (rest_zero b) ha hb hfuel, Shakti.memeq]
  by_cases h : a.bytes.take n = b.bytes.take n
  · simp [h]
  · simp [h, beq_eq_false_iff_ne.mpr h]

theorem chars_of_lt {s : CStr} {i : Nat} (h : i < s.length) : chars s i = some (s.load8 i) := by
  replace h : i < s.bytes.length := h
  rw [chars, List.getElem?_append_left h, List.getElem?_eq_getElem h, CStr.load8,
    List.getD_eq_getElem _ _ h]

theorem endsWithStar_eq (pattern : CStr) (c : UInt8) :
    endsWithStar pattern pattern.length c = some (Shakti.endsWithStar pattern c) := by
  rw [endsWithStar, Shakti.endsWithStar]
  by_cases hlen : 2 ≤ pattern.length
  · rw [if_pos hlen, chars_of_lt (by omega), chars_of_lt (by omega)]
    by_cases hc : pattern.load8 (pattern.length - 2) = c
    · simp [hlen, hc, beq_eq_decide]
    · simp [hlen, hc]
  · simp [hlen]

theorem binEnd_eq {c : CStr} {fuel : Nat} (hfuel : c.length < fuel) :
    binEnd fuel c c.length = some (binPortion c).length := by
  refine run_eq (fun n s b =>
      (s.1 = c.length ∧ ∃ x, x.length = n ∧ Rest c s.2 x ∧
        b = s.2 + (x.takeWhile (· != 32)).length) ∨ (n = 0 ∧ s.2 = c.length ∧ b = s.1))
    ?_ (Or.inl ⟨rfl, c.bytes, rfl, rest_zero c, (Nat.zero_add _).symm⟩) hfuel
  rintro n ⟨e, k⟩ b (⟨rfl, x, rfl, h, rfl⟩ | ⟨rfl, hk, rfl⟩)
  · cases x with
    | nil =>
        left
        have hstop : c.length = k := h.stop_eq
        simp [binEndTurn, hstop]
    | cons d x =>
        have hlt : k < c.length := h.lt
        by_cases hd : d = 32
        · refine Or.inr ⟨0, (k, c.length), by simp, ?_, Or.inr ⟨rfl, rfl, by simp [hd]⟩⟩
          simp [binEndTurn, hlt, h.chars_cons, hd]
        · refine Or.inr ⟨x.length, (c.length, k + 1), by simp, ?_,
            Or.inl ⟨rfl, x, rfl, h.tail, ?_⟩⟩
          · simp [binEndTurn, hlt, h.chars_cons, hd]
          · rw [List.takeWhile_cons_of_pos (by simpa using hd), List.length_cons]
            omega
  · left
    obtain rfl : k = c.length := hk
    simp [binEndTurn]

theorem lastIndex_snoc (z : Bytes) (c : UInt8) :
    Scan.lastIndex 47 (z ++ [c]) = if c = 47 then some z.length else Scan.lastIndex 47 z := by
  rw [Scan.lastIndex, Scan.lastIndex, List.reverse_append, List.reverse_singleton,
    List.singleton_append, List.findIdx?_cons]
  by_cases hc : c = 47
  · simp [hc]
  · cases z.reverse.findIdx? (· = 47) with
    | none => simp [hc]
    | some i =>
        simp only [hc]
        simp
        omega

/-- The search for the last slash of the beginning `y` of a string. -/
theorem lastSlash_eq {c : CStr} {y : Bytes} (hy : y <+: c.bytes) {fuel : Nat}
    (hfuel : y.length < fuel) :
    lastSlash fuel c y.length = some (Scan.lastIndex 47 y) := by
  refine run_eq (fun n s b => ∃ z x, y = z ++ x ∧ x.length = n ∧ s = (Scan.lastIndex 47 z, z.length)
      ∧ b = Scan.lastIndex 47 y)
    ?_ ⟨[], y, rfl, rfl, rfl, rfl⟩ hfuel
  rintro n s b ⟨z, x, rfl, rfl, rfl, rfl⟩
  cases x with
  | nil =>
      left
      simp [lastSlashTurn]
  | cons d x =>
      have hget : chars c z.length = some d := by
        obtain ⟨t, ht⟩ := hy
        rw [chars, ← ht]
        simp
      refine Or.inr ⟨x.length, (Scan.lastIndex 47 (z ++ [d]), z.length + 1), by simp, ?_,
        z ++ [d], x, by simp, rfl, by simp, rfl⟩
      simp [lastSlashTurn, hget, lastIndex_snoc]

theorem hasSlash_eq {p : CStr} {fuel : Nat} (hfuel : p.length < fuel) :
    hasSlash fuel p p.length = some (p.bytes.any (· == 47)) := by
  refine run_eq (fun n s b =>
      (s.1 = false ∧ ∃ x, x.length = n ∧ Rest p s.2 x ∧ b = x.any (· == 47)) ∨
        (n = 0 ∧ s.2 = p.length ∧ b = s.1))
    ?_ (Or.inl ⟨rfl, p.bytes, rfl, rest_zero p, rfl⟩) hfuel
  rintro n ⟨has, k⟩ b (⟨rfl, x, rfl, h, rfl⟩ | ⟨rfl, hk, rfl⟩)
  · cases x with
    | nil =>
        left
        simp [hasSlashTurn, h.not_lt]
    | cons d x =>
        have hlt : k < p.length := h.lt
        by_cases hd : d = 47
        · refine Or.inr ⟨0, (true, p.length), by simp, ?_, Or.inr ⟨rfl, rfl, by simp [hd]⟩⟩
          simp [hasSlashTurn, hlt, h.chars_cons, hd]
        · refine Or.inr ⟨x.length, (false, k + 1), by simp, ?_,
            Or.inl ⟨rfl, x, rfl, h.tail, by simp [hd]⟩⟩
          simp [hasSlashTurn, hlt, h.chars_cons, hd]
  · left
    obtain rfl : k = p.length := hk
    simp [hasSlashTurn]

variable {c p : CStr} {fuel : Nat}

theorem matchesArgs_eq (hp : 2 ≤ p.length) (hfuel : p.length < fuel) :
    matchesArgs fuel c p c.length p.length =
      some ((decide (c.length = p.length - 2) && Shakti.memeq c.bytes p.bytes (p.length - 2))
        || (decide (p.length - 2 < c.length) && c.load8 (p.length - 2) == 32
          && Shakti.memeq c.bytes p.bytes (p.length - 2))).toNat := by
  rw [matchesArgs]
  generalize hn : p.length - 2 = n
  have hmem : n ≤ c.length → memeq fuel (chars c) 0 (chars p) 0 n =
      some (Shakti.memeq c.bytes p.bytes n).toNat :=
    fun hle => memeq_chars hle (by omega) (by omega)
  rcases lt_trichotomy c.length n with hlt | heq | hgt
  · simp [show c.length ≠ n by omega, show ¬ n < c.length by omega]
  · rw [if_pos heq, hmem (by omega)]
    cases Shakti.memeq c.bytes p.bytes n <;> simp [heq]
  · rw [if_neg (by omega), chars_of_lt hgt, hmem (by omega)]
    by_cases hspace : c.load8 n = 32
    · cases Shakti.memeq c.bytes p.bytes n <;>
        simp [hgt, hspace, show c.length ≠ n by omega]
    · simp [hgt, hspace, beq_eq_false_iff_ne.mpr hspace, show c.length ≠ n by omega]

theorem binPortion_isPrefix (c : CStr) : binPortion c <+: c.bytes := List.takeWhile_prefix _

theorem matchesDirectory_eq (hc : c.length < fuel) :
    matchesDirectory fuel c p p.length (binPortion c).length =
      some (match Scan.lastIndex 47 (binPortion c) with
        | none => false
        | some lastSlash =>
            if p.length - 2 = 0 then decide (lastSlash = 0)
            else decide (lastSlash = p.length - 2) &&
              Shakti.memeq c.bytes p.bytes (p.length - 2)).toNat := by
  have hbin : (binPortion c).length ≤ c.length := (binPortion_isPrefix c).length_le
  rw [matchesDirectory, lastSlash_eq (binPortion_isPrefix c) (by omega)]
  by_cases hslash : 47 ∈ binPortion c
  · obtain ⟨pre, post, hsplit, hpost⟩ := Scan.exists_last hslash
    have hlast : pre.length < c.length := by
      have hlen : (binPortion c).length = pre.length + (post.length + 1) := by simp [hsplit]
      omega
    rw [hsplit, lastIndex_append hpost]
    simp only [Option.bind_eq_bind, Option.bind_some]
    by_cases hroot : p.length - 2 = 0
    · by_cases h0 : pre.length = 0 <;> simp [hroot, h0]
    · by_cases heq : pre.length = p.length - 2
      · simp only [if_neg hroot, heq, ne_eq, not_true, if_false, decide_true, Bool.true_and]
        exact memeq_chars (by omega) (by omega) (by omega)
      · simp [hroot, heq]
  · simp [lastIndex_eq_none hslash]

/-- The name in the binary portion starts within it. -/
theorem baseStart_le (bin : Bytes) :
    (match Scan.lastIndex 47 bin with
      | none => 0
      | some last => last + 1) ≤ bin.length := by
  by_cases hslash : 47 ∈ bin
  · obtain ⟨pre, post, rfl, hpost⟩ := Scan.exists_last hslash
    simp [lastIndex_append hpost]
  · simp [lastIndex_eq_none hslash]

theorem matchesBasename_eq (hc : c.length < fuel) (hp : p.length < fuel) :
    matchesBasename fuel c p p.length (binPortion c).length =
      some (let bin := binPortion c
        let baseStart := match Scan.lastIndex 47 bin with
          | none => 0
          | some last => last + 1
        decide (bin.length - baseStart = p.length)
          && Shakti.memeq (c.bytes.drop baseStart) p.bytes p.length).toNat := by
  have hbin : (binPortion c).length ≤ c.length := (binPortion_isPrefix c).length_le
  have hstart := baseStart_le (binPortion c)
  rw [matchesBasename, lastSlash_eq (binPortion_isPrefix c) (by omega)]
  simp only [Option.bind_eq_bind, Option.bind_some]
  revert hstart
  generalize (match Scan.lastIndex 47 (binPortion c) with
    | none => 0
    | some last => last + 1) = start
  intro hstart
  by_cases hlen : (binPortion c).length - start = p.length
  · have hspan : Spans (c.bytes ++ [0]) start c.length (c.bytes.drop start) := by
      have hdrop := (rest_zero c).drop (show start ≤ c.bytes.length from hstart.trans hbin)
      rwa [Nat.zero_add] at hdrop
    have hroom : p.length ≤ (c.bytes.drop start).length := by
      have hsize : c.bytes.length = c.length := rfl
      rw [List.length_drop]
      omega
    rw [if_neg (by omega), chars_eq, chars_eq,
      memeq_eq hspan (rest_zero p) hroom (Nat.le_refl _) hp, Shakti.memeq]
    by_cases h : (c.bytes.drop start).take p.length = p.bytes.take p.length
    · simp [h, hlen]
    · simp [h, hlen, beq_eq_false_iff_ne.mpr h]
  · simp [hlen]

/-- The function by positions ends in bounds, and returns `1` or `0`. -/
theorem commandMatches_eq (hc : c.length < fuel) (hp : p.length < fuel) :
    commandMatches fuel c p = some (Shakti.commandMatches c p).toNat := by
  have hsame : (if c.length = p.length then memeq fuel (chars c) 0 (chars p) 0 c.length
      else some 0) = some (decide (c.length = p.length ∧
        Shakti.memeq c.bytes p.bytes c.length = true)).toNat := by
    by_cases hlen : c.length = p.length
    · rw [if_pos hlen, memeq_chars (Nat.le_refl _) (Nat.le_of_eq hlen) hc]
      simp [hlen]
    · simp [hlen]
  rw [commandMatches, Shakti.commandMatches, streq_eq hp, streq_eq hp, strlen_eq hc, strlen_eq hp]
  simp only [Option.bind_eq_bind, Option.bind_some, Option.pure_def, decide_eq_true_eq, hsame,
    endsWithStar_eq, binEnd_eq hc, hasSlash_eq hp]
  by_cases hall : p = cstr "ALL"
  · simp [hall]
  by_cases hstar : p = cstr "*"
  · simp [hstar]
  by_cases hexact : c.length = p.length ∧ Shakti.memeq c.bytes p.bytes c.length = true
  · rw [if_neg hall, if_neg hstar, if_neg hall, if_neg hstar, if_pos hexact, decide_eq_true hexact]
    rfl
  simp only [hall, hstar, hexact, if_false, decide_false, Bool.toNat_false, Nat.zero_ne_one]
  cases hargs : Shakti.endsWithStar p 32 with
  | true =>
      have hlen : 2 ≤ p.length := (endsWithStar_iff.mp hargs).length_le
      exact matchesArgs_eq hlen hp
  | false =>
      cases hdir : Shakti.endsWithStar p 47 with
      | true => exact matchesDirectory_eq hc
      | false =>
          cases hslash : p.bytes.any (· == 47) with
          | true => rfl
          | false => exact matchesBasename_eq hc hp

end Checked

/-- **The meaning of a command pattern.** On every two strings `command_matches` ends without
reading outside them, and returns `1` when the pattern covers the command, and `0` otherwise. -/
theorem commandMatches_meaning (command pattern : CStr) :
    (commandMatches command pattern = true ↔ Covers command pattern) ∧
    ∀ fuel, command.length < fuel → pattern.length < fuel →
      (Covers command pattern → Checked.commandMatches fuel command pattern = some 1) ∧
      (¬ Covers command pattern → Checked.commandMatches fuel command pattern = some 0) := by
  refine ⟨commandMatches_iff command pattern, fun fuel hc hp => ?_⟩
  rw [Checked.commandMatches_eq hc hp, ← commandMatches_iff]
  cases commandMatches command pattern <;> simp

/-- `/bin/*` and `/bin/cat`, by positions. -/
theorem commandMatches_meaning_directory :
    Checked.commandMatches 20 (cstr "/bin/cat /etc/motd") (cstr "/bin/*") = some 1 := by
  refine ((commandMatches_meaning _ _).2 20 (by decide) (by decide)).1 ?_
  have hargs : ¬ [32, 42] <:+ (cstr "/bin/*").bytes := by decide
  exact .directory (utf8 "/bin") (utf8 "cat") hargs rfl (by decide) (by decide)

end Shakti
