import Shakti.Main
import Shakti.Policy.Overlap

/-!
# Shakti.Listing

The permission listing (`shakti -l`) against the authorization engine.

`_list_permissions` goes over the rules with a copy of the engine's test for the caller, and
prints one line for each command pattern of a rule. It looks neither at the deny patterns nor
at the defaults.

* `listPermissions_prints` — what the listing writes, as the lines of its entries.
* `ListingAgrees` — the entries say what the engine does with the requests they describe, and
  no rule that can decide a request is missing.
* `listingAgrees_iff` — when they do. A request is only held against an entry when the earlier
  rules leave it to the entry's rule (`LeftTo`).
-/

namespace Shakti

open Effects Effects.Prog FirstMatch

/-! ### What a program prints -/

/-- The bytes an event hands to a descriptor. -/
def handedBy (fd : Int) : Event sysSig → Bytes
  | ⟨.write fd' data, _⟩ => if fd' = fd then data else []
  | _ => []

/-- The bytes a run hands to a descriptor, in order. -/
def handedTo (fd : Int) (tr : Trace) : Bytes := tr.flatMap (handedBy fd)

/-- Every complete run of the program hands this text to standard output. -/
def Prints {α : Type} (p : Sys α) (text : Bytes) : Prop :=
  ∀ tr a, Returns p tr a → handedTo 1 tr = text

theorem prints_pure {α : Type} (a : α) : Prints (Pure.pure a : Sys α) [] := by
  intro tr b h
  rw [(returns_pure_iff.mp h).1]
  rfl

theorem prints_fileWrite (data : Bytes) : Prints (fileWrite 1 data) data := by
  intro tr a h
  obtain ⟨r, tr', rfl, hpure⟩ := returns_ask_bind_iff.mp h
  obtain ⟨rfl, -⟩ := returns_pure_iff.mp hpure
  simp [handedTo, handedBy]

/-- A sequence prints the text of its first part, then that of its second. -/
theorem Prints.bind {α β : Type} {p : Sys α} {f : α → Sys β} {text text' : Bytes}
    (hp : Prints p text) (hf : ∀ a, Prints (f a) text') : Prints (p >>= f) (text ++ text') := by
  intro tr b h
  obtain ⟨tr₁, tr₂, a, rfl, h₁, h₂⟩ := returns_bind_iff.mp h
  rw [handedTo, List.flatMap_append]
  exact congrArg₂ (· ++ ·) (hp tr₁ a h₁) (hf a tr₂ b h₂)

theorem prints_ite {α : Type} {c : Prop} [Decidable c] {p q : Sys α} {text text' : Bytes}
    (hp : Prints p text) (hq : Prints q text') :
    Prints (if c then p else q) (if c then text else text') := by
  split
  · exact hp
  · exact hq

/-! ### The entries of the listing -/

/-- What a line of the listing says: the `run_as` of a rule, whether it is tagged, and a
command pattern. -/
structure ListEntry where
  runAs : CStr
  nopasswd : Bool
  pattern : CStr

/-- The line of an entry. -/
def ListEntry.text (e : ListEntry) : Bytes :=
  utf8 "    (" ++ e.runAs.bytes ++ utf8 ") " ++ (if e.nopasswd then utf8 "NOPASSWD: " else [])
    ++ e.pattern.bytes ++ utf8 "\n"

/-- The patterns a rule is listed with; an empty command list is listed as `ALL`. -/
def Rule.listedPatterns (r : Rule) : List CStr :=
  if r.commands = [] then [cstr "ALL"] else r.commands

/-- The entries of a rule. -/
def Rule.entries (r : Rule) : List ListEntry :=
  r.listedPatterns.map (fun p => ⟨r.runAs, !r.requireAuth, p⟩)

/-- The rule is about the caller: the test of the listing. -/
def Rule.Listed (r : Rule) (caller : CStr) (groups : Option (List CStr)) : Prop :=
  userMatches r caller = true ∨ groupMatches r groups = true

instance (r : Rule) (caller : CStr) (groups : Option (List CStr)) :
    Decidable (r.Listed caller groups) :=
  inferInstanceAs (Decidable (_ ∨ _))

/-- All lines of the listing. -/
def listing (policy : Policy) (caller : CStr) (groups : Option (List CStr)) : List ListEntry :=
  (policy.rules.filter (fun r => r.Listed caller groups)).flatMap Rule.entries

/-- The text in front of the entries. -/
def listHeader (caller : CStr) : Bytes := utf8 "User " ++ caller.bytes ++ utf8 " may run:\n\n"

/-- What the listing writes. -/
def listText (policy : Policy) (caller : CStr) (groups : Option (List CStr)) : Bytes :=
  listHeader caller ++ (listing policy caller groups).flatMap ListEntry.text
    ++ (if ∃ r ∈ policy.rules, r.Listed caller groups then [] else utf8 "    (none)\n")

/-- One line, up to what follows the tag. -/
theorem prints_listLine (r : Rule) (what : Bytes) :
    Prints (listLine r what)
      (utf8 "    (" ++ (r.runAs.bytes ++ (utf8 ") " ++
        ((if !r.requireAuth then utf8 "NOPASSWD: " else []) ++ what)))) :=
  (prints_fileWrite _).bind fun _ => (prints_fileWrite _).bind fun _ =>
    (prints_fileWrite _).bind fun _ =>
      (prints_ite (prints_fileWrite _) (prints_pure _)).bind fun _ => prints_fileWrite _

/-- The patterns of a rule print its entries. -/
theorem prints_listCommands (r : Rule) (cs : List CStr) :
    Prints (listCommands r cs)
      ((cs.map (fun p => (⟨r.runAs, !r.requireAuth, p⟩ : ListEntry))).flatMap ListEntry.text) := by
  induction cs with
  | nil => exact prints_pure _
  | cons c cs ih =>
      have hline := (prints_listLine r c.bytes).bind fun _ =>
        (prints_fileWrite (utf8 "\n")).bind fun _ => ih
      rw [List.map_cons, List.flatMap_cons, listCommands]
      simpa only [ListEntry.text, List.append_assoc] using hline

/-- A rule prints its entries. -/
theorem prints_entries (r : Rule) :
    Prints (if r.commands = [] then listLine r (utf8 "ALL\n") else listCommands r r.commands)
      (r.entries.flatMap ListEntry.text) := by
  rw [Rule.entries, Rule.listedPatterns]
  split
  case isTrue =>
    have hline := prints_listLine r (utf8 "ALL\n")
    have hall : utf8 "ALL\n" = (cstr "ALL").bytes ++ utf8 "\n" := by decide
    rw [hall] at hline ⊢
    simpa [ListEntry.text] using hline
  case isFalse => exact prints_listCommands r r.commands

/-- The rules print their entries, and a note when none was found. -/
theorem prints_listRules (caller : CStr) (groups : Option (List CStr)) (rules : List Rule)
    (found : Bool) :
    Prints (listRules caller groups rules found)
      (((rules.filter (fun r => r.Listed caller groups)).flatMap Rule.entries).flatMap
          ListEntry.text
        ++ (if found = true ∨ ∃ r ∈ rules, r.Listed caller groups then []
          else utf8 "    (none)\n")) := by
  induction rules generalizing found with
  | nil =>
      cases found with
      | true => simpa [listRules] using prints_pure ()
      | false => simpa [listRules] using prints_fileWrite (utf8 "    (none)\n")
  | cons r rules ih =>
      have htest : (userMatches r caller || groupMatches r groups) = true ↔
          r.Listed caller groups := by
        rw [Bool.or_eq_true, Rule.Listed]
      rw [listRules]
      by_cases hlisted : r.Listed caller groups
      · rw [if_pos (htest.mpr hlisted), List.filter_cons_of_pos (by simpa using hlisted),
          List.flatMap_cons, List.flatMap_append, List.append_assoc]
        refine (prints_entries r).bind fun _ => ?_
        simpa [hlisted] using ih true
      · rw [if_neg (fun h => hlisted (htest.mp h)),
          List.filter_cons_of_neg (by simpa using hlisted)]
        simpa [hlisted] using ih found

/-- **What the listing writes**: its header and the lines of its entries. -/
theorem listPermissions_prints (policy : Policy) (caller : CStr)
    (groups : Option (List CStr)) :
    Prints (listPermissions policy caller groups) (listText policy caller groups) := by
  have hprog := (prints_fileWrite (utf8 "User ")).bind fun _ =>
    (prints_fileWrite caller.bytes).bind fun _ =>
      (prints_fileWrite (utf8 " may run:\n\n")).bind fun _ =>
        prints_listRules caller groups policy.rules false
  rw [listPermissions]
  simpa [listText, listHeader, listing] using hprog

/-! ### The listing and the engine -/

/-- The request is left to the rule behind `pre`: its `run_as` admits the target, and no earlier
rule decides. -/
def Rule.LeftTo (r : Rule) (pre : List Rule) (caller : CStr) (groups : Option (List CStr))
    (target command : CStr) : Prop :=
  (r.runAs = cstr "*" ∨ r.runAs = target) ∧ ∀ q ∈ pre, ¬ q.Deciding caller groups target command

/-- The listing says what the engine does. The requests an entry describes are allowed when the
rule of the entry decides them, without a password exactly when the entry is tagged; and the
entries of a rule that decides a request are among those printed. -/
structure ListingAgrees (policy : Policy) (caller : CStr) (groups : Option (List CStr)) :
    Prop where
  printed : Prints (listPermissions policy caller groups) (listText policy caller groups)
  sound : ∀ pre r, r.Listed caller groups → ∀ e ∈ r.entries, ∀ target command,
    (e.runAs = cstr "*" ∨ e.runAs = target) → commandMatches command e.pattern = true →
    First (fun r => r.Deciding caller groups target command) policy.rules pre r →
    (checkAuthorization policy caller groups target command).allowed = true ∧
    ((checkAuthorization policy caller groups target command).requireAuth = false ↔
      e.nopasswd = true)
  complete : ∀ pre r target command,
    First (fun r => r.Deciding caller groups target command) policy.rules pre r →
    r.Listed caller groups ∧ r.entries ≠ [] ∧ r.entries <:+: listing policy caller groups

/-- No listed rule is left a request that one of its patterns matches and one of its deny
patterns too, nor any such request while only the defaults switch its authentication off. -/
def PlainlyListed (policy : Policy) (caller : CStr) (groups : Option (List CStr)) : Prop :=
  ∀ pre r post, policy.rules = pre ++ r :: post → r.Listed caller groups →
    ∀ p ∈ r.listedPatterns, ∀ target command, r.LeftTo pre caller groups target command →
      commandMatches command p = true →
      ¬ MatchesSome command r.denyCommands ∧
        (r.requireAuth = true → policy.defaults.requireAuth = true)

theorem listed_iff {r : Rule} {caller : CStr} {groups : Option (List CStr)} :
    r.Listed caller groups ↔ r.ForUser caller ∨ r.ForGroup groups := by
  rw [Rule.Listed, userMatches_iff, groupMatches_iff]

theorem mem_entries_iff {r : Rule} {e : ListEntry} :
    e ∈ r.entries ↔ e.pattern ∈ r.listedPatterns ∧ e = ⟨r.runAs, !r.requireAuth, e.pattern⟩ := by
  rw [Rule.entries, List.mem_map]
  constructor
  · intro ⟨p, hp, he⟩
    rw [← he]
    exact ⟨hp, rfl⟩
  · intro ⟨hp, he⟩
    exact ⟨e.pattern, hp, he.symm⟩

/-- A command that a printed pattern matches is one the rule is decisive about. -/
theorem decisive_of_listedPattern {r : Rule} {p command : CStr} (hp : p ∈ r.listedPatterns)
    (hmatch : commandMatches command p = true) : r.Decisive command := by
  rw [Rule.listedPatterns] at hp
  split at hp
  case isTrue hempty => exact Or.inr (Or.inl hempty)
  case isFalse => exact Or.inr (Or.inr ⟨p, hp, hmatch⟩)

/-- The entries of a listed rule stand together in the listing. -/
theorem entries_infix_listing {policy : Policy} {caller : CStr} {groups : Option (List CStr)}
    {pre post : List Rule} {r : Rule} (hrules : policy.rules = pre ++ r :: post)
    (hlisted : r.Listed caller groups) : r.entries <:+: listing policy caller groups := by
  rw [listing, hrules, List.filter_append, List.filter_cons_of_pos (by simpa using hlisted),
    List.flatMap_append, List.flatMap_cons]
  exact ⟨_, _, List.append_assoc _ _ _⟩

section Engine

variable {policy : Policy} {caller : CStr} {groups : Option (List CStr)} {target command : CStr}
  {pre : List Rule} {r : Rule}

/-- The rule that decides allows what none of its deny patterns matches. -/
theorem first_allowed_iff
    (hfirst : First (fun r => r.Deciding caller groups target command) policy.rules pre r) :
    (checkAuthorization policy caller groups target command).allowed = true ↔
      ¬ MatchesSome command r.denyCommands := by
  rw [checkAuthorization_first hfirst, ruleVerdict]
  by_cases hdeny : MatchesSome command r.denyCommands
  · rw [if_pos (matchesAny_iff.mpr hdeny)]
    simp [authzDenied, hdeny]
  · rw [if_neg (fun h => hdeny (matchesAny_iff.mp h))]
    simp [authzAllowed, hdeny]

theorem first_requireAuth
    (hfirst : First (fun r => r.Deciding caller groups target command) policy.rules pre r)
    (hdeny : ¬ MatchesSome command r.denyCommands) :
    (checkAuthorization policy caller groups target command).requireAuth
      = (r.requireAuth && policy.defaults.requireAuth) := by
  rw [checkAuthorization_first hfirst, ruleVerdict, if_neg (fun h => hdeny (matchesAny_iff.mp h))]
  rfl

/-- Its password is asked for as the tag says, unless the defaults alone switch it off. -/
theorem tag_iff {rule default : Bool} :
    ((rule && default) = false ↔ (!rule) = true) ↔ (rule = true → default = true) := by
  cases rule <;> simp

end Engine

/-- **When the listing agrees with the engine.** -/
theorem listingAgrees_iff (policy : Policy) (caller : CStr) (groups : Option (List CStr)) :
    ListingAgrees policy caller groups ↔ PlainlyListed policy caller groups := by
  constructor
  -- The rule decides the request its own entry lets through, so soundness is about it.
  · intro hagrees pre r post hrules hlisted p hp target command hleft hmatch
    have hfirst : First (fun r => r.Deciding caller groups target command) policy.rules pre r :=
      ⟨⟨post, hrules⟩, ⟨⟨listed_iff.mp hlisted, hleft.1⟩, decisive_of_listedPattern hp hmatch⟩,
        hleft.2⟩
    have hentry : (⟨r.runAs, !r.requireAuth, p⟩ : ListEntry) ∈ r.entries :=
      List.mem_map_of_mem hp
    obtain ⟨hallowed, htag⟩ :=
      hagrees.sound pre r hlisted _ hentry target command hleft.1 hmatch hfirst
    have hdeny := (first_allowed_iff hfirst).mp hallowed
    refine ⟨hdeny, ?_⟩
    rw [first_requireAuth hfirst hdeny] at htag
    exact tag_iff.mp htag
  · intro hplain
    constructor
    case printed => exact listPermissions_prints policy caller groups
    case sound =>
      intro pre r hlisted e he target command htarget hmatch hfirst
      obtain ⟨hp, he⟩ := mem_entries_iff.mp he
      rw [he] at htarget
      obtain ⟨post, hrules⟩ := hfirst.1
      obtain ⟨hdeny, hauth⟩ := hplain pre r post hrules hlisted e.pattern hp target command
        ⟨htarget, hfirst.2.2⟩ hmatch
      refine ⟨(first_allowed_iff hfirst).mpr hdeny, ?_⟩
      rw [first_requireAuth hfirst hdeny, he]
      exact tag_iff.mpr hauth
    case complete =>
      intro pre r target command hfirst
      obtain ⟨⟨post, hrules⟩, ⟨⟨hsubject, -⟩, -⟩, -⟩ := hfirst
      have hlisted := listed_iff.mpr hsubject
      refine ⟨hlisted, ?_, entries_infix_listing hrules hlisted⟩
      rw [Rule.entries, Rule.listedPatterns]
      split
      case isTrue => simp
      case isFalse hne => simpa using hne

/-- A policy whose deny patterns meet no command pattern of their rule, and whose defaults ask
for a password, is listed as it is. -/
theorem plainlyListed_of_apart {policy : Policy}
    (hapart : ∀ r ∈ policy.rules, ∀ d ∈ r.denyCommands, ∀ p ∈ r.listedPatterns,
      ¬ PatternsMeet d p)
    (hauth : policy.defaults.requireAuth = true) (caller : CStr) (groups : Option (List CStr)) :
    PlainlyListed policy caller groups := by
  intro pre r post hrules _ p hp target command _ hmatch
  refine ⟨?_, fun _ => hauth⟩
  intro ⟨d, hd, hdeny⟩
  have hr : r ∈ policy.rules := by simp [hrules]
  exact hapart r hr d hd p hp ((patternsMeet_iff d p).mp ⟨command, hdeny, hmatch⟩)

/-- Everything but shutting down. -/
def allButHalt : Policy :=
  ⟨defaultsNew, [{ ruleNew with user := some (cstr "al"), denyCommands := [cstr "/sbin/halt"] }]⟩

/-- **A listed command can be denied.** The rule is listed as `ALL`, and the engine refuses
what it denies. -/
theorem listing_denied : ¬ ListingAgrees allButHalt (cstr "al") none := by
  intro hagrees
  have hdenied : (checkAuthorization allButHalt (cstr "al") none (cstr "root")
      (cstr "/sbin/halt")).allowed = false := by decide
  have hallowed := (hagrees.sound []
    { ruleNew with user := some (cstr "al"), denyCommands := [cstr "/sbin/halt"] }
    (by decide) ⟨cstr "root", false, cstr "ALL"⟩ (by simp [Rule.entries,
      Rule.listedPatterns, ruleNew]) (cstr "root") (cstr "/sbin/halt") (Or.inr rfl)
    (by decide) ⟨⟨[], rfl⟩, by decide, by simp⟩).1
  rw [hdenied] at hallowed
  contradiction

end Shakti
