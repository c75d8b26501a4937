import Shakti.FileSystem
import Shakti.Machine

/-!
# Shakti.PolicyFile

Whether the policy that is parsed is the file that was checked.

`load_policy` and `_shk_load_fragments` check a path with `stat`, which follows links,
and open the path again to read it. What they parse is the checked file in every run in
which a path is no link and names a regular file when it is opened, and nobody re-bound
it since its check (`loadPolicy_readsChecked`). Anybody who may write the directory of a
path can arrange a run in which it is not (`loadPolicy_swapped`).
-/

namespace Shakti

open Effects Effects.World

/-! ### What is to hold of a run -/

/-- The calls a run made, each with the file system it found. -/
abbrev History := List (Moment sysSig FileSystem)

/-- In a run with this history, `bytes` were read from the file that `path` itself was
bound to when it was checked, and that was regular, root's and not world-writable
then. -/
def ReadChecked (h : History) (path : CStr) (bytes : Bytes) : Prop :=
  ∃ (checked opened : FileSystem) (st : Stat) (content : Bytes) (ino : Nat) (node node' : Node),
    [⟨checked, ⟨.stat path, some st⟩⟩, ⟨opened, ⟨.readFile path, some content⟩⟩] <:+: h ∧
    bytes = content.take policyReadCap ∧
    checked.entry path = some (.file ino) ∧ checked.node ino = some node ∧
    policyFileTrusted node.stat = true ∧
    opened.node ino = some node' ∧ content = node'.content

/-- The rules come from fragments that were read as they were checked. -/
def FragmentsChecked (h : History) (rules : List Rule) : Prop :=
  ∃ frags : List (CStr × Bytes), (∀ f ∈ frags, ReadChecked h f.1 f.2) ∧
    rules = frags.flatMap (fun f => (parsePolicy f.2).rules)

/-- The policy is what the main file and its fragments say, each read as it was
checked. -/
def LoadedAsChecked (h : History) (path : CStr) (policy : Policy) : Prop :=
  ∃ bytes rules, ReadChecked h path bytes ∧ FragmentsChecked h rules ∧
    policy = { parsePolicy bytes with rules := (parsePolicy bytes).rules ++ rules }

theorem ReadChecked.mono {h h' : History} {path : CStr} {bytes : Bytes}
    (hr : ReadChecked h path bytes) (hsub : h <:+: h') : ReadChecked h' path bytes := by
  obtain ⟨checked, opened, st, content, ino, node, node', hmid, hrest⟩ := hr
  exact ⟨checked, opened, st, content, ino, node, node', hmid.trans hsub, hrest⟩

theorem FragmentsChecked.mono {h h' : History} {rules : List Rule}
    (hf : FragmentsChecked h rules) (hsub : h <:+: h') : FragmentsChecked h' rules := by
  obtain ⟨frags, hfrags, hrules⟩ := hf
  exact ⟨frags, fun f hmem => (hfrags f hmem).mono hsub, hrules⟩

theorem FragmentsChecked.nil (h : History) : FragmentsChecked h [] :=
  ⟨[], by simp, rfl⟩

theorem FragmentsChecked.append {h : History} {rules rules' : List Rule}
    (hf : FragmentsChecked h rules) (hf' : FragmentsChecked h rules') :
    FragmentsChecked h (rules ++ rules') := by
  obtain ⟨frags, hfrags, rfl⟩ := hf
  obtain ⟨frags', hfrags', rfl⟩ := hf'
  refine ⟨frags ++ frags', fun f hmem => ?_, by rw [List.flatMap_append]⟩
  exact (List.mem_append.mp hmem).elim (hfrags f) (hfrags' f)

/-! ### Runs in which nobody comes between -/

/-- What is read is a regular file that the path itself is bound to. -/
def OpensPlain : SysCall → FileSystem → Prop
  | .readFile path, fs => (∀ target, fs.entry path ≠ some (.link target)) ∧
      ∀ node, fs.lookup path = some node → node.stat.mode &&& sIfmt = sIfreg
  | _, _ => True

/-- A path about to be read stays bound to what it is bound to. -/
def KeepsPath : SysCall → FileSystem → FileSystem → Prop
  | .readFile path, fs, fs' => fs'.entry path = fs.entry path
  | _, _, _ => True

/-- The steps of the file system that meet both conditions. A path is read right after
its check, so a step that comes between them is one before a read. -/
def calmWorld (mayWrite : CStr → Prop) : World sysSig FileSystem :=
  (fsWorld mayWrite).restrict OpensPlain KeepsPath

variable {mayWrite : CStr → Prop} {fs fs' : FileSystem} {h : History} {path : CStr}

/-- While a read waits, its path and all files stay what they are. -/
theorem waits_readFile (hwait : (calmWorld mayWrite).Waits (.readFile path) fs fs') :
    fs'.entry path = fs.entry path ∧
      ∀ ino node, fs.node ino = some node → fs'.node ino = some node := by
  induction hwait with
  | refl => exact ⟨rfl, fun _ _ hnode => hnode⟩
  | tail _ hstep ih =>
      obtain ⟨hstep, hkeeps⟩ := hstep
      exact ⟨Eq.trans hkeeps ih.1, fun ino node hnode => hstep.node (ih.2 ino node hnode)⟩

theorem fragmentTrusted_of_policyFileTrusted {st : Stat} (h : policyFileTrusted st = true) :
    fragmentTrusted st = true := by
  simp only [policyFileTrusted, fragmentTrusted, Bool.and_eq_true, decide_eq_true_eq] at h ⊢
  exact ⟨h.1.2, h.2⟩

/-- A file that passed the fragment test and was then read was read as checked. -/
theorem readChecked_of_calm {checked checked' opened opened' : FileSystem} {st : Stat}
    {content : Bytes}
    (hstat : (calmWorld mayWrite).answers checked (.stat path) (some st) checked')
    (hwait : (calmWorld mayWrite).Waits (.readFile path) checked' opened)
    (hread : (calmWorld mayWrite).answers opened (.readFile path) (some content) opened')
    (htrusted : fragmentTrusted st = true)
    (hsub : [⟨checked, ⟨.stat path, some st⟩⟩, ⟨opened, ⟨.readFile path, some content⟩⟩] <:+: h) :
    ReadChecked h path (content.take policyReadCap) := by
  obtain ⟨⟨rfl, hlookup⟩, -⟩ := hstat
  obtain ⟨⟨rfl, hcontent⟩, hnolink, hregular⟩ := hread
  obtain ⟨hentry, hnodes⟩ := waits_readFile hwait
  obtain ⟨node, hnode, rfl⟩ := Option.map_eq_some_iff.mp hlookup.symm
  obtain ⟨node', hnode', -, rfl⟩ := hcontent content rfl
  -- The path is bound to one file throughout.
  cases he : checked'.entry path with
  | none => exact absurd he (FileSystem.entry_of_lookup hnode)
  | some e =>
      cases e with
      | link target => exact absurd (hentry.trans he) (hnolink target)
      | file ino =>
          rw [FileSystem.lookup_file he] at hnode
          have hsame : opened'.node ino = some node := hnodes ino node hnode
          rw [FileSystem.lookup_file (hentry.trans he), hsame] at hnode'
          cases hnode'
          refine ⟨checked', opened', node.stat, node.content, ino, node, node, hsub, rfl, he,
            hnode, ?_, hsame, rfl⟩
          have hreg := hregular node (by rw [FileSystem.lookup_file (hentry.trans he), hsame])
          simp only [fragmentTrusted, Bool.and_eq_true, decide_eq_true_eq] at htrusted
          simp [policyFileTrusted, hreg, htrusted]

theorem completed_fileReadAll {cap : Nat} {bytes : Bytes}
    (hrun : Completed (calmWorld mayWrite) fs (fileReadAll path cap) h fs' (some bytes)) :
    ∃ opened content opened', (calmWorld mayWrite).Waits (.readFile path) fs opened ∧
      (calmWorld mayWrite).answers opened (.readFile path) (some content) opened' ∧
      h = [⟨opened, ⟨.readFile path, some content⟩⟩] ∧ bytes = content.take cap := by
  obtain ⟨opened, r, opened', h', hwait, hans, rfl, hrest⟩ := completed_ask_bind_iff.mp hrun
  obtain ⟨rfl, -, hbytes⟩ := completed_pure_iff.mp hrest
  cases r with
  | none => simp at hbytes
  | some content => exact ⟨opened, content, opened', hwait, hans, rfl, by simpa using hbytes⟩

/-! ### The loader -/

theorem fragments_loadFragment {rules : List Rule}
    (hrun : Completed (calmWorld mayWrite) fs (loadFragment path) h fs' rules) :
    FragmentsChecked h rules := by
  obtain ⟨checked, st, s₁, h₁, -, hstat, rfl, hrun₁⟩ := completed_ask_bind_iff.mp hrun
  cases st with
  | none =>
      obtain ⟨-, -, rfl⟩ := completed_pure_iff.mp hrun₁
      exact FragmentsChecked.nil _
  | some st =>
      dsimp only at hrun₁
      split at hrun₁
      case isFalse =>
        obtain ⟨-, -, rfl⟩ := completed_pure_iff.mp hrun₁
        exact FragmentsChecked.nil _
      case isTrue htrusted =>
        obtain ⟨h₂, h₃, s₂, got, rfl, hread, hrun₂⟩ := completed_bind_iff.mp hrun₁
        match got, hrun₂ with
        | none, hrun₂ =>
            obtain ⟨-, -, rfl⟩ := completed_pure_iff.mp hrun₂
            exact FragmentsChecked.nil _
        | some [], hrun₂ =>
            obtain ⟨-, -, rfl⟩ := completed_pure_iff.mp hrun₂
            exact FragmentsChecked.nil _
        | some (b :: bs), hrun₂ =>
            obtain ⟨rfl, -, rfl⟩ := completed_pure_iff.mp hrun₂
            obtain ⟨opened, content, opened', hwait, hans, rfl, hbytes⟩ :=
              completed_fileReadAll hread
            rw [hbytes]
            refine ⟨[(path, content.take policyReadCap)], ?_, by simp⟩
            simpa using readChecked_of_calm hstat hwait hans htrusted (List.infix_refl _)

theorem fragments_loadFragmentLoop {dir : CStr} {names : List CStr} {rules : List Rule}
    (hrun : Completed (calmWorld mayWrite) fs (loadFragmentLoop dir names) h fs' rules) :
    FragmentsChecked h rules := by
  induction names generalizing fs fs' h rules with
  | nil =>
      obtain ⟨-, -, rfl⟩ := completed_pure_iff.mp hrun
      exact FragmentsChecked.nil _
  | cons name names ih =>
      rw [loadFragmentLoop] at hrun
      split at hrun
      · obtain ⟨h₁, h₂, s₁, rules₁, rfl, hone, hrun₁⟩ := completed_bind_iff.mp hrun
        obtain ⟨h₃, h₄, s₂, rules₂, rfl, hmore, hrun₂⟩ := completed_bind_iff.mp hrun₁
        obtain ⟨rfl, -, rfl⟩ := completed_pure_iff.mp hrun₂
        refine ((fragments_loadFragment hone).mono ?_).append ((ih hmore).mono ?_)
        · exact (List.prefix_append h₁ _).isInfix
        · exact ⟨h₁, [], by simp⟩
      · exact ih hrun

theorem fragments_shkLoadFragments {dir : CStr} {rules : List Rule}
    (hrun : Completed (calmWorld mayWrite) fs (shkLoadFragments dir) h fs' rules) :
    FragmentsChecked h rules := by
  obtain ⟨checked, st, s₁, h₁, -, -, rfl, hrun₁⟩ := completed_ask_bind_iff.mp hrun
  cases st with
  | none =>
      obtain ⟨-, -, rfl⟩ := completed_pure_iff.mp hrun₁
      exact FragmentsChecked.nil _
  | some st =>
      dsimp only at hrun₁
      split at hrun₁
      · obtain ⟨listed, names, s₂, h₂, -, -, rfl, hrun₂⟩ := completed_ask_bind_iff.mp hrun₁
        exact (fragments_loadFragmentLoop hrun₂).mono
          ((List.suffix_cons _ _).trans (List.suffix_cons _ _)).isInfix
      · obtain ⟨-, -, rfl⟩ := completed_pure_iff.mp hrun₁
        exact FragmentsChecked.nil _

theorem fragments_loadPolicyBytes {bytes : Bytes} {policy : Policy}
    (hrun : Completed (calmWorld mayWrite) fs (loadPolicyBytes bytes) h fs' policy) :
    ∃ rules, FragmentsChecked h rules ∧
      policy = { parsePolicy bytes with rules := (parsePolicy bytes).rules ++ rules } := by
  unfold loadPolicyBytes at hrun
  dsimp only at hrun
  split at hrun
  · obtain ⟨-, -, rfl⟩ := completed_pure_iff.mp hrun
    exact ⟨[], FragmentsChecked.nil _, by simp⟩
  · obtain ⟨h₁, h₂, s₁, rules, rfl, hfrags, hrun₁⟩ := completed_bind_iff.mp hrun
    obtain ⟨rfl, -, rfl⟩ := completed_pure_iff.mp hrun₁
    exact ⟨rules, (fragments_shkLoadFragments hfrags).mono ⟨[], [], by simp⟩, rfl⟩

/-- **The policy that is parsed is the file that was checked**, the main file and every
fragment, in every run in which what is opened is no link and a regular file, and no
other process re-binds a path between its check and its open. -/
theorem loadPolicy_readsChecked {policy : Policy}
    (hrun : Completed (calmWorld mayWrite) fs (loadPolicy path) h fs' (some policy)) :
    LoadedAsChecked h path policy := by
  obtain ⟨checked, st, s₁, h₁, -, hstat, rfl, hrun₁⟩ := completed_ask_bind_iff.mp hrun
  cases st with
  | none => simpa using (completed_pure_iff.mp hrun₁).2.2
  | some st =>
      dsimp only at hrun₁
      split at hrun₁
      case isFalse => simpa using (completed_pure_iff.mp hrun₁).2.2
      case isTrue htrusted =>
        obtain ⟨h₂, h₃, s₂, got, rfl, hread, hrun₂⟩ := completed_bind_iff.mp hrun₁
        match got, hrun₂ with
        | none, hrun₂ => simpa using (completed_pure_iff.mp hrun₂).2.2
        | some [], hrun₂ => simpa using (completed_pure_iff.mp hrun₂).2.2
        | some (b :: bs), hrun₂ =>
            obtain ⟨opened, content, opened', hwait, hans, rfl, hbytes⟩ :=
              completed_fileReadAll hread
            obtain ⟨h₄, h₅, s₃, pol, rfl, hload, hrun₃⟩ := completed_bind_iff.mp hrun₂
            obtain ⟨rfl, -, heq⟩ := completed_pure_iff.mp hrun₃
            cases heq
            obtain ⟨rules, hfrags, hpolicy⟩ := fragments_loadPolicyBytes hload
            rw [List.append_nil]
            refine ⟨b :: bs, rules, ?_, hfrags.mono ?_, hpolicy⟩
            · rw [hbytes]
              exact readChecked_of_calm hstat hwait hans
                (fragmentTrusted_of_policyFileTrusted htrusted) ⟨[], h₄, rfl⟩
            · exact ((List.suffix_cons _ _).trans (List.suffix_cons _ _)).isInfix

/-! ### Runs of the loader -/

/-- A run that checks a path, reads it, and finds no include directory in it. -/
theorem completed_loadPolicy {W : World sysSig FileSystem} {checked s₁ opened : FileSystem}
    {st : Stat} {content : Bytes} (hwait : W.Waits (.stat path) fs checked)
    (hstat : W.answers checked (.stat path) (some st) s₁) (htrusted : policyFileTrusted st = true)
    (hwait' : W.Waits (.readFile path) s₁ opened)
    (hread : W.answers opened (.readFile path) (some content) fs')
    (hne : content.take policyReadCap ≠ [])
    (hno : (parsePolicy (content.take policyReadCap)).defaults.includeDir = none) :
    Completed W fs (loadPolicy path)
      [⟨checked, ⟨.stat path, some st⟩⟩, ⟨opened, ⟨.readFile path, some content⟩⟩] fs'
      (some (parsePolicy (content.take policyReadCap))) := by
  refine completed_ask_bind_iff.mpr ⟨checked, some st, s₁, _, hwait, hstat, rfl, ?_⟩
  dsimp only
  rw [if_pos htrusted]
  have hgot : Completed W s₁ (fileReadAll path policyReadCap)
      [⟨opened, ⟨.readFile path, some content⟩⟩] fs' (some (content.take policyReadCap)) :=
    completed_ask_bind_iff.mpr ⟨opened, some content, fs', [], hwait', hread, rfl, Runs.nil _ _⟩
  refine completed_bind_iff.mpr ⟨_, [], fs', _, rfl, hgot, ?_⟩
  cases hbytes : content.take policyReadCap with
  | nil => exact absurd hbytes hne
  | cons b bs =>
      rw [hbytes] at hno
      refine completed_bind_iff.mpr ⟨[], [], fs', parsePolicy (b :: bs), rfl, ?_, Runs.nil _ _⟩
      unfold loadPolicyBytes
      dsimp only
      rw [hno]
      exact Runs.nil _ _

/-- The path a user names, in a directory of his own. -/
def namedPath : CStr := cstr "/home/al/policy.toml"

/-- A policy file of his own. -/
def ownPath : CStr := cstr "/home/al/own.toml"

/-- The administrator's policy, and the user's. -/
def adminNode : Node := ⟨rootFile 384, utf8 "[defaults]\n"⟩
def ownNode : Node := ⟨⟨sIfreg ||| 420, 1000, 0⟩, utf8 "[[rules]]\nuser = \"al\"\n"⟩

/-- The named path is a link to the administrator's policy. -/
def linkedFs : FileSystem where
  entry path :=
    if path = namedPath then some (.link defaultPolicyPath)
    else if path = defaultPolicyPath then some (.file 1)
    else if path = ownPath then some (.file 2)
    else none
  node
    | 1 => some adminNode
    | 2 => some ownNode
    | _ => none

/-- The link, re-pointed to the user's own file. -/
def repointedFs : FileSystem := linkedFs.rebind namedPath (some (.link ownPath))

/-- The only directory other processes may write. -/
def ownDir (dir : CStr) : Prop := dir = cstr "/home/al"

/-- Where nobody interferes, the administrator's policy is read as it was checked. -/
theorem loadPolicy_readsChecked_admin :
    LoadedAsChecked
      [⟨linkedFs, ⟨.stat defaultPolicyPath, some adminNode.stat⟩⟩,
        ⟨linkedFs, ⟨.readFile defaultPolicyPath, some adminNode.content⟩⟩]
      defaultPolicyPath (parsePolicy (adminNode.content.take policyReadCap)) := by
  have hentry : linkedFs.entry defaultPolicyPath = some (.file 1) := by decide
  have hlookup : linkedFs.lookup defaultPolicyPath = some adminNode :=
    FileSystem.lookup_file hentry
  have hplain : OpensPlain (.readFile defaultPolicyPath) linkedFs := by
    refine ⟨fun target hlink => ?_, fun node hnode => ?_⟩
    · rw [hentry] at hlink
      cases hlink
    · rw [hlookup] at hnode
      cases hnode
      decide
  have hrun : Completed (calmWorld ownDir) linkedFs (loadPolicy defaultPolicyPath)
      [⟨linkedFs, ⟨.stat defaultPolicyPath, some adminNode.stat⟩⟩,
        ⟨linkedFs, ⟨.readFile defaultPolicyPath, some adminNode.content⟩⟩] linkedFs
      (some (parsePolicy (adminNode.content.take policyReadCap))) :=
    completed_loadPolicy Relation.ReflTransGen.refl
      ⟨⟨rfl, FileSystem.answers_stat hlookup⟩, trivial⟩ (by decide)
      Relation.ReflTransGen.refl
      ⟨⟨rfl, FileSystem.answers_readFile hlookup (by decide)⟩, hplain⟩
      (by decide) (by decide)
  exact loadPolicy_readsChecked hrun

/-- What the loader sees when the link is re-pointed between the check and the read. -/
def swappedHistory : History :=
  [⟨linkedFs, ⟨.stat namedPath, some adminNode.stat⟩⟩,
    ⟨repointedFs, ⟨.readFile namedPath, some ownNode.content⟩⟩]

/-- The user's own file passes for the administrator's policy. -/
theorem swapped_completed :
    Completed (fsWorld ownDir) linkedFs (loadPolicy namedPath) swappedHistory repointedFs
      (some (parsePolicy (ownNode.content.take policyReadCap))) := by
  have hchecked : linkedFs.lookup namedPath = some adminNode := by decide
  have hopened : repointedFs.lookup namedPath = some ownNode := by decide
  have hdir : ownDir (dirName namedPath) := by
    rw [ownDir]
    decide
  have hstep : FsStep ownDir linkedFs repointedFs := FsStep.symlink ownPath hdir
  exact completed_loadPolicy Relation.ReflTransGen.refl
    ⟨rfl, FileSystem.answers_stat hchecked⟩ (by decide)
    (Relation.ReflTransGen.single hstep)
    ⟨rfl, FileSystem.answers_readFile hopened (by decide)⟩
    (by decide) (by decide)

/-- **The check can be raced.** A user who may write the directory of the path he names
has a file of his own parsed as the policy. -/
theorem loadPolicy_swapped :
    ¬ ∀ (mayWrite : CStr → Prop) (fs fs' : FileSystem) (path : CStr) (h : History)
      (policy : Policy), Completed (fsWorld mayWrite) fs (loadPolicy path) h fs' (some policy) →
      LoadedAsChecked h path policy := by
  intro hclaim
  obtain ⟨bytes, rules, hread, -, -⟩ := hclaim _ _ _ _ _ _ swapped_completed
  obtain ⟨checked, opened, st, content, ino, node, node', hsub, -, hentry, -⟩ := hread
  have hall := hsub.eq_of_length (by rfl)
  simp only [swappedHistory, List.cons.injEq, Moment.mk.injEq] at hall
  obtain ⟨⟨rfl, -⟩, -⟩ := hall
  have hlink : linkedFs.entry namedPath = some (.link defaultPolicyPath) := by decide
  rw [hlink] at hentry
  cases hentry

end Shakti
