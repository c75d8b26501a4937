import Shakti.Policy.Parse
import Shakti.Sys

/-!
# Shakti.Policy.Load

Loading a policy from disk (`load_policy`) with the fragments of its include
directory (`_shk_load_fragments`).
-/

namespace Shakti

open Effects

/-- The read cap of a policy file or fragment. -/
def policyReadCap : Nat := 262144

/-- `default_policy_path`. -/
def defaultPolicyPath : CStr := cstr "/etc/agnos/sudoers.toml"

/-- The test `load_policy` makes on the file: regular, owned by root, not
world-writable. -/
def policyFileTrusted (st : Stat) : Bool :=
  decide (st.mode &&& sIfmt = sIfreg) && decide (st.uid = 0) && decide (st.mode &&& 2 = 0)

/-- The test `_shk_load_fragments` makes on the include directory. -/
def includeDirTrusted (st : Stat) : Bool :=
  decide (st.mode &&& sIfmt = sIfdir) && decide (st.uid = 0) && decide (st.mode &&& 2 = 0)

/-- The test `_shk_load_fragments` makes on a fragment. It does not ask what kind of
file the fragment is. -/
def fragmentTrusted (st : Stat) : Bool := decide (st.uid = 0) && decide (st.mode &&& 2 = 0)

/-- `str_compare_lex`. -/
def strCompareLex : Bytes → Bytes → Int
  | [], bs => -(bs.length : Int)
  | as, [] => as.length
  | a :: as, b :: bs => if a ≠ b then (a.toNat : Int) - b.toNat else strCompareLex as bs

/-- One pass of the inner loop of `_shk_sort_str_vec`: the next element moves left
past every element that compares greater. -/
def sortInsert (sorted : List CStr) (x : CStr) : List CStr :=
  let keep := (sorted.reverse.dropWhile (fun a => 0 < strCompareLex a.bytes x.bytes)).reverse
  keep ++ x :: sorted.drop keep.length

/-- `_shk_sort_str_vec`. -/
def shkSortStrVec (names : List CStr) : List CStr := names.foldl sortInsert []

/-- `path_join` of the standard library. It is taken to put a slash between the two also where
the directory ends in one: a path with a doubled slash names the same file. -/
def pathJoin (dir name : CStr) : CStr := dir ++ cstr "/" ++ name

/-- Whether a directory entry is a fragment. -/
def isFragmentName (name : CStr) : Bool := (utf8 ".toml").isSuffixOf name.bytes

/-- The rules of one fragment; none if it is not trusted or cannot be read. -/
def loadFragment (path : CStr) : Sys (List Rule) := do
  let st : Option Stat ← sys (.stat path)
  match st with
  | none => pure []
  | some st =>
      if fragmentTrusted st then do
        let content ← fileReadAll path policyReadCap
        match content with
        | none => pure []
        | some [] => pure []
        | some bytes => pure (parsePolicy bytes).rules
      else pure []

/-- The fragment loop of `_shk_load_fragments`. -/
def loadFragmentLoop (dir : CStr) : List CStr → Sys (List Rule)
  | [] => pure []
  | name :: names =>
      if isFragmentName name then do
        let rules ← loadFragment (pathJoin dir name)
        let rest ← loadFragmentLoop dir names
        pure (rules ++ rest)
      else loadFragmentLoop dir names

/-- `_shk_load_fragments`: the rules it appends. -/
def shkLoadFragments (dir : CStr) : Sys (List Rule) := do
  let st : Option Stat ← sys (.stat dir)
  match st with
  | none => pure []
  | some st =>
      if includeDirTrusted st then do
        let names : List CStr ← sys (.dirList dir)
        loadFragmentLoop dir (shkSortStrVec names)
      else pure []

/-- The policy parsed from a main file's bytes, completed with its fragments. -/
def loadPolicyBytes (bytes : Bytes) : Sys Policy := do
  let pol := parsePolicy bytes
  match pol.defaults.includeDir with
  | none => pure pol
  | some dir => do
      let rules ← shkLoadFragments dir
      pure { pol with rules := pol.rules ++ rules }

/-- `load_policy`. -/
def loadPolicy (path : CStr) : Sys (Option Policy) := do
  let st : Option Stat ← sys (.stat path)
  match st with
  | none => pure none
  | some st =>
      if policyFileTrusted st then do
        let content ← fileReadAll path policyReadCap
        match content with
        | none => pure none
        | some [] => pure none
        | some bytes => do
            let pol ← loadPolicyBytes bytes
            pure (some pol)
      else pure none

end Shakti
