import Shakti.Lib.World
import Shakti.Policy.Load

/-!
# Shakti.FileSystem

A file system that others move about in.

Paths are bound to files or to symbolic links. Other processes may rename, unlink,
create and re-point links in the directories they may write; no such step touches what
is in an existing file. `fsWorld` answers the calls that look at files from such a file
system. A `readFile` stands for the open and the reads after it: what the path is bound
to matters at the open only.
-/

namespace Shakti

open Effects

/-- A file: what `stat` reports of it, and what reading it delivers. -/
structure Node where
  stat : Stat
  content : Bytes
  deriving DecidableEq

/-- What a path is bound to. -/
inductive Entry
  | file (ino : Nat)
  | link (target : CStr)
  deriving DecidableEq

/-- The bindings of paths, and the files. -/
structure FileSystem where
  entry : CStr → Option Entry
  node : Nat → Option Node

/-- How many links the kernel follows. -/
def maxSymlinks : Nat := 40

/-- The file a path leads to, following at most `fuel` links. -/
def FileSystem.follow (fs : FileSystem) : Nat → CStr → Option Nat
  | fuel, path =>
      match fs.entry path with
      | none => none
      | some (.file ino) => some ino
      | some (.link target) =>
          match fuel with
          | 0 => none
          | fuel + 1 => fs.follow fuel target

/-- The file a path leads to. -/
def FileSystem.lookup (fs : FileSystem) (path : CStr) : Option Node :=
  (fs.follow maxSymlinks path).bind fs.node

/-- A path bound to a file leads to it. -/
theorem FileSystem.lookup_file {fs : FileSystem} {path : CStr} {ino : Nat}
    (h : fs.entry path = some (.file ino)) : fs.lookup path = fs.node ino := by
  simp [lookup, maxSymlinks, follow, h]

/-- A path that leads to a file is bound. -/
theorem FileSystem.entry_of_lookup {fs : FileSystem} {path : CStr} {node : Node}
    (h : fs.lookup path = some node) : fs.entry path ≠ none := by
  intro hnone
  simp [lookup, maxSymlinks, follow, hnone] at h

/-- Bind a path, or leave it unbound. -/
def FileSystem.rebind (fs : FileSystem) (path : CStr) (e : Option Entry) : FileSystem :=
  { fs with entry := fun p => if p = path then e else fs.entry p }

/-- The directory a path is in: everything before its last slash. -/
def dirName (path : CStr) : CStr :=
  CStr.read ((path.bytes.reverse.dropWhile (· != 47)).drop 1).reverse

/-- A step of another process, which may write the directories of which `mayWrite`
holds. -/
inductive FsStep (mayWrite : CStr → Prop) : FileSystem → FileSystem → Prop
  /-- Move what `src` is bound to; it replaces what `dst` was bound to. -/
  | rename {fs : FileSystem} {src dst : CStr} {e : Entry} : mayWrite (dirName src) →
      mayWrite (dirName dst) → fs.entry src = some e →
      FsStep mayWrite fs ((fs.rebind src none).rebind dst (some e))
  | unlink {fs : FileSystem} {path : CStr} : mayWrite (dirName path) →
      FsStep mayWrite fs (fs.rebind path none)
  /-- A new file, not root's. -/
  | create {fs : FileSystem} {path : CStr} {ino : Nat} {node : Node} :
      mayWrite (dirName path) → fs.node ino = none → node.stat.uid ≠ 0 →
      FsStep mayWrite fs
        { fs.rebind path (some (.file ino)) with
          node := fun i => if i = ino then some node else fs.node i }
  /-- A link, new or re-pointed. -/
  | symlink {fs : FileSystem} {path : CStr} (target : CStr) : mayWrite (dirName path) →
      FsStep mayWrite fs (fs.rebind path (some (.link target)))

/-- Files stay what they are. -/
theorem FsStep.node {mayWrite : CStr → Prop} {fs fs' : FileSystem} (h : FsStep mayWrite fs fs')
    {ino : Nat} {node : Node} (hnode : fs.node ino = some node) : fs'.node ino = some node := by
  cases h with
  | rename => exact hnode
  | unlink => exact hnode
  | @create path fresh new _ hfresh _ =>
      have hne : ino ≠ fresh := by
        rintro rfl
        rw [hfresh] at hnode
        exact absurd hnode (by simp)
      simpa [hne] using hnode
  | symlink => exact hnode

/-- What the file system answers to the calls that look at files. A read may fail, and
the read of a directory does; a directory's list names bound entries. -/
def FileSystem.Answers (fs : FileSystem) : Event sysSig → Prop
  | ⟨.stat path, r⟩ => r = (fs.lookup path).map Node.stat
  | ⟨.readFile path, r⟩ => ∀ content, r = some content →
      ∃ node, fs.lookup path = some node ∧ node.stat.mode &&& sIfmt ≠ sIfdir ∧
        content = node.content
  | ⟨.dirList path, r⟩ => ∀ name ∈ r, fs.entry (pathJoin path name) ≠ none
  | _ => True

theorem FileSystem.answers_stat {fs : FileSystem} {path : CStr} {node : Node}
    (h : fs.lookup path = some node) : fs.Answers ⟨.stat path, some node.stat⟩ := by
  show some node.stat = (fs.lookup path).map Node.stat
  rw [h]
  rfl

theorem FileSystem.answers_readFile {fs : FileSystem} {path : CStr} {node : Node}
    (h : fs.lookup path = some node) (hdir : node.stat.mode &&& sIfmt ≠ sIfdir) :
    fs.Answers ⟨.readFile path, some node.content⟩ := by
  intro content hcontent
  cases hcontent
  exact ⟨node, h, hdir, rfl⟩

/-- The file system as a world: calls leave it alone, other processes do not. -/
def fsWorld (mayWrite : CStr → Prop) : World sysSig FileSystem where
  answers fs c r fs' := fs' = fs ∧ fs.Answers ⟨c, r⟩
  other _ := FsStep mayWrite

end Shakti
