import Shakti.Lib.World
import Shakti.Timestamp

/-!
# Shakti.CredentialCache

Whose credentials the cache vouches for.

A session is a user on a terminal. Sessions update, invalidate and check their
timestamps in any order while the clock runs, and nobody else writes the timestamp
directory. A check that succeeds should vouch for an update of the same session that is
younger than the window and was not invalidated since (`OwnCredentials`).

The file of a session is named after its user and its terminal, with a colon between the
two and the slashes of the terminal rewritten. Two sessions may share a file (`Confused`),
and `credentialCache_own_iff` says that this is the only way in which one session comes by
the credentials of another.
-/

namespace Shakti

open Effects Effects.World

/-! ### The timestamp directory -/

/-- The clock, and the entries of the file system. -/
structure CacheDir where
  clock : Int
  entry : CStr → Option Stat

/-- Bind a path, or leave it unbound. -/
def CacheDir.bind (dir : CacheDir) (path : CStr) (st : Option Stat) : CacheDir :=
  { dir with entry := fun p => if p = path then st else dir.entry p }

@[simp] theorem CacheDir.bind_clock (dir : CacheDir) (path : CStr) (st : Option Stat) :
    (dir.bind path st).clock = dir.clock := rfl

/-- What an open that creates or truncates leaves at its path. -/
def CacheDir.touched (dir : CacheDir) (path : CStr) (mode : Nat) : Stat :=
  match dir.entry path with
  | some st => { st with mtime := dir.clock }
  | none => ⟨sIfreg ||| mode, 0, dir.clock⟩

/-- Where the stdin of a session points to: at a device under `/dev/` when it has a
terminal, and elsewhere, or nowhere, when it has none. -/
def IsStdinLink : Option CStr → Option Bytes → Prop
  | some device, r => r = some (utf8 "/dev/" ++ device.bytes)
  | none, r => ∀ link, r = some link → link.take 5 ≠ utf8 "/dev/"

/-- What the kernel answers a session on the terminal `tty`, and what becomes of the
directory. Every open of the cache creates or truncates. -/
def CacheDir.Answers (tty : Option CStr) (dir : CacheDir) : Event sysSig → CacheDir → Prop
  | ⟨.readlink _, r⟩, dir' => dir' = dir ∧ IsStdinLink tty r
  | ⟨.lstat path, r⟩, dir' => dir' = dir ∧ r = dir.entry path
  | ⟨.clockGettime, r⟩, dir' => dir' = dir ∧ ∀ now, r = some now → now = dir.clock
  | ⟨.mkdir path mode, r⟩, dir' =>
      dir' = if (r : Int) < 0 then dir else dir.bind path (some ⟨sIfdir ||| mode, 0, dir.clock⟩)
  | ⟨.open path _ mode, fd⟩, dir' =>
      dir' = if (fd : Int) < 0 then dir else dir.bind path (some (dir.touched path mode))
  | ⟨.unlink path, r⟩, dir' => dir' = if (r : Int) < 0 then dir else dir.bind path none
  | _, dir' => dir' = dir

/-- The directory as a world, in which only the clock moves by itself. -/
def cacheWorld (tty : Option CStr) : World sysSig CacheDir where
  answers dir c r dir' := dir.Answers tty ⟨c, r⟩ dir'
  other _ dir dir' := ∃ now, dir.clock ≤ now ∧ dir' = { dir with clock := now }

/-! ### Sessions and their calls -/

/-- A user on a terminal. -/
structure CacheSession where
  user : CStr
  tty : Option CStr
  valid : validateUsername user = .ok
  deriving DecidableEq

/-- What a session asks of the cache. -/
inductive CacheCall
  | update
  | invalidate
  | check (ttlSecs : Nat)
  deriving DecidableEq

/-- The program behind a call, and whether it succeeded. -/
def CacheCall.run : CacheCall → CStr → Sys Bool
  | .update, user => do
      let err ← updateTimestamp user
      pure (decide (err = .ok))
  | .invalidate, user => do
      let err ← invalidateTimestamp user
      pure (decide (err = .ok))
  | .check ttlSecs, user => checkTimestamp user ttlSecs

/-- A call that was made, whether it succeeded, and the time of its last step. -/
structure CacheRecord where
  session : CacheSession
  call : CacheCall
  ok : Bool
  time : Int

/-- The clock at the last step of a call that started in `dir`. -/
def lastClock (dir : CacheDir) (h : List (Moment sysSig CacheDir)) : Int :=
  (h.getLast?.map fun m => m.state.clock).getD dir.clock

/-- A run of calls, one after the other, by sessions of which `P` holds. -/
inductive CacheRuns (P : CacheSession → Prop) :
    CacheDir → List CacheRecord → CacheDir → Prop
  | nil (dir : CacheDir) : CacheRuns P dir [] dir
  | call {dir mid dir' : CacheDir} {a : CacheSession} {c : CacheCall} {ok : Bool}
      {h : List (Moment sysSig CacheDir)} {recs : List CacheRecord} :
      P a → Completed (cacheWorld a.tty) dir (c.run a.user) h mid ok →
      CacheRuns P mid recs dir' →
      CacheRuns P dir (⟨a, c, ok, lastClock dir h⟩ :: recs) dir'

/-- No timestamps were written yet. -/
def CacheDir.Fresh (dir : CacheDir) : Prop :=
  ∀ path, path ≠ defaultTimestampDir → dir.entry path = none

/-- Every check that succeeds vouches for an update of its own session that is younger
than the window and was not invalidated since. -/
def OwnCredentials (recs : List CacheRecord) : Prop :=
  ∀ (pre : List CacheRecord) (r : CacheRecord) (post : List CacheRecord) (ttlSecs : Nat),
    recs = pre ++ r :: post → r.call = .check ttlSecs → r.ok = true →
    ∃ (older : List CacheRecord) (u : CacheRecord) (newer : List CacheRecord),
      pre = older ++ u :: newer ∧ u.session = r.session ∧ u.call = .update ∧ u.ok = true ∧
      r.time - u.time < ttlSecs ∧
      ∀ i ∈ newer, i.session = r.session → i.call = .invalidate → i.ok = false

/-! ### The credential of a session -/

/-- What a call does to the credential of the session `a`, which is the time of the
update it stems from. -/
def credentialStep (a : CacheSession) (held : Option Int) (r : CacheRecord) : Option Int :=
  if r.session = a ∧ r.ok = true then
    match r.call with
    | .update => some r.time
    | .invalidate => none
    | .check _ => held
  else held

/-- The credential of a session after some calls. -/
def credential (a : CacheSession) (recs : List CacheRecord) : Option Int :=
  recs.foldl (credentialStep a) none

variable {a b : CacheSession} {recs : List CacheRecord}

theorem credential_concat (r : CacheRecord) :
    credential a (recs ++ [r]) = credentialStep a (credential a recs) r := by
  simp [credential]

/-- A credential stems from an update that was not invalidated since. -/
theorem credential_update {t : Int} (h : credential a recs = some t) :
    ∃ older u newer, recs = older ++ u :: newer ∧ u.session = a ∧ u.call = .update ∧
      u.ok = true ∧ u.time = t ∧
      ∀ i ∈ newer, i.session = a → i.call = .invalidate → i.ok = false := by
  induction recs using List.reverseRecOn with
  | nil => simp [credential] at h
  | append_singleton recs r ih =>
      rw [credential_concat, credentialStep] at h
      by_cases hr : r.session = a ∧ r.ok = true
      · rw [if_pos hr] at h
        cases hcall : r.call with
        | update =>
            rw [hcall] at h
            exact ⟨recs, r, [], rfl, hr.1, hcall, hr.2, Option.some.inj h, by simp⟩
        | invalidate =>
            rw [hcall] at h
            cases h
        | check ttlSecs =>
            rw [hcall] at h
            obtain ⟨older, u, newer, rfl, hu, hcu, hok, ht, hnewer⟩ := ih h
            refine ⟨older, u, newer ++ [r], by simp, hu, hcu, hok, ht, fun i hi hia hci => ?_⟩
            rcases List.mem_append.mp hi with hi | hi
            · exact hnewer i hi hia hci
            · rw [List.mem_singleton.mp hi, hcall] at hci
              cases hci
      · rw [if_neg hr] at h
        obtain ⟨older, u, newer, rfl, hu, hcu, hok, ht, hnewer⟩ := ih h
        refine ⟨older, u, newer ++ [r], by simp, hu, hcu, hok, ht, fun i hi hia hci => ?_⟩
        rcases List.mem_append.mp hi with hi | hi
        · exact hnewer i hi hia hci
        · rw [List.mem_singleton.mp hi] at hia ⊢
          exact Bool.eq_false_iff.mpr fun hok => hr ⟨hia, hok⟩

/-! ### The file of a session -/

/-- What the name of a file keeps of a terminal: the first 250 bytes of its device's name,
with dashes for slashes. -/
def ttyMark : Option CStr → Bytes
  | none => []
  | some device => (device.bytes.take 250).map fun c => if c = 47 then 45 else c

/-- How the terminal is appended to the user's name. -/
def markSuffix (mark : Bytes) : Bytes := if mark = [] then [] else 58 :: mark

/-- Two sessions whose files have one name: a user on two terminals that leave the same
mark, or a user whose name continues another's with a colon and what the other's terminal
is called. -/
def Confused (a b : CacheSession) : Prop :=
  (a.user = b.user ∧ a.tty ≠ b.tty ∧ ttyMark a.tty = ttyMark b.tty) ∨
    ∃ w, b.user.bytes = a.user.bytes ++ 58 :: w ∧ ttyMark a.tty ≠ [] ∧
      ttyMark a.tty = w ++ markSuffix (ttyMark b.tty)

/-- The file of a session. -/
def CacheSession.path (a : CacheSession) : CStr :=
  timestampFile a.user (CStr.read (ttyMark a.tty))

theorem ttyMark_noNul (tty : Option CStr) : (0 : UInt8) ∉ ttyMark tty := by
  cases tty with
  | none => simp [ttyMark]
  | some device =>
      intro h
      obtain ⟨c, hc, h0⟩ := List.mem_map.mp h
      split at h0
      · exact absurd h0 (by decide)
      · exact device.noNul (List.mem_of_mem_take (h0 ▸ hc))

theorem CacheSession.path_bytes (a : CacheSession) :
    a.path.bytes = defaultTimestampDir.bytes ++ (cstr "/").bytes
      ++ (a.user.bytes ++ markSuffix (ttyMark a.tty)) := by
  have hmark : (CStr.read (ttyMark a.tty)).bytes = ttyMark a.tty :=
    CStr.read_of_noNul (ttyMark_noNul _)
  have hcolon : (cstr ":").bytes = [58] := by decide
  have hempty : (cstr "").bytes = [] := by decide
  rw [path, timestampFile, CStr.length, hmark]
  by_cases hnil : ttyMark a.tty = []
  · rw [hnil, if_neg (by simp)]
    simp [markSuffix, hempty]
  · rw [if_pos (List.length_pos_iff.mpr hnil)]
    simp [markSuffix, hnil, hcolon, hmark]

/-- No timestamp file is the directory itself. -/
theorem CacheSession.path_ne_dir (a : CacheSession) : a.path ≠ defaultTimestampDir := by
  intro h
  have hlen := congrArg (fun p : CStr => p.bytes.length) h
  have hslash : (cstr "/").bytes.length = 1 := by decide
  simp only [path_bytes, List.length_append, hslash] at hlen
  omega

theorem markSuffix_inj {m m' : Bytes} (h : markSuffix m = markSuffix m') : m = m' := by
  unfold markSuffix at h
  split at h <;> split at h <;> simp_all

theorem Confused.path_eq (h : Confused a b) : a.path = b.path := by
  apply CStr.ext
  rw [CacheSession.path_bytes, CacheSession.path_bytes]
  congr 1
  rcases h with ⟨huser, -, hmark⟩ | ⟨w, huser, hne, hmark⟩
  · rw [huser, hmark]
  · rw [huser, markSuffix, if_neg hne, hmark]
    simp

/-- Sessions with one file are one session, or confused. -/
theorem CacheSession.path_eq (h : a.path = b.path) : a = b ∨ Confused a b ∨ Confused b a := by
  have hbytes := congrArg CStr.bytes h
  rw [path_bytes, path_bytes] at hbytes
  have key : ∀ (a b : CacheSession) (as : Bytes), b.user.bytes = a.user.bytes ++ as →
      markSuffix (ttyMark a.tty) = as ++ markSuffix (ttyMark b.tty) →
      a = b ∨ Confused a b := by
    intro a b as huser hsuffix
    cases as with
    | nil =>
        have hu : a.user = b.user := CStr.ext (by simpa using huser.symm)
        have hmark := markSuffix_inj (by simpa using hsuffix)
        by_cases htty : a.tty = b.tty
        · left
          cases a
          cases b
          cases hu
          cases htty
          rfl
        · exact Or.inr (Or.inl ⟨hu, htty, hmark⟩)
    | cons c w =>
        have hne : ttyMark a.tty ≠ [] := by
          intro hnil
          simp [hnil, markSuffix] at hsuffix
        rw [markSuffix, if_neg hne, List.cons_append] at hsuffix
        obtain ⟨rfl, hmark⟩ := List.cons.inj hsuffix
        exact Or.inr (Or.inr ⟨w, huser, hne, hmark⟩)
  rcases List.append_eq_append_iff.mp (List.append_cancel_left hbytes)
    with ⟨as, huser, hsuffix⟩ | ⟨bs, huser, hsuffix⟩
  · rcases key a b as huser hsuffix with heq | hconf
    · exact Or.inl heq
    · exact Or.inr (Or.inl hconf)
  · rcases key b a bs huser hsuffix with heq | hconf
    · exact Or.inl heq.symm
    · exact Or.inr (Or.inr hconf)

/-! ### What the calls do -/

variable {tty : Option CStr} {dir dir' : CacheDir} {h : List (Moment sysSig CacheDir)}

theorem waits_cacheWorld {c : SysCall} (hwait : (cacheWorld tty).Waits c dir dir') :
    dir'.entry = dir.entry ∧ dir.clock ≤ dir'.clock := by
  induction hwait with
  | refl => exact ⟨rfl, Int.le_refl _⟩
  | tail _ hstep ih =>
      obtain ⟨now, hle, rfl⟩ := hstep
      exact ⟨ih.1, Int.le_trans ih.2 hle⟩

/-- What the cache keeps of the stdin link is the mark of the terminal. -/
theorem ttyName_of_link {link : Option Bytes} (hlink : IsStdinLink tty link) :
    ttyName ((link.getD []).take 255) = CStr.read (ttyMark tty) := by
  have hdev : (utf8 "/dev/").length = 5 := by decide
  cases tty with
  | some device =>
      subst hlink
      have htake : (utf8 "/dev/" ++ device.bytes).take 255
          = utf8 "/dev/" ++ device.bytes.take 250 := by
        rw [List.take_append, List.take_of_length_le (by omega), hdev]
      rw [Option.getD_some, htake, ttyName,
        if_pos (by rw [← hdev, List.take_left]), ttyMark, ← hdev, List.drop_left]
  | none =>
      have hno : ((link.getD []).take 255).take 5 ≠ utf8 "/dev/" := by
        rw [List.take_take]
        cases link with
        | none => decide
        | some link => exact hlink link rfl
      rw [ttyName, if_neg hno]
      decide

theorem completed_timestampPath {path : CStr}
    (hrun : Completed (cacheWorld a.tty) dir (timestampPath a.user) h dir' path) :
    path = a.path ∧ dir'.entry = dir.entry ∧ dir.clock ≤ dir'.clock := by
  obtain ⟨h₁, h₂, mid, name, rfl, hname, hrun₁⟩ := completed_bind_iff.mp hrun
  obtain ⟨-, rfl, rfl⟩ := completed_pure_iff.mp hrun₁
  obtain ⟨found, link, s', h₁', hwait, ⟨rfl, hlink⟩, rfl, hrun₂⟩ :=
    completed_ask_bind_iff.mp hname
  obtain ⟨-, rfl, rfl⟩ := completed_pure_iff.mp hrun₂
  refine ⟨?_, waits_cacheWorld hwait⟩
  rw [CacheSession.path, ttyName_of_link hlink]

/-- A check leaves the directory alone; it succeeds on an entry within the window. -/
theorem completed_check {ttlSecs : Nat} {ok : Bool}
    (hrun : Completed (cacheWorld a.tty) dir (checkTimestamp a.user ttlSecs) h dir' ok) :
    dir'.entry = dir.entry ∧ (ok = true →
      ∃ st, dir.entry a.path = some st ∧ lastClock dir h < st.mtime + ttlSecs) := by
  obtain ⟨h₁, h₂, d₁, path, rfl, hpath, hrun₁⟩ := completed_bind_iff.mp hrun
  obtain ⟨rfl, hentry₁, -⟩ := completed_timestampPath hpath
  obtain ⟨d₂, st, d₂', h₃, hwait, ⟨rfl, hst⟩, rfl, hrun₂⟩ := completed_ask_bind_iff.mp hrun₁
  have hentry₂ := (waits_cacheWorld hwait).1.trans hentry₁
  cases st with
  | none =>
      obtain ⟨-, rfl, rfl⟩ := completed_pure_iff.mp hrun₂
      exact ⟨hentry₂, by simp⟩
  | some st =>
      dsimp only at hrun₂
      -- A link, something that is no file, and a file of another owner are refused.
      split at hrun₂
      · obtain ⟨-, rfl, rfl⟩ := completed_pure_iff.mp hrun₂
        exact ⟨hentry₂, by simp⟩
      split at hrun₂
      · obtain ⟨-, rfl, rfl⟩ := completed_pure_iff.mp hrun₂
        exact ⟨hentry₂, by simp⟩
      split at hrun₂
      · obtain ⟨-, rfl, rfl⟩ := completed_pure_iff.mp hrun₂
        exact ⟨hentry₂, by simp⟩
      obtain ⟨h₄, h₅, d₃, now, rfl, hnow, hrun₃⟩ := completed_bind_iff.mp hrun₂
      obtain ⟨d₄, t, d₄', h₆, hwait', ⟨rfl, ht⟩, rfl, hrun₄⟩ := completed_ask_bind_iff.mp hnow
      obtain ⟨rfl, rfl, rfl⟩ := completed_pure_iff.mp hrun₄
      have hentry₃ := (waits_cacheWorld hwait').1.trans hentry₂
      split at hrun₃
      · obtain ⟨-, rfl, rfl⟩ := completed_pure_iff.mp hrun₃
        exact ⟨hentry₃, by simp⟩
      split at hrun₃
      case isFalse =>
        obtain ⟨-, rfl, rfl⟩ := completed_pure_iff.mp hrun₃
        exact ⟨hentry₃, by simp⟩
      case isTrue hne hlt =>
        obtain ⟨rfl, rfl, rfl⟩ := completed_pure_iff.mp hrun₃
        refine ⟨hentry₃, fun _ => ⟨st, ?_, ?_⟩⟩
        · rw [← hentry₂, ← hst]
        -- The clock was read, and the reading is at most the time at the end.
        · cases t with
          | none => exact absurd rfl hne
          | some t =>
              rw [ht t rfl] at hlt
              replace hlt := Int.lt_of_lt_of_le hlt (timestampExpiry_le _ _)
              simpa [lastClock] using hlt

/-- Both directories have the same timestamps. -/
def SameStamps (dir dir' : CacheDir) : Prop :=
  ∀ path, path ≠ defaultTimestampDir → dir'.entry path = dir.entry path

theorem SameStamps.of_entry (h : dir'.entry = dir.entry) : SameStamps dir dir' :=
  fun path _ => congrFun h path

theorem SameStamps.trans {mid : CacheDir} (h : SameStamps dir mid) (h' : SameStamps mid dir') :
    SameStamps dir dir' :=
  fun path hne => (h' path hne).trans (h path hne)

theorem completed_shkEnsureTsDir {err : ShkErr}
    (hrun : Completed (cacheWorld tty) dir shkEnsureTsDir h dir' err) : SameStamps dir dir' := by
  obtain ⟨d₁, st, d₁', h₁, hwait, ⟨rfl, -⟩, rfl, hrun₁⟩ := completed_ask_bind_iff.mp hrun
  have hentry := (waits_cacheWorld hwait).1
  cases st with
  | none =>
      obtain ⟨d₂, mr, d₂', h₂, hwait', hans, rfl, hrun₂⟩ := completed_ask_bind_iff.mp hrun₁
      have hsame : SameStamps dir d₂ :=
        SameStamps.of_entry ((waits_cacheWorld hwait').1.trans hentry)
      have hmade : SameStamps d₂ d₂' := by
        intro path hne
        rw [show d₂' = _ from hans]
        split
        · rfl
        · exact if_neg hne
      split at hrun₂
      · obtain ⟨-, rfl, -⟩ := completed_pure_iff.mp hrun₂
        exact hsame.trans hmade
      · obtain ⟨-, rfl, -⟩ := completed_pure_iff.mp hrun₂
        exact hsame.trans hmade
  | some st =>
      dsimp only at hrun₁
      have hfinal : dir' = d₁' := by
        split at hrun₁
        · exact (completed_pure_iff.mp hrun₁).2.1
        split at hrun₁
        · exact (completed_pure_iff.mp hrun₁).2.1
        split at hrun₁
        · exact (completed_pure_iff.mp hrun₁).2.1
        split at hrun₁
        · exact (completed_pure_iff.mp hrun₁).2.1
        · exact (completed_pure_iff.mp hrun₁).2.1
      rw [hfinal]
      exact SameStamps.of_entry hentry

/-- An update leaves its own timestamp no older than its last step, and the other ones
alone; when it fails it leaves all of them alone. -/
theorem completed_update {err : ShkErr}
    (hrun : Completed (cacheWorld a.tty) dir (updateTimestamp a.user) h dir' err) :
    (err = .ok ∧ (∃ st, dir'.entry a.path = some st ∧ st.mtime ≤ lastClock dir h) ∧
      ∀ path, path ≠ defaultTimestampDir → path ≠ a.path → dir'.entry path = dir.entry path) ∨
    (err ≠ .ok ∧ SameStamps dir dir') := by
  unfold updateTimestamp at hrun
  rw [a.valid] at hrun
  dsimp only at hrun
  obtain ⟨h₁, h₂, d₁, dirOk, rfl, hdir, hrun₁⟩ := completed_bind_iff.mp hrun
  have hsame := completed_shkEnsureTsDir hdir
  split at hrun₁
  case isTrue hne =>
    obtain ⟨-, rfl, rfl⟩ := completed_pure_iff.mp hrun₁
    exact Or.inr ⟨hne, hsame⟩
  case isFalse =>
    -- The directory has passed; nothing has been written to it so far.
    obtain ⟨h₃, h₄, d₂, path, rfl, hpath, hrun₂⟩ := completed_bind_iff.mp hrun₁
    obtain ⟨rfl, hentry, -⟩ := completed_timestampPath hpath
    obtain ⟨d₃, fd, d₃', h₅, hwait, hopen, rfl, hrun₃⟩ := completed_ask_bind_iff.mp hrun₂
    have hsame' : SameStamps dir d₃ :=
      hsame.trans (SameStamps.of_entry ((waits_cacheWorld hwait).1.trans hentry))
    replace hopen : d₃' = if fd < 0 then d₃
        else d₃.bind a.path (some (d₃.touched a.path 384)) := hopen
    by_cases hfd : fd < 0
    · rw [if_pos hfd] at hopen
      subst hopen
      split at hrun₃
      · obtain ⟨-, rfl, rfl⟩ := completed_pure_iff.mp hrun₃
        exact Or.inr ⟨by simp, hsame'⟩
      · obtain ⟨-, rfl, rfl⟩ := completed_pure_iff.mp hrun₃
        exact Or.inr ⟨by simp, hsame'⟩
    · rw [if_neg hfd] at hopen
      have hloop : fd ≠ -eloop := by
        rintro rfl
        exact hfd (show (-eloop : Int) < 0 by decide)
      rw [if_neg hloop, if_neg hfd] at hrun₃
      obtain ⟨d₄, r, d₄', h₆, hwait', hclose, rfl, hrun₄⟩ := completed_ask_bind_iff.mp hrun₃
      obtain ⟨rfl, rfl, rfl⟩ := completed_pure_iff.mp hrun₄
      obtain ⟨hentry', hclock⟩ := waits_cacheWorld hwait'
      replace hclose : dir' = d₄ := hclose
      subst hclose hopen
      -- Time may have passed since the file was touched, so its stamp is at most the clock's.
      refine Or.inl ⟨rfl, ⟨d₃.touched a.path 384, ?_, ?_⟩, fun path hdir hpath => ?_⟩
      · rw [hentry']
        exact if_pos rfl
      · have htouched : (d₃.touched a.path 384).mtime = d₃.clock := by
          unfold CacheDir.touched
          cases d₃.entry a.path with
          | none => rfl
          | some st => rfl
        simp only [lastClock, htouched]
        simpa using hclock
      · rw [hentry']
        exact (if_neg hpath).trans (hsame' path hdir)

/-- An invalidation removes its own timestamp and leaves the other ones alone; when it
fails it leaves all of them alone. -/
theorem completed_invalidate {err : ShkErr}
    (hrun : Completed (cacheWorld a.tty) dir (invalidateTimestamp a.user) h dir' err) :
    (err = .ok ∧ dir'.entry a.path = none ∧
      ∀ path, path ≠ a.path → dir'.entry path = dir.entry path) ∨
    (err ≠ .ok ∧ dir'.entry = dir.entry) := by
  unfold invalidateTimestamp at hrun
  rw [a.valid] at hrun
  dsimp only at hrun
  obtain ⟨h₁, h₂, d₁, path, rfl, hpath, hrun₁⟩ := completed_bind_iff.mp hrun
  obtain ⟨rfl, hentry₁, -⟩ := completed_timestampPath hpath
  obtain ⟨d₂, st, d₂', h₃, hwait, ⟨rfl, hst⟩, rfl, hrun₂⟩ := completed_ask_bind_iff.mp hrun₁
  have hentry := (waits_cacheWorld hwait).1.trans hentry₁
  cases st with
  | none =>
      obtain ⟨-, rfl, rfl⟩ := completed_pure_iff.mp hrun₂
      exact Or.inl ⟨rfl, hst.symm, fun path _ => congrFun hentry path⟩
  | some st =>
      dsimp only at hrun₂
      split at hrun₂
      · obtain ⟨-, rfl, rfl⟩ := completed_pure_iff.mp hrun₂
        exact Or.inr ⟨by simp, hentry⟩
      · obtain ⟨d₃, ur, d₃', h₄, hwait', hans, rfl, hrun₃⟩ := completed_ask_bind_iff.mp hrun₂
        have hentry' := (waits_cacheWorld hwait').1.trans hentry
        replace hans : d₃' = if ur < 0 then d₃ else d₃.bind a.path none := hans
        split at hrun₃
        case isTrue hur =>
          obtain ⟨-, rfl, rfl⟩ := completed_pure_iff.mp hrun₃
          rw [if_pos hur] at hans
          exact Or.inr ⟨by simp, by rw [hans, hentry']⟩
        case isFalse hur =>
          obtain ⟨-, rfl, rfl⟩ := completed_pure_iff.mp hrun₃
          rw [if_neg hur] at hans
          subst hans
          refine Or.inl ⟨rfl, if_pos rfl, fun path hne => ?_⟩
          exact (if_neg hne).trans (congrFun hentry' path)

/-! ### Runs of calls -/

/-- Every timestamp of a session stems from the session's credential and is no younger. -/
def StampsHeld (P : CacheSession → Prop) (recs : List CacheRecord) (dir : CacheDir) : Prop :=
  ∀ a, P a → ∀ st, dir.entry a.path = some st → ∃ t, credential a recs = some t ∧ st.mtime ≤ t

variable {P : CacheSession → Prop}

/-- A call that left the timestamps alone left the credentials alone. -/
theorem StampsHeld.same {r : CacheRecord} (hheld : StampsHeld P recs dir)
    (hsame : SameStamps dir dir')
    (hcred : ∀ a, credential a (recs ++ [r]) = credential a recs) :
    StampsHeld P (recs ++ [r]) dir' := by
  intro a ha st hst
  rw [hsame _ a.path_ne_dir] at hst
  rw [hcred]
  exact hheld a ha st hst

theorem credential_failed {r : CacheRecord} (hr : r.ok = false) :
    credential a (recs ++ [r]) = credential a recs := by
  rw [credential_concat, credentialStep, if_neg (by simp [hr])]

/-- One call keeps the invariant, as long as no sessions are confused. -/
theorem StampsHeld.step {c : CacheCall} {ok : Bool}
    (hheld : StampsHeld P recs dir) (hP : ∀ a b, P a → P b → ¬ Confused a b) (ha : P a)
    (hrun : Completed (cacheWorld a.tty) dir (c.run a.user) h dir' ok) :
    StampsHeld P (recs ++ [⟨a, c, ok, lastClock dir h⟩]) dir' := by
  -- The file of another session is another file.
  have hother : ∀ b, P b → b ≠ a → b.path ≠ a.path := by
    intro b hb hne hpath
    rcases CacheSession.path_eq hpath with heq | hconf | hconf
    · exact hne heq
    · exact hP b a hb ha hconf
    · exact hP a b ha hb hconf
  have hkept : ∀ b, b ≠ a → credential b (recs ++ [⟨a, c, ok, lastClock dir h⟩])
      = credential b recs := by
    intro b hne
    rw [credential_concat, credentialStep, if_neg (fun hr => hne hr.1.symm)]
  cases c with
  | update =>
      obtain ⟨err, hupdate, rfl⟩ := completed_map_iff.mp hrun
      rcases completed_update hupdate with ⟨rfl, ⟨st, hst, hle⟩, hrest⟩ | ⟨hne, hsame⟩
      · intro b hb st' hst'
        by_cases hba : b = a
        · subst hba
          rw [hst] at hst'
          cases hst'
          exact ⟨_, by rw [credential_concat, credentialStep, if_pos ⟨rfl, rfl⟩], hle⟩
        · rw [hrest _ b.path_ne_dir (hother b hb hba)] at hst'
          rw [hkept b hba]
          exact hheld b hb st' hst'
      · exact hheld.same hsame fun b => credential_failed (decide_eq_false hne)
  | invalidate =>
      obtain ⟨err, hinvalidate, rfl⟩ := completed_map_iff.mp hrun
      rcases completed_invalidate hinvalidate with ⟨rfl, hnone, hrest⟩ | ⟨hne, hentry⟩
      · intro b hb st' hst'
        by_cases hba : b = a
        · subst hba
          rw [hnone] at hst'
          cases hst'
        · rw [hrest _ (hother b hb hba)] at hst'
          rw [hkept b hba]
          exact hheld b hb st' hst'
      · exact hheld.same (SameStamps.of_entry hentry) fun b =>
          credential_failed (decide_eq_false hne)
  | check ttlSecs =>
      refine hheld.same (SameStamps.of_entry (completed_check hrun).1) fun b => ?_
      rw [credential_concat, credentialStep]
      split
      · rfl
      · rfl

/-- Continued from calls that kept the invariant, every check vouches for the credential
of its own session. -/
theorem CacheRuns.checks (hP : ∀ a b, P a → P b → ¬ Confused a b)
    (hrun : CacheRuns P dir recs dir') {old : List CacheRecord}
    (hheld : StampsHeld P old dir) {pre post : List CacheRecord} {r : CacheRecord}
    {ttlSecs : Nat} (hrecs : recs = pre ++ r :: post) (hcall : r.call = .check ttlSecs)
    (hok : r.ok = true) :
    ∃ t, credential r.session (old ++ pre) = some t ∧ r.time - t < ttlSecs := by
  induction hrun generalizing old pre with
  | nil => simp at hrecs
  | call ha hdone _ ih =>
      cases pre with
      | nil =>
          obtain ⟨rfl, -⟩ := List.cons.inj hrecs
          dsimp only at hcall hok
          subst hcall hok
          obtain ⟨st, hst, hlt⟩ := (completed_check hdone).2 rfl
          obtain ⟨t, ht, hle⟩ := hheld _ ha st hst
          refine ⟨t, by simpa using ht, ?_⟩
          dsimp only
          omega
      | cons r' pre =>
          obtain ⟨rfl, hrecs'⟩ := List.cons.inj hrecs
          simpa using ih (hheld.step hP ha hdone) hrecs'

theorem CacheRuns.own (hP : ∀ a b, P a → P b → ¬ Confused a b) (hfresh : dir.Fresh)
    (hrun : CacheRuns P dir recs dir') : OwnCredentials recs := by
  intro pre r post ttlSecs hrecs hcall hok
  have hheld : StampsHeld P [] dir := by
    intro a _ st hst
    rw [hfresh _ a.path_ne_dir] at hst
    cases hst
  obtain ⟨t, ht, hlt⟩ := hrun.checks hP hheld hrecs hcall hok
  obtain ⟨older, u, newer, hpre, hu, hcu, hok', rfl, hnewer⟩ := credential_update ht
  exact ⟨older, u, newer, hpre, hu, hcu, hok', hlt, hnewer⟩

/-! ### Confused sessions -/

/-- The stdin link of a session; a session without a terminal has none. -/
def stdinLink (tty : Option CStr) : Option Bytes :=
  tty.map fun device => utf8 "/dev/" ++ device.bytes

theorem isStdinLink_stdinLink (tty : Option CStr) : IsStdinLink tty (stdinLink tty) := by
  cases tty with
  | none => simp [IsStdinLink, stdinLink]
  | some device => rfl

/-- A directory without timestamps. -/
def freshDir : CacheDir where
  clock := 100
  entry path := if path = defaultTimestampDir then some ⟨sIfdir ||| 448, 0, 0⟩ else none

/-- The directory after an update of the session. -/
def stampedDir (a : CacheSession) : CacheDir :=
  freshDir.bind a.path (some ⟨sIfreg ||| 384, 0, 100⟩)

theorem freshDir_fresh : freshDir.Fresh := fun _ hne => if_neg hne

/-- A session finds its path. -/
theorem completed_path (a : CacheSession) (dir : CacheDir) :
    Completed (cacheWorld a.tty) dir (timestampPath a.user)
      [⟨dir, ⟨.readlink (cstr "/proc/self/fd/0"), stdinLink a.tty⟩⟩] dir a.path := by
  have hlink := isStdinLink_stdinLink a.tty
  have htty : Completed (cacheWorld a.tty) dir shkTtySession
      [⟨dir, ⟨.readlink (cstr "/proc/self/fd/0"), stdinLink a.tty⟩⟩] dir
      (CStr.read (ttyMark a.tty)) := by
    rw [← ttyName_of_link hlink]
    exact Runs.call ⟨rfl, hlink⟩ (Runs.nil _ _)
  exact completed_map_iff.mpr ⟨_, htty, rfl⟩

theorem completed_update_fresh (a : CacheSession) :
    ∃ h, Completed (cacheWorld a.tty) freshDir (CacheCall.update.run a.user) h (stampedDir a)
      true := by
  have hdir : Completed (cacheWorld a.tty) freshDir shkEnsureTsDir
      [⟨freshDir, ⟨.lstat defaultTimestampDir, freshDir.entry defaultTimestampDir⟩⟩] freshDir
      .ok := Runs.call ⟨rfl, rfl⟩ (Runs.nil _ _)
  have htouched : freshDir.touched a.path 384 = ⟨sIfreg ||| 384, 0, 100⟩ := by
    rw [CacheDir.touched, freshDir_fresh _ a.path_ne_dir]
    rfl
  have hopen : (cacheWorld a.tty).answers freshDir
      (.open a.path (oWronly ||| oCreat ||| oTrunc ||| oNofollow) 384) (3 : Int)
      (stampedDir a) := by
    show stampedDir a = freshDir.bind a.path (some (freshDir.touched a.path 384))
    rw [htouched]
    rfl
  obtain ⟨h, hrun⟩ : ∃ h, Completed (cacheWorld a.tty) freshDir (updateTimestamp a.user) h
      (stampedDir a) .ok := by
    unfold updateTimestamp
    rw [a.valid]
    exact ⟨_, completed_bind_iff.mpr ⟨_, _, freshDir, .ok, rfl, hdir,
      completed_bind_iff.mpr ⟨_, _, freshDir, a.path, rfl, completed_path a freshDir,
        Runs.call hopen (Runs.call (r := (0 : Int)) rfl (Runs.nil _ _))⟩⟩⟩
  exact ⟨h, completed_map_iff.mpr ⟨_, hrun, rfl⟩⟩

/-- A session whose file has the name of the stamped one passes its check. -/
theorem completed_check_stamped {a b : CacheSession} (hpath : a.path = b.path) :
    ∃ h, Completed (cacheWorld b.tty) (stampedDir a) ((CacheCall.check 1).run b.user) h
      (stampedDir a) true := by
  have hst : (stampedDir a).entry b.path = some ⟨sIfreg ||| 384, 0, 100⟩ := if_pos hpath.symm
  have hnow : Completed (cacheWorld b.tty) (stampedDir a) (do
      let now ← shkNowSecs
      if now = 0 then pure false
      else if now < timestampExpiry 100 1 then pure true
      else pure false) [⟨stampedDir a, ⟨.clockGettime, some 100⟩⟩] (stampedDir a) true :=
    Runs.call ⟨rfl, fun now h => (Option.some.inj h).symm⟩ (Runs.nil _ _)
  have hread : (cacheWorld b.tty).answers (stampedDir a) (.lstat b.path)
      (some ⟨sIfreg ||| 384, 0, 100⟩) (stampedDir a) := ⟨rfl, hst.symm⟩
  exact ⟨_, completed_bind_iff.mpr ⟨_, _, stampedDir a, b.path, rfl,
    completed_path b (stampedDir a), Runs.call hread hnow⟩⟩

/-- One of two confused sessions comes by the credentials of the other. -/
theorem Confused.steals (hconf : Confused a b) (ha : P a) (hb : P b) :
    ∃ recs dir', CacheRuns P freshDir recs dir' ∧ ¬ OwnCredentials recs := by
  obtain ⟨h₁, hupdate⟩ := completed_update_fresh a
  obtain ⟨h₂, hcheck⟩ := completed_check_stamped hconf.path_eq
  refine ⟨_, _, CacheRuns.call ha hupdate (CacheRuns.call hb hcheck (CacheRuns.nil _)), ?_⟩
  intro hown
  obtain ⟨older, u, newer, hpre, hsession, -⟩ :=
    hown [_] _ [] 1 rfl rfl rfl
  have hu : u ∈ older ++ u :: newer := by simp
  rw [← hpre, List.mem_singleton] at hu
  subst hu
  dsimp only at hsession
  subst hsession
  rcases hconf with ⟨-, hne, -⟩ | ⟨w, huser, -, -⟩
  · exact hne rfl
  · simpa using congrArg List.length huser

/-- **Credentials belong to one session** in every run of a set of sessions exactly when
no two of them are confused, and that is when their files have different names. -/
theorem credentialCache_own_iff (P : CacheSession → Prop) :
    ((∀ dir recs dir', dir.Fresh → CacheRuns P dir recs dir' → OwnCredentials recs) ↔
      ∀ a b, P a → P b → ¬ Confused a b) ∧
    ((∀ a b, P a → P b → a.path = b.path → a = b) ↔
      ∀ a b, P a → P b → ¬ Confused a b) := by
  constructor
  · constructor
    · intro hown a b ha hb hconf
      obtain ⟨recs, dir', hrun, hno⟩ := hconf.steals ha hb
      exact hno (hown _ _ _ freshDir_fresh hrun)
    · intro hP dir recs dir' hfresh hrun
      exact hrun.own hP hfresh
  · constructor
    · intro hinj a b ha hb hconf
      have heq := hinj a b ha hb hconf.path_eq
      subst heq
      rcases hconf with ⟨-, hne, -⟩ | ⟨w, huser, -, -⟩
      · exact hne rfl
      · simpa using congrArg List.length huser
    · intro hP a b ha hb hpath
      rcases CacheSession.path_eq hpath with heq | hconf | hconf
      · exact heq
      · exact absurd hconf (hP a b ha hb)
      · exact absurd hconf (hP b a hb ha)

/-- `al` on a pseudo-terminal. -/
def alOnPts : CacheSession := ⟨cstr "al", some (cstr "pts/0"), by decide⟩

/-- Another user, without a terminal. -/
def alColonPts : CacheSession := ⟨cstr "al:pts-0", none, by decide⟩

/-- **The cache confuses users.** A user whose name is `al:pts-0` passes, without a
terminal, for `al` on a pseudo-terminal. -/
theorem credentialCache_confused :
    ¬ ∀ dir recs dir', dir.Fresh → CacheRuns (fun _ => True) dir recs dir' →
      OwnCredentials recs := by
  intro hown
  have hconf : Confused alOnPts alColonPts :=
    Or.inr ⟨utf8 "pts-0", by decide, by decide, by decide⟩
  obtain ⟨recs, dir', hrun, hno⟩ := hconf.steals (P := fun _ => True) trivial trivial
  exact hno (hown _ _ _ freshDir_fresh hrun)

end Shakti
