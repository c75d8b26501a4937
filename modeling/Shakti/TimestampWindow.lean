import Shakti.Timestamp

/-!
# Shakti.TimestampWindow

When a timestamp counts.

`check_timestamp` asks whether the file's modification time plus the policy's
`timestamp_ttl` lies in the future, and nothing about the modification time itself. A
timestamp is meant to be valid while the time since it was written is at least zero and
less than the ttl. The two agree except on the readings listed in `Misjudged`.

* `timestampReading` — the answer of `check_timestamp` to the link of standard input, the
  `lstat` of the user's timestamp and the clock.
* `InWindow` — the timestamp is in its window.
* `checkTimestamp_window_iff` — the answer is whether it is in its window, exactly when the
  reading is not misjudged.
-/

namespace Shakti

open Effects
open Effects.Prog (play value)

/-! ### One reading -/

/-- What the machine answers to the three calls of `check_timestamp`. -/
structure TimestampReading where
  /-- The link of standard input, which names the terminal. -/
  link : Option Bytes
  /-- The `lstat` of the timestamp. -/
  stat : Option Stat
  clock : Option Int

/-- The path of the user's timestamp, on the terminal of the reading. -/
def TimestampReading.path (reading : TimestampReading) (user : CStr) : CStr :=
  timestampFile user (ttyName ((reading.link.getD []).take 255))

/-- A machine that answers with the reading, and no other call. -/
def TimestampReading.machine (reading : TimestampReading) (user : CStr) :
    Unit → (c : SysCall) → Option (c.Answer × Unit)
  | _, .readlink _ => some (reading.link, ())
  | _, .lstat path => if path = reading.path user then some (reading.stat, ()) else none
  | _, .clockGettime => some (reading.clock, ())
  | _, _ => none

/-- What `check_timestamp` returns on the reading. -/
def timestampReading (reading : TimestampReading) (user : CStr) (ttlSecs : Nat) : Option Bool :=
  (play (reading.machine user) () (checkTimestamp user ttlSecs)).2.value

/-- The path is a regular file (a link has another type) that belongs to root. -/
def Stat.Trusted (st : Stat) : Prop := st.mode &&& sIfmt = sIfreg ∧ st.uid = 0

instance (st : Stat) : Decidable st.Trusted :=
  inferInstanceAs (Decidable (_ ∧ _))

/-- The timestamp is trusted, the clock can be read, and the time since the timestamp was
written is at least zero and less than the ttl. -/
def InWindow (reading : TimestampReading) (ttlSecs : Nat) : Prop :=
  ∃ st now, reading.stat = some st ∧ reading.clock = some now ∧ st.Trusted ∧
    0 ≤ now - st.mtime ∧ now - st.mtime < ttlSecs

/-! ### What the check returns -/

section Reading

variable {reading : TimestampReading} {user : CStr} {ttlSecs : Nat}

/-- The clock is read last. -/
theorem play_shkNowSecs {f : Int → Sys Bool} :
    (play (reading.machine user) () (shkNowSecs >>= f)).2
      = (play (reading.machine user) () (f (reading.clock.getD 0))).2 := rfl

/-- Behind the name of the terminal, the check reads the user's timestamp and the clock. -/
theorem timestampReading_eq :
    timestampReading reading user ttlSecs =
      match reading.stat with
      | none => some false
      | some st =>
          if st.mode &&& sIfmt = sIflnk then some false
          else if st.mode &&& sIfmt ≠ sIfreg then some false
          else if st.uid ≠ 0 then some false
          else if reading.clock.getD 0 = 0 then some false
          else if reading.clock.getD 0 < timestampExpiry st.mtime ttlSecs then some true
          else some false := by
  have hlstat : reading.machine user () (.lstat (reading.path user)) = some (reading.stat, ()) :=
    if_pos rfl
  have hplay : timestampReading reading user ttlSecs =
      (play (reading.machine user) ()
        (.call (S := sysSig) (.lstat (reading.path user)) _)).2.value := rfl
  rw [hplay, play, hlstat]
  cases reading.stat with
  | none => rfl
  | some st =>
      dsimp only [Prog.bind]
      split
      · rfl
      split
      · rfl
      split
      · rfl
      rw [play_shkNowSecs]
      split
      · rfl
      split <;> rfl

/-- The check succeeds on a trusted timestamp and a clock that is not `0`, before the
timestamp expires. -/
theorem timestampReading_iff :
    timestampReading reading user ttlSecs = some true ↔
      ∃ st, reading.stat = some st ∧ st.Trusted ∧ reading.clock.getD 0 ≠ 0 ∧
        reading.clock.getD 0 < timestampExpiry st.mtime ttlSecs := by
  rw [timestampReading_eq]
  cases hstat : reading.stat with
  | none => simp
  | some st =>
      dsimp only
      constructor
      · intro h
        refine ⟨st, rfl, ?_⟩
        split at h
        · contradiction
        split at h
        · contradiction
        split at h
        · contradiction
        split at h
        · contradiction
        split at h
        · rename_i hreg hroot hclock hfresh
          exact ⟨⟨not_not.mp hreg, not_not.mp hroot⟩, hclock, hfresh⟩
        · contradiction
      · intro ⟨_, heq, ⟨hreg, hroot⟩, hclock, hfresh⟩
        cases heq
        have hlink : st.mode &&& sIfmt ≠ sIflnk := by
          rw [hreg]
          decide
        rw [if_neg hlink, if_neg (not_not.mpr hreg), if_neg (not_not.mpr hroot), if_neg hclock,
          if_pos hfresh]

end Reading

/-! ### Where the two differ -/

/-- A trusted timestamp of `mtime` that is misjudged when the clock reads `now`. -/
inductive Misjudged (now mtime : Int) (ttlSecs : Nat) : Prop
  /-- It was written in the future, so it counts for longer than the ttl. -/
  | future : now ≠ 0 → now < mtime → now < timestampExpiry mtime ttlSecs →
      Misjudged now mtime ttlSecs
  /-- The clock reads `0`, which is taken for an error. -/
  | epoch : now = 0 → mtime ≤ 0 → 0 < mtime + ttlSecs → Misjudged now mtime ttlSecs
  /-- The sum wraps around, and the timestamp never counts. -/
  | overflow : now ≠ 0 → mtime ≤ now → now < mtime + ttlSecs →
      timestampExpiry mtime ttlSecs ≤ now → Misjudged now mtime ttlSecs

/-- The comparison of the check is that of the window, but where it misjudges. -/
theorem expiry_window_iff {now mtime : Int} {ttlSecs : Nat} :
    ((now ≠ 0 ∧ now < timestampExpiry mtime ttlSecs) ↔
        (0 ≤ now - mtime ∧ now - mtime < ttlSecs)) ↔
      ¬ Misjudged now mtime ttlSecs := by
  have hle := timestampExpiry_le mtime ttlSecs
  constructor
  · intro hiff hmis
    cases hmis with
    | future hne hlt hfresh =>
        have hwindow := hiff.mp ⟨hne, hfresh⟩
        omega
    | epoch hzero hpast hfresh =>
        have hread := hiff.mpr (by omega)
        exact hread.1 hzero
    | overflow hne hpast hfresh hwrap =>
        have hread := hiff.mpr (by omega)
        omega
  · intro hmis
    constructor
    · intro ⟨hne, hfresh⟩
      have hpast : mtime ≤ now := by
        by_contra hlt
        exact hmis (.future hne (by omega) hfresh)
      omega
    · intro ⟨hpast, hfresh⟩
      have hne : now ≠ 0 := by
        intro hzero
        exact hmis (.epoch hzero (by omega) (by omega))
      have hlt : now < timestampExpiry mtime ttlSecs := by
        by_contra hwrap
        exact hmis (.overflow hne (by omega) (by omega) (by omega))
      exact ⟨hne, hlt⟩

/-- **The window of a timestamp.** `check_timestamp` returns 1 exactly inside the window,
if and only if the timestamp is not trusted, the clock is unreadable, or the reading is not
misjudged. -/
theorem checkTimestamp_window_iff (reading : TimestampReading) (user : CStr) (ttlSecs : Nat) :
    (timestampReading reading user ttlSecs = some true ↔ InWindow reading ttlSecs) ↔
      ¬ ∃ st now, reading.stat = some st ∧ reading.clock = some now ∧ st.Trusted ∧
        Misjudged now st.mtime ttlSecs := by
  rw [timestampReading_iff, InWindow]
  cases reading.stat with
  | none => simp
  | some st =>
      cases reading.clock with
      | none => simp
      | some now =>
          by_cases htrusted : st.Trusted
          · simpa [htrusted] using @expiry_window_iff now st.mtime ttlSecs
          · simp [htrusted]

/-- A timestamp of the year 2286, with a ttl of `0`. -/
def futureReading : TimestampReading where
  link := none
  stat := some ⟨sIfreg ||| 384, 0, 10000000000⟩
  clock := some 1700000000

/-- With `timestamp_ttl = 0`, a timestamp from the future is valid. -/
theorem checkTimestamp_future :
    ¬ ∀ (reading : TimestampReading) (user : CStr) (ttlSecs : Nat),
      timestampReading reading user ttlSecs = some true ↔ InWindow reading ttlSecs := by
  intro h
  have hvalid : timestampReading futureReading (cstr "al") 0 = some true := by decide
  obtain ⟨st, now, -, -, -, hpast, hfresh⟩ := (h _ _ _).mp hvalid
  omega

end Shakti
