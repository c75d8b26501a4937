import Shakti.Audit
import Shakti.Lib.Fields

/-!
# Shakti.AuditLine

What a line of the audit file can be taken for.

`_build_file_line` writes its fields between fixed texts and escapes nothing, and the
target is whatever the caller passed to `-u`. A line is one record whose fields can be
recovered (`Recorded`) when no field has a newline in it and each of the fixed texts
stands only between its neighbours; `fileLine_recorded_iff` says that this is exact.
-/

namespace Shakti

open Effects Effects.Prog Fields

/-! ### The parts of a line -/

/-- The text between the caller and the target. -/
def userMark (tty : CStr) : Bytes :=
  utf8 " : TTY=" ++ (if 0 < tty.length then tty else cstr "unknown").bytes
    ++ utf8 " ; PWD=unknown ; USER="

/-- The text between the target and the command. -/
def commandMark : Bytes := utf8 " ; COMMAND="

/-- A line but for the newline that ends it. -/
def lineBody (now : Int) (tty caller target command : CStr) : Bytes :=
  (decimalInt now).bytes ++ [32]
    ++ (caller.bytes ++ userMark tty ++ target.bytes ++ commandMark ++ command.bytes)

theorem fileLine_bytes (now : Int) (tty caller target command : CStr) :
    (fileLine now tty caller target command).bytes =
      lineBody now tty caller target command ++ [10] := by
  have htty : (cstr " : TTY=").bytes = utf8 " : TTY=" := by decide
  have huser : (cstr " ; PWD=unknown ; USER=").bytes = utf8 " ; PWD=unknown ; USER=" := by decide
  have hcommand : (cstr " ; COMMAND=").bytes = commandMark := by decide
  have hspace : (cstr " ").bytes = [32] := by decide
  have hend : (cstr "\n").bytes = [10] := by decide
  simp only [fileLine, lineBody, userMark, CStr.append_bytes, htty, huser, hcommand, hspace, hend,
    List.append_assoc]

theorem newline_not_mem_decimalLoop (fuel n : Nat) {acc : Bytes} (hacc : 10 ∉ acc) :
    10 ∉ decimalLoop fuel n acc := by
  induction fuel generalizing n acc with
  | zero => exact hacc
  | succ fuel ih =>
      have hdigit : (10 : UInt8) ≠ 48 + (n % 10).toUInt8 := by
        have hlt : n % 10 < 10 := Nat.mod_lt _ (by omega)
        generalize n % 10 = k at hlt
        decide +revert
      have hnext : 10 ∉ (48 + (n % 10).toUInt8) :: acc := by
        rw [List.mem_cons, not_or]
        exact ⟨hdigit, hacc⟩
      rw [decimalLoop]
      split
      · exact hnext
      · exact ih _ hnext

theorem newline_not_mem_decimal (n : Nat) : 10 ∉ (decimal n).bytes := by
  intro h
  exact newline_not_mem_decimalLoop (n + 1) n (by simp) (List.takeWhile_subset _ h)

theorem newline_not_mem_decimalInt (now : Int) : 10 ∉ (decimalInt now).bytes := by
  rw [decimalInt]
  split
  · rw [CStr.append_bytes, List.mem_append, not_or]
    exact ⟨by decide, newline_not_mem_decimal _⟩
  · exact newline_not_mem_decimal _

theorem newline_mem_userMark_iff {tty : CStr} : 10 ∈ userMark tty ↔ 10 ∈ tty.bytes := by
  have hfirst : 10 ∉ utf8 " : TTY=" := by decide
  have hlast : 10 ∉ utf8 " ; PWD=unknown ; USER=" := by decide
  rw [userMark, List.mem_append, List.mem_append, or_iff_left hlast, or_iff_right hfirst]
  split
  · exact Iff.rfl
  case isFalse hempty =>
    have hnil : tty.bytes = [] := List.eq_nil_of_length_eq_zero (Nat.eq_zero_of_not_pos hempty)
    rw [hnil]
    exact iff_of_false (by decide) (by simp)

/-- A newline inside a line is one of its fields'. -/
theorem newline_mem_lineBody_iff {now : Int} {tty caller target command : CStr} :
    10 ∈ lineBody now tty caller target command ↔
      10 ∈ caller.bytes ∨ 10 ∈ tty.bytes ∨ 10 ∈ target.bytes ∨ 10 ∈ command.bytes := by
  have hmark : 10 ∉ commandMark := by decide
  have hnow : 10 ∉ (decimalInt now).bytes ++ [32] := by
    rw [List.mem_append, not_or]
    exact ⟨newline_not_mem_decimalInt now, by decide⟩
  rw [lineBody, List.mem_append, or_iff_right hnow]
  simp only [List.mem_append, newline_mem_userMark_iff, or_assoc]
  rw [or_iff_right hmark]

/-! ### One record for each call -/

/-- **The line of a call is one record**: it has one newline, at its end, and no other
caller, target and command have this line at that time and on that terminal. -/
structure Recorded (now : Int) (tty caller target command : CStr) : Prop where
  oneLine : ∃ body, (fileLine now tty caller target command).bytes = body ++ [10] ∧ 10 ∉ body
  determined : ∀ caller' target' command' : CStr,
    fileLine now tty caller' target' command' = fileLine now tty caller target command →
      caller' = caller ∧ target' = target ∧ command' = command

/-- No field has a newline in it, and the texts between the fields stand only there. -/
structure Unforged (tty caller target command : CStr) : Prop where
  tty_oneLine : 10 ∉ tty.bytes
  caller_oneLine : 10 ∉ caller.bytes
  target_oneLine : 10 ∉ target.bytes
  command_oneLine : 10 ∉ command.bytes
  userMark_once : OnlyBetween (userMark tty) caller.bytes target.bytes
  target_noMark : ¬ commandMark <:+: target.bytes
  command_noMark : ¬ commandMark <:+: command.bytes

theorem fileLine_oneLine_iff {now : Int} {tty caller target command : CStr} :
    (∃ body, (fileLine now tty caller target command).bytes = body ++ [10] ∧ 10 ∉ body) ↔
      10 ∉ lineBody now tty caller target command := by
  rw [fileLine_bytes]
  constructor
  · rintro ⟨body, heq, hbody⟩
    rwa [List.append_cancel_right heq]
  · exact fun h => ⟨_, rfl, h⟩

/-- The fields of a line can be recovered exactly when they can be from its last part. -/
theorem fileLine_determined_iff {now : Int} {tty caller target command : CStr} :
    (∀ caller' target' command' : CStr,
      fileLine now tty caller' target' command' = fileLine now tty caller target command →
        caller' = caller ∧ target' = target ∧ command' = command) ↔
      ∀ c t m : Bytes,
        c ++ userMark tty ++ t ++ commandMark ++ m =
          caller.bytes ++ userMark tty ++ target.bytes ++ commandMark ++ command.bytes →
        c = caller.bytes ∧ t = target.bytes ∧ m = command.bytes := by
  have hline : ∀ caller' target' command' : CStr,
      fileLine now tty caller' target' command' = fileLine now tty caller target command ↔
        caller'.bytes ++ userMark tty ++ target'.bytes ++ commandMark ++ command'.bytes =
          caller.bytes ++ userMark tty ++ target.bytes ++ commandMark ++ command.bytes := by
    intro caller' target' command'
    rw [CStr.ext_iff, fileLine_bytes, fileLine_bytes, List.append_left_inj, lineBody, lineBody,
      List.append_right_inj]
  constructor
  · intro h c t m heq
    -- The parts of a line have no NUL in them.
    have hnul : (0 : UInt8) ∉ c ++ userMark tty ++ t ++ commandMark ++ m := by
      have hl := (fileLine now tty caller target command).noNul
      rw [fileLine_bytes, lineBody] at hl
      rw [heq]
      intro h0
      exact hl (List.mem_append_left _ (List.mem_append_right _ h0))
    simp only [List.mem_append, not_or] at hnul
    obtain ⟨⟨⟨⟨hc, -⟩, ht⟩, -⟩, hm⟩ := hnul
    obtain ⟨h1, h2, h3⟩ := h ⟨c, hc⟩ ⟨t, ht⟩ ⟨m, hm⟩ ((hline _ _ _).mpr heq)
    exact ⟨congrArg CStr.bytes h1, congrArg CStr.bytes h2, congrArg CStr.bytes h3⟩
  · intro h caller' target' command' heq
    obtain ⟨h1, h2, h3⟩ := h _ _ _ ((hline _ _ _).mp heq)
    exact ⟨CStr.ext h1, CStr.ext h2, CStr.ext h3⟩

theorem commandMark_borderless : Borderless commandMark := by
  intro n hpos hlt
  have h : ∀ n < commandMark.length, 0 < n →
      commandMark.take n ≠ commandMark.drop (commandMark.length - n) := by decide
  exact h n hlt hpos

/-- **Audit lines.** For every clock reading, terminal, caller, target and command, the line
is one record exactly when the call is unforged. -/
theorem fileLine_recorded_iff (now : Int) (tty caller target command : CStr) :
    Recorded now tty caller target command ↔ Unforged tty caller target command := by
  have hmark : OnlyBetween commandMark target.bytes command.bytes ↔
      ¬ commandMark <:+: target.bytes ∧ ¬ commandMark <:+: command.bytes :=
    onlyBetween_iff commandMark_borderless (by decide)
  constructor
  · rintro ⟨hone, hdet⟩
    rw [fileLine_oneLine_iff, newline_mem_lineBody_iff, not_or, not_or, not_or] at hone
    rw [fileLine_determined_iff, fields_unique_iff, hmark] at hdet
    exact ⟨hone.2.1, hone.1, hone.2.2.1, hone.2.2.2, hdet.1, hdet.2.1, hdet.2.2⟩
  · intro h
    constructor
    · rw [fileLine_oneLine_iff, newline_mem_lineBody_iff, not_or, not_or, not_or]
      exact ⟨h.caller_oneLine, h.tty_oneLine, h.target_oneLine, h.command_oneLine⟩
    · rw [fileLine_determined_iff, fields_unique_iff, hmark]
      exact ⟨h.userMark_once, h.target_noMark, h.command_noMark⟩

/-- With a newline in the target, one denied call writes the records of two; and two calls
may have one line. -/
theorem fileLine_forged :
    (fileLine 0 (cstr "") (cstr "al")
        (cstr "root ; COMMAND=/bin/ls\n0 bob : TTY=unknown ; PWD=unknown ; USER=root")
        (cstr "/bin/sh")).bytes =
      (fileLine 0 (cstr "") (cstr "al") (cstr "root") (cstr "/bin/ls")).bytes ++
        (fileLine 0 (cstr "") (cstr "bob") (cstr "root") (cstr "/bin/sh")).bytes ∧
    fileLine 0 (cstr "") (cstr "al") (cstr "root ; COMMAND=/bin/ls") (cstr "/bin/sh") =
      fileLine 0 (cstr "") (cstr "al") (cstr "root") (cstr "/bin/ls ; COMMAND=/bin/sh") := by
  decide

end Shakti
