import BowerBird.CommsGrammar
import BowerBird.Firmware.Decimal

/-!
# The arguments of the power-down command

Numbers that are sent with the command arrive at `SetDelayedBeaglePowerDown` up
to the limit of a word. The report to the operator prints them as signed, so it
tells them as they are below the sign bit only.
-/

namespace BowerBird.Comms

open Firmware Firmware.CString Firmware.Exec Firmware.Printf
set_option autoImplicit false

def Event.delay? : Event → Option (Nat × Nat)
  | .call (.setDelayedBeaglePowerDown waitSeconds powerDownSeconds) =>
    some (waitSeconds.toNat, powerDownSeconds.toNat)
  | _ => none

/-- The arguments of the calls of `SetDelayedBeaglePowerDown`. -/
def delays (x : Exec Event State) : List (Nat × Nat) := seen Event.delay? x

def Sendable (line : List Byte) : Prop := line.length ≤ 1023 ∧ ∀ b ∈ line, b ≠ 0x0a#8 ∧ b ≠ 0x0d#8

def Blank (s : List Byte) : Prop := ∀ b ∈ s, isSpace b = true

def numeral (zeros n : Nat) : List Byte := List.replicate zeros 0x30#8 ++ decimal n

theorem delays_eq (x : Exec Event State) :
    delays x = (seen Event.effect? x).filterMap Event.delay? := by
  apply seen_eq_effects
  intro e he
  cases e <;> first | rfl | cases he

theorem nul_of_blank {s : List Byte} (h : Blank s) : ∀ b ∈ s, b ≠ 0#8 := by
  rintro b hb rfl
  exact absurd (h _ hb) (by decide)

theorem head_of_blank {s : List Byte} (h : Blank s) : ∀ b, s.head? = some b → isDigit b = false := by
  intro b hb
  rw [← Bool.not_eq_true]
  intro hdigit
  have hspace := h b (List.mem_of_head? hb)
  rw [isSpace_of_isDigit hdigit] at hspace
  cases hspace

theorem nul_of_numeral (zeros n : Nat) : ∀ b ∈ numeral zeros n, b ≠ 0#8 := by
  rintro b hb rfl
  exact absurd ((numeral_zeros zeros n).digits _ hb) (by decide)

theorem takeWhile_terminated (arg rest : List Byte) :
    (arg ++ 0#8 :: rest).takeWhile (· ≠ 0#8) = arg.takeWhile (· ≠ 0#8) := by
  induction arg with
  | nil => rfl
  | cons c cs ih =>
    simp only [List.cons_append, List.takeWhile_cons, ih]

theorem takeWhile_text {s : List Byte} (h : ∀ b ∈ s, b ≠ 0#8) (rest : List Byte) :
    (s ++ rest).takeWhile (· ≠ 0#8) = s ++ rest.takeWhile (· ≠ 0#8) := by
  apply List.takeWhile_append_of_pos
  intro b hb
  exact decide_eq_true (h b hb)

/-- What a power-down command sets is read from its text up to the first NUL. -/
theorem delays_of_text {s : State} (hs : Reachable s) (hidle : Idle s) (x : Byte)
    {arg : List Byte} (h : Sendable (beagleResetCmd ++ x :: arg)) :
    delays (feed s (command (beagleResetCmd ++ x :: arg))) =
      [((waitSeconds (arg.takeWhile (· ≠ 0#8))).toNat,
        (powerDownSeconds (arg.takeWhile (· ≠ 0#8))).toNat)] := by
  obtain ⟨mem, hmem, hseen, -⟩ := feed_command_does (hs.tracks_idle hidle) (short_iff.mpr h.1)
    (lineEnd_of_ne h.2)
  have hpre : beagleResetCmd <+: mem := by
    rw [hmem, List.append_assoc]
    exact List.prefix_append _ _
  have htext : textAt mem (beagleResetCmd.length + 1) = arg.takeWhile (· ≠ 0#8) := by
    rw [textAt, hmem, List.append_assoc, List.cons_append, drop_keyword, takeWhile_terminated]
  rw [delays_eq, hseen, request, if_pos hpre, htext]
  rfl

section Numbers
variable {spaces gap tail : List Byte} (zeros zeros' w d : Nat)

theorem delays_of_numerals (hspaces : Blank spaces) (hgap : Blank gap) (hne : gap ≠ [])
    (htail : ∀ b, tail.head? = some b → isDigit b = false) :
    waitSeconds (spaces ++ (numeral zeros w ++ (gap ++ (numeral zeros' d ++ tail)))) =
        wordOf false w ∧
      powerDownSeconds (spaces ++ (numeral zeros w ++ (gap ++ (numeral zeros' d ++ tail)))) =
        if wordOf false d = 0 then beagleResetDurationInS else wordOf false d := by
  have hstop : ∀ b, (gap ++ (numeral zeros' d ++ tail)).head? = some b → isDigit b = false := by
    rw [List.head?_append_of_ne_nil _ hne]
    exact head_of_blank hgap
  have hfirst := strtoul_numeral hspaces (numeral_zeros zeros w) hstop
  have hsecond := strtoul_numeral hgap (numeral_zeros zeros' d) htail
  unfold numeral at hfirst ⊢
  rw [waitSeconds, powerDownSeconds, hfirst, hsecond]
  exact ⟨rfl, rfl⟩

theorem delays_of_numeral (hspaces : Blank spaces) (hgap : Blank gap) :
    waitSeconds (spaces ++ (numeral zeros w ++ gap)) = wordOf false w ∧
      powerDownSeconds (spaces ++ (numeral zeros w ++ gap)) = beagleResetDurationInS := by
  have hfirst := strtoul_numeral hspaces (numeral_zeros zeros w) (head_of_blank hgap)
  unfold numeral
  rw [waitSeconds, powerDownSeconds, hfirst, strtoul_blank hgap]
  exact ⟨rfl, rfl⟩

end Numbers

theorem toNat_duration (d : Nat) :
    (if wordOf false d = 0 then beagleResetDurationInS else wordOf false d).toNat =
      if d = 0 then 10 else min d 4294967295 := by
  have htoNat : (wordOf false d).toNat = min d 4294967295 := toNat_wordOf_plus d
  have hzero : wordOf false d = 0 ↔ d = 0 := by
    have hnone : (0 : BitVec 32).toNat = 0 := rfl
    rw [← BitVec.toNat_inj, htoNat, hnone]
    omega
  simp only [hzero]
  split
  · rfl
  · exact htoNat

/-- The wait and the duration that are sent arrive once, saturated at the limit of a word,
with 10 seconds in the place of no duration. -/
theorem delays_sent {s : State} (hs : Reachable s) (hidle : Idle s) {x : Byte}
    {spaces gap : List Byte} (hspaces : Blank spaces) (hgap : Blank gap) (zeros w : Nat) :
    (∀ zeros' d tail, gap ≠ [] → (∀ b, tail.head? = some b → isDigit b = false) →
      Sendable (beagleResetCmd ++ x :: (spaces ++ (numeral zeros w ++ (gap ++
        (numeral zeros' d ++ tail))))) →
      delays (feed s (command (beagleResetCmd ++ x :: (spaces ++ (numeral zeros w ++ (gap ++
        (numeral zeros' d ++ tail))))))) =
        [(min w 4294967295, if d = 0 then 10 else min d 4294967295)]) ∧
    (Sendable (beagleResetCmd ++ x :: (spaces ++ (numeral zeros w ++ gap))) →
      delays (feed s (command (beagleResetCmd ++ x :: (spaces ++ (numeral zeros w ++ gap))))) =
        [(min w 4294967295, 10)]) := by
  have hwait : (wordOf false w).toNat = min w 4294967295 := toNat_wordOf_plus w
  constructor
  · intro zeros' d tail hne htail hsend
    have hcut : (spaces ++ (numeral zeros w ++ (gap ++ (numeral zeros' d ++ tail)))).takeWhile
        (· ≠ 0#8) = spaces ++ (numeral zeros w ++ (gap ++ (numeral zeros' d ++
          tail.takeWhile (· ≠ 0#8)))) := by
      rw [takeWhile_text (nul_of_blank hspaces), takeWhile_text (nul_of_numeral zeros w),
        takeWhile_text (nul_of_blank hgap), takeWhile_text (nul_of_numeral zeros' d)]
    have htail' : ∀ b, (tail.takeWhile (· ≠ 0#8)).head? = some b → isDigit b = false := by
      intro b hb
      obtain ⟨cs, hcs⟩ := List.head?_eq_some_iff.mp hb
      obtain ⟨ds, hds⟩ := hcs ▸ List.takeWhile_prefix (l := tail) (· ≠ 0#8)
      apply htail b
      rw [← hds]
      rfl
    obtain ⟨hw, hd⟩ := delays_of_numerals zeros zeros' w d hspaces hgap hne htail'
    rw [delays_of_text hs hidle x hsend, hcut, hw, hd, hwait, toNat_duration]
  · intro hsend
    have hcut : (spaces ++ (numeral zeros w ++ gap)).takeWhile (· ≠ 0#8) =
        spaces ++ (numeral zeros w ++ gap) := by
      have hall := takeWhile_text (nul_of_blank hgap) []
      rw [List.append_nil, List.takeWhile_nil, List.append_nil] at hall
      rw [takeWhile_text (nul_of_blank hspaces), takeWhile_text (nul_of_numeral zeros w), hall]
    obtain ⟨hw, hd⟩ := delays_of_numeral zeros w hspaces hgap
    rw [delays_of_text hs hidle x hsend, hcut, hw, hd, hwait]
    rfl

theorem delays_sent_five_twenty :
    delays (feed powerUp (command (ascii "REALLY reset the Beagleboard 05 20s"))) = [(5, 20)] := by
  have hline : beagleResetCmd ++ 0x20#8 :: ([] ++ (numeral 1 5 ++ (ascii " " ++
      (numeral 0 20 ++ ascii "s")))) = ascii "REALLY reset the Beagleboard 05 20s" := by
    decide +kernel
  have hsend : Sendable (ascii "REALLY reset the Beagleboard 05 20s") :=
    ⟨by decide, by decide⟩
  have hspaces : Blank [] := by simp [Blank]
  have hgap : Blank (ascii " ") := by
    unfold Blank
    decide
  have hdelays := (delays_sent (x := 0x20#8) ⟨[], rfl⟩ ⟨rfl, rfl⟩ hspaces hgap 1 5).1 0 20
    (ascii "s") (by decide) (by decide)
  rw [hline] at hdelays
  exact hdelays hsend

def delayReport (waitSeconds powerDownSeconds : Nat) : List Byte :=
  ascii "\r\nIn (" ++ (decimal waitSeconds ++ (ascii ") seconds powering Beagleboard off for (" ++
    (decimal powerDownSeconds ++ ascii ") seconds\r\n")))

/-- The numbers that are set are reported as they are. -/
def TellsDelays (x : Exec Event PUnit) : Prop :=
  ∀ w d, .call (.setDelayedBeaglePowerDown w d) ∈ x.events →
    ∃ format args, .call (.writeStringToUSB format args) ∈ x.events ∧
      vsnprintf maxLineLength format args = some (delayReport w.toNat d.toNat)

/-- Both numbers of the text are below the sign bit of a word. -/
def NumbersFit (s : List Byte) : Prop :=
  FitsLong (leadingNumber s).1 (leadingNumber s).2 ∧
    FitsLong (leadingNumber (strtoul s).2).1 (leadingNumber (strtoul s).2).2

theorem directives_delays :
    directives (ascii "\r\nIn (%ld) seconds powering Beagleboard off for (%ld) seconds\r\n") =
      (ascii "\r\nIn (").map .lit ++ .word ::
        ((ascii ") seconds powering Beagleboard off for (").map .lit ++ .word ::
          (ascii ") seconds\r\n").map .lit) := by
  decide +kernel

theorem vsnprintf_delays (w d : BitVec 32) :
    vsnprintf maxLineLength
        (ascii "\r\nIn (%ld) seconds powering Beagleboard off for (%ld) seconds\r\n")
        [.word w, .word d] =
      some (ascii "\r\nIn (" ++ (decimal w.toInt ++
        (ascii ") seconds powering Beagleboard off for (" ++
          (decimal d.toInt ++ ascii ") seconds\r\n")))) := by
  have hw := decimal_toInt_length_le w
  have hd := decimal_toInt_length_le d
  rw [vsnprintf, directives_delays]
  simp only [render_lits, render_text, render, Option.map_some]
  rw [Option.some.injEq, List.take_of_length_le]
  simp only [List.length_append]
  have h1 : (ascii "\r\nIn (").length = 6 := rfl
  have h2 : (ascii ") seconds powering Beagleboard off for (").length = 40 := rfl
  have h3 : (ascii ") seconds\r\n").length = 11 := rfl
  unfold maxLineLength
  omega

theorem delayReport_iff (w d : BitVec 32) :
    vsnprintf maxLineLength
        (ascii "\r\nIn (%ld) seconds powering Beagleboard off for (%ld) seconds\r\n")
        [.word w, .word d] = some (delayReport w.toNat d.toNat) ↔
      w.toNat < 0x80000000 ∧ d.toNat < 0x80000000 := by
  rw [vsnprintf_delays, Option.some.injEq, delayReport]
  constructor
  · intro h
    have hrest := List.append_cancel_left h
    have hw := lt_of_decimal_append hrest
    rw [decimal_toInt_of_lt hw] at hrest
    exact ⟨hw, lt_of_decimal_append (List.append_cancel_left (List.append_cancel_left hrest))⟩
  · rintro ⟨hw, hd⟩
    rw [decimal_toInt_of_lt hw, decimal_toInt_of_lt hd]

theorem echo_ne_delayReport {args : List Arg} {w d : Nat} :
    vsnprintf maxLineLength (ascii "ProcessBeaglePowerDownCommand='%s'\r\n") args ≠
      some (delayReport w d) := by
  intro h
  obtain ⟨u, hu⟩ := vsnprintf_head (by decide) (by decide) h
  cases hu

theorem powerDownSeconds_lt_iff (s : List Byte) :
    (powerDownSeconds s).toNat < 0x80000000 ↔ (strtoul (strtoul s).2).1.toNat < 0x80000000 := by
  unfold powerDownSeconds
  split
  · rename_i hzero
    rw [hzero]
    exact iff_of_true (by decide) (by decide)
  · rfl

theorem tellsDelays_iff_words {mem s : List Byte} {cmd : Nat} (h : text (mem.drop cmd) = some s) :
    TellsDelays (processBeaglePowerDownCommand mem cmd) ↔
      (waitSeconds s).toNat < 0x80000000 ∧ (powerDownSeconds s).toNat < 0x80000000 := by
  have hevents : (processBeaglePowerDownCommand mem cmd).events =
      (Request.powerDown s).effects := by
    rw [processBeaglePowerDownCommand, stringAt, h, ofOption_some, pure_bind]
    rfl
  rw [← delayReport_iff, TellsDelays, hevents]
  simp only [Request.effects, reportToUSB, reportToLCD, List.mem_cons, List.not_mem_nil, or_false,
    Event.call.injEq, reduceCtorEq, false_or, Call.setDelayedBeaglePowerDown.injEq,
    Call.writeStringToUSB.injEq]
  constructor
  · intro htold
    obtain ⟨format, args, ⟨rfl, rfl⟩ | ⟨rfl, rfl⟩, hreport⟩ := htold _ _ ⟨rfl, rfl⟩
    · exact absurd hreport echo_ne_delayReport
    · exact hreport
  · rintro hreport w d ⟨rfl, rfl⟩
    exact ⟨_, _, .inr ⟨rfl, rfl⟩, hreport⟩

/-- The report tells the numbers that are set exactly if both numbers of the text are
below the sign bit. -/
theorem tellsDelays_iff {mem s : List Byte} {cmd : Nat} (h : text (mem.drop cmd) = some s) :
    TellsDelays (processBeaglePowerDownCommand mem cmd) ↔ NumbersFit s := by
  rw [tellsDelays_iff_words h, powerDownSeconds_lt_iff, waitSeconds, strtoul_value s,
    strtoul_value (strtoul s).2, fitsLong_iff, fitsLong_iff]
  rfl

theorem tellsDelays_five_twenty :
    TellsDelays (processBeaglePowerDownCommand (ascii "5 20" ++ [0#8]) 0) :=
  (tellsDelays_iff (s := ascii "5 20") (by decide)).mpr
    ⟨by unfold FitsLong; decide, by unfold FitsLong; decide⟩

/-- The longest wait is set, and not told as it is. -/
theorem longest_wait_told_wrong :
    .call (.setDelayedBeaglePowerDown 4294967295#32 20#32) ∈
        (processBeaglePowerDownCommand (ascii "4294967295 20" ++ [0#8]) 0).events ∧
      ¬ TellsDelays (processBeaglePowerDownCommand (ascii "4294967295 20" ++ [0#8]) 0) := by
  constructor
  · decide +kernel
  · intro h
    have hwords := (tellsDelays_iff_words (s := ascii "4294967295 20") (by decide)).mp h
    exact absurd hwords.1 (by decide +kernel)

end BowerBird.Comms
