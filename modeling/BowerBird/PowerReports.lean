import BowerBird.CommsGrammar
import BowerBird.PowerHost
import Mathlib.Data.List.TakeWhile

/-!
# What the host reads of a report

`WriteStringToUSB` prints into a buffer of `MAX_LINE_LENGTH` bytes and cuts what
does not fit. A report echoes text that may be as long, so the echo of a long line
arrives without its end.
-/

namespace BowerBird.Power

open Firmware Firmware.CString Firmware.Exec Firmware.Printf
set_option autoImplicit false

/-- The report of a request that quotes received text: what stands before the text, and
the text. -/
def quoted? : Comms.Request → Option (List Byte × List Byte)
  | .powerDown s => some (ascii "ProcessBeaglePowerDownCommand='", s)
  | .unknownDevice on s =>
    some (ascii "\r\nGot request to turn " ++ Comms.onOff on ++ ascii " unknown device: '", s)
  | .unknownPower s => some (ascii "\r\nGot unrecognised POWER command '", s)
  | .sendToLCD s => some (ascii "\r\nSent to LCD: '", s)
  | .unknownWatchdog s => some (ascii "\r\nGot unrecognised WATCHDOG command '", s)
  | .unknown s => some (ascii "\r\nGot unknown AVR command '", s)
  | _ => none

def closing : List Byte := ascii "'\r\n"

def afterEcho : Comms.Request → List Comms.Call
  | .powerDown s =>
    [.writeStringToUSB (ascii "\r\nIn (%ld) seconds powering Beagleboard off for (%ld) seconds\r\n")
      [.word (Comms.waitSeconds s), .word (Comms.powerDownSeconds s)]]
  | _ => []

theorem printed_report {format text : List Byte} {args : List Arg}
    (h : render (directives format) args = some text) (hnul : 0#8 ∉ text) :
    printed (.writeStringToUSB format args) = text.take 1023 := by
  rw [printed, vsnprintf, h]
  apply List.takeWhile_eq_self_iff.mpr
  intro b hb
  rw [decide_eq_true_eq]
  rintro rfl
  exact hnul (List.mem_of_mem_take hb)

theorem printed_refusal (format heading : String) (args : List Arg) (s : List Byte) :
    ((Comms.refusal format args heading s).filterMap Comms.Event.call?).flatMap printed =
      printed (.writeStringToUSB (ascii format) args) := by
  simp [Comms.refusal, Comms.reportToUSB, Comms.reportToLCD, Comms.Event.call?, printed]

section Quotes
variable {s : List Byte} (hs : 0#8 ∉ s)
include hs

theorem nul_quote {head : List Byte} (hhead : 0#8 ∉ head) : 0#8 ∉ head ++ s ++ closing := by
  have hclosing : 0#8 ∉ closing := by decide
  simp [hhead, hs, hclosing]

theorem printed_quote (format head : List Byte)
    (h : directives format = head.map .lit ++ .str :: closing.map .lit := by decide +kernel)
    (hhead : 0#8 ∉ head := by decide) :
    printed (.writeStringToUSB format [.str s]) = (head ++ s ++ closing).take 1023 := by
  apply printed_report _ (nul_quote hs hhead)
  rw [h]
  simp only [render_lits, render_text, render, Option.map_some, List.append_assoc]

theorem printed_unknownDevice (on : Bool) :
    printed (.writeStringToUSB (ascii "\r\nGot request to turn %s unknown device: '%s'\r\n")
        [.str (Comms.onOff on), .str s]) =
      (ascii "\r\nGot request to turn " ++ Comms.onOff on ++ ascii " unknown device: '" ++ s ++
        closing).take 1023 := by
  have hdir : directives (ascii "\r\nGot request to turn %s unknown device: '%s'\r\n") =
      (ascii "\r\nGot request to turn ").map .lit ++ .str ::
        ((ascii " unknown device: '").map .lit ++ .str :: closing.map .lit) := by
    decide +kernel
  have hhead : 0#8 ∉ ascii "\r\nGot request to turn " ++ Comms.onOff on ++
      ascii " unknown device: '" := by
    cases on with
    | true => decide
    | false => decide
  apply printed_report _ (nul_quote hs hhead)
  rw [hdir]
  simp only [render_lits, render_text, render, Option.map_some, List.append_assoc]

/-- A request prints its echo first, as far as it fits, and then at most the numbers of
seconds. -/
theorem printed_request {r : Comms.Request} {head : List Byte} (hq : quoted? r = some (head, s)) :
    (r.effects.filterMap Comms.Event.call?).flatMap printed =
      (head ++ s ++ closing).take 1023 ++ (afterEcho r).flatMap printed := by
  cases r with
  | powerDown t =>
    cases hq
    have hecho := printed_quote hs (ascii "ProcessBeaglePowerDownCommand='%s'\r\n")
      (ascii "ProcessBeaglePowerDownCommand='")
    rw [← hecho]
    simp [Comms.Request.effects, Comms.reportToUSB, Comms.reportToLCD, Comms.Event.call?, afterEcho,
      printed]
  | sendToLCD t =>
    cases hq
    have hecho := printed_quote hs (ascii "\r\nSent to LCD: '%s'\r\n") (ascii "\r\nSent to LCD: '")
    rw [← hecho]
    simp [Comms.Request.effects, Comms.reportToUSB, Comms.reportToLCD, Comms.Event.call?, afterEcho,
      printed]
  | unknownDevice on t =>
    cases hq
    rw [Comms.Request.effects, printed_refusal, printed_unknownDevice hs]
    exact (List.append_nil _).symm
  | unknownPower t =>
    cases hq
    rw [Comms.Request.effects, printed_refusal]
    exact (printed_quote hs _ _).trans (List.append_nil _).symm
  | unknownWatchdog t =>
    cases hq
    rw [Comms.Request.effects, printed_refusal]
    exact (printed_quote hs _ _).trans (List.append_nil _).symm
  | unknown t =>
    cases hq
    rw [Comms.Request.effects, printed_refusal]
    exact (printed_quote hs _ _).trans (List.append_nil _).symm
  | _ => cases hq

end Quotes

theorem quoted_of_denotes {line s head : List Byte} {r : Comms.Request}
    (h : Comms.Denotes line r) (hq : quoted? r = some (head, s)) : s <:+ line := by
  have harg : ∀ {kw t : List Byte} {x : Byte}, t <:+ kw ++ x :: t :=
    (List.suffix_cons _ _).trans (List.suffix_append _ _)
  cases h with
  | powerDown x t =>
    cases hq
    exact harg
  | unknownDevice on x y hname =>
    cases hq
    exact harg.trans harg
  | unknownPower x hs =>
    cases hq
    exact harg
  | sendToLCD x hs =>
    cases hq
    exact harg
  | unknownWatchdog x henable hdisable hpulse =>
    cases hq
    exact harg
  | unknown hkw =>
    cases hq
    exact List.suffix_refl _
  | _ => cases hq

def openLine (s : Comms.State) : List Byte := s.commandBuffer.toList.take s.commandBufferIndex

theorem call?_of_effect? {e : Comms.Event} (he : e.effect? = none) : e.call? = none := by
  cases e <;> first | rfl | cases he

theorem callsOf_eq {s : Comms.State} (hs : Comms.Reachable s) {b : Byte} {r : Comms.Request}
    (h : Comms.completed s b = some r) :
    callsOf s b = r.effects.filterMap Comms.Event.call? := by
  have hcalls := Comms.seen_eq_effects (fun _ => call?_of_effect?) (Comms.processByte s b)
  rw [Comms.processByte_effects hs, h] at hcalls
  exact hcalls

theorem performAll_finishes (s : Comms.State) (c : Byte) {ready : Nat → Bool}
    (hready : ∀ n, ∃ m, n ≤ m ∧ ready m = true) :
    ∃ n more, (performAll (callsOf s c) (answersUpTo ready n)).outcome = .ret more := by
  obtain ⟨n, hn⟩ := exists_answers hready (report s c).length
  refine ⟨n, afterReady (report s c).length (answersUpTo ready n), ?_⟩
  rw [performAll_callsOf, putString_eq, if_pos hn]

section Line
variable {s : Comms.State} (hs : Comms.Reachable s) (hin : s.inCommand = true)
  (hlen : s.commandBufferIndex ≤ 1023) (hnul : 0#8 ∉ openLine s)
include hs hin hlen

theorem openLine_tracks : Comms.Tracks s (.reading (openLine s)) ∧ Comms.Short (openLine s) := by
  obtain ⟨m, hm⟩ := hs.tracks
  cases m with
  | hunting k =>
    have hout := hm.1
    rw [hin] at hout
    cases hout
  | stopped => exact absurd hm id
  | reading line =>
    have hfit := Comms.short_of_tracks hm (Nat.lt_succ_of_le hlen)
    obtain ⟨hidx, htake⟩ := Comms.tracks_reading hm hfit
    have hline : openLine s = line := by rw [openLine, hidx, htake]
    rw [hline]
    exact ⟨hm, hfit⟩

include hnul

theorem completed_of_denotes {b : Byte} (hb : Comms.isLineEnd b = true) {r : Comms.Request}
    (hr : Comms.Denotes (openLine s) r) : Comms.completed s b = some r := by
  obtain ⟨htracks, hfit⟩ := openLine_tracks hs hin hlen
  obtain ⟨mem, hmem, hcompleted, -⟩ := Comms.processByte_does htracks hfit hb
  rw [hcompleted, hmem, Comms.request_of_denotes hr hnul]

theorem quote_received {b : Byte} (hb : Comms.isLineEnd b = true) {r : Comms.Request}
    {head t : List Byte} (hr : Comms.Denotes (openLine s) r) (hq : quoted? r = some (head, t))
    {answers more : List Bool} (hret : (performAll (callsOf s b) answers).outcome = .ret more) :
    putBytes (performAll (callsOf s b) answers).events =
      (head ++ t ++ closing).take 1023 ++ (afterEcho r).flatMap printed := by
  have ht : 0#8 ∉ t := fun h => hnul ((quoted_of_denotes hr hq).subset h)
  rw [performAll_callsOf] at hret ⊢
  rw [putString_ret hret, putBytes_map, report,
    callsOf_eq hs (completed_of_denotes hs hin hlen hnul hb hr), printed_request ht hq]

/-- Every report that quotes the end of a line reaches a host that keeps listening as the
first 1023 bytes of its text, and so as a whole exactly if the text is no longer. -/
theorem quotes_cut {b : Byte} (hb : Comms.isLineEnd b = true) {r : Comms.Request}
    {head t : List Byte} (hr : Comms.Denotes (openLine s) r) (hq : quoted? r = some (head, t)) :
    t <:+ openLine s ∧
      (∀ ready : Nat → Bool, (∀ n, ∃ m, n ≤ m ∧ ready m = true) →
        ∃ n more, (performAll (callsOf s b) (answersUpTo ready n)).outcome = .ret more) ∧
      (∀ answers more, (performAll (callsOf s b) answers).outcome = .ret more →
        putBytes (performAll (callsOf s b) answers).events =
          (head ++ t ++ closing).take 1023 ++ (afterEcho r).flatMap printed) ∧
      ((head ++ t ++ closing).take 1023 = head ++ t ++ closing ↔
        head.length + t.length + closing.length ≤ 1023) := by
  refine ⟨quoted_of_denotes hr hq, ?_, ?_, ?_⟩
  · exact fun ready => performAll_finishes s b
  · exact fun answers more hret => quote_received hs hin hlen hnul hb hr hq hret
  · rw [← List.length_append, ← List.length_append]
    constructor
    · intro h
      rw [← h]
      exact List.length_take_le 1023 _
    · exact List.take_of_length_le

end Line

theorem quotes_cut_x :
    ∃ s, (Comms.feed Comms.powerUp (ascii "avr://x")).outcome = .ret s ∧
      ∀ answers more, (performAll (callsOf s 0x0a#8) answers).outcome = .ret more →
        putBytes (performAll (callsOf s 0x0a#8) answers).events =
          ascii "\r\nGot unknown AVR command 'x'\r\n" := by
  obtain ⟨s, hs⟩ : ∃ s, (Comms.feed Comms.powerUp (ascii "avr://x")).outcome = .ret s := ⟨_, rfl⟩
  have htracks : Comms.Tracks s (.reading (ascii "x")) :=
    Comms.feed_ret_tracks Comms.powerUp_tracks hs
  obtain ⟨hidx, htake⟩ := Comms.tracks_reading htracks (by decide)
  have hopen : openLine s = ascii "x" := by rw [openLine, hidx, htake]
  have hlen : s.commandBufferIndex ≤ 1023 := by
    rw [hidx]
    decide
  have hnul : 0#8 ∉ openLine s := by
    rw [hopen]
    decide
  have hdenotes : Comms.Denotes (openLine s) (.unknown (ascii "x")) := by
    rw [hopen]
    exact .unknown (by decide)
  obtain ⟨-, -, hput, -⟩ := quotes_cut ⟨_, hs⟩ htracks.1 hlen hnul (b := 0x0a#8) rfl hdenotes rfl
  refine ⟨s, hs, fun answers more hret => ?_⟩
  rw [hput answers more hret]
  decide +kernel

/-- The longest line that the buffer holds is quoted without its closing quote. -/
theorem longest_line_cut :
    ∃ s answers more, (Comms.feed Comms.powerUp (ascii "avr://" ++
        List.replicate 1023 0x78#8)).outcome = .ret s ∧
      (performAll (callsOf s 0x0a#8) answers).outcome = .ret more ∧
      ¬ closing <:+ putBytes (performAll (callsOf s 0x0a#8) answers).events := by
  have hfit : Comms.Short (List.replicate 1023 0x78#8) := by
    rw [Comms.Short, List.length_replicate]
    decide
  have hline : ∀ b ∈ List.replicate 1023 0x78#8, Comms.isLineEnd b = false := by
    intro b hb
    rw [List.eq_of_mem_replicate hb]
    rfl
  obtain ⟨s, es, hfeed, htracks, -⟩ := Comms.feed_line Comms.powerUp_tracks hfit hline
  have hs : (Comms.feed Comms.powerUp (ascii "avr://" ++
      List.replicate 1023 0x78#8)).outcome = .ret s := by rw [hfeed]
  obtain ⟨hidx, htake⟩ := Comms.tracks_reading htracks hfit
  have hopen : openLine s = List.replicate 1023 0x78#8 := by rw [openLine, hidx, htake]
  have hlen : s.commandBufferIndex ≤ 1023 := by rw [hidx, List.length_replicate]
  have hnul : 0#8 ∉ openLine s := by
    rw [hopen]
    intro h
    exact absurd (List.eq_of_mem_replicate h) (by decide)
  have hdenotes : Comms.Denotes (openLine s) (.unknown (List.replicate 1023 0x78#8)) := by
    rw [hopen]
    exact .unknown (by decide +kernel)
  have hready : ∀ n, ∃ m, n ≤ m ∧ (fun _ : Nat => true) m = true :=
    fun n => ⟨n, Nat.le_refl n, rfl⟩
  obtain ⟨n, more, hret⟩ := performAll_finishes s 0x0a#8 hready
  refine ⟨s, _, more, hs, hret, ?_⟩
  rw [quote_received ⟨_, hs⟩ htracks.1 hlen hnul rfl hdenotes rfl hret]
  decide +kernel

end BowerBird.Power
