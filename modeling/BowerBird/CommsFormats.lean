import BowerBird.CommsRequests

/-!
# Which texts are formats

`WriteStringToUSB` is always called with a fixed format. `WriteStringToLCD` is
called with received text in the place of the format, which asks for arguments
that are not there unless every `%` in the text is doubled.
-/

namespace BowerBird.Comms

open Firmware Firmware.CString Firmware.Exec Firmware.Printf
set_option autoImplicit false

/-- A call of one of the two functions passes the arguments its format asks for. -/
def Event.MatchesArgs : Event → Prop
  | .call (.writeStringToUSB format args) => Matches format args
  | .call (.writeStringToLCD format args) => Matches format args
  | _ => True

/-- The received text that a request shows on the LCD. -/
def Request.shown : Request → Option (List Byte)
  | .unknownDevice _ s => some s
  | .unknownPower s => some s
  | .sendToLCD s => some s
  | .unknownWatchdog s => some s
  | .unknown s => some s
  | _ => none

/-- If the byte completes a request that shows text on the LCD, every `%` in it is doubled. -/
def ShowsPlain (s : State) (b : Byte) : Prop :=
  ∀ r, completed s b = some r → ∀ t, r.shown = some t → Plain t

theorem reportToUSB_matches {format : String} {args : List Arg} (kinds : List Kind)
    (hkinds : args.map Arg.kind = kinds := by rfl)
    (h : conversions (directives (ascii format)) = some kinds := by decide +kernel) :
    (reportToUSB format args).MatchesArgs := by
  change conversions _ = _
  rw [h, hkinds]

theorem reportToLCD_matches {format : List Byte} {args : List Arg} (kinds : List Kind)
    (hkinds : args.map Arg.kind = kinds := by rfl)
    (h : conversions (directives format) = some kinds := by decide +kernel) :
    (reportToLCD format args).MatchesArgs := by
  change conversions _ = _
  rw [h, hkinds]

theorem refusal_matches {format heading : String} {args : List Arg} {s : List Byte}
    (husb : (reportToUSB format args).MatchesArgs)
    (hlcd : (reportToLCD (ascii heading) []).MatchesArgs) :
    (∀ e ∈ refusal format args heading s, e.MatchesArgs) ↔ Plain s := by
  simp only [refusal, List.forall_mem_cons, husb, hlcd, true_and]
  rw [← matches_nil_iff]
  simp [reportToLCD, Event.MatchesArgs]

theorem forall_shown_iff {s : List Byte} : (∀ t, some s = some t → Plain t) ↔ Plain s := by
  simp

/-- The formats of a request fit their arguments exactly if the text it shows is plain. -/
theorem effects_match_iff (r : Request) :
    (∀ e ∈ r.effects, e.MatchesArgs) ↔ ∀ t, r.shown = some t → Plain t := by
  have hnone : ∀ t, (none : Option (List Byte)) = some t → Plain t := fun _ h => by cases h
  cases r with
  | powerDown s =>
    apply iff_of_true _ hnone
    simp only [Request.effects, List.forall_mem_cons]
    exact ⟨reportToUSB_matches [.str], reportToUSB_matches [.word, .word], reportToLCD_matches [],
      trivial, by simp⟩
  | turn on d =>
    apply iff_of_true _ hnone
    simp only [Request.effects, List.forall_mem_cons]
    exact ⟨trivial, reportToUSB_matches [.str, .str, .word, .word],
      reportToLCD_matches [.str, .str, .word, .word], by simp⟩
  | clearLCD =>
    apply iff_of_true _ hnone
    simp only [Request.effects, List.forall_mem_cons]
    exact ⟨trivial, reportToUSB_matches [], by simp⟩
  | enableWatchdog =>
    apply iff_of_true _ hnone
    simp [Request.effects, Event.MatchesArgs]
  | disableWatchdog =>
    apply iff_of_true _ hnone
    simp [Request.effects, Event.MatchesArgs]
  | pulseWatchdog =>
    apply iff_of_true _ hnone
    simp only [Request.effects, List.forall_mem_cons]
    exact ⟨trivial, reportToUSB_matches [], reportToLCD_matches [], by simp⟩
  | resetAVR =>
    apply iff_of_true _ hnone
    simp [Request.effects, Event.MatchesArgs]
  | sendToLCD s =>
    have hsent : (reportToUSB "\r\nSent to LCD: '%s'\r\n" [.str s]).MatchesArgs :=
      reportToUSB_matches [.str]
    apply Iff.trans _ forall_shown_iff.symm
    simp only [Request.effects, List.forall_mem_cons, hsent, true_and]
    rw [← matches_nil_iff]
    simp [reportToLCD, Event.MatchesArgs]
  | unknownDevice on s =>
    exact (refusal_matches (reportToUSB_matches [.str, .str]) (reportToLCD_matches [])).trans
      forall_shown_iff.symm
  | unknownPower s =>
    exact (refusal_matches (reportToUSB_matches [.str]) (reportToLCD_matches [])).trans
      forall_shown_iff.symm
  | unknownWatchdog s =>
    exact (refusal_matches (reportToUSB_matches [.str]) (reportToLCD_matches [])).trans
      forall_shown_iff.symm
  | unknown s =>
    exact (refusal_matches (reportToUSB_matches [.str]) (reportToLCD_matches [])).trans
      forall_shown_iff.symm

/-- In a whole stream the formats fit their arguments exactly if no line is completed
that shows a text with a single `%` on the LCD. -/
theorem formats_match_iff (bs : List Byte) :
    (∀ e ∈ (feed powerUp bs).events, e.MatchesArgs) ↔ Along processByte ShowsPlain powerUp bs := by
  have hother : ∀ e : Event, e.effect? = none → e.MatchesArgs := by
    intro e he
    cases e <;> trivial
  rw [always_feed_effects_iff hother]
  apply along_congr
  intro _ _ s b _
  simp only [effects_match_iff]
  rfl

/-- The line `%s` is handed to `WriteStringToLCD` as a format, without an argument. -/
theorem percent_s_is_format :
    ∃ e ∈ (feed powerUp (ascii "avr://%s\n")).events, ¬ e.MatchesArgs := by
  refine ⟨.call (.writeStringToLCD (ascii "%s") []), by decide +kernel, ?_⟩
  change ¬ conversions (directives (ascii "%s")) = some []
  decide

end BowerBird.Comms
