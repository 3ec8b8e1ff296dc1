import BowerBird.PowerBlocking

/-!
# With a host that keeps listening

A host that is ready again and again lets every report end. Then the main loop comes
round after a byte exactly if the parser does: unless the byte ends a line that does
not fit, or the AVR reset command.
-/

namespace BowerBird.Power

open Firmware Firmware.CString Firmware.Exec
set_option autoImplicit false

/-- The byte ends no line, or one that fits and is not the AVR reset command. -/
def GoesOn (s : Comms.State) (c : Byte) : Prop :=
  s.inCommand = true → Comms.isLineEnd c = true →
    s.commandBufferIndex < Comms.maxLineLength ∧ ¬ Comms.resetCmd <+: terminated s

/-- These are the bytes that the parser comes back from. -/
theorem goesOn_iff {s : Comms.State} (hs : Comms.Reachable s) (c : Byte) :
    GoesOn s c ↔ ∃ t, (Comms.processByte s c).outcome = .ret t := by
  rcases hs.byte_cases c with ⟨line, hline, hend⟩ | ⟨hno, t, es, ht, -⟩
  swap
  · exact iff_of_true (fun hin hend => absurd ⟨hin, hend⟩ hno) ⟨t, by rw [ht]⟩
  constructor
  · intro h
    obtain ⟨hidx, hreset⟩ := h hline.1 hend
    have hfit := Comms.short_of_tracks hline hidx
    rw [terminated_eq hline hfit, Comms.prefix_of_prefix_line] at hreset
    obtain ⟨buf, es, -, -, -, heq⟩ := Comms.processByte_lineEnd_returns hline hfit hend hreset
    exact ⟨_, by rw [heq]⟩
  · rintro ⟨t, ht⟩ - -
    by_cases hfit : Comms.Short line
    · obtain ⟨hidx, -⟩ := Comms.tracks_reading hline hfit
      refine ⟨hidx ▸ hfit, fun hreset => ?_⟩
      obtain ⟨buf, hbuf, hnul, heq⟩ := Comms.processByte_lineEnd hline hfit hend
      rw [terminated_eq hline hfit, ← hbuf] at hreset
      rw [heq, Comms.dispatchCommand_reset hnul.start hreset] at ht
      cases ht
    · rw [Comms.processByte_overlong hline hfit hend] at ht
      cases ht

theorem answersUpTo_add (ready : Nat → Bool) (n d : Nat) :
    ∃ more, answersUpTo ready (n + d) = answersUpTo ready n ++ more := by
  unfold answersUpTo
  rw [List.range_add, List.map_append]
  exact ⟨_, rfl⟩

section Host
variable {ready : Nat → Bool} (hready : ∀ n, ∃ m, n ≤ m ∧ ready m = true)
include hready

theorem exists_answers (k : Nat) : ∃ n, k ≤ (answersUpTo ready n).count true := by
  induction k with
  | zero => exact ⟨0, Nat.zero_le _⟩
  | succ k ih =>
    obtain ⟨n, hn⟩ := ih
    obtain ⟨m, hnm, hm⟩ := hready n
    obtain ⟨d, rfl⟩ := Nat.exists_eq_add_of_le hnm
    obtain ⟨more, hmore⟩ := answersUpTo_add ready n d
    have hlast : answersUpTo ready (n + d + 1) = answersUpTo ready n ++ more ++ [true] := by
      rw [← hmore, ← hm, answersUpTo, List.range_succ, List.map_append]
      rfl
    refine ⟨n + d + 1, ?_⟩
    rw [hlast, List.count_append, List.count_append, List.count_singleton_self]
    omega

theorem handleByte_of_processByte {s t : Comms.State} {c : Byte}
    (ht : (Comms.processByte s c).outcome = .ret t) :
    ∃ n, (handleByte s c (answersUpTo ready n)).outcome = .ret t := by
  obtain ⟨n, hn⟩ := exists_answers hready ((report s c).length + 1)
  refine ⟨n, handleByte_ret_iff.mpr ⟨ht, Nat.le_of_succ_le hn, ?_⟩⟩
  intro hnone
  have hcount := count_afterReady (report s c).length (answersUpTo ready n)
  rw [hnone, List.count_nil] at hcount
  omega

/-- With such a host the main loop comes round exactly if the parser comes back. -/
theorem comesRound_host_iff {b : Board} {c : Byte} {rest : List Byte}
    (hs : Comms.Reachable b.comms) (hnext : b.next = .usbInput)
    (hc : b.beagleInFIFO.contents = c :: rest) (rx : Option Byte) (usartTxReady : Bool) :
    ComesRound b rx usartTxReady ready ↔ GoesOn b.comms c := by
  rw [comesRound_iff hnext hc, goesOn_iff hs]
  constructor
  · rintro ⟨n, t, hret⟩
    exact ⟨t, (handleByte_ret_iff.mp hret).1⟩
  · rintro ⟨t, ht⟩
    obtain ⟨n, hn⟩ := handleByte_of_processByte hready ht
    exact ⟨n, t, hn⟩

end Host

theorem comesRound_host_unknown_command :
    ∃ s, (Comms.feed Comms.powerUp (ascii "avr://x")).outcome = .ret s ∧
      ComesRound (boardWith s 0x0a#8) none false fun n => n % 3 == 2 := by
  obtain ⟨s, hs⟩ : ∃ s, (Comms.feed Comms.powerUp (ascii "avr://x")).outcome = .ret s := ⟨_, rfl⟩
  have hline : Comms.Tracks s (.reading (ascii "x")) :=
    Comms.feed_ret_tracks Comms.powerUp_tracks hs
  have hready : ∀ n, ∃ m, n ≤ m ∧ (m % 3 == 2) = true :=
    fun n => ⟨3 * n + 2, by omega, by rw [Nat.mul_add_mod]; rfl⟩
  have hgoes : GoesOn s 0x0a#8 := by
    intro _ _
    obtain ⟨hidx, -⟩ := Comms.tracks_reading hline (by decide)
    rw [hidx, terminated_eq hline (by decide), Comms.prefix_of_prefix_line]
    exact ⟨by decide, by decide⟩
  have hround := (comesRound_host_iff (b := boardWith s 0x0a#8) hready ⟨_, hs⟩ rfl rfl none
    false).mpr hgoes
  exact ⟨s, hs, hround⟩

end BowerBird.Power
