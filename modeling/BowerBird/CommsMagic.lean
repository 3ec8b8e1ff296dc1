import BowerBird.CommsLines
import BowerBird.Firmware.Magic

/-!
# When the command prefix is seen

`ProcessByte` drops the byte at which a partial match breaks, so that a prefix
directly behind the start of another one is missed. Between two lines the parser
sees the prefix on exactly those streams that end in an even number of adjacent
copies of it.
-/

namespace BowerBird.Comms

open Firmware Firmware.Exec
set_option autoImplicit false

/-- The adjacent copies of `avr://`, whole or broken off, at the end of a stream. -/
def PrefixCopies (bs : List Byte) (n : Nat) : Prop := commandFraming.Copies bs n

theorem commandFraming_distinct : commandFraming.Distinct where
  nonempty := by decide
  head := by
    intro a rest h
    have hparts : ascii "avr://" = a :: rest := h
    cases hparts
    decide
  noEnd := by decide

theorem tracks_outside {s : State} {m : Framing.Mode Byte} (h : Tracks s m)
    (hin : s.inCommand = false) : ∃ k, m = .hunting k := by
  cases m with
  | hunting k => exact ⟨k, rfl⟩
  | reading line =>
    have hopen := h.1
    rw [hin] at hopen
    cases hopen
  | stopped => exact absurd h id

theorem tracks_opened_iff {s : State} {m : Framing.Mode Byte} (h : Tracks s m) :
    s.inCommand = true ∧ s.commandBufferIndex = 0 ↔ m = .reading [] := by
  cases m with
  | hunting k =>
    apply iff_of_false
    · rintro ⟨hin, -⟩
      rw [h.1] at hin
      cases hin
    · intro hm
      cases hm
  | reading line =>
    rw [h.2.2.1]
    have hmax : 0 < maxLineLength := by decide
    constructor
    · rintro ⟨-, hidx⟩
      have hlen : line.length = 0 := by omega
      rw [List.length_eq_zero_iff] at hlen
      rw [hlen]
    · intro hm
      cases hm
      exact ⟨h.1, Nat.zero_min _⟩
  | stopped => exact absurd h id

/-- After a stream that leaves no line open, the six bytes of the prefix put the parser
in command mode if and only if the stream ends in an even number of adjacent copies. -/
theorem prefix_seen_iff {bs : List Byte} {s : State} (hs : (feed powerUp bs).outcome = .ret s)
    (hin : s.inCommand = false) :
    (∃ t, (feed s (ascii "avr://")).outcome = .ret t ∧ t.inCommand = true ∧
      t.commandBufferIndex = 0) ↔ ∃ n, Even n ∧ PrefixCopies bs n := by
  have htracks := feed_ret_tracks powerUp_tracks hs
  obtain ⟨k, hk⟩ := tracks_outside htracks hin
  obtain ⟨hlines, hopens⟩ := Framing.opens_iff commandFraming_distinct hk
  have hmagic : commandFraming.magic = ascii "avr://" := rfl
  rw [hk] at htracks
  rw [hmagic] at hlines hopens
  have hshort : ∀ line ∈ commandFraming.lines (.hunting k) (ascii "avr://"), Short line := by
    rw [hlines]
    simp
  have hgo : commandFraming.run (.hunting k) (ascii "avr://") ≠ .stopped := by
    apply Framing.run_ne_stopped
    · simp
    · rw [hlines]
      simp
  obtain ⟨t, hout, ht⟩ := (feed_refines htracks hshort).follows.returns hgo
  unfold PrefixCopies
  rw [← hopens, hout, ← tracks_opened_iff ht]
  simp

theorem prefix_seen_after_pair :
    ∃ s t, (feed powerUp (ascii "#aa")).outcome = .ret s ∧
      (feed s (ascii "avr://")).outcome = .ret t ∧ t.inCommand = true ∧
      t.commandBufferIndex = 0 := by
  have htext : PrefixCopies (ascii "#") 0 := by
    apply Framing.Copies.text
    intro b hb hsuffix
    rcases List.suffix_cons_iff.mp hsuffix with rfl | hsuffix
    · exact absurd hb (by decide)
    · exact List.suffix_nil.mp hsuffix
  have hone := Framing.Copies.copy (b := ascii "a") htext (by decide) (by decide)
  have htwo := Framing.Copies.copy (b := ascii "a") hone (by decide) (by decide)
  obtain ⟨t, ht⟩ := (@prefix_seen_iff (ascii "#aa") _ rfl rfl).mpr ⟨2, by decide, htwo⟩
  exact ⟨_, t, rfl, ht⟩

/-- After a single `a`, the whole prefix arrives outside every line and opens none. -/
theorem prefix_missed_after_a :
    (List.range 7).map (fun n => (feed powerUp (ascii "a" ++ (ascii "avr://").take n)).outcome.ret?.map
      State.inCommand) = List.replicate 7 (some false) := by
  decide +kernel

end BowerBird.Comms
