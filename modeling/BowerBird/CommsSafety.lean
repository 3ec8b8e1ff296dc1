import BowerBird.CommsLines

/-!
# Where the parser leaves its buffer

The guard in `ProcessByte` stops stores at the end of `CommandBuffer`, but the
terminator is written without it. The parser is memory safe on exactly those
streams whose command lines leave room for the terminator.
-/

namespace BowerBird.Comms

open Firmware Firmware.Exec
set_option autoImplicit false

theorem Event.InBounds.not_store : ¬ (Event.store maxLineLength 0#8).InBounds := Nat.lt_irrefl _

theorem feed_overlong {s : State} {m : Framing.Mode Byte} (h : Tracks s m) {bs : List Byte}
    (hlong : ∃ line ∈ commandFraming.lines m bs, ¬ Short line) :
    Event.store maxLineLength 0#8 ∈ (feed s bs).events := by
  induction bs generalizing s m with
  | nil =>
    obtain ⟨line, hl, -⟩ := hlong
    exact absurd hl List.not_mem_nil
  | cons b bs ih =>
    by_cases hnow : ∀ line ∈ (commandFraming.step m b).2, Short line
    · have hstep := (processByte_refines h b hnow).follows
      obtain ⟨line, hl, hls⟩ := hlong
      rw [Framing.lines_cons] at hl
      have hlater : line ∈ commandFraming.lines (commandFraming.step m b).1 bs :=
        (List.mem_append.mp hl).resolve_left fun hl => hls (hnow line hl)
      rw [feed, feed_cons]
      rcases hx : processByte s b with ⟨es, t | _ | _⟩ <;> rw [hx] at hstep
      · exact List.mem_append_right _ (ih hstep ⟨line, hlater, hls⟩)
      · have hstop : (commandFraming.step m b).1 = .stopped := hstep
        rw [hstop, Framing.lines_stopped] at hlater
        cases hlater
      · exact absurd hstep id
    · push Not at hnow
      obtain ⟨line, hl, hls⟩ := hnow
      obtain ⟨rfl, hb⟩ := Framing.of_mem_step commandFraming hl
      simp [feed, processByte_overlong h hls hb]

/-- Every access to `CommandBuffer` is inside it, and no read runs off its end, in
exactly those streams whose complete command lines are at most 1023 bytes long. -/
theorem accesses_inside_iff (bs : List Byte) :
    ((∀ e ∈ (feed powerUp bs).events, e.InBounds) ∧ (feed powerUp bs).outcome ≠ .fault) ↔
      ∀ line ∈ commandLines bs, line.length ≤ 1023 := by
  simp only [← short_iff]
  constructor
  · rintro ⟨hes, -⟩ line hl
    by_contra hlong
    exact Event.InBounds.not_store (hes _ (feed_overlong powerUp_tracks ⟨line, hl, hlong⟩))
  · intro hfit
    obtain ⟨hes, hout, -⟩ := feed_refines powerUp_tracks hfit
    refine ⟨hes, ?_⟩
    intro hfault
    rw [hfault] at hout
    exact hout

def overlongStream : List Byte :=
  commandPrefix ++ List.replicate 1024 0x78#8 ++ [0x0a#8]

theorem overlongStream_lines : commandLines overlongStream = [List.replicate 1024 0x78#8] := by
  have hframe : (⟨[], List.replicate 1024 0x78#8, 0x0a#8, []⟩ : Framing.Frame Byte).Fits
      commandFraming := by
    refine ⟨by simp [Framing.Filler], ?_, by decide, by simp [Framing.Filler], ?_⟩
    · intro b hb
      rw [List.eq_of_mem_replicate hb]
      decide
    · rw [List.replicate_succ]
      rfl
  exact (Framing.reads_frame commandFraming (by decide) hframe).2

theorem overlongStream_leaves_buffer :
    ¬ ∀ e ∈ (feed powerUp overlongStream).events, e.InBounds := by
  intro hes
  have hline : List.replicate 1024 0x78#8 ∈ commandLines overlongStream := by
    rw [overlongStream_lines]
    exact List.mem_cons_self
  have hlong : ¬ Short (List.replicate 1024 0x78#8) := by
    rw [Short, List.length_replicate]
    decide
  exact Event.InBounds.not_store (hes _ (feed_overlong powerUp_tracks ⟨_, hline, hlong⟩))

end BowerBird.Comms
