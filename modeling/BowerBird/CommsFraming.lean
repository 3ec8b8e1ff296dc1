import BowerBird.CommsLines
import BowerBird.Firmware.Runs

/-!
# Round trip of command lines

Lines that are sent one after the other, each behind a magic string and closed
by any of the three usual line ends, are looked up one by one, unchanged.
-/

namespace BowerBird.Comms

open Firmware Firmware.Exec
set_option autoImplicit false

inductive Terminator where
  | lf
  | cr
  | crlf
  deriving Repr, DecidableEq

def Terminator.bytes : Terminator → List Byte
  | .lf => ascii "\n"
  | .cr => ascii "\r"
  | .crlf => ascii "\r\n"

structure Sent where
  filler : List Byte
  line : List Byte
  terminator : Terminator
  deriving Repr, DecidableEq

def Sent.bytes (c : Sent) : List Byte := c.filler ++ ascii "avr://" ++ c.line ++ c.terminator.bytes

structure Sent.WellFormed (c : Sent) : Prop where
  filler : ∀ b ∈ c.filler, b ≠ 0x61#8
  line : ∀ b ∈ c.line, b ≠ 0x0a#8 ∧ b ≠ 0x0d#8
  fits : c.line.length ≤ 1023
  noReset : ¬ resetCmd <+: c.line

/-- The first byte of the terminator closes the line, the second one is filler. -/
def Sent.frame (c : Sent) : Framing.Frame Byte :=
  match c.terminator with
  | .lf => ⟨c.filler, c.line, 0x0a#8, []⟩
  | .cr => ⟨c.filler, c.line, 0x0d#8, []⟩
  | .crlf => ⟨c.filler, c.line, 0x0d#8, [0x0a#8]⟩

theorem Sent.frame_bytes (c : Sent) : c.frame.bytes commandFraming = c.bytes := by
  obtain ⟨filler, line, t⟩ := c
  cases t <;> rfl

theorem Sent.frame_line (c : Sent) : c.frame.line = c.line := by
  obtain ⟨filler, line, t⟩ := c
  cases t <;> rfl

theorem filler_of_ne {bs : List Byte} (h : ∀ b ∈ bs, b ≠ 0x61#8) : commandFraming.Filler bs := by
  intro b hb heq
  have hhead : commandFraming.magic.head? = some 0x61#8 := rfl
  rw [hhead, Option.some.injEq] at heq
  exact h b hb heq.symm

theorem Sent.frame_fits {c : Sent} (h : c.WellFormed) : c.frame.Fits commandFraming := by
  have hline : ∀ b ∈ c.line, commandFraming.isEnd b = false := by
    intro b hb
    simpa [commandFraming, isLineEnd] using h.line b hb
  have hgo : commandFraming.stops c.line = false := by
    rw [Bool.eq_false_iff]
    exact fun hstop => h.noReset (List.isPrefixOf_iff_prefix.mp hstop)
  obtain ⟨filler, line, t⟩ := c
  cases t
  · exact ⟨filler_of_ne h.filler, hline, rfl, filler_of_ne (by simp [Sent.frame]), hgo⟩
  · exact ⟨filler_of_ne h.filler, hline, rfl, filler_of_ne (by simp [Sent.frame]), hgo⟩
  · exact ⟨filler_of_ne h.filler, hline, rfl, filler_of_ne (by simp [Sent.frame]), hgo⟩

theorem reads_sent {cs : List Sent} (h : ∀ c ∈ cs, c.WellFormed) :
    commandFraming.Reads (.hunting 0) (cs.flatMap Sent.bytes) (cs.map Sent.line) (.hunting 0) := by
  have hframes : ∀ f ∈ cs.map Sent.frame, f.Fits commandFraming := by
    intro f hf
    obtain ⟨c, hc, rfl⟩ := List.mem_map.mp hf
    exact Sent.frame_fits (h c hc)
  have hreads := Framing.reads_frames commandFraming (by decide) hframes
  have hbytes : (cs.map Sent.frame).flatMap (Framing.Frame.bytes commandFraming) =
      cs.flatMap Sent.bytes := by
    rw [List.flatMap_map]
    exact congrArg (cs.flatMap ·) (funext Sent.frame_bytes)
  have hlines : (cs.map Sent.frame).map Framing.Frame.line = cs.map Sent.line := by
    rw [List.map_map]
    exact congrArg (cs.map ·) (funext Sent.frame_line)
  rwa [hbytes, hlines] at hreads

/-- From any idle state the parser looks up exactly the lines that were sent, each
with its NUL behind it, and is idle again with an empty buffer. -/
theorem dispatches_of_sent {s : State} (hs : Reachable s) (hidle : Idle s) {cs : List Sent}
    (hcs : ∀ c ∈ cs, c.WellFormed) :
    ∃ s', (feed s (cs.flatMap Sent.bytes)).outcome = .ret s' ∧
      s'.inCommand = false ∧ s'.commandBufferIndex = 0 ∧
      (seen Event.dispatch? (feed s (cs.flatMap Sent.bytes))).length = cs.length ∧
      List.Forall₂ HoldsLine (seen Event.dispatch? (feed s (cs.flatMap Sent.bytes)))
        (cs.map Sent.line) := by
  obtain ⟨hrun, hlines⟩ := reads_sent hcs
  have hfit : ∀ line ∈ commandFraming.lines (.hunting 0) (cs.flatMap Sent.bytes), Short line := by
    rw [hlines]
    intro line hl
    obtain ⟨c, hc, rfl⟩ := List.mem_map.mp hl
    exact short_iff.mpr (hcs c hc).fits
  obtain ⟨-, hout, hds⟩ := feed_refines (hs.tracks_idle hidle) hfit
  rw [hrun] at hout
  rw [hlines] at hds
  obtain ⟨s', hret, hidle'⟩ := hout.returns (by simp)
  exact ⟨s', hret, hidle'.1, hidle'.2.2.2.1, by simpa using hds.length_eq, hds⟩

/-- A line that holds `avr://` and a NUL, one directly behind its `"\r\n"`, and one after noise. -/
def threeSent : List Sent :=
  [⟨ascii "x vr:\n", ascii "lcd avr://" ++ [0#8], .crlf⟩, ⟨[], ascii "power on 3", .cr⟩,
    ⟨ascii "> ", ascii "watchdog pulse", .lf⟩]

theorem dispatches_of_sent_after_longer :
    ∃ s, Reachable s ∧ Idle s ∧ ascii "lcd a longer line" <+: s.commandBuffer.toList ∧
      ∃ s', (feed s (threeSent.flatMap Sent.bytes)).outcome = .ret s' ∧
        s'.inCommand = false ∧ s'.commandBufferIndex = 0 ∧
        List.Forall₂ HoldsLine (seen Event.dispatch? (feed s (threeSent.flatMap Sent.bytes)))
          [ascii "lcd avr://" ++ [0#8], ascii "power on 3", ascii "watchdog pulse"] := by
  obtain ⟨s, hs, hend⟩ := runs_of_ret? processByte powerUp (ascii "avr://lcd a longer line\n")
    (fun s => (s.inCommand, s.commandPrefixIndex,
      decide (ascii "lcd a longer line" <+: s.commandBuffer.toList)))
    (v := (false, 0, true)) (by decide +kernel)
  simp only [Prod.mk.injEq, decide_eq_true_eq] at hend
  obtain ⟨hin, hprefix, hbuf⟩ := hend
  have hreachable : Reachable s := ⟨_, by rw [feed, hs]⟩
  have hwf : ∀ c ∈ threeSent, c.WellFormed := by
    intro c hc
    simp only [threeSent, List.mem_cons, List.not_mem_nil, or_false] at hc
    rcases hc with rfl | rfl | rfl
    · exact ⟨by decide, by decide, by decide, by decide⟩
    · exact ⟨by decide, by decide, by decide, by decide⟩
    · exact ⟨by decide, by decide, by decide, by decide⟩
  obtain ⟨s', hret, hin', hidx, -, hds⟩ := dispatches_of_sent hreachable ⟨hin, hprefix⟩ hwf
  exact ⟨s, hreachable, ⟨hin, hprefix⟩, hbuf, s', hret, hin', hidx, hds⟩

end BowerBird.Comms
