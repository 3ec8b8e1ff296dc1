import BowerBird.CommsStrings
import Mathlib.Data.List.DropRight

/-!
# What the parser has received

The control variables and the buffer say how the bytes since the last command
end: in a part of `avr://`, or in `avr://` and the line in the buffer. So only
text between `avr://` and the next line end gets to a handler, unless a line
ends at a keyword: then the handler is handed what stands behind the line.
-/

namespace BowerBird.Comms

open Firmware Firmware.CString Firmware.Exec
set_option autoImplicit false

def terminates (s : State) (b : Byte) : Bool := s.inCommand && isLineEnd b

/-- The bytes received since power-up or the terminator of the last command. -/
def sinceTerminator (bs : List Byte) : List Byte :=
  ((gather processByte (fun s b => [(b, terminates s b)]) powerUp bs).rtakeWhile fun r => !r.2).map
    Prod.fst

/-- Outside a command, the counter says how much of `avr://` was received last. -/
structure Hunting (s : State) (recent : List Byte) : Prop where
  inCommand : s.inCommand = false
  index : s.commandBufferIndex = 0
  matched_lt : s.commandPrefixIndex < 6
  received : (ascii "avr://").take s.commandPrefixIndex <:+ recent

/-- In a command, `avr://` and the contents of the buffer were received last. -/
structure Collecting (s : State) (recent : List Byte) : Prop where
  inCommand : s.inCommand = true
  matched : s.commandPrefixIndex = 0
  received : ∃ u, recent = u ++ ascii "avr://" ++ s.commandBuffer.toList.take s.commandBufferIndex
  noEnd : ∀ b ∈ s.commandBuffer.toList.take s.commandBufferIndex, b ≠ 0x0a#8 ∧ b ≠ 0x0d#8

section Run
variable {bs : List Byte} {es : List Event} {s : State}

theorem sinceTerminator_concat (h : Runs processByte powerUp bs es s) (b : Byte) :
    sinceTerminator (bs ++ [b]) =
      if terminates s b then [] else sinceTerminator bs ++ [b] := by
  unfold sinceTerminator
  rw [gather_concat _ h]
  cases hb : terminates s b with
  | true => simp
  | false => simp

theorem magic_ne_nil : commandFraming.magic ≠ [] := by
  intro h
  cases h

theorem closes_iff {m : Framing.Mode Byte} (h : Tracks s m) (b : Byte) :
    (commandFraming.step m b).2 = [] ↔ terminates s b = false := by
  unfold terminates
  cases m with
  | hunting k =>
    rw [Framing.step_hunting, h.1]
    simp
  | reading line =>
    rw [h.1, Bool.true_and]
    cases hb : isLineEnd b with
    | false => simp [Framing.step_data commandFraming line hb]
    | true => simp [Framing.step_end commandFraming line hb]
  | stopped => exact absurd h id

theorem step_holds {m : Framing.Mode Byte} {recent : List Byte} (h : Tracks s m)
    (hholds : commandFraming.Holds m recent) (b : Byte) :
    commandFraming.Holds (commandFraming.step m b).1
      (if terminates s b then [] else recent ++ [b]) := by
  cases hb : terminates s b with
  | false => exact hholds.step_open magic_ne_nil ((closes_iff h b).mpr hb)
  | true =>
    obtain ⟨line, hline⟩ : ∃ line, line ∈ (commandFraming.step m b).2 := by
      apply List.exists_mem_of_ne_nil
      intro hopen
      rw [(closes_iff h b).mp hopen] at hb
      cases hb
    exact Framing.holds_closed magic_ne_nil hline _

theorem runs_holds (h : Runs processByte powerUp bs es s) :
    commandFraming.Holds (commandFraming.run (.hunting 0) bs) (sinceTerminator bs) := by
  refine Runs.history (C := fun _ _ => True)
    (H := fun bs _ _ => commandFraming.Holds (commandFraming.run (.hunting 0) bs) (sinceTerminator bs))
    (Framing.holds_start magic_ne_nil _) ?_ along_true h
  intro bs es t b fs u ht hholds _ _
  rw [sinceTerminator_concat ht, Framing.run_append, Framing.run_cons]
  exact step_holds (runs_tracks ht) hholds b

/-- The control variables are those of exactly one mode, and what has been received fits it. -/
theorem one_mode {m : Framing.Mode Byte} {recent : List Byte} (h : Tracks s m)
    (hholds : commandFraming.Holds m recent) (hfit : ∀ line, m = .reading line → Short line) :
    Xor (Hunting s recent) (Collecting s recent) := by
  have hmagic : commandFraming.magic = ascii "avr://" := rfl
  cases m with
  | hunting k =>
    obtain ⟨hin, rfl, hk, hidx, -⟩ := h
    obtain ⟨-, hreceived⟩ := hholds
    rw [hmagic] at hreceived
    left
    refine ⟨⟨hin, hidx, hk, hreceived⟩, ?_⟩
    intro hcollecting
    rw [hcollecting.inCommand] at hin
    cases hin
  | reading line =>
    obtain ⟨hidx, htake⟩ := tracks_reading h (hfit line rfl)
    obtain ⟨⟨u, hu⟩, hline⟩ := hholds
    rw [hmagic] at hu
    rw [← hidx] at htake
    right
    refine ⟨⟨h.1, h.2.1, ⟨u, by rw [hu, htake]⟩, ?_⟩, ?_⟩
    · intro b hb
      rw [htake] at hb
      simpa [commandFraming, isLineEnd] using hline b hb
    · intro hhunting
      have hin := h.1
      rw [hhunting.inCommand] at hin
      cases hin
  | stopped => exact absurd h id

end Run

theorem commandLines_mono {pre bs line : List Byte} (hpre : pre <+: bs)
    (h : line ∈ commandLines pre) : line ∈ commandLines bs := by
  obtain ⟨post, rfl⟩ := hpre
  rw [commandLines, Framing.lines_append]
  exact List.mem_append_left _ h

theorem runs_of_lines {bs : List Byte} (hfit : ∀ line ∈ commandLines bs, Short line)
    (hreset : ∀ line ∈ commandLines bs, ¬ resetCmd <+: line) :
    ∃ s, Runs processByte powerUp bs (feed powerUp bs).events s := by
  have hgo : commandFraming.run (.hunting 0) bs ≠ .stopped := by
    apply Framing.run_ne_stopped
    · simp
    · intro line hl
      rw [Bool.eq_false_iff]
      exact fun hstop => hreset line hl (List.isPrefixOf_iff_prefix.mp hstop)
  obtain ⟨s, hret, -⟩ := (feed_refines powerUp_tracks hfit).follows.returns hgo
  refine ⟨s, ?_⟩
  rw [Runs, ← hret]
  rfl

theorem short_of_started {pre bs : List Byte} (hpre : pre <+: bs)
    (hfit : ∀ line ∈ commandFraming.started (.hunting 0) bs, line.length ≤ 1023) :
    ∀ line ∈ commandFraming.started (.hunting 0) pre, Short line := by
  intro line hl
  obtain ⟨post, rfl⟩ := hpre
  obtain ⟨more, hmore, hle⟩ := Framing.started_append commandFraming post hl
  apply short_iff.mpr
  exact hle.length_le.trans (hfit more hmore)

theorem mem_started_of_lines {bs line : List Byte} (h : line ∈ commandLines bs) :
    line ∈ commandFraming.started (.hunting 0) bs :=
  List.mem_append_left _ h

theorem feed_of_no_magic {bs : List Byte} (h : ¬ ascii "avr://" <:+: bs) :
    ∃ k, feed powerUp bs = pure { powerUp with commandPrefixIndex := k } := by
  have hmagic : commandFraming.magic = ascii "avr://" := rfl
  induction bs using List.reverseRecOn with
  | nil => exact ⟨0, rfl⟩
  | append_singleton bs b ih =>
    have hbs : ¬ ascii "avr://" <:+: bs :=
      fun hbs => h (hbs.trans (List.prefix_append bs [b]).isInfix)
    obtain ⟨k, hk⟩ := ih hbs
    have hruns : Runs processByte powerUp bs [] { powerUp with commandPrefixIndex := k } := hk
    have htracks := runs_tracks hruns
    rw [← hmagic] at h hbs
    obtain ⟨i, hi⟩ := Framing.run_of_no_magic commandFraming magic_ne_nil hbs
    obtain ⟨j, hj⟩ := Framing.run_of_no_magic commandFraming magic_ne_nil h
    rw [hi] at htracks
    rw [Framing.run_append, hi] at hj
    obtain ⟨t, heq, ht, hbuf⟩ := processByte_hunting htracks b
    have hstep : (commandFraming.step (.hunting i) b).1 = .hunting j := hj
    rw [hstep] at ht
    have hfeed : feed powerUp (bs ++ [b]) = pure t := hruns.concat heq
    refine ⟨t.commandPrefixIndex, ?_⟩
    obtain ⟨hin, -, -, hidx, -⟩ := ht
    obtain ⟨buf, idx, pre, inCommand⟩ := t
    cases hin
    cases hidx
    cases hbuf
    exact hfeed

/-- The byte closes the line, which was received behind `avr://` since the last command. -/
structure Closes (pre : List Byte) (b : Byte) (line : List Byte) : Prop where
  isEnd : isLineEnd b = true
  received : ∃ u, sinceTerminator pre = u ++ ascii "avr://" ++ line
  noEnd : ∀ c ∈ line, c ≠ 0x0a#8 ∧ c ≠ 0x0d#8
  read : commandLines (pre ++ [b]) = commandLines pre ++ [line]

/-- All that a byte of the stream does, other than to store in the buffer, runs on the line
that the byte closes. -/
def HandlersInside (bs : List Byte) : Prop :=
  ∀ pre b es s, pre ++ [b] <+: bs → Runs processByte powerUp pre es s →
    (processByte s b).Always fun e =>
      (∃ i c, e = .store i c) ∨ ∃ line, Closes pre b line ∧ e.RunsOn line

section Closing
variable {bs pre line : List Byte} {b : Byte} {es : List Event} {s : State}

theorem commandLines_closed (hrun : commandFraming.run (.hunting 0) pre = .reading line)
    (hb : isLineEnd b = true) : commandLines (pre ++ [b]) = commandLines pre ++ [line] := by
  rw [commandLines_concat, hrun, Framing.step_end commandFraming line hb]

theorem closes_of_reading (h : Runs processByte powerUp pre es s)
    (hrun : commandFraming.run (.hunting 0) pre = .reading line) (hb : isLineEnd b = true) :
    Closes pre b line := by
  have hholds := runs_holds h
  rw [hrun] at hholds
  obtain ⟨hreceived, hline⟩ := hholds
  refine ⟨hb, hreceived, ?_, commandLines_closed hrun hb⟩
  intro c hc
  simpa [commandFraming, isLineEnd] using hline c hc

theorem HandlersInside.not_endsAtKeyword (h : HandlersInside bs)
    (hfit : ∀ line ∈ commandLines bs, Short line)
    (hreset : ∀ line ∈ commandLines bs, ¬ resetCmd <+: line) (hl : line ∈ commandLines bs) :
    ¬ EndsAtKeyword line := by
  intro hkey
  have hline : Short line := hfit line hl
  obtain ⟨pre, b, post, rfl, hrun, hb⟩ := Framing.exists_closing commandFraming hl
  have hpre : pre <+: pre ++ b :: post := List.prefix_append pre _
  obtain ⟨s, hs⟩ := runs_of_lines (fun l hl => hfit l (commandLines_mono hpre hl))
    fun l hl => hreset l (commandLines_mono hpre hl)
  have htracks := runs_tracks hs
  rw [hrun] at htracks
  obtain ⟨buf, hbuf, -, heq⟩ := processByte_lineEnd htracks hline hb
  obtain ⟨o, ho⟩ := argument_behind_line hkey (s.commandBuffer.toList.drop (line.length + 1))
  rw [← hbuf] at ho
  have hinside := h pre b _ s ⟨post, by simp⟩ hs
  rw [heq] at hinside
  have hdispatch := (always_bind_iff.mp hinside).2 _ rfl
  rcases (always_bind_iff.mp hdispatch).1 _ ho with ⟨i, c, hstore⟩ | ⟨line', hcloses, hle, -⟩
  · cases hstore
  · have hread := hcloses.read
    rw [commandLines_closed hrun hb, List.append_cancel_left_eq, List.singleton_inj] at hread
    subst hread
    omega

theorem handlersInside_of_lines (hfit : ∀ line ∈ commandLines bs, Short line)
    (hreset : ∀ line ∈ commandLines bs, ¬ resetCmd <+: line)
    (hkey : ∀ line ∈ commandLines bs, ¬ EndsAtKeyword line) : HandlersInside bs := by
  intro pre b es s hpre hs
  have htracks := runs_tracks hs
  cases hrun : commandFraming.run (.hunting 0) pre with
  | hunting k =>
    rw [hrun] at htracks
    intro e he
    exact .inl (processByte_stores s (.inr htracks.1) e he)
  | stopped =>
    rw [hrun] at htracks
    exact absurd htracks id
  | reading line =>
    rw [hrun] at htracks
    cases hb : isLineEnd b with
    | false =>
      intro e he
      exact .inl (processByte_stores s (.inl hb) e he)
    | true =>
      have hl : line ∈ commandLines bs := by
        apply commandLines_mono hpre
        rw [commandLines_closed hrun hb]
        exact List.mem_append_right _ (List.mem_singleton_self line)
      have hcloses := closes_of_reading hs hrun hb
      obtain ⟨buf, hbuf, -, heq⟩ := processByte_lineEnd htracks (hfit line hl) hb
      have honline : (dispatchCommand buf.toList).Always (Event.RunsOn line) := by
        rw [hbuf]
        exact (dispatchCommand_runsOn_iff (hfit line hl) (hreset line hl) _).mpr (hkey line hl)
      rw [heq]
      refine (Always.emit (.inl ⟨_, _, rfl⟩)).bind fun _ => ?_
      refine Always.bind ?_ fun _ => Always.pure _
      exact fun e he => .inr ⟨line, hcloses, honline e he⟩

end Closing

/-- The control variables and the buffer say in every stream of lines that fit how the
bytes since the last command end, and a stream without `avr://` has no effect. The
handlers run on text between `avr://` and the next line end exactly if no line ends
where a keyword does. -/
theorem parser_invariant_iff {bs : List Byte}
    (hfit : ∀ line ∈ commandFraming.started (.hunting 0) bs, line.length ≤ 1023)
    (hreset : ∀ line ∈ commandLines bs, ¬ resetCmd <+: line) :
    (∀ pre, pre <+: bs → ∃ es s, Runs processByte powerUp pre es s ∧
      Xor (Hunting s (sinceTerminator pre)) (Collecting s (sinceTerminator pre))) ∧
    (¬ ascii "avr://" <:+: bs →
      ∃ k, feed powerUp bs = pure { powerUp with commandPrefixIndex := k }) ∧
    (HandlersInside bs ↔ ∀ line ∈ commandLines bs, ¬ EndsAtKeyword line) := by
  have hshort : ∀ pre, pre <+: bs → ∀ line ∈ commandFraming.started (.hunting 0) pre, Short line :=
    fun pre hpre => short_of_started hpre hfit
  have hlines : ∀ line ∈ commandLines bs, Short line :=
    fun line hl => hshort bs (List.prefix_refl bs) line (mem_started_of_lines hl)
  refine ⟨?_, feed_of_no_magic, ?_⟩
  · intro pre hpre
    obtain ⟨s, hs⟩ := runs_of_lines
      (fun line hl => hshort pre hpre line (mem_started_of_lines hl))
      (fun line hl => hreset line (commandLines_mono hpre hl))
    refine ⟨_, s, hs, one_mode (runs_tracks hs) (runs_holds hs) ?_⟩
    intro line hm
    apply hshort pre hpre
    simp [Framing.started, hm, Framing.Mode.line?]
  · constructor
    · intro h line hl
      exact h.not_endsAtKeyword hlines hreset hl
    · exact handlersInside_of_lines hlines hreset

def twoCommands : List Byte := ascii "avr://lcd hello there\r\navr://power on 3\nav"

theorem parser_invariant_two_commands :
    (∃ es s, Runs processByte powerUp twoCommands es s ∧
      Xor (Hunting s (ascii "av")) (Collecting s (ascii "av"))) ∧ HandlersInside twoCommands := by
  have hstarted : commandFraming.started (.hunting 0) twoCommands =
      [ascii "lcd hello there", ascii "power on 3"] := by
    decide +kernel
  have hlines : commandLines twoCommands = [ascii "lcd hello there", ascii "power on 3"] := by
    decide +kernel
  have hrecent : sinceTerminator twoCommands = ascii "av" := by decide +kernel
  obtain ⟨hmode, -, hinside⟩ := @parser_invariant_iff twoCommands
    (by rw [hstarted]; decide) (by rw [hlines]; decide)
  rw [← hrecent]
  exact ⟨hmode _ (List.prefix_refl _), hinside.mpr (by rw [hlines]; decide)⟩

/-- After the line `123456on 1`, the line feed behind `power` makes the handler carry out
what it finds behind the line. -/
theorem power_runs_on_stale_bytes :
    (∀ line ∈ commandFraming.started (.hunting 0) (ascii "avr://123456on 1\navr://power\n"),
      line.length ≤ 1023) ∧
    (∀ line ∈ commandLines (ascii "avr://123456on 1\navr://power\n"), ¬ resetCmd <+: line) ∧
    (∃ es s, Runs processByte powerUp (ascii "avr://123456on 1\navr://power") es s ∧
      .argument 6 (some (ascii "on 1")) ∈ (processByte s 0x0a#8).events ∧
      .carryOut true true 7 1 ∈ (processByte s 0x0a#8).events) ∧
    ¬ HandlersInside (ascii "avr://123456on 1\navr://power\n") := by
  have hstarted : commandFraming.started (.hunting 0) (ascii "avr://123456on 1\navr://power\n") =
      [ascii "123456on 1", ascii "power"] := by
    decide +kernel
  have hlines : commandLines (ascii "avr://123456on 1\navr://power\n") =
      [ascii "123456on 1", ascii "power"] := by
    decide +kernel
  obtain ⟨s, hs, hevents⟩ := runs_of_ret? processByte powerUp
    (ascii "avr://123456on 1\navr://power")
    (fun s => decide (.argument 6 (some (ascii "on 1")) ∈ (processByte s 0x0a#8).events ∧
      .carryOut true true 7 1 ∈ (processByte s 0x0a#8).events)) (v := true) (by decide +kernel)
  refine ⟨by rw [hstarted]; decide, by rw [hlines]; decide, ⟨_, s, hs, of_decide_eq_true hevents⟩, ?_⟩
  intro hinside
  have hkey : ¬ EndsAtKeyword (ascii "power") := hinside.not_endsAtKeyword
    (by rw [hlines]; decide) (by rw [hlines]; decide) (by rw [hlines]; decide)
  exact hkey (by decide)

end BowerBird.Comms
