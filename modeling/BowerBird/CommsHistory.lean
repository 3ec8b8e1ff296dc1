import BowerBird.CommsKeywords

/-!
# What a command line means

The calls a line causes are a function of the line alone, unless the line ends
where a keyword does: then the handler reads what an earlier line left behind
the terminator, and the calls depend on the history.
-/

namespace BowerBird.Comms

open Firmware Firmware.CString Firmware.Exec
set_option autoImplicit false

def command (line : List Byte) : List Byte := ascii "avr://" ++ line ++ ascii "\n"

def calls (x : Exec Event State) : List Call := seen Event.call? x

theorem feed_prefix {s : State} (h : Tracks s (.hunting 0)) :
    ∃ s', feed s (ascii "avr://") = pure s' ∧ Tracks s' (.reading []) ∧
      s'.commandBuffer = s.commandBuffer := by
  obtain ⟨hin, hpre, -, hidx, hnul⟩ := h
  obtain ⟨buf, idx, pre, inCommand⟩ := s
  simp only at hin hpre hidx hnul
  subst hin hpre hidx
  exact ⟨⟨buf, 0, 0, true⟩, rfl, ⟨rfl, rfl, rfl, rfl, fun _ => hnul⟩, rfl⟩

theorem feed_data {bs : List Byte} (hbs : ∀ b ∈ bs, isLineEnd b = false) {s : State}
    {line : List Byte} (h : Tracks s (.reading line)) (hfit : Short (line ++ bs)) :
    ∃ s' es, feed s bs = ⟨es, .ret s'⟩ ∧ Tracks s' (.reading (line ++ bs)) ∧
      es.filterMap Event.call? = [] ∧
      s'.commandBuffer.toList.drop (line ++ bs).length =
        s.commandBuffer.toList.drop (line ++ bs).length := by
  induction bs generalizing s line with
  | nil => exact ⟨s, [], rfl, by simpa using h, rfl, rfl⟩
  | cons b bs ih =>
    have hassoc : line ++ b :: bs = line ++ [b] ++ bs := by simp
    have hline : Short line := by
      rw [Short, List.length_append] at hfit
      exact Nat.lt_of_le_of_lt (Nat.le_add_right _ _) hfit
    rw [hassoc] at hfit ⊢
    obtain ⟨t, es, heq, ht, -, hcalls, hbuf⟩ := processByte_data h (hbs b List.mem_cons_self)
    obtain ⟨s', fs, hfeed, hs', hcalls', hbuf'⟩ :=
      ih (fun c hc => hbs c (List.mem_cons_of_mem b hc)) ht hfit
    refine ⟨s', es ++ fs, ?_, hs', ?_, ?_⟩
    · simp only [feed] at hfeed
      simp only [feed, feed_cons, heq, ret_bind, hfeed]
    · rw [List.filterMap_append, hcalls, hcalls']
      rfl
    · have hdrop : (line ++ [b] ++ bs).length = line.length + 1 + bs.length := by
        simp only [List.length_append, List.length_singleton]
      have hrest := congrArg (List.drop bs.length) (hbuf hline)
      simp only [List.drop_drop] at hrest
      rw [hbuf', hdrop, hrest]

theorem feed_line {s : State} (h : Tracks s (.hunting 0)) {line : List Byte} (hfit : Short line)
    (hline : ∀ b ∈ line, isLineEnd b = false) :
    ∃ t es, feed s (ascii "avr://" ++ line) = ⟨es, .ret t⟩ ∧ Tracks t (.reading line) ∧
      es.filterMap Event.call? = [] ∧ t.commandBuffer.toList.drop (line.length + 1) =
        s.commandBuffer.toList.drop (line.length + 1) := by
  obtain ⟨s₁, hfeed₁, h₁, hbuf₁⟩ := feed_prefix h
  obtain ⟨s₂, es, hfeed₂, h₂, hcalls, hbuf₂⟩ := feed_data hline h₁ hfit
  rw [List.nil_append] at hbuf₂
  simp only [feed] at hfeed₁ hfeed₂
  refine ⟨s₂, es, ?_, h₂, hcalls, ?_⟩
  · rw [feed, feed_append, hfeed₁, pure_bind, hfeed₂]
  · rw [← List.drop_drop, hbuf₂, List.drop_drop, hbuf₁]

theorem feed_command_eq {s t : State} {line : List Byte} {es : List Event}
    (h : feed s (ascii "avr://" ++ line) = ⟨es, .ret t⟩) :
    feed s (command line) =
      ⟨es ++ (processByte t 0x0a#8).events, (processByte t 0x0a#8).outcome⟩ := by
  simp only [feed] at h
  rw [feed, command, feed_append, h, ret_bind]
  simp [ascii, Exec.feed]

theorem feed_command {s : State} (h : Tracks s (.hunting 0)) {line : List Byte}
    (hfit : Short line) (hline : ∀ b ∈ line, isLineEnd b = false) :
    ∃ mem, mem = line ++ 0#8 :: s.commandBuffer.toList.drop (line.length + 1) ∧ Nul mem 1023 ∧
      calls (feed s (command line)) = (dispatchCommand mem).events.filterMap Event.call? ∧
      ((dispatchCommand mem).outcome = .ret ⟨⟩ → ∃ s', (feed s (command line)).outcome = .ret s' ∧
        Idle s' ∧ s'.commandBuffer.toList = mem) := by
  obtain ⟨s₂, es, hfeed, h₂, hcalls, hrest⟩ := feed_line h hfit hline
  obtain ⟨buf, hbuf, hnul, hend⟩ := processByte_lineEnd h₂ hfit (b := 0x0a#8) rfl
  refine ⟨buf.toList, by rw [hbuf, hrest], hnul, ?_, ?_⟩
  · rw [calls, seen, feed_command_eq hfeed, hend]
    obtain ⟨fs, _ | _ | _⟩ := dispatchCommand buf.toList <;>
      simp [hcalls, pure_def, List.filterMap_cons, Event.call?]
  · intro hret
    refine ⟨{ s₂ with commandBuffer := buf, commandBufferIndex := 0, inCommand := false }, ?_,
      ⟨rfl, h₂.2.1⟩, rfl⟩
    have hx : dispatchCommand buf.toList = ⟨(dispatchCommand buf.toList).events, .ret ⟨⟩⟩ := by
      rw [← hret]
    rw [feed_command_eq hfeed, hend, hx]
    rfl

theorem lineEnd_of_ne {line : List Byte} (h : ∀ b ∈ line, b ≠ 0x0a#8 ∧ b ≠ 0x0d#8) :
    ∀ b ∈ line, isLineEnd b = false := by
  intro b hb
  simpa [isLineEnd] using h b hb

theorem first_line_stays (line : List Byte) (hfit : Short line)
    (hline : ∀ b ∈ line, isLineEnd b = false) (hreset : ¬ resetCmd <+: line) :
    ∃ t rest, (feed powerUp (command line)).outcome = .ret t ∧ Idle t ∧
      t.commandBuffer.toList = line ++ 0#8 :: rest := by
  obtain ⟨mem, hmem, hnul, -, hret⟩ := feed_command powerUp_tracks hfit hline
  have hlen : mem.length ≤ maxLineLength := by
    have hshort : line.length < maxLineLength := hfit
    rw [hmem, powerUp, Vector.toList_replicate, List.length_append, List.length_cons,
      List.length_drop, List.length_replicate]
    omega
  have hreset' : ¬ resetCmd <+: mem := by rwa [hmem, prefix_of_prefix_line]
  obtain ⟨es, -, hx⟩ := dispatchCommand_returns hlen hnul.start (.of_last hnul) hreset'
  obtain ⟨t, ht, hidle, hbuf⟩ := hret (by rw [hx])
  exact ⟨t, _, ht, hidle, hbuf.trans hmem⟩

theorem calls_powerUp {line : List Byte} (hroom : line.length ≤ 1022)
    (hline : ∀ b ∈ line, isLineEnd b = false)
    (hdef : (dispatchCommand (line ++ [0#8, 0#8])).outcome ≠ .fault) :
    calls (feed powerUp (command line)) =
      (dispatchCommand (line ++ [0#8, 0#8])).events.filterMap Event.call? := by
  obtain ⟨mem, hmem, -, hcalls, -⟩ :=
    feed_command powerUp_tracks (short_iff.mpr (by omega)) hline
  have hzero : maxLineLength - (line.length + 1) = (1022 - line.length) + 1 := by
    unfold maxLineLength
    omega
  have hsplit : mem = (line ++ [0#8, 0#8]) ++ List.replicate (1022 - line.length) 0#8 := by
    rw [hmem, powerUp, Vector.toList_replicate, List.drop_replicate, hzero, List.replicate_succ,
      List.append_assoc]
    rfl
  rw [hcalls, calls_of_start hsplit hdef]

theorem calls_after_line (first line : List Byte) (hfit : Short first)
    (hends : ∀ b ∈ first ++ line, isLineEnd b = false) (hreset : ¬ resetCmd <+: first)
    (hlonger : line.length + 1 ≤ first.length)
    (hdef : (dispatchCommand
      (line ++ 0#8 :: (first.drop (line.length + 1) ++ [0#8]))).outcome ≠ .fault) :
    ∃ t, (feed powerUp (command first)).outcome = .ret t ∧ Idle t ∧
      calls (feed t (command line)) = (dispatchCommand
        (line ++ 0#8 :: (first.drop (line.length + 1) ++ [0#8]))).events.filterMap Event.call? := by
  obtain ⟨t, rest, ht, hidle, hbuf⟩ :=
    first_line_stays first hfit (fun b hb => hends b (List.mem_append_left _ hb)) hreset
  have hshort : Short line := by
    unfold Short at hfit ⊢
    omega
  obtain ⟨mem, hmem, -, hcalls, -⟩ := feed_command (Reachable.tracks_idle ⟨_, ht⟩ hidle) hshort
    fun b hb => hends b (List.mem_append_right _ hb)
  have hsplit : mem = (line ++ 0#8 :: (first.drop (line.length + 1) ++ [0#8])) ++ rest := by
    rw [hmem, hbuf, List.drop_append_of_le_length hlonger]
    simp
  exact ⟨t, ht, hidle, by rw [hcalls, calls_of_start hsplit hdef]⟩

def digitsLine : List Byte := List.replicate 40 0x31#8

theorem reports_differ {on : List Byte} {device name : List Byte} {w w' : BitVec 32}
    {x y : List Call}
    (hx : x.head? = some (.writeStringToUSB
      (ascii "\r\nGot request to turn %s unknown device: '%s'\r\n") [.str on, .str device]))
    (hy : y.head? = some (.writeStringToUSB
      (ascii "\r\nAVR Power System: Turned %s %s[%d] sw%d\r\n")
      [.str on, .str name, .word w, .word w'])) : x ≠ y := by
  rintro rfl
  rw [hx, Option.some.injEq, Call.writeStringToUSB.injEq] at hy
  exact absurd hy.1 (by decide)

/-- Behind a line that ends at a keyword, zeros and digits have different answers. -/
theorem answers_differ {line : List Byte} (h : EndsAtKeyword line) :
    (dispatchCommand (line ++ [0#8, 0#8])).outcome ≠ .fault ∧
    (dispatchCommand
      (line ++ 0#8 :: (digitsLine.drop (line.length + 1) ++ [0#8]))).outcome ≠ .fault ∧
    (dispatchCommand (line ++ [0#8, 0#8])).events.filterMap Event.call? ≠
      (dispatchCommand (line ++ 0#8 :: (digitsLine.drop (line.length + 1) ++ [0#8]))).events.filterMap
        Event.call? := by
  rcases h with h | ⟨c, rfl | rfl⟩
  · revert line
    decide
  -- the byte between the two keywords is never looked at, so both sides evaluate
  · exact ⟨by rintro ⟨⟩, by rintro ⟨⟩, reports_differ rfl rfl⟩
  · exact ⟨by rintro ⟨⟩, by rintro ⟨⟩, reports_differ rfl rfl⟩

theorem length_of_endsAtKeyword {line : List Byte} (h : EndsAtKeyword line) :
    line.length ≤ 28 := by
  rcases h with h | ⟨c, rfl | rfl⟩
  · revert line
    decide
  · rw [List.length_append, List.length_cons]
    decide
  · rw [List.length_append, List.length_cons]
    decide

/-- The calls of a command line are the same in every history if and only if the
line does not end where a keyword does. -/
theorem calls_independent_iff {line : List Byte} (hlen : line.length ≤ 1023)
    (hline : ∀ b ∈ line, b ≠ 0x0a#8 ∧ b ≠ 0x0d#8) :
    (∀ s t, Reachable s → Reachable t → Idle s → Idle t →
      calls (feed s (command line)) = calls (feed t (command line))) ↔ ¬ EndsAtKeyword line := by
  have hfit : Short line := short_iff.mpr hlen
  have hend := lineEnd_of_ne hline
  constructor
  · intro hsame hkey
    have hle := length_of_endsAtKeyword hkey
    obtain ⟨hzeros, hdigits, hne⟩ := answers_differ hkey
    have hdigit : ∀ b ∈ digitsLine ++ line, isLineEnd b = false := by
      intro b hb
      rcases List.mem_append.mp hb with hb | hb
      · rw [List.eq_of_mem_replicate hb]
        rfl
      · exact hend b hb
    have hlonger : line.length + 1 ≤ digitsLine.length := by
      rw [digitsLine, List.length_replicate]
      omega
    obtain ⟨t, ht, hidle, hcalls⟩ :=
      calls_after_line digitsLine line (by decide) hdigit (by decide) hlonger hdigits
    apply hne
    rw [← calls_powerUp (by omega) hend hzeros, ← hcalls]
    exact hsame _ _ ⟨[], rfl⟩ ⟨_, ht⟩ ⟨rfl, rfl⟩ hidle
  · intro hkey s t hs ht hidle hidle'
    obtain ⟨mem, hmem, -, hcalls, -⟩ := feed_command (hs.tracks_idle hidle) hfit hend
    obtain ⟨mem', hmem', -, hcalls', -⟩ := feed_command (ht.tracks_idle hidle') hfit hend
    have hdef := dispatchCommand_line_defined hfit hkey
    rw [List.append_cons] at hmem hmem'
    rw [hcalls, hcalls', calls_of_start hmem hdef, calls_of_start hmem' hdef]

theorem calls_independent_power_on :
    ∃ t, (feed powerUp (command (ascii "123456on 1"))).outcome = .ret t ∧ Idle t ∧
      calls (feed powerUp (command (ascii "power on 1"))) =
        calls (feed t (command (ascii "power on 1"))) := by
  obtain ⟨t, rest, ht, hidle, -⟩ :=
    first_line_stays (ascii "123456on 1") (by decide) (by decide) (by decide)
  have hkey : ¬ EndsAtKeyword (ascii "power on 1") := by decide
  exact ⟨t, ht, hidle, (calls_independent_iff (by decide) (by decide)).mpr hkey
    powerUp t ⟨[], rfl⟩ ⟨_, ht⟩ ⟨rfl, rfl⟩ hidle⟩

/-- After the line `123456on 1`, the bare keyword `power` turns pin 7 on. -/
theorem power_alone_reads_stale_bytes :
    ∃ t, (feed powerUp (command (ascii "123456on 1"))).outcome = .ret t ∧ Idle t ∧
      calls (feed powerUp (command (ascii "power"))) ≠ calls (feed t (command (ascii "power"))) ∧
      Call.writeStringToUSB (ascii "\r\nAVR Power System: Turned %s %s[%d] sw%d\r\n")
        [.str (ascii "on"), .str (ascii "pin"), .word 7, .word 1] ∈
          calls (feed t (command (ascii "power"))) := by
  obtain ⟨t, ht, hidle, hcalls⟩ := calls_after_line (ascii "123456on 1") (ascii "power")
    (by decide) (by decide) (by decide) (by decide) (by decide)
  refine ⟨t, ht, hidle, ?_, ?_⟩
  · rw [calls_powerUp (by decide) (by decide) (by decide), hcalls]
    decide
  · rw [hcalls]
    decide

end BowerBird.Comms
