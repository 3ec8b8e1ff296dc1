import BowerBird.PowerSteps
import BowerBird.CommsReplies

/-!
# When the main loop comes round

A report waits for the USB host, however long that takes. Without a host the main
loop comes round after a byte exactly if the byte completes no line, or a line
that fits and is carried out in silence.
-/

namespace BowerBird.Power

open Firmware Firmware.CString Firmware.Exec
set_option autoImplicit false

def answersUpTo (ready : Nat → Bool) (n : Nat) : List Bool := (List.range n).map ready

def iteration (b : Board) (env : Env) : Exec Event Board := do
  let b ← mainLoop b env
  let b ← mainLoop b env
  mainLoop b env

/-- The main loop comes round after some number of these answers. -/
def ComesRound (b : Board) (rx : Option Byte) (usartTxReady : Bool) (ready : Nat → Bool) : Prop :=
  ∃ n t, (iteration b ⟨rx, usartTxReady, answersUpTo ready n⟩).outcome = .ret t ∧
    t.next = .usbInput

/-- `CommandBuffer` once the open line has its terminator. -/
def terminated (s : Comms.State) : List Byte :=
  s.commandBuffer.toList.take s.commandBufferIndex ++
    0#8 :: s.commandBuffer.toList.drop (s.commandBufferIndex + 1)

/-- The byte ends no line, or one that fits and is carried out in silence. -/
def Silent (s : Comms.State) (c : Byte) : Prop :=
  s.inCommand = true → Comms.isLineEnd c = true →
    s.commandBufferIndex < Comms.maxLineLength ∧ Comms.Quiet (terminated s)

theorem usbInput_block {b : Board} (hnext : b.next = .usbInput) (env : Env) :
    ∃ es t, mainLoop b env = ⟨es, .ret t⟩ ∧ t.next = .usartOutput ∧ t.comms = b.comms ∧
      t.beagleInFIFO = b.beagleInFIFO := by
  simp only [mainLoop, hnext]
  cases env.rx with
  | none => exact ⟨_, _, rfl, rfl, rfl, rfl⟩
  | some c => exact ⟨_, _, rfl, rfl, rfl, rfl⟩

theorem usartOutput_block {b : Board} (hnext : b.next = .usartOutput) (env : Env) :
    ∃ es t, mainLoop b env = ⟨es, .ret t⟩ ∧ t.next = .beagleInput ∧ t.comms = b.comms ∧
      t.beagleInFIFO = b.beagleInFIFO := by
  simp only [mainLoop, hnext]
  cases b.beagleOutFIFO.pull? with
  | none => exact ⟨_, _, rfl, rfl, rfl, rfl⟩
  | some p =>
    cases env.usartTxReady with
    | false => exact ⟨_, _, rfl, rfl, rfl, rfl⟩
    | true => exact ⟨_, _, rfl, rfl, rfl, rfl⟩

theorem beagleInput_block {b : Board} {c : Byte} {q : Fifo fifoBufferSize Byte}
    (hnext : b.next = .beagleInput) (hc : b.beagleInFIFO.pull? = some (c, q)) (env : Env) :
    (∃ t, (mainLoop b env).outcome = .ret t ∧ t.next = .usbInput) ↔
      ∃ s, (handleByte b.comms c env.cdcTxReady).outcome = .ret s := by
  simp only [mainLoop, hnext, hc]
  rcases handleByte b.comms c env.cdcTxReady with ⟨es, s | _ | _⟩ <;> simp

theorem comesRound_iff {b : Board} {c : Byte} {rest : List Byte} (hnext : b.next = .usbInput)
    (hc : b.beagleInFIFO.contents = c :: rest) (rx : Option Byte) (usartTxReady : Bool)
    (ready : Nat → Bool) :
    ComesRound b rx usartTxReady ready ↔
      ∃ n s, (handleByte b.comms c (answersUpTo ready n)).outcome = .ret s := by
  obtain ⟨q, hq⟩ := Fifo.pull?_of_contents hc
  refine exists_congr fun n => ?_
  obtain ⟨es₁, b₁, h₁, hnext₁, hcomms₁, hfifo₁⟩ :=
    usbInput_block hnext ⟨rx, usartTxReady, answersUpTo ready n⟩
  obtain ⟨es₂, b₂, h₂, hnext₂, hcomms₂, hfifo₂⟩ :=
    usartOutput_block hnext₁ ⟨rx, usartTxReady, answersUpTo ready n⟩
  have hq₂ : b₂.beagleInFIFO.pull? = some (c, q) := by rw [hfifo₂, hfifo₁, hq]
  have hthird := beagleInput_block hnext₂ hq₂ ⟨rx, usartTxReady, answersUpTo ready n⟩
  rw [hcomms₂, hcomms₁] at hthird
  rw [← hthird, iteration, h₁, ret_bind, h₂, ret_bind]

theorem terminated_eq {s : Comms.State} {line : List Byte} (h : Comms.Tracks s (.reading line))
    (hfit : Comms.Short line) :
    terminated s = line ++ 0#8 :: s.commandBuffer.toList.drop (line.length + 1) := by
  obtain ⟨hidx, htake⟩ := Comms.tracks_reading h hfit
  rw [terminated, hidx, htake]

theorem printed_ne_nil {d : Comms.Call} (hformatted : (Comms.Event.call d).Formatted)
    (h : (Comms.Event.call d).Replies) : printed d ≠ [] := by
  cases d with
  | writeStringToUSB format args =>
    obtain ⟨c, cs, rfl, hpercent, hnul⟩ := h
    obtain ⟨out, hout⟩ := Option.isSome_iff_exists.mp
      (Printf.vsnprintf_isSome (n := Comms.maxLineLength) hformatted)
    obtain ⟨u, rfl⟩ := Printf.vsnprintf_head (by decide) hpercent hout
    simp [printed, hout, hnul]
  | _ => exact absurd h id

theorem not_replies_of_report {s : Comms.State} {c : Byte} (h : report s c = []) :
    ∀ e ∈ (Comms.processByte s c).events, ¬ e.Replies := by
  intro e he hreplies
  cases e with
  | call d =>
    have hd : d ∈ callsOf s c := List.mem_filterMap.mpr ⟨_, he, rfl⟩
    exact printed_ne_nil (Comms.processByte_formatted s c _ he) hreplies
      (List.flatMap_eq_nil_iff.mp h d hd)
  | _ => exact hreplies

theorem silent_of_report {s t : Comms.State} {c : Byte} (hs : Comms.Reachable s)
    (hret : (Comms.processByte s c).outcome = .ret t) (h : report s c = []) : Silent s c := by
  intro hin hend
  rcases hs.byte_cases c with ⟨line, hline, -⟩ | ⟨hno, -⟩
  swap
  · exact absurd ⟨hin, hend⟩ hno
  by_cases hfit : Comms.Short line
  · obtain ⟨hidx, -⟩ := Comms.tracks_reading hline hfit
    refine ⟨hidx ▸ hfit, ?_⟩
    by_contra hquiet
    obtain ⟨buf, hbuf, hnul, heq⟩ := Comms.processByte_lineEnd hline hfit hend
    rw [terminated_eq hline hfit, ← hbuf] at hquiet
    have hreplies : (Comms.processByte s c).Inevitably Comms.Event.Replies := by
      rw [heq]
      exact Inevitably.bind_right fun _ =>
        (Comms.dispatchCommand_replies hnul.start (.of_last hnul) hquiet).bind_left
    obtain ⟨e, he, hreply⟩ := hreplies t hret
    exact not_replies_of_report h e he hreply
  · rw [Comms.processByte_overlong hline hfit hend] at hret
    cases hret

/-- The silent bytes are those that the parser comes back from without a report. -/
theorem silent_iff {s : Comms.State} (hs : Comms.Reachable s) (c : Byte) :
    Silent s c ↔ (∃ t, (Comms.processByte s c).outcome = .ret t) ∧ report s c = [] := by
  constructor
  · intro h
    unfold report callsOf
    rcases hs.byte_cases c with ⟨line, hline, hend⟩ | ⟨-, t, es, ht, -, hcalls⟩
    · obtain ⟨hidx, hquiet⟩ := h hline.1 hend
      have hfit := Comms.short_of_tracks hline hidx
      obtain ⟨buf, hbuf, hnul, heq⟩ := Comms.processByte_lineEnd hline hfit hend
      rw [terminated_eq hline hfit, ← hbuf] at hquiet
      obtain ⟨call, hcall, hdispatch⟩ :=
        Comms.dispatchCommand_quiet hnul.start (.of_last hnul) hquiet
      rw [heq, hdispatch]
      refine ⟨⟨_, rfl⟩, ?_⟩
      rcases hcall with rfl | rfl <;> rfl
    · rw [ht, hcalls]
      exact ⟨⟨t, rfl⟩, rfl⟩
  · rintro ⟨⟨t, ht⟩, hnone⟩
    exact silent_of_report hs ht hnone

theorem report_of_no_host {s t : Comms.State} {c : Byte} {n : Nat}
    (hret : (handleByte s c (answersUpTo (fun _ => false) n)).outcome = .ret t) :
    (Comms.processByte s c).outcome = .ret t ∧ report s c = [] := by
  obtain ⟨ht, hle, -⟩ := handleByte_ret_iff.mp hret
  have hcount : (answersUpTo (fun _ => false) n).count true = 0 :=
    List.count_eq_zero.mpr (by simp [answersUpTo])
  rw [hcount] at hle
  exact ⟨ht, List.eq_nil_of_length_eq_zero (Nat.le_zero.mp hle)⟩

/-- The main loop comes round after a byte whatever the host does, exactly if the
byte is silent. -/
theorem comesRound_always_iff {b : Board} {c : Byte} {rest : List Byte}
    (hs : Comms.Reachable b.comms) (hnext : b.next = .usbInput)
    (hc : b.beagleInFIFO.contents = c :: rest) (rx : Option Byte) (usartTxReady : Bool) :
    (∀ ready, ComesRound b rx usartTxReady ready) ↔ Silent b.comms c := by
  simp only [comesRound_iff hnext hc]
  rw [silent_iff hs]
  constructor
  · intro h
    obtain ⟨n, s, hret⟩ := h fun _ => false
    obtain ⟨ht, hnone⟩ := report_of_no_host hret
    exact ⟨⟨s, ht⟩, hnone⟩
  · rintro ⟨⟨t, ht⟩, hnone⟩ ready
    refine ⟨1, t, handleByte_ret_iff.mpr ⟨ht, by simp [hnone], ?_⟩⟩
    simp [hnone, afterReady, answersUpTo]

def boardWith (s : Comms.State) (c : Byte) : Board :=
  { powerUp with beagleInFIFO := Fifo.empty.push c, comms := s }

theorem comesRound_after_watchdog_enable :
    ∃ s, (Comms.feed Comms.powerUp (ascii "avr://watchdog enable")).outcome = .ret s ∧
      ComesRound (boardWith s 0x0a#8) none false fun _ => false := by
  obtain ⟨s, hs⟩ : ∃ s, (Comms.feed Comms.powerUp (ascii "avr://watchdog enable")).outcome = .ret s :=
    ⟨_, rfl⟩
  have hline : Comms.Tracks s (.reading (ascii "watchdog enable")) :=
    Comms.feed_ret_tracks Comms.powerUp_tracks hs
  have hsilent : Silent s 0x0a#8 := by
    intro _ _
    obtain ⟨hidx, -⟩ := Comms.tracks_reading hline (by decide)
    rw [hidx, terminated_eq hline (by decide)]
    exact ⟨by decide, ⟨_, rfl⟩, .inl ⟨_, rfl⟩⟩
  have hround := (comesRound_always_iff (b := boardWith s 0x0a#8) ⟨_, hs⟩ rfl rfl none false).mpr
    hsilent
  exact ⟨s, hs, hround _⟩

/-- After `avr://x` and a line end, with no host attached, the main loop waits for ever. -/
theorem unknown_command_blocks :
    ∃ s, (Comms.feed Comms.powerUp (ascii "avr://x")).outcome = .ret s ∧
      ¬ ComesRound (boardWith s 0x0a#8) none false (fun _ => false) := by
  obtain ⟨s, hs⟩ : ∃ s, (Comms.feed Comms.powerUp (ascii "avr://x")).outcome = .ret s := ⟨_, rfl⟩
  refine ⟨s, hs, fun hround => ?_⟩
  have hline : Comms.Tracks s (.reading (ascii "x")) :=
    Comms.feed_ret_tracks Comms.powerUp_tracks hs
  obtain ⟨n, t, hret⟩ := (comesRound_iff (b := boardWith s 0x0a#8) rfl rfl none false _).mp hround
  obtain ⟨ht, hnone⟩ := report_of_no_host hret
  obtain ⟨-, hwatchdog, -⟩ := silent_of_report ⟨_, hs⟩ ht hnone hline.1 rfl
  change Comms.watchdogCmd <+: terminated s at hwatchdog
  rw [terminated_eq hline (by decide)] at hwatchdog
  exact absurd (List.cons_prefix_cons.mp hwatchdog).1 (by decide)

end BowerBird.Power
