import BowerBird.PowerBacklog
import BowerBird.PowerErrors

/-!
# The board as a bridge

With a clean line, queues that are served fast enough and a host that takes what it is
sent, the board joins the Beagle's console and the host. Bytes pass in both directions,
in order. The console passes the command interpreter, which writes its reports before
the line ends that they answer.
-/

namespace BowerBird.Power

open Firmware Firmware.CString Firmware.Exec
set_option autoImplicit false

variable {b t : Board} {i : Input} {is : List Input} {es fs : List Event}

/-- What becomes of a console stream on its way: each byte follows the reports of the line
that it closes. -/
def bridged : Framing.Mode Byte → List Byte → List Byte
  | _, [] => []
  | m, c :: bs =>
    ((Comms.commandFraming.step m c).2.map Comms.meaning).flatMap requestReport ++
      c :: bridged (Comms.commandFraming.step m c).1 bs

theorem bridged_append (m : Framing.Mode Byte) (bs cs : List Byte) :
    bridged m (bs ++ cs) = bridged m bs ++ bridged (Comms.commandFraming.run m bs) cs := by
  induction bs generalizing m with
  | nil => rfl
  | cons c bs ih => simp only [List.cons_append, bridged, Framing.run, ih, List.append_assoc]

/-- `udi_cdc_is_tx_ready` is true whenever it is asked. -/
def Input.HostReady : Input → Prop
  | .mainLoop env => ∀ a ∈ env.cdcTxReady, a = true
  | _ => True

instance : DecidablePred Input.HostReady
  | .mainLoop env => inferInstanceAs (Decidable (∀ a ∈ env.cdcTxReady, a = true))
  | .receive _ => inferInstanceAs (Decidable True)
  | .interrupt => inferInstanceAs (Decidable True)
  | .handlerRead => inferInstanceAs (Decidable True)

theorem handleByte_ready {s u : Comms.State} {c : Byte} {answers : List Bool}
    (h : (handleByte s c answers).outcome = .ret u) (hready : ∀ a ∈ answers, a = true) :
    (Comms.processByte s c).outcome = .ret u ∧
      putBytes (handleByte s c answers).events = report s c ++ [c] := by
  obtain ⟨echoed, hechoed, hu, hput⟩ := handleByte_ret_puts h
  obtain rfl := hready echoed hechoed
  exact ⟨hu, hput⟩

theorem Turn.of_handed (h : Turn b fs t) (hnone : handed fs = []) :
    t.comms = b.comms ∧ (t.next = .waiting ↔ b.next = .waiting) ∧ putBytes fs = [] := by
  cases h with
  | aside hcomms hwaiting _ hput => exact ⟨hcomms, hwaiting, hput⟩
  | handled =>
    rw [handleByte_handed] at hnone
    cases hnone
  | stuck =>
    rw [handleByte_handed] at hnone
    cases hnone

/-- A step sends a ready host nothing, or the report and the echo of a byte that it handles. -/
theorem step_mirrors (h : step b i = ⟨fs, .ret t⟩) (hready : i.HostReady)
    (hnext : t.next ≠ .waiting) :
    b.next ≠ .waiting ∧ ((t.comms = b.comms ∧ handed fs = [] ∧ putBytes fs = []) ∨
      ∃ c, (Comms.processByte b.comms c).outcome = .ret t.comms ∧ handed fs = [c] ∧
        putBytes fs = report b.comms c ++ [c]) := by
  by_cases hnone : handed fs = []
  · obtain ⟨hcomms, hwaiting, hput⟩ := (step_turns h).of_handed hnone
    exact ⟨mt hwaiting.mpr hnext, .inl ⟨hcomms, hnone, hput⟩⟩
  · cases step_moves h with
    | @handled env c q es s n hin hblock hc hes =>
      refine ⟨by simp [hblock], .inr ⟨c, ?_⟩⟩
      have hhanded := handleByte_handed b.comms c env.cdcTxReady
      have hmirror := fun u hu => @handleByte_ready b.comms u c env.cdcTxReady hu hready
      rw [step_mainLoop hin] at h
      rcases hhandle : handleByte b.comms c env.cdcTxReady with ⟨gs, u | _ | _⟩ <;>
        simp only [mainLoop, hblock, hc, hhandle] at h hhanded hmirror <;> cases h
      · obtain ⟨hu, hput⟩ := hmirror s rfl
        exact ⟨hu, hhanded, hput⟩
      · exact absurd rfl hnext
    | _ => exact absurd rfl hnone

/-- The host has been sent the console stream of the bytes that the parser has taken. -/
def Mirrors (es : List Event) (b : Board) : Prop :=
  (∃ gs, Runs Comms.processByte Comms.powerUp (handed es) gs b.comms) ∧
    putBytes es = bridged (.hunting 0) (handed es)

theorem Mirrors.byte {c : Byte} (h : Mirrors es b)
    (hc : (Comms.processByte b.comms c).outcome = .ret t.comms) (hhanded : handed fs = [c])
    (hput : putBytes fs = report b.comms c ++ [c])
    (hread : ∀ line ∈ Comms.commandLines (handed es ++ [c]), Comms.Readable line) :
    Mirrors (es ++ fs) t := by
  obtain ⟨⟨gs, hgs⟩, hes⟩ := h
  have hstep : Comms.processByte b.comms c = ⟨(Comms.processByte b.comms c).events, .ret t.comms⟩ := by
    rw [← hc]
  have hclosed : ∀ line ∈ (Comms.commandFraming.step
      (Comms.commandFraming.run (.hunting 0) (handed es)) c).2, Comms.Readable line := by
    intro line hline
    apply hread
    rw [Comms.commandLines_concat]
    exact List.mem_append_right _ hline
  constructor
  · rw [handed_append, hhanded]
    exact ⟨_, hgs.concat hstep⟩
  · rw [handed_append, putBytes_append, hhanded, hput, hes, bridged_append,
      report_of_readable (Comms.runs_tracks hgs) hclosed]
    rfl

theorem runs_mirror (h : Runs step powerUp is es b) (hready : ∀ i ∈ is, i.HostReady)
    (hnext : b.next ≠ .waiting)
    (hread : ∀ line ∈ Comms.commandLines (handed es), Comms.Readable line) : Mirrors es b := by
  induction is using List.reverseRecOn generalizing es b with
  | nil =>
    obtain ⟨rfl, rfl⟩ := runs_nil.mp h
    exact ⟨⟨[], .refl _⟩, rfl⟩
  | append_singleton is i ih =>
    obtain ⟨es, s, fs, hrun, hstep, rfl⟩ := runs_concat.mp h
    have hi := hready i (List.mem_append_right _ (List.mem_singleton_self i))
    obtain ⟨hbefore, hcase⟩ := step_mirrors hstep hi hnext
    have hs : Mirrors es s := by
      apply ih hrun (fun j hj => hready j (List.mem_append_left _ hj)) hbefore
      intro line hline
      apply hread
      rw [handed_append]
      exact Comms.commandLines_mono (List.prefix_append _ _) hline
    rcases hcase with ⟨hcomms, hhanded, hput⟩ | ⟨c, hc, hhanded, hput⟩
    · obtain ⟨⟨gs, hgs⟩, hes⟩ := hs
      refine ⟨⟨gs, ?_⟩, ?_⟩
      · rw [handed_append, hhanded, List.append_nil, hcomms]
        exact hgs
      · rw [handed_append, putBytes_append, hhanded, hput, List.append_nil, List.append_nil, hes]
    · rw [handed_append, hhanded] at hread
      exact hs.byte hc hhanded hput hread

theorem receivedBytes_append (es fs : List Event) :
    receivedBytes (es ++ fs) = receivedBytes es ++ receivedBytes fs := by
  rw [receivedBytes, List.filterMap_append, List.map_append]
  rfl

theorem not_overrun {c : Line} {full overrun : Bool}
    (h : (Event.received c full overrun).intact = true) : overrun = false := by
  cases c <;> cases overrun <;> first | rfl | cases h

theorem serialDemand_handlerRead (hin : b.inHandler = true) (herror : b.usart.error = false) :
    serialDemand b .handlerRead = b.usart.rhr.map .arrival := by
  cases hrhr : b.usart.rhr <;> simp [serialDemand, hin, usartReadChar, herror, hrhr]

theorem serialDemand_mainLoop (b : Board) (env : Env) :
    (serialDemand b (.mainLoop env)).bind Demand.arrival? = none := by
  simp only [serialDemand]
  split <;> rfl

theorem Move.receives (hmove : Move b i fs t) (herror : b.usart.error = false)
    (hintact : ∀ e ∈ fs, e.intact = true) :
    b.usart.rhr.toList ++ receivedBytes fs =
      ((serialDemand b i).bind Demand.arrival?).toList ++ t.usart.rhr.toList := by
  cases hmove with
  | receive c =>
    have hoverrun := not_overrun (hintact _ (List.mem_singleton_self _))
    have hrhr : b.usart.rhr = none := by simpa using hoverrun
    rw [hrhr]
    rfl
  | interrupt => exact List.append_nil _
  | taken hin _ hc =>
    rw [serialDemand_handlerRead hin herror, hc]
    rfl
  | left hin hend =>
    have hrhr : b.usart.rhr = none := by
      by_contra hne
      rw [hend (Option.isSome_iff_ne_none.mpr hne)] at herror
      cases herror
    rw [serialDemand_handlerRead hin herror, hrhr]
    rfl
  | outside hin => simp [serialDemand, hin, receivedBytes]
  | @handled env c q es s n hin hnext hc hes =>
    have hnone : receivedBytes es = [] := by
      rw [receivedBytes, filterMap_putc (fun _ => rfl) hes]
      rfl
    have hcons : receivedBytes (.processByte c :: es) = receivedBytes es := rfl
    rw [serialDemand_mainLoop, hcons, hnone, List.append_nil]
    rfl
  | _ =>
    rw [serialDemand_mainLoop]
    exact List.append_nil _

theorem runs_received (h : Runs step powerUp is es b) (hintact : ∀ e ∈ es, e.intact = true) :
    receivedBytes es = Pipe.arrived step serialDemand powerUp is ++ b.usart.rhr.toList := by
  induction is using List.reverseRecOn generalizing es b with
  | nil =>
    obtain ⟨rfl, rfl⟩ := runs_nil.mp h
    rfl
  | append_singleton is i ih =>
    obtain ⟨es, s, fs, hrun, hstep, rfl⟩ := runs_concat.mp h
    have hbefore : ∀ e ∈ es, e.intact = true := fun e he => hintact e (List.mem_append_left _ he)
    have hmove := (step_moves hstep).receives (no_error_of_intact hrun hbefore)
      fun e he => hintact e (List.mem_append_right _ he)
    rw [receivedBytes_append, Pipe.arrived_concat hrun, ih hrun hbefore, List.append_assoc, hmove,
      List.append_assoc]

/-- Under conditions on the line, on the rates and on the host alone, the board is a bridge
with a command interpreter, and holds back no more than its queues and the USART do. -/
theorem board_is_bridge (h : Runs step powerUp is es b) (hintact : ∀ e ∈ es, e.intact = true)
    (hready : ∀ i ∈ is, i.HostReady) (hnext : b.next ≠ .waiting)
    (hserial : Pipe.KeepsUp step serialDemand fifoBufferSize powerUp is)
    (hhost : Pipe.KeepsUp step hostDemand fifoBufferSize powerUp is)
    (hread : ∀ line ∈ Comms.commandLines (receivedBytes es), Comms.Readable line) :
    (∃ done, receivedBytes es = done ++ (b.beagleInFIFO.contents ++ b.usart.rhr.toList) ∧
      putBytes es = bridged (.hunting 0) done) ∧
    hostBytes es = beagleBytes es ++ b.beagleOutFIFO.contents := by
  have hreceived : receivedBytes es =
      handed es ++ (b.beagleInFIFO.contents ++ b.usart.rhr.toList) := by
    have hwhole : Pipe.arrived step serialDemand powerUp is =
        handed es ++ b.beagleInFIFO.contents :=
      (serialPipe.whole_iff_keepsUp rfl is).mpr hserial is (List.prefix_refl _) es b h
    rw [runs_received h hintact, hwhole, List.append_assoc]
  constructor
  · refine ⟨handed es, hreceived, ?_⟩
    have hmirror : Mirrors es b := by
      apply runs_mirror h hready hnext
      intro line hline
      apply hread
      rw [hreceived]
      exact Comms.commandLines_mono (List.prefix_append _ _) hline
    exact hmirror.2
  · rw [runs_hostBytes h]
    exact (hostPipe.whole_iff_keepsUp rfl is).mpr hhost is (List.prefix_refl _) es b h

def bothWays : List Input :=
  clearArrives ++
    [.mainLoop ⟨some 0x78#8, true, []⟩, .mainLoop ⟨none, true, []⟩, .mainLoop ⟨none, true, []⟩]

theorem board_is_bridge_clear :
    ∃ es b, Runs step powerUp bothWays es b ∧ b.beagleOutFIFO.contents = [] ∧
      putBytes es = ascii "avr://lcd clear\r\nCleared LCD screen\r\n\n" ∧
      putBytes es = bridged (.hunting 0) (ascii "avr://lcd clear\n") ∧
      hostBytes es = [0x78#8] ∧ hostBytes es = beagleBytes es := by
  obtain ⟨b, hb, hend⟩ := runs_of_ret? step powerUp bothWays
    (fun b => (b.next, b.beagleInFIFO.contents, b.usart.rhr, b.beagleOutFIFO.contents))
    (v := (.usbInput, [], none, [])) (by decide +kernel)
  simp only [Prod.mk.injEq] at hend
  obtain ⟨hnext, hfifo, hrhr, hout⟩ := hend
  have hreceived : receivedBytes (Exec.feed step powerUp bothWays).events =
      ascii "avr://lcd clear\n" := by
    decide +kernel
  have hintact : (Exec.feed step powerUp bothWays).events.all Event.intact = true := by
    decide +kernel
  have hlines : Comms.commandLines (ascii "avr://lcd clear\n") = [ascii "lcd clear"] := by
    decide +kernel
  have hread : ∀ line ∈ Comms.commandLines
      (receivedBytes (Exec.feed step powerUp bothWays).events), Comms.Readable line := by
    rw [hreceived, hlines]
    decide
  have hserial : Pipe.KeepsUp step serialDemand fifoBufferSize powerUp bothWays :=
    (serialPipe.room_iff_keepsUp rfl bothWays).mp
      (along_of_test (fun _ _ => Pipe.room_of_test) (by decide +kernel))
  have hhost : Pipe.KeepsUp step hostDemand fifoBufferSize powerUp bothWays :=
    (hostPipe.room_iff_keepsUp rfl bothWays).mp
      (along_of_test (fun _ _ => Pipe.room_of_test) (by decide +kernel))
  obtain ⟨⟨done, hdone, hput⟩, hboth⟩ := board_is_bridge hb (List.all_eq_true.mp hintact)
    (by decide +kernel) (by simp [hnext]) hserial hhost hread
  rw [hreceived, hfifo, hrhr] at hdone
  have hall : done = ascii "avr://lcd clear\n" := by simpa using hdone.symm
  rw [hall] at hput
  rw [hout, List.append_nil] at hboth
  exact ⟨_, b, hb, hout, by decide +kernel, hput, by decide +kernel, hboth⟩

end BowerBird.Power
