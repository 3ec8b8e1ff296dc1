import BowerBird.Firmware.Backlog
import BowerBird.PowerPipe
import BowerBird.PowerSerial

/-!
# How far the queues can fall behind

Both queues drop what finds them full. Whether one does is a matter of rates: of how
many bytes come in and how often the other side is served, counted over every window
of a run. No look at the queue is needed to tell.
-/

namespace BowerBird.Power

open Firmware Firmware.CString
set_option autoImplicit false

variable {b t : Board} {i : Input} {fs : List Event}

/-- The main loop polls the host, and later the USART. -/
def hostDemand (b : Board) : Input → Option (Demand Byte)
  | .mainLoop env =>
    if b.inHandler then none
    else
      match b.next with
      | .usbInput => env.rx.map .arrival
      | .usartOutput => if env.usartTxReady then some .service else none
      | _ => none
  | _ => none

theorem hostDemand_mainLoop (h : b.inHandler = false) (env : Env) :
    hostDemand b (.mainLoop env) =
      match b.next with
      | .usbInput => env.rx.map .arrival
      | .usartOutput => if env.usartTxReady then some .service else none
      | _ => none := by
  simp [hostDemand, h]

theorem mainLoop_hostMove (hin : b.inHandler = false) {env : Env}
    (h : mainLoop b env = ⟨fs, .ret t⟩) :
    PipeMove fifoBufferSize (hostDemand b (.mainLoop env)) b.beagleOutFIFO.contents
      (beagleBytes fs) t.beagleOutFIFO.contents := by
  rw [hostDemand_mainLoop hin]
  cases hnext : b.next with
  | usbInput =>
    cases hrx : env.rx with
    | none =>
      simp only [mainLoop, hnext, hrx, Exec.pure_def] at h
      cases h
      exact .idle _
    | some c =>
      simp only [mainLoop, hnext, hrx] at h
      cases h
      exact pipeMove_push b.beagleOutFIFO c
  | usartOutput =>
    cases hready : env.usartTxReady with
    | false =>
      cases hpull : b.beagleOutFIFO.pull? with
      | none =>
        simp only [mainLoop, hnext, hpull, Exec.pure_def] at h
        cases h
        exact .idle _
      | some p =>
        simp only [mainLoop, hnext, hpull, hready, Exec.pure_def] at h
        cases h
        exact .idle _
    | true =>
      cases hpull : b.beagleOutFIFO.pull? with
      | none =>
        simp only [mainLoop, hnext, hpull, Exec.pure_def] at h
        cases h
        exact pipeMove_empty hpull
      | some p =>
        simp only [mainLoop, hnext, hpull, hready] at h
        cases h
        exact pipeMove_pull hpull
  | beagleInput =>
    cases mainLoop_moves hin h with
    | fromHost _ hnext' => rw [hnext] at hnext'; cases hnext'
    | toBeagle _ hnext' => rw [hnext] at hnext'; cases hnext'
    | @handled _ c _ es _ _ _ _ _ hes =>
      have hbytes : beagleBytes es = [] := filterMap_putc (fun _ => rfl) hes
      have hcons : beagleBytes (.processByte c :: es) = beagleBytes es := rfl
      rw [hcons, hbytes]
      exact .idle _
    | passed => exact .idle _
    | held hin' => rw [hin] at hin'; cases hin'
  | waiting =>
    simp only [mainLoop, hnext, Exec.pure_def] at h
    cases h
    exact .idle _

theorem hostPipe : Pipe step hostDemand (fun b => b.beagleOutFIFO.contents) Event.usartWriteChar?
    fifoBufferSize where
  moves := by
    intro b i fs t h
    cases hi : i with
    | mainLoop env =>
      subst hi
      cases hin : b.inHandler with
      | false =>
        rw [step_mainLoop hin] at h
        exact mainLoop_hostMove hin h
      | true =>
        simp only [step, hin, if_true] at h
        cases h
        simp only [hostDemand, hin, if_true]
        exact .idle _
    | _ =>
      subst hi
      cases step_moves h <;> exact .idle _
  arrives := by
    intro b i c h
    cases i with
    | mainLoop env =>
      cases hin : b.inHandler with
      | true => simp [hostDemand, hin] at h
      | false =>
        rw [hostDemand_mainLoop hin] at h
        rw [step_mainLoop hin]
        cases hnext : b.next with
        | usbInput =>
          simp only [hnext, Option.map_eq_some_iff] at h
          obtain ⟨c', hrx, -⟩ := h
          simp only [mainLoop, hnext, hrx]
          exact ⟨_, _, rfl⟩
        | usartOutput => simp [hnext] at h
        | _ => simp [hnext] at h
    | _ => cases h
  bounded b := b.beagleOutFIFO.bounded

theorem hostBytes_step (h : step b i = ⟨fs, .ret t⟩) :
    hostBytes fs = ((hostDemand b i).bind Demand.arrival?).toList := by
  cases i with
  | mainLoop env =>
    cases hin : b.inHandler with
    | true =>
      simp only [step, hin, if_true] at h
      cases h
      simp [hostDemand, hin, hostBytes]
    | false =>
      rw [step_mainLoop hin] at h
      rw [hostDemand_mainLoop hin]
      cases mainLoop_moves hin h with
      | fromHost _ hnext hrx => simp [hnext, hrx, hostBytes, Event.getc?, Demand.arrival?]
      | @toBeagle _ c _ _ hnext =>
        have hbytes : hostBytes [.usartWriteChar c] = [] := rfl
        rw [hnext, hbytes]
        cases env.usartTxReady <;> rfl
      | @handled _ c _ es _ _ _ hnext _ hes =>
        have hbytes : hostBytes es = [] := filterMap_putc (fun _ => rfl) hes
        rw [hnext]
        exact hbytes
      | passed _ hrx =>
        cases hnext : b.next with
        | usbInput => simp [hrx hnext, hostBytes]
        | usartOutput => cases env.usartTxReady <;> rfl
        | _ => rfl
      | held hin' => exact absurd (hin.symm.trans hin') Bool.false_ne_true
  | _ => cases step_moves h <;> rfl

theorem runs_hostBytes {is : List Input} {es : List Event} (h : Runs step powerUp is es b) :
    hostBytes es = Pipe.arrived step hostDemand powerUp is := by
  refine Runs.history (C := fun _ _ => True) (H := fun is es _ =>
    hostBytes es = Pipe.arrived step hostDemand powerUp is) rfl ?_ along_true h
  intro is es s i fs t hr hs _ hstep
  have happend : hostBytes (es ++ fs) = hostBytes es ++ hostBytes fs := List.filterMap_append
  rw [Pipe.arrived_concat hr, happend, hs, hostBytes_step hstep]

/-- No byte of the host is lost in a run exactly if in every window of it the host sends at
most 64 bytes more than the main loop finds the USART ready. -/
theorem host_pipe_keeps_up_iff (is : List Input) :
    (∀ pre, pre <+: is → Lossless pre) ↔ Pipe.KeepsUp step hostDemand fifoBufferSize powerUp is := by
  rw [← hostPipe.whole_iff_keepsUp rfl is]
  apply forall_congr'
  intro pre
  apply imp_congr_right
  intro _
  apply forall_congr'
  intro es
  apply forall_congr'
  intro b
  apply imp_congr_right
  intro h
  rw [runs_hostBytes h]
  rfl

/-- The handler reads a character, or the main loop looks for one. -/
def serialDemand (b : Board) : Input → Option (Demand Byte)
  | .handlerRead =>
    if b.inHandler then
      match usartReadChar b.usart with
      | (.success c, _) => some (.arrival c)
      | _ => none
    else none
  | .mainLoop _ => if b.inHandler = false ∧ b.next = .beagleInput then some .service else none
  | _ => none

theorem mainLoop_serialMove (hin : b.inHandler = false) {env : Env}
    (h : mainLoop b env = ⟨fs, .ret t⟩) :
    PipeMove fifoBufferSize (serialDemand b (.mainLoop env)) b.beagleInFIFO.contents
      (handed fs) t.beagleInFIFO.contents := by
  by_cases hnext : b.next = .beagleInput
  · have hdemand : serialDemand b (.mainLoop env) = some .service := by simp [serialDemand, hin, hnext]
    rw [hdemand]
    cases hpull : b.beagleInFIFO.pull? with
    | none =>
      simp only [mainLoop, hnext, hpull, Exec.pure_def] at h
      cases h
      exact pipeMove_empty hpull
    | some p =>
      have hhanded := handleByte_handed b.comms p.1 env.cdcTxReady
      rcases hhandle : handleByte b.comms p.1 env.cdcTxReady with ⟨gs, s | _ | _⟩ <;>
        simp only [mainLoop, hnext, hpull, hhandle] at h hhanded <;> cases h
      · rw [hhanded]
        exact pipeMove_pull hpull
      · rw [hhanded]
        exact pipeMove_pull hpull
  · have hdemand : serialDemand b (.mainLoop env) = none := by simp [serialDemand, hnext]
    rw [hdemand]
    cases mainLoop_moves hin h with
    | handled _ hnext' => exact absurd hnext' hnext
    | _ => exact .idle _

theorem handlerRead_serialMove (hin : b.inHandler = true) (h : handlerRead b = ⟨fs, .ret t⟩) :
    PipeMove fifoBufferSize (serialDemand b .handlerRead) b.beagleInFIFO.contents
      (handed fs) t.beagleInFIFO.contents := by
  simp only [serialDemand, hin, if_true]
  rcases hread : usartReadChar b.usart with ⟨c | _ | _, u⟩ <;>
    simp only [handlerRead, hread] at h <;> cases h
  · exact pipeMove_push b.beagleInFIFO c
  · exact .idle _
  · exact .idle _

theorem serialPipe : Pipe step serialDemand (fun b => b.beagleInFIFO.contents)
    Event.processByte? fifoBufferSize where
  moves := by
    intro b i fs t h
    cases i with
    | mainLoop env =>
      cases hin : b.inHandler with
      | false =>
        rw [step_mainLoop hin] at h
        exact mainLoop_serialMove hin h
      | true =>
        simp only [step, hin, if_true] at h
        cases h
        simp only [serialDemand, hin, Bool.true_eq_false, false_and, if_false]
        exact .idle _
    | handlerRead =>
      cases hin : b.inHandler with
      | true =>
        simp only [step, hin, if_true] at h
        exact handlerRead_serialMove hin h
      | false =>
        simp only [step, hin] at h
        cases h
        simp only [serialDemand, hin]
        exact .idle _
    | _ =>
      cases step_moves h
      exact .idle _
  arrives := by
    intro b i c h
    cases i with
    | handlerRead =>
      cases hin : b.inHandler with
      | false => simp [serialDemand, hin] at h
      | true =>
        simp only [step, hin, if_true]
        unfold handlerRead
        split
        · exact ⟨_, _, rfl⟩
        · exact ⟨_, _, rfl⟩
    | mainLoop env =>
      simp only [serialDemand] at h
      split at h <;> cases h
    | _ => cases h
  bounded b := b.beagleInFIFO.bounded

/-- Every character that the handler reads goes to the parser, in order, exactly if in
every window of the run the handler reads at most 64 more of them than the main loop looks
for one. While the main loop waits for the host it does not look. -/
theorem serial_pipe_keeps_up_iff (is : List Input) :
    (∀ pre, pre <+: is → ∀ es b, Runs step powerUp pre es b →
      Pipe.arrived step serialDemand powerUp pre = handed es ++ b.beagleInFIFO.contents) ↔
        Pipe.KeepsUp step serialDemand fifoBufferSize powerUp is :=
  serialPipe.whole_iff_keepsUp rfl is

end BowerBird.Power
