import BowerBird.PowerPrinting

/-!
# What one step of the power board does

The steps of the handler and of the blocks of the main loop in closed form. Only
the bytes that go through the queues count here, so the parser and its replies
are left open.
-/

namespace BowerBird.Power

open Firmware Firmware.CString Firmware.Exec
set_option autoImplicit false

def Event.IsPutc (e : Event) : Prop := ∃ c, e = .putc c

theorem filterMap_putc {κ : Type*} {f : Event → Option κ} (hf : ∀ c, f (.putc c) = none)
    {es : List Event} (h : ∀ e ∈ es, e.IsPutc) : es.filterMap f = [] := by
  apply List.filterMap_eq_nil_iff.mpr
  intro e he
  obtain ⟨c, rfl⟩ := h e he
  exact hf c

theorem isPutc_map (cs : List Byte) : ∀ e ∈ cs.map Event.putc, e.IsPutc := by
  intro e he
  obtain ⟨c, -, rfl⟩ := List.mem_map.mp he
  exact ⟨c, rfl⟩

/-- A byte is handed to the parser once, and nothing but replies and its echo follow. -/
theorem handleByte_events (s : Comms.State) (c : Byte) (answers : List Bool) :
    ∃ es, (handleByte s c answers).events = .processByte c :: es ∧ ∀ e ∈ es, e.IsPutc := by
  have hhandles := handleByte_handles s c answers
  generalize handleByte s c answers = x at hhandles ⊢
  cases hhandles with
  | _ => exact ⟨_, rfl, isPutc_map _⟩

/-- What the step for an input shows and where it leads, if it is defined. -/
inductive Move (b : Board) : Input → List Event → Board → Prop where
  | receive (c : Line) :
      Move b (.receive c)
        [.received c (b.beagleInFIFO.contents.length == fifoBufferSize) b.usart.rhr.isSome]
        { b with usart := b.usart.receive c }
  | interrupt : Move b .interrupt [] { b with inHandler := true }
  | taken {c : Byte} (h : b.inHandler = true) (herror : b.usart.error = false)
      (hc : b.usart.rhr = some c) :
      Move b .handlerRead []
        { b with
          usart := { b.usart with rhr := none }
          beagleInFIFO := b.beagleInFIFO.push c }
  | left (h : b.inHandler = true) (hend : b.usart.rhr.isSome → b.usart.error = true) :
      Move b .handlerRead [.handlerReturned b.usart.rhr] { b with inHandler := false }
  | outside (h : b.inHandler = false) : Move b .handlerRead [] b
  | held {env : Env} (h : b.inHandler = true) : Move b (.mainLoop env) [] b
  | fromHost {env : Env} {c : Byte} (h : b.inHandler = false) (hnext : b.next = .usbInput)
      (hc : env.rx = some c) :
      Move b (.mainLoop env) [.getc c]
        { b with beagleOutFIFO := b.beagleOutFIFO.push c, next := .usartOutput }
  | toBeagle {env : Env} {c : Byte} {q : Fifo fifoBufferSize Byte} (h : b.inHandler = false)
      (hnext : b.next = .usartOutput) (hc : b.beagleOutFIFO.pull? = some (c, q)) :
      Move b (.mainLoop env) [.usartWriteChar c]
        { b with beagleOutFIFO := q, next := .beagleInput }
  | handled {env : Env} {c : Byte} {q : Fifo fifoBufferSize Byte} {es : List Event}
      {s : Comms.State} {n : Block} (h : b.inHandler = false) (hnext : b.next = .beagleInput)
      (hc : b.beagleInFIFO.pull? = some (c, q)) (hes : ∀ e ∈ es, e.IsPutc) :
      Move b (.mainLoop env) (.processByte c :: es)
        { b with beagleInFIFO := q, comms := s, next := n }
  | passed {env : Env} {n : Block} (h : b.inHandler = false)
      (hrx : b.next = .usbInput → env.rx = none) : Move b (.mainLoop env) [] { b with next := n }

theorem handlerRead_moves {b t : Board} {fs : List Event} (hin : b.inHandler = true)
    (h : handlerRead b = ⟨fs, .ret t⟩) : Move b .handlerRead fs t := by
  obtain ⟨⟨rhr, ovre, frame, pare⟩, inHandler, q⟩ := b
  cases hin
  cases herror : Usart.error ⟨rhr, ovre, frame, pare⟩ with
  | true =>
    simp only [handlerRead, usartReadChar, herror, if_true] at h
    cases h
    exact .left rfl fun _ => herror
  | false =>
    cases rhr with
    | none =>
      simp [handlerRead, usartReadChar, herror, pure_def] at h
      obtain ⟨rfl, rfl⟩ := h
      exact .left rfl (by simp)
    | some c =>
      simp [handlerRead, usartReadChar, herror, pure_def] at h
      obtain ⟨rfl, rfl⟩ := h
      exact .taken rfl herror rfl

theorem step_mainLoop {b : Board} (h : b.inHandler = false) (env : Env) :
    step b (.mainLoop env) = mainLoop b env := by
  simp [step, h]

theorem mainLoop_moves {b t : Board} {env : Env} {fs : List Event} (hin : b.inHandler = false)
    (h : mainLoop b env = ⟨fs, .ret t⟩) : Move b (.mainLoop env) fs t := by
  unfold mainLoop at h
  cases hnext : b.next with
  | usbInput =>
    cases hrx : env.rx with
    | none =>
      simp only [hnext, hrx, pure_def] at h
      cases h
      exact .passed hin fun _ => hrx
    | some c =>
      simp only [hnext, hrx] at h
      cases h
      exact .fromHost hin hnext hrx
  | usartOutput =>
    cases hpull : b.beagleOutFIFO.pull? with
    | none =>
      simp only [hnext, hpull, pure_def] at h
      cases h
      exact .passed hin (by simp [hnext])
    | some p =>
      cases hready : env.usartTxReady with
      | false =>
        simp only [hnext, hpull, hready, pure_def] at h
        cases h
        exact .passed hin (by simp [hnext])
      | true =>
        simp only [hnext, hpull, hready] at h
        cases h
        exact .toBeagle hin hnext hpull
  | beagleInput =>
    cases hpull : b.beagleInFIFO.pull? with
    | none =>
      simp only [hnext, hpull, pure_def] at h
      cases h
      exact .passed hin (by simp [hnext])
    | some p =>
      obtain ⟨es, hes, hputc⟩ := handleByte_events b.comms p.1 env.cdcTxReady
      rcases hhandle : handleByte b.comms p.1 env.cdcTxReady with ⟨gs, s | _ | _⟩ <;>
        simp only [hnext, hpull, hhandle] at h hes <;> cases h <;> subst hes
      · exact .handled hin hnext hpull hputc
      · exact .handled hin hnext hpull hputc
  | waiting =>
    simp only [hnext, pure_def] at h
    cases h
    exact .passed (n := b.next) hin (by simp [hnext])

theorem step_moves {b t : Board} {i : Input} {fs : List Event} (h : step b i = ⟨fs, .ret t⟩) :
    Move b i fs t := by
  cases i with
  | receive c =>
    cases h
    exact .receive c
  | interrupt =>
    cases h
    exact .interrupt
  | handlerRead =>
    cases hin : b.inHandler with
    | true =>
      simp only [step, hin, if_true] at h
      exact handlerRead_moves hin h
    | false =>
      simp only [step, hin] at h
      cases h
      exact .outside hin
  | mainLoop env =>
    cases hin : b.inHandler with
    | true =>
      simp only [step, hin, if_true] at h
      cases h
      exact .held hin
    | false =>
      simp only [step, hin] at h
      exact mainLoop_moves hin h

end BowerBird.Power
