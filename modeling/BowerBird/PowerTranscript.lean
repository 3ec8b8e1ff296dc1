import BowerBird.CommsStreams
import BowerBird.CommsInvariant
import BowerBird.PowerReports
import BowerBird.PowerSerial

/-!
# What the host sees of a run

The main loop hands the bytes of the Beagle to the parser one at a time. In whatever
order arrivals, interrupts and blocks of the main loop come, the host is sent, byte
after byte, the report of the line that the byte ends and the echo of the byte.
-/

namespace BowerBird.Power

open Firmware Firmware.CString Firmware.Exec Firmware.Printf
set_option autoImplicit false

/-- The bytes have been handled, the host has been sent `out`, and the parser is in
state `s`. A byte is echoed behind its report, if the host takes it at once. -/
inductive Transcript : List Byte → List Byte → Comms.State → Prop where
  | powerUp : Transcript [] [] Comms.powerUp
  | handled {bs out : List Byte} {s t : Comms.State} (c : Byte) (echoed : Bool)
      (h : Transcript bs out s) (ht : (Comms.processByte s c).outcome = .ret t) :
      Transcript (bs ++ [c]) (out ++ report s c ++ if echoed then [c] else []) t

theorem Transcript.runs {bs out : List Byte} {s : Comms.State} (h : Transcript bs out s) :
    ∃ es, Runs Comms.processByte Comms.powerUp bs es s := by
  induction h with
  | powerUp => exact ⟨[], .refl _⟩
  | @handled bs out s t c echoed h ht ih =>
    obtain ⟨es, hes⟩ := ih
    have hstep : Comms.processByte s c = ⟨(Comms.processByte s c).events, .ret t⟩ := by rw [← ht]
    exact ⟨_, hes.concat hstep⟩

theorem Transcript.reachable {bs out : List Byte} {s : Comms.State} (h : Transcript bs out s) :
    Comms.Reachable s := by
  obtain ⟨es, hes⟩ := h.runs
  exact Comms.Runs.reachable hes

theorem putBytes_byte (c : Byte) (es : List Event) : putBytes (.processByte c :: es) = putBytes es :=
  rfl

theorem handleByte_ret_puts {s t : Comms.State} {c : Byte} {answers : List Bool}
    (h : (handleByte s c answers).outcome = .ret t) : ∃ echoed ∈ answers,
      (Comms.processByte s c).outcome = .ret t ∧
      putBytes (handleByte s c answers).events = report s c ++ if echoed then [c] else [] := by
  have hhandles := handleByte_handles s c answers
  generalize handleByte s c answers = x at hhandles h ⊢
  cases hhandles with
  | @echoed t' a more hle ht ha =>
    obtain rfl := Outcome.ret.inj h
    have hmem : a ∈ answers := by
      apply (afterReady_suffix (report s c).length answers).subset
      rw [ha]
      exact List.mem_cons_self
    refine ⟨a, hmem, ht, ?_⟩
    rw [putBytes_byte, putBytes_map]
  | parsing hle ho hstuck => exact absurd h (hstuck t)
  | _ => cases h

theorem handleByte_hang_puts {s : Comms.State} {c : Byte} {answers : List Bool}
    (h : (handleByte s c answers).outcome = .hang) :
    putBytes (handleByte s c answers).events <+: report s c := by
  have hhandles := handleByte_handles s c answers
  generalize handleByte s c answers = x at hhandles h ⊢
  cases hhandles with
  | reporting hlt =>
    rw [putBytes_byte, putBytes_map]
    exact List.take_prefix _ _
  | echoed hle ht ha => cases h
  | _ => simp [putBytes_byte]

theorem processByte_fault_iff {s : Comms.State} {m : Framing.Mode Byte} (h : Comms.Tracks s m)
    (c : Byte) : (Comms.processByte s c).outcome = .fault ↔
      ∃ line ∈ (Comms.commandFraming.step m c).2, ¬ Comms.Short line := by
  constructor
  · intro hfault
    by_contra hfit
    push Not at hfit
    have hfollows := (Comms.processByte_refines h c hfit).follows
    rw [hfault] at hfollows
    exact hfollows
  · rintro ⟨line, hline, hlong⟩
    obtain ⟨rfl, hc⟩ := Framing.of_mem_step Comms.commandFraming hline
    rw [Comms.processByte_overlong h hlong hc]

theorem report_of_fault {s : Comms.State} (hs : Comms.Reachable s) {c : Byte}
    (h : (Comms.processByte s c).outcome = .fault) : report s c = [] := by
  obtain ⟨m, hm⟩ := hs.tracks
  obtain ⟨line, hline, hlong⟩ := (processByte_fault_iff hm c).mp h
  obtain ⟨rfl, hc⟩ := Framing.of_mem_step Comms.commandFraming hline
  rw [report, callsOf, Comms.processByte_overlong hm hlong hc]
  rfl

theorem handleByte_fault_iff {s : Comms.State} (hs : Comms.Reachable s) (c : Byte)
    (answers : List Bool) :
    (handleByte s c answers).outcome = .fault ↔ (Comms.processByte s c).outcome = .fault := by
  have hhandles := handleByte_handles s c answers
  generalize handleByte s c answers = x at hhandles ⊢
  cases hhandles with
  | reporting hlt =>
    -- a parser that overruns would have nothing to report
    apply iff_of_false
    · simp
    · intro hfault
      rw [report_of_fault hs hfault] at hlt
      exact Nat.not_lt_zero _ hlt
  | parsing hle ho hstuck => rw [ho]
  | asking hle ht hnone => simp [ht]
  | echoed hle ht ha => simp [ht]

/-- What a step means for the parser and the host. -/
inductive Turn (b : Board) : List Event → Board → Prop where
  | aside {fs : List Event} {t : Board} (hcomms : t.comms = b.comms)
      (hwaiting : t.next = .waiting ↔ b.next = .waiting) (hhanded : handed fs = [])
      (hput : putBytes fs = []) : Turn b fs t
  | handled {c : Byte} {q : Fifo fifoBufferSize Byte} {answers : List Bool} {s : Comms.State}
      (hnext : b.next = .beagleInput) (hc : b.beagleInFIFO.pull? = some (c, q))
      (h : (handleByte b.comms c answers).outcome = .ret s) :
      Turn b (handleByte b.comms c answers).events
        { b with beagleInFIFO := q, comms := s, next := .usbInput }
  | stuck {c : Byte} {q : Fifo fifoBufferSize Byte} {answers : List Bool}
      (hnext : b.next = .beagleInput) (hc : b.beagleInFIFO.pull? = some (c, q))
      (h : (handleByte b.comms c answers).outcome = .hang) :
      Turn b (handleByte b.comms c answers).events { b with beagleInFIFO := q, next := .waiting }

theorem handlerRead_turns {b t : Board} {fs : List Event} (h : handlerRead b = ⟨fs, .ret t⟩) :
    Turn b fs t := by
  unfold handlerRead at h
  split at h
  · cases h
    exact .aside rfl Iff.rfl rfl rfl
  · cases h
    exact .aside rfl Iff.rfl rfl rfl

theorem mainLoop_turns {b t : Board} {env : Env} {fs : List Event}
    (h : mainLoop b env = ⟨fs, .ret t⟩) : Turn b fs t := by
  cases hnext : b.next with
  | usbInput =>
    cases hrx : env.rx with
    | none =>
      simp only [mainLoop, hnext, hrx, pure_def] at h
      cases h
      exact .aside rfl (by simp [hnext]) rfl rfl
    | some c =>
      simp only [mainLoop, hnext, hrx] at h
      cases h
      exact .aside rfl (by simp [hnext]) rfl rfl
  | usartOutput =>
    simp only [mainLoop, hnext] at h
    split at h
    · cases h
      exact .aside rfl (by simp [hnext]) rfl rfl
    · cases h
      exact .aside rfl (by simp [hnext]) rfl rfl
  | beagleInput =>
    cases hpull : b.beagleInFIFO.pull? with
    | none =>
      simp only [mainLoop, hnext, hpull, pure_def] at h
      cases h
      exact .aside rfl (by simp [hnext]) rfl rfl
    | some p =>
      rcases hhandle : handleByte b.comms p.1 env.cdcTxReady with ⟨gs, s | _ | _⟩ <;>
        simp only [mainLoop, hnext, hpull, hhandle] at h <;> cases h
      · have hret : (handleByte b.comms p.1 env.cdcTxReady).outcome = .ret s := by rw [hhandle]
        have hturn := Turn.handled hnext hpull hret
        rwa [hhandle] at hturn
      · have hhang : (handleByte b.comms p.1 env.cdcTxReady).outcome = .hang := by rw [hhandle]
        have hturn := Turn.stuck hnext hpull hhang
        rwa [hhandle] at hturn
  | waiting =>
    simp only [mainLoop, hnext, pure_def] at h
    cases h
    exact .aside rfl Iff.rfl rfl rfl

theorem step_turns {b t : Board} {i : Input} {fs : List Event} (h : step b i = ⟨fs, .ret t⟩) :
    Turn b fs t := by
  cases i with
  | receive c =>
    cases h
    exact .aside rfl Iff.rfl rfl rfl
  | interrupt =>
    cases h
    exact .aside rfl Iff.rfl rfl rfl
  | handlerRead =>
    simp only [step] at h
    split at h
    · exact handlerRead_turns h
    · cases h
      exact .aside rfl Iff.rfl rfl rfl
  | mainLoop env =>
    simp only [step] at h
    split at h
    · cases h
      exact .aside rfl Iff.rfl rfl rfl
    · exact mainLoop_turns h

/-- Where a run stands: all bytes are handled, or the main loop waits inside the handling
of the last one, which the parser has taken, with a part of its report sent. -/
def Stands (bs out : List Byte) (b : Board) : Prop :=
  (b.next ≠ .waiting → Transcript bs out b.comms) ∧
  (b.next = .waiting → ∃ pre c sent part, bs = pre ++ [c] ∧ out = sent ++ part ∧
    Transcript pre sent b.comms ∧ (Comms.processByte b.comms c).outcome ≠ .fault ∧
    part <+: report b.comms c)

theorem Turn.stands {b t : Board} {fs : List Event} {bs out : List Byte} (h : Turn b fs t)
    (hb : Stands bs out b) : Stands (bs ++ handed fs) (out ++ putBytes fs) t := by
  cases h with
  | aside hcomms hwaiting hhanded hput =>
    unfold Stands at hb ⊢
    rw [hhanded, hput, List.append_nil, List.append_nil, hcomms, ne_eq, hwaiting]
    exact hb
  | @handled c q answers s hnext hc h =>
    obtain ⟨echoed, -, ht, hput⟩ := handleByte_ret_puts h
    have hdone := hb.1 (by simp [hnext])
    rw [handleByte_handed, hput, ← List.append_assoc]
    refine ⟨fun _ => .handled c echoed hdone ht, fun hnext' => by cases hnext'⟩
  | @stuck c q answers hnext hc h =>
    have hdone := hb.1 (by simp [hnext])
    rw [handleByte_handed]
    refine ⟨fun hnext' => absurd rfl hnext', fun _ => ?_⟩
    have hparsed : (Comms.processByte b.comms c).outcome ≠ .fault := by
      rw [ne_eq, ← handleByte_fault_iff hdone.reachable c answers, h]
      simp
    exact ⟨bs, c, out, _, rfl, rfl, hdone, hparsed, handleByte_hang_puts h⟩

theorem stands_powerUp : Stands [] [] powerUp :=
  ⟨fun _ => .powerUp, fun hnext => by cases hnext⟩

/-- In every run the host has been sent the transcript of the bytes handed to the parser,
the last report perhaps in part, and the state of the parser is the one these bytes lead to. -/
theorem runs_transcribed {is : List Input} {es : List Event} {b : Board}
    (h : Runs step powerUp is es b) : Stands (handed es) (putBytes es) b := by
  refine Runs.history (C := fun _ _ => True) (H := fun _ es b => Stands (handed es) (putBytes es) b)
    stands_powerUp ?_ along_true h
  intro is es b i fs t _ hb _ hstep
  rw [handed_append, putBytes_append]
  exact (step_turns hstep).stands hb

def byteArrives (answers : List Bool) (c : Byte) : List Input :=
  [.receive (.good c), .interrupt, .handlerRead, .handlerRead] ++
    List.replicate 3 (.mainLoop ⟨none, false, answers⟩)

def reportBegun : List Input :=
  (ascii "avr://x").flatMap (byteArrives [true]) ++
    byteArrives [false, true, true, true, false, true, true, true] 0x0a#8

theorem runs_transcribed_report_begun :
    ∃ es b, Runs step powerUp reportBegun es b ∧ b.next = .waiting ∧
      putBytes es = ascii "avr://x\r\nGot " ∧ ∃ sent part, putBytes es = sent ++ part ∧
        Transcript (ascii "avr://x") sent b.comms ∧ part <+: report b.comms 0x0a#8 := by
  obtain ⟨b, hb, hnext⟩ := runs_of_ret? step powerUp reportBegun (fun b => b.next)
    (v := .waiting) (by decide +kernel)
  have hhanded : handed (Exec.feed step powerUp reportBegun).events =
      ascii "avr://x" ++ [0x0a#8] := by
    decide +kernel
  obtain ⟨pre, c, sent, part, hpre, hput, hdone, -, hpart⟩ := (runs_transcribed hb).2 hnext
  rw [hhanded] at hpre
  obtain ⟨rfl, hc⟩ := List.append_inj' hpre rfl
  obtain rfl := List.singleton_inj.mp hc
  exact ⟨_, b, hb, hnext, by decide +kernel, sent, part, hput, hdone, hpart⟩

def Event.received? : Event → Option Line
  | .received c _ _ => some c
  | _ => none

def receivedBytes (es : List Event) : List Byte := (es.filterMap Event.received?).map Line.byte

/-- No character is damaged, finds the queue full or overruns another one. -/
def Event.clean : Event → Bool
  | .received (.good _) false false => true
  | .received _ _ _ => false
  | _ => true

theorem clean_received {c : Line} {fifoFull overrun : Bool}
    (h : (Event.received c fifoFull overrun).clean = true) :
    c = .good c.byte ∧ fifoFull = false ∧ overrun = false := by
  cases c <;> cases fifoFull <;> cases overrun <;> first | exact ⟨rfl, rfl, rfl⟩ | cases h

theorem runs_serial {is : List Input} {es : List Event} {b : Board}
    (h : Runs step powerUp is es b) : Serial es b := by
  refine Runs.history (C := fun _ _ => True) (H := fun _ es b => Serial es b) serial_powerUp ?_
    along_true h
  intro is es b i fs t _ hb _ hstep
  exact (step_moves hstep).serial hb

theorem arrivals_of_clean {es : List Event} (h : ∀ e ∈ es, e.clean = true) :
    arrivals es = (receivedBytes es).map fun b => (.good b, false) := by
  induction es using List.reverseRecOn with
  | nil => rfl
  | append_singleton es e ih =>
    have hes := ih fun e he => h e (List.mem_append_left _ he)
    have he := h e (List.mem_append_right _ (List.mem_singleton_self e))
    rw [arrivals_append, hes]
    cases e with
    | received c fifoFull overrun =>
      obtain ⟨hgood, rfl, rfl⟩ := clean_received he
      rw [hgood]
      simp [receivedBytes, record, Event.received?, Line.byte]
    | _ => simp [receivedBytes, record, Event.received?]

theorem Delivers.all {as : List Arrival} {bs : List Byte} (h : Delivers as bs)
    (hgood : ∀ a ∈ as, a.1 = .good a.1.byte ∧ a.2 = false) : bs = as.map fun a => a.1.byte := by
  have hlast : ∀ {as : List Arrival} {a : Arrival}, a ∈ as ++ [a] :=
    List.mem_append_right _ (List.mem_singleton_self _)
  induction h with
  | nil => rfl
  | delivered b mayBeLost h ih =>
    rw [ih fun a ha => hgood a (List.mem_append_left _ ha), List.map_append]
    rfl
  | damaged mayBeLost hc h ih => exact absurd (hgood _ hlast).1 hc
  | lost c h ih => exact absurd (hgood _ hlast).2 (by simp)

theorem received_of_clean {is : List Input} {es : List Event} {b : Board}
    (h : Runs step powerUp is es b) (hclean : ∀ e ∈ es, e.clean = true) :
    receivedBytes es = handed es ++ b.beagleInFIFO.contents ++ b.usart.rhr.toList := by
  have hserial := runs_serial h
  have harrivals := arrivals_of_clean hclean
  have hgood : ∀ a ∈ arrivals es, a.1 = .good a.1.byte ∧ a.2 = false := by
    rw [harrivals]
    intro a ha
    obtain ⟨b, -, rfl⟩ := List.mem_map.mp ha
    exact ⟨rfl, rfl⟩
  have hbytes : receivedBytes es = (arrivals es).map fun a => a.1.byte := by
    rw [harrivals, List.map_map]
    exact (List.map_id _).symm
  cases hrhr : b.usart.rhr with
  | none =>
    rw [((serial_none hrhr).mp hserial).all hgood, hbytes]
    simp
  | some c =>
    obtain ⟨as, line, mayBeLost, has, hunread, hdelivers⟩ := (serial_some hrhr).mp hserial
    rw [has] at hgood hbytes
    rw [hdelivers.all fun a ha => hgood a (List.mem_append_left _ ha), hbytes, List.map_append,
      List.map_singleton, hunread.byte]
    rfl

def requestReport (r : Comms.Request) : List Byte :=
  (r.effects.filterMap Comms.Event.call?).flatMap printed

/-- What a host reads of a stream: behind each byte the reports of the line that it
closes, as the grammar reads that line, and the echo of the byte or nothing. -/
inductive HostReads : List Byte → List Byte → Prop where
  | nothing : HostReads [] []
  | byte {bs out : List Byte} {lines : List (List Byte)} {rs : List Comms.Request} (c : Byte)
      (echoed : Bool) (h : HostReads bs out)
      (hlines : Comms.commandLines (bs ++ [c]) = Comms.commandLines bs ++ lines)
      (hrs : List.Forall₂ Comms.Denotes lines rs) :
      HostReads (bs ++ [c]) (out ++ rs.flatMap requestReport ++ if echoed then [c] else [])

theorem report_of_readable {s : Comms.State} {m : Framing.Mode Byte} (h : Comms.Tracks s m)
    {c : Byte} (hread : ∀ line ∈ (Comms.commandFraming.step m c).2, Comms.Readable line) :
    report s c =
      ((Comms.commandFraming.step m c).2.map Comms.meaning).flatMap requestReport := by
  have heffects := (Comms.processByte_carriesOut h hread).effects
  have hcalls := Comms.seen_eq_effects (fun _ => call?_of_effect?) (Comms.processByte s c)
  rw [heffects] at hcalls
  unfold seen at hcalls
  rw [report, callsOf, hcalls, List.filterMap_flatMap, List.flatMap_assoc]
  rfl

theorem Transcript.hostReads {bs out : List Byte} {s : Comms.State} (h : Transcript bs out s)
    (hread : ∀ line ∈ Comms.commandLines bs, Comms.Readable line) : HostReads bs out := by
  induction h with
  | powerUp => exact .nothing
  | @handled bs out s t c echoed h ht ih =>
    obtain ⟨es, hes⟩ := h.runs
    have htracks := Comms.runs_tracks hes
    have hlines := Comms.commandLines_concat bs c
    rw [hlines] at hread
    have hclosed : ∀ line ∈ (Comms.commandFraming.step
        (Comms.commandFraming.run (.hunting 0) bs) c).2, Comms.Readable line :=
      fun line hl => hread line (List.mem_append_right _ hl)
    rw [report_of_readable htracks hclosed]
    apply HostReads.byte c echoed (ih fun line hl => hread line (List.mem_append_left _ hl)) hlines
    exact (Comms.forall₂_denotes_iff hclosed).mpr rfl

/-- From the serial line to the host: on a clean line, a main loop that does not wait has
sent the host, for the bytes received but for those still queued, what the grammar demands. -/
theorem host_reads_commands {is : List Input} {es : List Event} {b : Board}
    (h : Runs step powerUp is es b) (hclean : ∀ e ∈ es, e.clean = true) (hnext : b.next ≠ .waiting)
    (hread : ∀ line ∈ Comms.commandLines (receivedBytes es), Comms.Readable line) :
    ∃ done, receivedBytes es = done ++ (b.beagleInFIFO.contents ++ b.usart.rhr.toList) ∧
      HostReads done (putBytes es) := by
  have hreceived := received_of_clean h hclean
  rw [List.append_assoc] at hreceived
  refine ⟨handed es, hreceived, ?_⟩
  apply ((runs_transcribed h).1 hnext).hostReads
  intro line hline
  apply hread
  rw [hreceived]
  exact Comms.commandLines_mono (List.prefix_append _ _) hline

def clearArrives : List Input :=
  (ascii "avr://lcd clear\n").flatMap (byteArrives (List.replicate 32 true))

theorem host_reads_commands_clear :
    ∃ es b, Runs step powerUp clearArrives es b ∧
      putBytes es = ascii "avr://lcd clear\r\nCleared LCD screen\r\n\n" ∧
      HostReads (ascii "avr://lcd clear\n") (putBytes es) := by
  obtain ⟨b, hb, hend⟩ := runs_of_ret? step powerUp clearArrives
    (fun b => (b.next, b.beagleInFIFO.contents, b.usart.rhr)) (v := (.usbInput, [], none))
    (by decide +kernel)
  simp only [Prod.mk.injEq] at hend
  obtain ⟨hnext, hfifo, hrhr⟩ := hend
  have hreceived : receivedBytes (Exec.feed step powerUp clearArrives).events =
      ascii "avr://lcd clear\n" := by
    decide +kernel
  have hclean : (Exec.feed step powerUp clearArrives).events.all Event.clean = true := by
    decide +kernel
  have hlines : Comms.commandLines (ascii "avr://lcd clear\n") = [ascii "lcd clear"] := by
    decide +kernel
  have hread : ∀ line ∈ Comms.commandLines
      (receivedBytes (Exec.feed step powerUp clearArrives).events), Comms.Readable line := by
    rw [hreceived, hlines]
    decide
  refine ⟨_, b, hb, by decide +kernel, ?_⟩
  obtain ⟨done, hdone, hreads⟩ := host_reads_commands hb (List.all_eq_true.mp hclean)
    (by simp [hnext]) hread
  rw [hreceived, hfifo, hrhr] at hdone
  have hall : done = ascii "avr://lcd clear\n" := by simpa using hdone.symm
  rwa [hall] at hreads

end BowerBird.Power
