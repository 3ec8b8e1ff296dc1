import BowerBird.PowerTranscript

/-!
# How far a run of the power board gets

A run of the board is defined as long as every line that reaches the parser fits. With
a host that keeps listening, a main loop that comes round takes one byte from the
queue each time, and so empties it.
-/

namespace BowerBird.Power

open Firmware Firmware.CString Firmware.Exec
set_option autoImplicit false

theorem runs_short {bs : List Byte} {es : List Comms.Event} {s : Comms.State}
    (h : Runs Comms.processByte Comms.powerUp bs es s) :
    ∀ line ∈ Comms.commandLines bs, Comms.Short line := by
  refine Runs.history (C := fun _ _ => True)
    (H := fun bs _ _ => ∀ line ∈ Comms.commandLines bs, Comms.Short line) ?_ ?_ along_true h
  · intro line hline
    cases hline
  · intro bs es s c fs t hs hbs _ hstep line hline
    rw [Comms.commandLines_concat] at hline
    rcases List.mem_append.mp hline with hline | hline
    · exact hbs line hline
    · exact Comms.processByte_ret_short (Comms.runs_tracks hs) (by rw [hstep]) line hline

theorem Stands.short {bs out : List Byte} {b : Board} (h : Stands bs out b) :
    ∀ line ∈ Comms.commandLines bs, Comms.Short line := by
  by_cases hnext : b.next = .waiting
  · obtain ⟨pre, c, sent, part, rfl, -, hdone, hparsed, -⟩ := h.2 hnext
    obtain ⟨es, hes⟩ := hdone.runs
    intro line hline
    rw [Comms.commandLines_concat] at hline
    rcases List.mem_append.mp hline with hline | hline
    · exact runs_short hes line hline
    · by_contra hlong
      exact hparsed ((processByte_fault_iff (Comms.runs_tracks hes) c).mpr ⟨line, hline, hlong⟩)
  · obtain ⟨es, hes⟩ := (h.1 hnext).runs
    exact runs_short hes

theorem mainLoop_stuck {b : Board} {env : Env} (h : ∀ t, (mainLoop b env).outcome ≠ .ret t) :
    b.next = .beagleInput ∧ ∃ c, (handleByte b.comms c env.cdcTxReady).outcome = .fault ∧
      mainLoop b env = ⟨(handleByte b.comms c env.cdcTxReady).events, .fault⟩ := by
  cases hnext : b.next with
  | usbInput =>
    obtain ⟨es, t, ht, -⟩ := usbInput_block hnext env
    exact absurd (by rw [ht]) (h t)
  | usartOutput =>
    obtain ⟨es, t, ht, -⟩ := usartOutput_block hnext env
    exact absurd (by rw [ht]) (h t)
  | beagleInput =>
    cases hpull : b.beagleInFIFO.pull? with
    | none => exact absurd (by simp [mainLoop, hnext, hpull, pure_def]) (h { b with next := .usbInput })
    | some p =>
      rcases hhandle : handleByte b.comms p.1 env.cdcTxReady with ⟨gs, s | _ | _⟩ <;>
        simp only [mainLoop, hnext, hpull, hhandle] at h
      · exact absurd rfl (h _)
      · exact absurd rfl (h _)
      · refine ⟨rfl, p.1, by rw [hhandle], ?_⟩
        simp only [mainLoop, hnext, hpull, hhandle]
  | waiting => exact absurd (by simp [mainLoop, hnext, pure_def]) (h b)

/-- A step that does not come back is undefined, and is the handling of a byte. -/
theorem step_stuck {b : Board} {i : Input} (h : ∀ t, (step b i).outcome ≠ .ret t) :
    b.next = .beagleInput ∧ ∃ c answers, (handleByte b.comms c answers).outcome = .fault ∧
      step b i = ⟨(handleByte b.comms c answers).events, .fault⟩ := by
  cases i with
  | receive c => exact absurd rfl (h _)
  | interrupt => exact absurd rfl (h _)
  | handlerRead =>
    simp only [step, handlerRead] at h
    split at h
    · split at h
      · exact absurd rfl (h _)
      · exact absurd rfl (h _)
    · exact absurd rfl (h _)
  | mainLoop env =>
    simp only [step] at h ⊢
    split at h
    · exact absurd rfl (h _)
    · rename_i hin
      obtain ⟨hnext, c, hfault, hstep⟩ := mainLoop_stuck h
      rw [if_neg hin]
      exact ⟨hnext, c, env.cdcTxReady, hfault, hstep⟩

/-- The behaviour of the board is defined throughout a run exactly if every line that is
closed for the parser fits. -/
theorem board_defined_iff (is : List Input) :
    (Exec.feed step powerUp is).outcome ≠ .fault ↔
      ∀ line ∈ Comms.commandLines (handed (Exec.feed step powerUp is).events),
        Comms.Short line := by
  by_cases hret : ∃ b, (Exec.feed step powerUp is).outcome = .ret b
  · obtain ⟨b, hb⟩ := hret
    have hrun : Runs step powerUp is (Exec.feed step powerUp is).events b := by
      rw [Runs, ← hb]
    apply iff_of_true
    · simp [hb]
    · exact (runs_transcribed hrun).short
  · push Not at hret
    obtain ⟨pre, i, post, es, b, rfl, hpre, hstuck, hfeed⟩ := feed_stuck hret
    obtain ⟨hnext, c, answers, hfault, hstep⟩ := step_stuck hstuck
    rw [hfeed, hstep]
    apply iff_of_false
    · simp
    · intro hshort
      have hdone := (runs_transcribed hpre).1 (by simp [hnext])
      obtain ⟨fs, hfs⟩ := hdone.runs
      rw [handleByte_fault_iff hdone.reachable,
        processByte_fault_iff (Comms.runs_tracks hfs)] at hfault
      obtain ⟨line, hline, hlong⟩ := hfault
      apply hlong
      apply hshort
      rw [handed_append, handleByte_handed, Comms.commandLines_concat]
      exact List.mem_append_right _ hline

/-- What the main loop meets in one round: a byte from the host or none, the USART, and a
host that is ready again and again. -/
structure Host where
  rx : Option Byte
  usartTxReady : Bool
  ready : Nat → Bool
  listens : ∀ n, ∃ m, n ≤ m ∧ ready m = true

/-- The environment is the host up to some number of answers. -/
def Host.Gives (host : Host) (env : Env) : Prop :=
  ∃ n, env = ⟨host.rx, host.usartTxReady, answersUpTo host.ready n⟩

def rounds (envs : List Env) : List Input :=
  envs.flatMap fun env => List.replicate 3 (.mainLoop env)

/-- The board at the start of a round, outside the interrupt handler. -/
structure Ready (b : Board) (bs : List Byte) (s : Comms.State) : Prop where
  outside : b.inHandler = false
  next : b.next = .usbInput
  queue : b.beagleInFIFO.contents = bs
  parser : b.comms = s

theorem mainLoop_outside {b t : Board} {env : Env} {es : List Event} (hin : b.inHandler = false)
    (h : mainLoop b env = ⟨es, .ret t⟩) : t.inHandler = false := by
  cases mainLoop_moves hin h with
  | _ => exact hin

theorem handed_block {b t : Board} {env : Env} {es : List Event} (hnext : b.next ≠ .beagleInput)
    (h : mainLoop b env = ⟨es, .ret t⟩) : handed es = [] := by
  cases mainLoop_turns h with
  | aside _ _ hhanded _ => exact hhanded
  | handled hnext' => exact absurd hnext' hnext
  | stuck hnext' => exact absurd hnext' hnext

theorem round_takes {b : Board} {c : Byte} {bs : List Byte} {s t : Comms.State} {env : Env}
    (hb : Ready b (c :: bs) s) (ht : (handleByte s c env.cdcTxReady).outcome = .ret t) :
    ∃ es b', Runs step b (List.replicate 3 (.mainLoop env)) es b' ∧ Ready b' bs t ∧
      handed es = [c] := by
  obtain ⟨hin, hnext, hqueue, rfl⟩ := hb
  obtain ⟨es₁, b₁, h₁, hnext₁, hcomms₁, hfifo₁⟩ := usbInput_block hnext env
  have hin₁ := mainLoop_outside hin h₁
  obtain ⟨es₂, b₂, h₂, hnext₂, hcomms₂, hfifo₂⟩ := usartOutput_block hnext₁ env
  have hin₂ := mainLoop_outside hin₁ h₂
  obtain ⟨q, hq⟩ := Fifo.pull?_of_contents hqueue
  have hrest : q.contents = bs := by
    have hcontents := Fifo.contents_of_pull? hq
    rw [hqueue, List.cons.injEq] at hcontents
    exact hcontents.2.symm
  have hq₂ : b₂.beagleInFIFO.pull? = some (c, q) := by rw [hfifo₂, hfifo₁, hq]
  have hcomms : b₂.comms = b.comms := hcomms₂.trans hcomms₁
  have hhandle : handleByte b₂.comms c env.cdcTxReady =
      ⟨(handleByte b.comms c env.cdcTxReady).events, .ret t⟩ := by rw [hcomms, ← ht]
  have h₃ : mainLoop b₂ env = ⟨(handleByte b.comms c env.cdcTxReady).events,
      .ret { b₂ with beagleInFIFO := q, comms := t, next := .usbInput }⟩ := by
    simp only [mainLoop, hnext₂, hq₂, hhandle]
  refine ⟨es₁ ++ (es₂ ++ (handleByte b.comms c env.cdcTxReady).events),
    { b₂ with beagleInFIFO := q, comms := t, next := .usbInput }, ?_, ⟨hin₂, rfl, hrest, rfl⟩, ?_⟩
  · refine runs_cons ((step_mainLoop hin env).trans h₁) ?_
    refine runs_cons ((step_mainLoop hin₁ env).trans h₂) ?_
    exact runs_one.mpr ((step_mainLoop hin₂ env).trans h₃)
  · rw [handed_append, handed_append, handed_block (by simp [hnext]) h₁,
      handed_block (by simp [hnext₁]) h₂, handleByte_handed]
    rfl

/-- With hosts that keep listening, as many rounds as there are bytes in the queue hand all
of them to the parser, in order, and leave the queue empty. -/
theorem queue_drains {b : Board} {bs : List Byte} {s t : Comms.State} (hs : Comms.Reachable s)
    (hb : Ready b bs s) (ht : (Comms.feed s bs).outcome = .ret t) {hosts : List Host}
    (hhosts : hosts.length = bs.length) :
    ∃ envs es b', List.Forall₂ Host.Gives hosts envs ∧ Runs step b (rounds envs) es b' ∧
      Ready b' [] t ∧ handed es = bs := by
  induction bs generalizing b s hosts with
  | nil =>
    obtain rfl := List.length_eq_zero_iff.mp hhosts
    cases ht
    exact ⟨[], [], b, .nil, .refl b, hb, rfl⟩
  | cons c bs ih =>
    obtain ⟨host, hosts, rfl⟩ := List.exists_cons_of_length_eq_add_one hhosts
    obtain ⟨u, hu, hrest⟩ := bind_returns.mp ht
    obtain ⟨n, hn⟩ := handleByte_of_processByte host.listens hu
    let env : Env := ⟨host.rx, host.usartTxReady, answersUpTo host.ready n⟩
    have henv : (handleByte s c env.cdcTxReady).outcome = .ret u := hn
    obtain ⟨es₁, b₁, hrun₁, hb₁, hhanded₁⟩ := round_takes hb henv
    have hu' : Comms.Reachable u := by
      obtain ⟨pre, hpre⟩ := hs
      refine ⟨pre ++ [c], ?_⟩
      rw [Comms.feed, feed_append]
      exact bind_returns.mpr ⟨s, hpre, bind_returns.mpr ⟨u, hu, rfl⟩⟩
    obtain ⟨envs, es₂, b₂, hgives, hrun₂, hb₂, hhanded₂⟩ :=
      ih hu' hb₁ hrest (Nat.succ.inj hhosts)
    refine ⟨_ :: envs, es₁ ++ es₂, b₂, .cons ⟨n, rfl⟩ hgives, ?_, hb₂, ?_⟩
    · exact runs_append.mpr ⟨es₁, b₁, es₂, hrun₁, hrun₂, rfl⟩
    · rw [handed_append, hhanded₁, hhanded₂]
      rfl

def pausing : Host where
  rx := none
  usartTxReady := true
  ready n := n % 3 == 2
  listens n := ⟨3 * n + 2, by omega, by rw [Nat.mul_add_mod]; rfl⟩

theorem queue_drains_unknown_command :
    ∃ s t, Comms.Reachable s ∧ (Comms.feed s (ascii "://x\n")).outcome = .ret t ∧ Comms.Idle t ∧
      ∃ b, Ready b (ascii "://x\n") s ∧
        ∃ envs es b', List.Forall₂ Host.Gives (List.replicate 5 pausing) envs ∧
          Runs step b (rounds envs) es b' ∧ Ready b' [] t ∧ handed es = ascii "://x\n" := by
  obtain ⟨t, ht, hidle⟩ := runs_of_ret? Comms.processByte Comms.powerUp
    (ascii "avr://lcd clear\navr" ++ ascii "://x\n") (fun t => (t.inCommand, t.commandPrefixIndex))
    (v := (false, 0)) (by decide +kernel)
  obtain ⟨es₁, s, es₂, hs, hrest, -⟩ := runs_append.mp ht
  obtain ⟨hin, hprefix⟩ := Prod.mk.inj hidle
  have hreachable : Comms.Reachable s := Comms.Runs.reachable hs
  have ht : (Comms.feed s (ascii "://x\n")).outcome = .ret t := by rw [Comms.feed, hrest]
  let b : Board := { powerUp with
    beagleInFIFO := (ascii "://x\n").foldl Fifo.push Fifo.empty
    comms := s }
  have hqueue : ((ascii "://x\n").foldl Fifo.push (Fifo.empty : Fifo fifoBufferSize Byte)).contents =
      ascii "://x\n" := by
    decide
  have hb : Ready b (ascii "://x\n") s := ⟨rfl, rfl, hqueue, rfl⟩
  have hhosts : (List.replicate 5 pausing).length = (ascii "://x\n").length := rfl
  obtain ⟨envs, es, b', hdrained⟩ := queue_drains hreachable hb ht hhosts
  exact ⟨s, t, hreachable, ht, ⟨hin, hprefix⟩, b, hb, envs, es, b', hdrained⟩

end BowerBird.Power
