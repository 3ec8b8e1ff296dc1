import BowerBird.SoundConsole

/-!
# The gains that the console sets

The start-up writes 32 to each of the eight registers and each `q` writes 182 to the
first. A write that fails changes nothing and is not repeated, so a gain tells which of
the writes were acknowledged.
-/

namespace BowerBird.Console

open Firmware Firmware.CString Firmware.Printf
open PreAmp (Pots numChannels register statusOk)
set_option autoImplicit false

variable {ev : Evaluation} {pots : Pots} {loaded : Volatile → BitVec 32}
variable {m t : Machine} {i : Input} {is : List Input} {es fs : List Event}
variable {task : Task} {todo : List Task}

theorem mem_startup :
    task ∈ startup ↔ task ∈ initialise ∨ (∃ c, task = .write c 32#8) ∨ task = .result := by
  simp only [startup, List.mem_append, List.mem_map, List.mem_finRange, true_and,
    List.mem_singleton, or_assoc, eq_comm]

theorem mem_reply {c : Byte} (h : task ∈ reply ev c) :
    task ∈ initialise ∨ task = .pbaHz ∨ task = .write 0 182#8 ∨ task = .result ∨
      (∃ v, task = .load v) ∨ task = .showLatest ∨ task = .status := by
  simp only [reply, List.mem_append] at h
  rcases h with (h | h) | h
  · split at h
    · exact .inr (.inl (List.mem_singleton.mp h))
    · cases h
  · split at h
    · simp only [List.mem_append, List.mem_cons, List.not_mem_nil, or_false] at h
      rcases h with h | h | h
      · exact .inl h
      · exact .inr (.inr (.inl h))
      · exact .inr (.inr (.inr (.inl h)))
    · cases h
  · split at h
    · simp only [List.mem_append, List.mem_map, List.mem_cons, List.not_mem_nil, or_false] at h
      rcases h with ⟨v, -, rfl⟩ | h
      · exact .inr (.inr (.inr (.inr (.inl ⟨v, rfl⟩))))
      · exact .inr (.inr (.inr (.inr (.inr h))))
    · cases h

theorem mem_initialise :
    task ∈ initialise ↔ task = .print (ascii "Initialising I2C...\r\n") ∨ task = .init := by
  simp [initialise]

theorem Account.next (h : Account ev pots loaded is es m) (htodo : m.todo = task :: todo) :
    (task ∈ startup ∧ ∀ p ∈ done ev pots loaded is, p.1 ∈ startup) ∨ ∃ c, task ∈ reply ev c := by
  have htasks := h.tasks
  rw [htodo] at htasks
  rcases List.append_eq_append_iff.mp htasks with ⟨front, hstartup, hrest⟩ | ⟨back, -, hrest⟩
  · cases front with
    | nil =>
      have hmem : task ∈ (chars ev pots loaded is).flatMap (reply ev) := by
        rw [← List.nil_append (List.flatMap _ _), ← hrest]
        exact List.mem_cons_self
      obtain ⟨c, -, hc⟩ := List.mem_flatMap.mp hmem
      exact .inr ⟨c, hc⟩
    | cons first front =>
      obtain ⟨rfl, -⟩ := List.cons.inj hrest
      refine .inl ⟨by rw [hstartup]; simp, ?_⟩
      intro p hp
      rw [hstartup]
      exact List.mem_append_left _ (List.mem_map_of_mem hp)
  · have hmem : task ∈ (chars ev pots loaded is).flatMap (reply ev) := by
      rw [hrest]
      simp
    obtain ⟨c, -, hc⟩ := List.mem_flatMap.mp hmem
    exact .inr ⟨c, hc⟩

theorem Account.next_write (h : Account ev pots loaded is es m) {c : Fin numChannels} {v : Byte}
    (htodo : m.todo = .write c v :: todo) :
    (v = 32#8 ∧ ∀ p ∈ done ev pots loaded is, p.1 ∈ startup) ∨ (c = 0 ∧ v = 182#8) := by
  rcases h.next htodo with ⟨hmem, hdone⟩ | ⟨x, hmem⟩
  · refine .inl ⟨?_, hdone⟩
    simpa [mem_startup, mem_initialise] using hmem
  · refine .inr ?_
    simpa [mem_initialise] using mem_reply hmem

/-- The writes of `main_loop` that the pre-amplifiers have acknowledged are all that has
changed their registers. -/
structure Gains (pots : Pots) (done : List (Task × Int)) (now : Pots) : Prop where
  others : ∀ c, c ≠ 0 → now (register c) =
    if (Task.write c 32#8, statusOk) ∈ done then 32#8 else pots (register c)
  first : now (register 0) =
    if (Task.write 0 182#8, statusOk) ∈ done then 182#8
    else if (Task.write 0 32#8, statusOk) ∈ done then 32#8
    else pots (register 0)

/-- What `PreAmp_read( 0 )` returns then. -/
def resultAfter (pots : Pots) (done : List (Task × Int)) (answer : Int) : Int :=
  if answer ≠ statusOk then 66
  else if (Task.write 0 182#8, statusOk) ∈ done then -74
  else if (Task.write 0 32#8, statusOk) ∈ done then 32
  else (pots (register 0)).toInt

theorem Gains.other_task {done : List (Task × Int)} {now : Pots} (h : Gains pots done now)
    {answer : Int} (htask : ∀ c v, task ≠ .write c v) : Gains pots (done ++ [(task, answer)]) now := by
  have hmem : ∀ c v, (Task.write c v, statusOk) ∈ done ++ [(task, answer)] ↔
      (Task.write c v, statusOk) ∈ done := by
    intro c v
    simp [(htask c v).symm]
  constructor
  · simp only [hmem]
    exact h.others
  · simp only [hmem]
    exact h.first

theorem Gains.startup_write {done : List (Task × Int)} {now : Pots} (h : Gains pots done now)
    {answer : Int} (c : Fin numChannels) (hdone : ∀ p ∈ done, p.1 ∈ startup) :
    Gains pots (done ++ [(.write c 32#8, answer)]) (PreAmp.written now c 32#8 answer) := by
  have hlater : ∀ s, (Task.write 0 182#8, s) ∉ done ++ [(.write c 32#8, answer)] := by
    intro s hmem
    rcases List.mem_append.mp hmem with hmem | hmem
    · simpa [mem_startup, mem_initialise] using hdone _ hmem
    · simp at hmem
  have hwrite : ∀ d, (Task.write d 32#8, statusOk) ∈ done ++ [(.write c 32#8, answer)] ↔
      (c = d ∧ answer = statusOk) ∨ (Task.write d 32#8, statusOk) ∈ done := by
    intro d
    simp only [List.mem_append, List.mem_singleton, Prod.mk.injEq, Task.write.injEq, and_true,
      or_comm, eq_comm]
  constructor
  · intro d hd
    rw [PreAmp.written_apply, h.others d hd]
    simp only [hwrite, ite_or]
  · have hfirst := h.first
    have hnone : (Task.write 0 182#8, statusOk) ∉ done := fun hmem =>
      hlater statusOk (List.mem_append_left _ hmem)
    rw [if_neg hnone] at hfirst
    rw [PreAmp.written_apply, hfirst, if_neg (hlater statusOk)]
    simp only [hwrite, ite_or]

theorem Gains.reply_write {done : List (Task × Int)} {now : Pots} (h : Gains pots done now)
    (answer : Int) :
    Gains pots (done ++ [(.write 0 182#8, answer)]) (PreAmp.written now 0 182#8 answer) := by
  have hearly : ∀ d, (Task.write d 32#8, statusOk) ∈ done ++ [(.write 0 182#8, answer)] ↔
      (Task.write d 32#8, statusOk) ∈ done := by
    intro d
    simp
  constructor
  · intro d hd
    rw [PreAmp.written_apply, if_neg fun hc => hd hc.1.symm, h.others d hd]
    simp only [hearly]
  · rw [PreAmp.written_apply, h.first]
    simp only [hearly, List.mem_append, List.mem_singleton, Prod.mk.injEq, true_and]
    by_cases hanswer : answer = statusOk
    · simp [hanswer]
    · simp [hanswer, Ne.symm hanswer]

theorem runs_gains (h : Runs (step ev) (start pots loaded) is es m) :
    Gains pots (done ev pots loaded is) m.pots := by
  refine Runs.history (C := fun _ _ => True) (H := fun is _ m =>
    Gains pots (done ev pots loaded is) m.pots) ⟨?_, ?_⟩ ?_ along_true h
  · intro c _
    rfl
  · rfl
  intro is es s i fs u hr hs _ hstep
  have haccount := runs_account hr
  rw [done_concat hr]
  cases move_of_step hstep with
  | interrupt => simpa [taskDone] using hs
  | polled h => simpa [taskDone, h] using hs
  | char _ h => simpa [taskDone, h] using hs
  | @task rx answer task todo _ _ htodo hp =>
    have hdone : taskDone s (.mainLoop rx answer) = [(task, answer)] := by simp [taskDone, htodo]
    rw [hdone]
    cases hp with
    | write c v =>
      rcases haccount.next_write htodo with ⟨rfl, hstartup⟩ | ⟨rfl, rfl⟩
      · exact hs.startup_write c hstartup
      · exact hs.reply_write answer
    | @line _ _ hline =>
      apply hs.other_task
      rintro c v rfl
      cases hline
    | init => exact hs.other_task (by simp)
    | result => exact hs.other_task (by simp)
    | load => exact hs.other_task (by simp)

theorem readValue_eq {done : List (Task × Int)} {now : Pots} (h : Gains pots done now)
    (answer : Int) : PreAmp.readValue now 0 answer = resultAfter pots done answer := by
  unfold PreAmp.readValue resultAfter
  rw [h.first]
  by_cases hanswer : answer = statusOk
  · rw [if_pos hanswer, if_neg (not_not_intro hanswer)]
    split
    · rfl
    · split <;> rfl
  · rw [if_neg hanswer, if_pos hanswer]

theorem Account.known (h : Account ev pots loaded is es m) (htodo : m.todo = task :: todo) :
    task ∈ initialise ∨ task = .pbaHz ∨ (∃ c v, task = .write c v) ∨ task = .result ∨
      (∃ v, task = .load v) ∨ task = .showLatest ∨ task = .status := by
  rcases h.next htodo with ⟨hmem, -⟩ | ⟨c, hmem⟩
  · rcases mem_startup.mp hmem with h | ⟨c, rfl⟩ | h
    · exact .inl h
    · exact .inr (.inr (.inl ⟨c, _, rfl⟩))
    · exact .inr (.inr (.inr (.inl h)))
  · rcases mem_reply hmem with h | h | h | h
    · exact .inl h
    · exact .inr (.inl h)
    · exact .inr (.inr (.inl ⟨_, _, h⟩))
    · exact .inr (.inr (.inr h))

def plainFormats : List (List Byte) :=
  [ascii "Initialising I2C...\r\n", ascii "TARGET SLAVE FIND:\tPASS\r\n",
    ascii "TARGET CHIP FIND:\tFAILED\r\n", ascii "sysclk_get_pba_hz() = %d\r\n",
    ascii "status = %d\r\n"]

theorem Account.printed (h : Account ev pots loaded is es m) {rx : Option Byte} {answer : Int}
    {format : List Byte} {args : List Arg}
    (hline : .printf format args ∈ (step ev m (.mainLoop rx answer)).events) :
    format ∈ plainFormats ∨
      (format = resultFormat ∧ args = [word (PreAmp.readValue m.pots 0 answer)]) ∨
      (format = latestFormat ∧ (∃ todo, m.todo = .showLatest :: todo) ∧
        args = arguments.map fun v => .word (m.loaded v)) := by
  obtain ⟨fs, t, hstep, hmove⟩ := @mainLoop_moves ev m rx answer
  rw [hstep] at hline
  cases hmove with
  | polled => cases hline
  | char => simp at hline
  | @task _ _ task todo _ _ htodo hp =>
    cases hp with
    | @line _ e he =>
      obtain rfl := List.mem_singleton.mp hline
      have hknown := h.known htodo
      simp only [mem_initialise] at hknown
      rcases hknown with (rfl | rfl) | rfl | ⟨c, v, rfl⟩ | rfl | ⟨v, rfl⟩ | rfl | rfl
      all_goals cases he
      · exact .inl (by simp [plainFormats])
      · exact .inl (by simp [plainFormats])
      · exact .inr (.inr ⟨rfl, ⟨todo, htodo⟩, rfl⟩)
      · exact .inl (by simp [plainFormats])
    | init hreport =>
      simp only [List.mem_cons, reduceCtorEq, Event.printf.injEq, List.not_mem_nil, or_false,
        false_or] at hline
      obtain ⟨rfl, -⟩ := hline
      rcases hreport with rfl | rfl
      · exact .inl (by simp [plainFormats])
      · exact .inl (by simp [plainFormats])
    | write => simp at hline
    | result =>
      simp only [List.mem_cons, reduceCtorEq, resultLine, Event.printf.injEq, List.not_mem_nil,
        or_false, false_or] at hline
      exact .inr (.inl hline)
    | load => cases hline

/-- The gains in every state that the console and the interrupts lead to, and the result
that the console shows next: 182 is shown as -74, and a read that fails as 66. -/
theorem console_sets_gains (h : Runs (step ev) (start pots loaded) is es m) :
    Gains pots (done ev pots loaded is) m.pots ∧
      ∀ rx answer args, .printf resultFormat args ∈ (step ev m (.mainLoop rx answer)).events →
        args = [word (resultAfter pots (done ev pots loaded is) answer)] := by
  have hgains := runs_gains h
  refine ⟨hgains, ?_⟩
  intro rx answer args hline
  rcases (runs_account h).printed hline with hplain | ⟨-, hargs⟩ | ⟨hformat, -⟩
  · exact absurd hplain (by decide)
  · rw [hargs, readValue_eq hgains]
  · exact absurd hformat (by decide)

def tuned : List Input :=
  List.replicate 5 (.mainLoop none 0) ++ [.interrupt (.enable 1#8), .mainLoop none (-1)] ++
    List.replicate 5 (.mainLoop none 0) ++ .mainLoop (some 0x71#8) 0 ::
      List.replicate 3 (.mainLoop none 0)

theorem console_sets_gains_tuned :
    ∃ es m, Runs (step ⟨arguments, .refl _⟩) (start (fun _ => 0#8) fun _ => 0#32) tuned es m ∧
      m.pots (register 0) = 182#8 ∧ m.pots (register 3) = 0#8 := by
  obtain ⟨es, m, h⟩ := @runs_exist ⟨arguments, .refl _⟩ (fun _ => 0#8) (fun _ => 0#32) tuned
  have hgains := (console_sets_gains h).1
  refine ⟨es, m, h, ?_, ?_⟩
  · rw [hgains.first, if_pos (by decide +kernel)]
  · rw [hgains.others 3 (by decide), if_neg (by decide +kernel)]

def Event.pin? : Event → Option Bool
  | .preAmp .gpioSet => some true
  | .preAmp .gpioClr => some false
  | _ => none

/-- What the pin is driven to after these events. -/
def pinAfter (pin : Option Bool) (es : List Event) : Option Bool :=
  es.foldl (fun pin e => e.pin?.or pin) pin

/-- Each write transfer finds the protection off, and each read transfer finds it on. -/
def Guarded : Option Bool → List Event → Prop
  | _, [] => True
  | pin, e :: es =>
    (∀ t v, e = .preAmp (.writePacket t v) → pin = some true) ∧
      (∀ t, e = .preAmp (.readPacket t) → pin = some false) ∧ Guarded (e.pin?.or pin) es

theorem pinAfter_append (pin : Option Bool) (es fs : List Event) :
    pinAfter pin (es ++ fs) = pinAfter (pinAfter pin es) fs := List.foldl_append

theorem guarded_append (pin : Option Bool) (es fs : List Event) :
    Guarded pin (es ++ fs) ↔ Guarded pin es ∧ Guarded (pinAfter pin es) fs := by
  induction es generalizing pin with
  | nil => simp [Guarded, pinAfter]
  | cons e es ih =>
    simp only [List.cons_append, Guarded, ih, and_assoc]
    rfl

def Event.plain : Event → Bool
  | .preAmp .gpioSet | .preAmp .gpioClr => false
  | .preAmp (.writePacket _ _) | .preAmp (.readPacket _) => false
  | _ => true

theorem plain_guarded {fs : List Event} (h : ∀ e ∈ fs, e.plain = true) (pin : Option Bool) :
    Guarded pin fs ∧ pinAfter pin fs = pin := by
  induction fs with
  | nil => exact ⟨trivial, rfl⟩
  | cons e fs ih =>
    have he := h e List.mem_cons_self
    obtain ⟨hguarded, hpin⟩ := ih fun f hf => h f (List.mem_cons_of_mem e hf)
    have hpin? : e.pin? = none := by
      unfold Event.plain at he
      unfold Event.pin?
      split <;> simp_all
    refine ⟨⟨?_, ?_, by rwa [hpin?]⟩, ?_⟩
    · rintro t v rfl
      cases he
    · rintro t rfl
      cases he
    · rw [pinAfter, List.foldl_cons, hpin?]
      exact hpin

theorem Performs.guarded {answer : Int} (h : Performs m answer task fs t) {pin : Option Bool}
    (hpin : task = .result → pin = some false) :
    Guarded pin fs ∧ (pinAfter pin fs = some false ∨ (task ≠ .init ∧ pinAfter pin fs = pin)) := by
  cases h with
  | @line _ e he =>
    have hplain : e.plain = true := by
      unfold Task.line? at he
      split at he <;> cases he <;> rfl
    have hall : ∀ f ∈ [e], f.plain = true := by simpa using hplain
    obtain ⟨hguarded, hsame⟩ := plain_guarded hall pin
    refine ⟨hguarded, .inr ⟨?_, hsame⟩⟩
    rintro rfl
    cases he
  | init => exact ⟨by simp [Guarded], .inl rfl⟩
  | write => exact ⟨by simp [Guarded, Event.pin?], .inl rfl⟩
  | result => exact ⟨by simp [Guarded, resultLine, hpin rfl], .inl (hpin rfl)⟩
  | load => exact ⟨trivial, .inr ⟨by simp, rfl⟩⟩

theorem Account.initialised (h : Account ev pots loaded is es m) (htodo : m.todo = task :: todo)
    (htask : task ∉ initialise) : ∃ answer, (Task.init, answer) ∈ done ev pots loaded is := by
  have htasks := h.tasks
  rw [htodo] at htasks
  rcases hdone : done ev pots loaded is with _ | ⟨p, _ | ⟨⟨q, answer⟩, rest⟩⟩
  · rw [hdone] at htasks
    exact absurd (by rw [(List.cons.inj htasks).1]; exact List.mem_cons_self) htask
  · rw [hdone] at htasks
    have htail := (List.cons.inj htasks).2
    exact absurd (by rw [(List.cons.inj htail).1]; exact List.mem_cons_of_mem _ List.mem_cons_self)
      htask
  · rw [hdone] at htasks
    obtain rfl : q = .init := (List.cons.inj (List.cons.inj htasks).2).1
    exact ⟨answer, by simp⟩

/-- Whatever interrupts it, `main_loop` takes the write protection off for write transfers
only, and from the first `PreAmp_Init` on it is on wherever a task ends. -/
theorem write_protected (h : Runs (step ev) (start pots loaded) is es m) :
    Guarded none es ∧
      ((∃ answer, (Task.init, answer) ∈ done ev pots loaded is) →
        pinAfter none es = some false) := by
  refine Runs.history (C := fun _ _ => True) (H := fun is es _ => Guarded none es ∧
    ((∃ answer, (Task.init, answer) ∈ done ev pots loaded is) → pinAfter none es = some false))
    ⟨trivial, ?_⟩ ?_ along_true h
  · rintro ⟨answer, hmem⟩
    cases hmem
  intro is es s i fs u hr hs _ hstep
  obtain ⟨hguarded, hpin⟩ := hs
  have haccount := runs_account hr
  rw [done_concat hr, guarded_append, pinAfter_append]
  cases move_of_step hstep with
  | @interrupt i gs =>
    have hplain : ∀ e ∈ gs.map Event.sound, e.plain = true := by simp [Event.plain]
    obtain ⟨hg, hp⟩ := plain_guarded hplain (pinAfter none es)
    rw [hp]
    exact ⟨⟨hguarded, hg⟩, by simpa [taskDone] using hpin⟩
  | polled h =>
    exact ⟨⟨hguarded, trivial⟩, by simpa [taskDone, h, pinAfter] using hpin⟩
  | char c h =>
    have hplain : ∀ e ∈ [Event.getc c, .putc c], e.plain = true := by simp [Event.plain]
    obtain ⟨hg, hp⟩ := plain_guarded hplain (pinAfter none es)
    rw [hp]
    exact ⟨⟨hguarded, hg⟩, by simpa [taskDone, h] using hpin⟩
  | @task rx answer task todo _ _ htodo hp =>
    have hresult : task = .result → pinAfter none es = some false := by
      rintro rfl
      exact hpin (haccount.initialised htodo (by simp [mem_initialise]))
    obtain ⟨hg, hafter⟩ := hp.guarded hresult
    refine ⟨⟨hguarded, hg⟩, ?_⟩
    rcases hafter with hafter | ⟨hne, hafter⟩
    · exact fun _ => hafter
    · rw [hafter]
      have hdone : taskDone s (.mainLoop rx answer) = [(task, answer)] := by simp [taskDone, htodo]
      simpa [hdone, hne.symm] using hpin

theorem write_protected_tuned :
    ∃ es m, Runs (step ⟨arguments, .refl _⟩) (start (fun _ => 0#8) fun _ => 0#32) tuned es m ∧
      Guarded none es ∧ pinAfter none es = some false := by
  obtain ⟨es, m, h⟩ := @runs_exist ⟨arguments, .refl _⟩ (fun _ => 0#8) (fun _ => 0#32) tuned
  obtain ⟨hguarded, hpin⟩ := write_protected h
  exact ⟨es, m, h, hguarded, hpin ⟨0, by decide +kernel⟩⟩

end BowerBird.Console
