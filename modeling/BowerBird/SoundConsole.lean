import BowerBird.SoundSteps
import BowerBird.PreAmpGains

/-!
# The console of the sound board

`main_loop` of `main.c` sets the gains and then answers the characters that the USB
host sends. The interrupt handlers preempt it anywhere. They use neither the pin and
the bus of the pre-amplifiers nor the globals of `main_loop`, so a call of `PreAmp.c`
is one step; but each of the volatile variables that a reply shows is read in a step
of its own.
-/

namespace BowerBird.Console

open Firmware Firmware.CString Firmware.Printf
open Sound (numAdcChannels Adc)
open PreAmp (Pots numChannels)
set_option autoImplicit false

/-- The variables that the `printf` of the reply to `a` takes as arguments. -/
inductive Volatile where
  | spiHandlerCalled
  | spiWrites
  | latestChannel
  | latestSamples1 (j : Fin numAdcChannels)
  deriving Repr, DecidableEq

/-- What is left of `main_loop` before it polls again is a list of these. -/
inductive Task where
  | print (format : List Byte)
  | init
  | write (channel : Fin numChannels) (value : Byte)
  /-- `result = PreAmp_read( 0 )` and the line that shows it -/
  | result
  | pbaHz
  /-- an argument of the next `printf` is evaluated -/
  | load (v : Volatile)
  | showLatest
  | status
  deriving Repr, DecidableEq

structure Machine where
  board : Sound.Board
  pots : Pots
  todo : List Task
  loaded : Volatile → BitVec 32

inductive Event where
  | sound (e : Sound.Event)
  | preAmp (e : PreAmp.Event)
  /-- `udi_cdc_getc` -/
  | getc (c : Byte)
  /-- `udi_cdc_putc` -/
  | putc (c : Byte)
  | printf (format : List Byte) (args : List Arg)
  deriving Repr, DecidableEq

inductive Input where
  | interrupt (i : Sound.Input)
  /-- `main_loop` goes on: with the character that the host has sent, if it polls, else
  with what the hardware answers to the task -/
  | mainLoop (rx : Option Byte) (answer : Int)
  deriving Repr, DecidableEq

/-- The write protection goes on before the bus is set up. -/
def preAmpInit (status : Int) : Exec PreAmp.Event Int := do
  Exec.emit .gpioClr
  pure status

def initialise : List Task := [.print (ascii "Initialising I2C...\r\n"), .init]

def startup : List Task :=
  initialise ++ (List.finRange numChannels).map (.write · 32#8) ++ [.result]

def arguments : List Volatile :=
  [.spiHandlerCalled, .spiWrites, .latestChannel] ++
    (List.finRange numAdcChannels).map .latestSamples1

/-- C leaves open in which order the arguments of a call are evaluated. -/
structure Evaluation where
  order : List Volatile
  perm : order.Perm arguments

def reply (ev : Evaluation) (c : Byte) : List Task :=
  (if [c] = ascii "?" then [.pbaHz] else []) ++
    (if [c] = ascii "q" then initialise ++ [.write 0 182#8, .result] else []) ++
    (if [c] = ascii "a" then ev.order.map .load ++ [.showLatest, .status] else [])

def Volatile.value (a : Adc) : Volatile → BitVec 32
  | .spiHandlerCalled => a.spiHandlerCalled
  | .spiWrites => a.spiWrites
  -- the only assignment to it is commented out
  | .latestChannel => 0#32
  | .latestSamples1 j => (a.latestSamples1.get j).signExtend 32

def word (n : Int) : Arg := .word (BitVec.ofInt 32 n)

def resultFormat : List Byte := ascii "result = %d\r\n"

def latestFormat : List Byte := ascii "#%d,#%d -> [%d] %d,%d,%d,%d,%d,%d,%d,%d\r\n"

def perform (m : Machine) (answer : Int) : Task → Exec Event Machine
  | .print format => do
    Exec.emit (.printf format [])
    pure m
  | .init => do
    let ret ← (preAmpInit answer).lift .preAmp
    if ret = PreAmp.statusOk then
      Exec.emit (.printf (ascii "TARGET SLAVE FIND:\tPASS\r\n") [])
    else
      Exec.emit (.printf (ascii "TARGET CHIP FIND:\tFAILED\r\n") [])
    pure m
  | .write channel value => do
    let (pots, _) ← (PreAmp.preAmpWrite m.pots (BitVec.ofNat 8 channel) value answer).lift .preAmp
    pure { m with pots := pots }
  | .result => do
    let result ← (PreAmp.preAmpRead m.pots 0#8 answer).lift .preAmp
    Exec.emit (.printf resultFormat [word result])
    pure m
  | .pbaHz => do
    Exec.emit (.printf (ascii "sysclk_get_pba_hz() = %d\r\n") [word answer])
    pure m
  | .load v => pure { m with loaded := Function.update m.loaded v (v.value m.board.adc) }
  | .showLatest => do
    Exec.emit (.printf latestFormat (arguments.map fun v => .word (m.loaded v)))
    pure m
  | .status => do
    Exec.emit (.printf (ascii "status = %d\r\n") [word answer])
    pure m

def mainLoop (ev : Evaluation) (m : Machine) (rx : Option Byte) (answer : Int) :
    Exec Event Machine := do
  match m.todo with
  | task :: todo => perform { m with todo := todo } answer task
  | [] =>
    match rx with
    | none => pure m
    | some c =>
      Exec.emit (.getc c)
      Exec.emit (.putc c)
      pure { m with todo := reply ev c }

def step (ev : Evaluation) (m : Machine) : Input → Exec Event Machine
  | .interrupt i => do
    let board ← (Sound.step m.board i).lift .sound
    pure { m with board := board }
  | .mainLoop rx answer => mainLoop ev m rx answer

/-- Where `main` calls `main_loop`. -/
def start (pots : Pots) (loaded : Volatile → BitVec 32) : Machine :=
  ⟨Sound.powerUp, pots, startup, loaded⟩

section Steps
variable {ev : Evaluation} {m t : Machine} {fs : List Event}

def Task.line? (m : Machine) (answer : Int) : Task → Option Event
  | .print format => some (.printf format [])
  | .pbaHz => some (.printf (ascii "sysclk_get_pba_hz() = %d\r\n") [word answer])
  | .showLatest => some (.printf latestFormat (arguments.map fun v => .word (m.loaded v)))
  | .status => some (.printf (ascii "status = %d\r\n") [word answer])
  | _ => none

def resultLine (m : Machine) (answer : Int) : Event :=
  .printf resultFormat [word (PreAmp.readValue m.pots 0 answer)]

/-- What the task at the head shows and what it changes. -/
inductive Performs (m : Machine) (answer : Int) : Task → List Event → Machine → Prop where
  | line {task : Task} {e : Event} (h : task.line? m answer = some e) :
      Performs m answer task [e] m
  | init {report : List Byte} (h : report = ascii "TARGET SLAVE FIND:\tPASS\r\n" ∨
        report = ascii "TARGET CHIP FIND:\tFAILED\r\n") :
      Performs m answer .init [.preAmp .gpioClr, .printf report []] m
  | write (channel : Fin numChannels) (value : Byte) (report : List Byte) :
      Performs m answer (.write channel value)
        [.preAmp .gpioSet, .preAmp (.writePacket (PreAmp.transfer (BitVec.ofNat 8 channel)) value),
          .preAmp (.printf report), .preAmp .gpioClr]
        { m with pots := PreAmp.written m.pots channel value answer }
  | result (report : List Byte) :
      Performs m answer .result
        [.preAmp (.readPacket (PreAmp.transfer 0#8)), .preAmp (.printf report),
          resultLine m answer] m
  | load (v : Volatile) :
      Performs m answer (.load v) []
        { m with loaded := Function.update m.loaded v (v.value m.board.adc) }

theorem perform_performs (m : Machine) (answer : Int) (task : Task) :
    ∃ fs t, perform m answer task = ⟨fs, .ret t⟩ ∧ Performs m answer task fs t := by
  cases task with
  | print format => exact ⟨_, _, rfl, .line rfl⟩
  | init =>
    unfold perform preAmpInit
    by_cases h : answer = PreAmp.statusOk
    · exact ⟨_, _, by simp only [h]; rfl, .init (.inl rfl)⟩
    · refine ⟨_, _, ?_, .init (.inr rfl)⟩
      simp [Exec.lift, Exec.emit, Exec.pure_def, h]
  | write channel value =>
    obtain ⟨report, h⟩ := PreAmp.preAmpWrite_eq m.pots channel value answer
    exact ⟨_, _, by rw [perform, h]; rfl, .write channel value report⟩
  | result =>
    obtain ⟨report, h⟩ := PreAmp.preAmpRead_eq m.pots 0 answer
    have hread : PreAmp.preAmpRead m.pots 0#8 answer = _ := h
    exact ⟨_, _, by rw [perform, hread]; rfl, .result report⟩
  | pbaHz => exact ⟨_, _, rfl, .line rfl⟩
  | load v => exact ⟨_, _, rfl, .load v⟩
  | showLatest => exact ⟨_, _, rfl, .line rfl⟩
  | status => exact ⟨_, _, rfl, .line rfl⟩

inductive Move (ev : Evaluation) (m : Machine) : Input → List Event → Machine → Prop where
  | interrupt {i : Sound.Input} {fs : List Sound.Event} {b : Sound.Board}
      (h : Sound.step m.board i = ⟨fs, .ret b⟩) :
      Move ev m (.interrupt i) (fs.map .sound) { m with board := b }
  | polled {answer : Int} (h : m.todo = []) : Move ev m (.mainLoop none answer) [] m
  | char {answer : Int} (c : Byte) (h : m.todo = []) :
      Move ev m (.mainLoop (some c) answer) [.getc c, .putc c] { m with todo := reply ev c }
  | task {rx : Option Byte} {answer : Int} {task : Task} {todo : List Task} {fs : List Event}
      {t : Machine} (h : m.todo = task :: todo)
      (hp : Performs { m with todo := todo } answer task fs t) :
      Move ev m (.mainLoop rx answer) fs t

theorem mainLoop_moves (m : Machine) (rx : Option Byte) (answer : Int) :
    ∃ fs t, step ev m (.mainLoop rx answer) = ⟨fs, .ret t⟩ ∧
      Move ev m (.mainLoop rx answer) fs t := by
  simp only [step]
  cases htodo : m.todo with
  | cons task todo =>
    obtain ⟨fs, t, hperform, hp⟩ := perform_performs { m with todo := todo } answer task
    exact ⟨fs, t, by rw [mainLoop.eq_def, htodo]; exact hperform, .task htodo hp⟩
  | nil =>
    cases rx with
    | none => exact ⟨_, _, by rw [mainLoop.eq_def, htodo]; rfl, .polled htodo⟩
    | some c => exact ⟨_, _, by rw [mainLoop.eq_def, htodo]; rfl, .char c htodo⟩

theorem move_of_step {i : Input} (h : step ev m i = ⟨fs, .ret t⟩) : Move ev m i fs t := by
  cases i with
  | interrupt i =>
    rcases hs : Sound.step m.board i with ⟨es, b | _ | _⟩
    · have hlift : step ev m (.interrupt i) = ⟨es.map .sound ++ [], .ret { m with board := b }⟩ := by
        rw [step, hs]
        rfl
      rw [hlift, List.append_nil] at h
      cases h
      exact .interrupt hs
    · rw [step, hs] at h
      cases h
    · rw [step, hs] at h
      cases h
  | mainLoop rx answer =>
    obtain ⟨gs, u, hstep, hmove⟩ := @mainLoop_moves ev m rx answer
    rw [hstep] at h
    cases h
    exact hmove

theorem Performs.board {answer : Int} {task : Task} (h : Performs m answer task fs t) :
    t.board = m.board := by
  cases h <;> rfl

theorem runs_exist (pots : Pots) (loaded : Volatile → BitVec 32) (is : List Input) :
    ∃ es t, Runs (step ev) (start pots loaded) is es t := by
  have hstep : ∀ (m : Machine) i, Sound.WellFormed m.board →
      (step ev m i).Ensures (fun _ => True) fun t => Sound.WellFormed t.board := by
    intro m i hm
    cases i with
    | interrupt i =>
      obtain ⟨fs, b, hb, hmove⟩ := Sound.step_moves hm i
      exact ⟨fun _ _ => trivial, { m with board := b }, by rw [step, hb]; rfl, hmove.wellFormed hm⟩
    | mainLoop rx answer =>
      obtain ⟨fs, t, ht, hmove⟩ := @mainLoop_moves ev m rx answer
      refine ⟨fun _ _ => trivial, t, by rw [ht], ?_⟩
      cases hmove with
      | task _ hp => rw [hp.board]; exact hm
      | _ => exact hm
  obtain ⟨es, t, h, -, -⟩ := @runs_total _ _ _ (step ev) _ _ (start pots loaded)
    Sound.powerUp_wellFormed hstep is
  exact ⟨es, t, h⟩

end Steps

def Event.sound? : Event → Option Sound.Event
  | .sound e => some e
  | _ => none

def Input.interrupt? : Input → Option Sound.Input
  | .interrupt i => some i
  | _ => none

def interrupts (is : List Input) : List Sound.Input := is.filterMap Input.interrupt?

def charRead (m : Machine) : Input → List Byte
  | .mainLoop (some c) _ => if m.todo = [] then [c] else []
  | _ => []

def taskDone (m : Machine) : Input → List (Task × Int)
  | .mainLoop _ answer => m.todo.head?.toList.map (·, answer)
  | _ => []

def call? : Task × Int → Option PreAmp.Input
  | (.write channel value, status) => some (.write channel value status)
  | (.result, status) => some (.read 0 status)
  | _ => none

section Runs
variable (ev : Evaluation) (pots : Pots) (loaded : Volatile → BitVec 32)

def chars (is : List Input) : List Byte := gather (step ev) charRead (start pots loaded) is

def done (is : List Input) : List (Task × Int) := gather (step ev) taskDone (start pots loaded) is

/-- The interrupts alone explain the board and the calls alone the gains. What is done and
what is left of it are the start-up and one reply to each character, in their order. -/
structure Account (is : List Input) (es : List Event) (m : Machine) : Prop where
  board : Runs Sound.step Sound.powerUp (interrupts is) (es.filterMap Event.sound?) m.board
  calls : ∃ fs, Runs PreAmp.step pots ((done ev pots loaded is).filterMap call?) fs m.pots
  tasks : (done ev pots loaded is).map Prod.fst ++ m.todo =
    startup ++ (chars ev pots loaded is).flatMap (reply ev)

variable {ev pots loaded} {m t : Machine} {i : Input} {is : List Input} {es fs : List Event}

theorem Performs.todo {answer : Int} {task : Task} (h : Performs m answer task fs t) :
    t.todo = m.todo := by
  cases h <;> rfl

theorem Performs.silent {answer : Int} {task : Task} (h : Performs m answer task fs t) :
    fs.filterMap Event.sound? = [] := by
  cases h with
  | line h =>
    unfold Task.line? at h
    split at h <;> cases h <;> rfl
  | _ => rfl

theorem Performs.calls {answer : Int} {task : Task} (h : Performs m answer task fs t) :
    ∃ gs, Runs PreAmp.step m.pots (call? (task, answer)).toList gs t.pots := by
  cases h with
  | write channel value =>
    obtain ⟨report, hstep⟩ := PreAmp.step_write m.pots channel value answer
    exact ⟨_, runs_one.mpr hstep⟩
  | result =>
    obtain ⟨report, hstep⟩ := PreAmp.step_read m.pots 0 answer
    exact ⟨_, runs_one.mpr hstep⟩
  | @line _ _ h =>
    refine ⟨[], ?_⟩
    cases task <;> cases h <;> exact .refl _
  | init => exact ⟨[], .refl _⟩
  | load => exact ⟨[], .refl _⟩

theorem Move.board (h : Move ev m i fs t) :
    Runs Sound.step m.board i.interrupt?.toList (fs.filterMap Event.sound?) t.board := by
  cases h with
  | @interrupt _ gs _ h =>
    have hgs : (gs.map Event.sound).filterMap Event.sound? = gs := by
      rw [List.filterMap_map]
      exact List.filterMap_some
    rw [hgs]
    exact runs_one.mpr h
  | polled => exact .refl _
  | char => exact .refl _
  | task _ hp =>
    rw [hp.board, hp.silent]
    exact .refl _

theorem Move.calls (h : Move ev m i fs t) :
    ∃ gs, Runs PreAmp.step m.pots ((taskDone m i).filterMap call?) gs t.pots := by
  cases h with
  | interrupt => exact ⟨[], .refl _⟩
  | polled h =>
    simp only [taskDone, h]
    exact ⟨[], .refl _⟩
  | char _ h =>
    simp only [taskDone, h]
    exact ⟨[], .refl _⟩
  | @task _ answer task _ _ _ h hp =>
    have htask : (taskDone m (.mainLoop none answer)).filterMap call? =
        (call? (task, answer)).toList := by
      simp only [taskDone, h, List.head?_cons, Option.toList_some, List.map_cons, List.map_nil]
      cases hcall : call? (task, answer) <;> simp [hcall]
    obtain ⟨gs, hrun⟩ := hp.calls
    exact ⟨gs, htask ▸ hrun⟩

theorem Move.tasks (h : Move ev m i fs t) :
    (taskDone m i).map Prod.fst ++ t.todo = m.todo ++ (charRead m i).flatMap (reply ev) := by
  cases h with
  | interrupt => simp [taskDone, charRead]
  | polled h => simp [taskDone, charRead, h]
  | char _ h => simp [taskDone, charRead, h]
  | @task rx _ _ _ _ _ h hp => cases rx <;> simp [taskDone, charRead, h, hp.todo]

theorem done_concat (h : Runs (step ev) (start pots loaded) is es m) (i : Input) :
    done ev pots loaded (is ++ [i]) = done ev pots loaded is ++ taskDone m i :=
  gather_concat taskDone h i

theorem chars_concat (h : Runs (step ev) (start pots loaded) is es m) (i : Input) :
    chars ev pots loaded (is ++ [i]) = chars ev pots loaded is ++ charRead m i :=
  gather_concat charRead h i

theorem runs_account (h : Runs (step ev) (start pots loaded) is es m) :
    Account ev pots loaded is es m := by
  refine Runs.history (C := fun _ _ => True) (H := Account ev pots loaded)
    ⟨.refl _, ⟨[], .refl _⟩, (List.append_nil _).symm⟩ ?_ along_true h
  intro is es s i fs u hr hs _ hstep
  have hmove := move_of_step hstep
  refine ⟨?_, ?_, ?_⟩
  · have hin : interrupts (is ++ [i]) = interrupts is ++ i.interrupt?.toList := by
      rw [interrupts, List.filterMap_append]
      cases i <;> rfl
    rw [hin, List.filterMap_append]
    exact runs_append.mpr ⟨_, _, _, hs.board, hmove.board, rfl⟩
  · obtain ⟨gs, hcalls⟩ := hs.calls
    obtain ⟨gs', hcalls'⟩ := hmove.calls
    rw [done_concat hr, List.filterMap_append]
    exact ⟨gs ++ gs', runs_append.mpr ⟨_, _, _, hcalls, hcalls', rfl⟩⟩
  · calc (done ev pots loaded (is ++ [i])).map Prod.fst ++ u.todo
        = (done ev pots loaded is).map Prod.fst ++ ((taskDone s i).map Prod.fst ++ u.todo) := by
          rw [done_concat hr, List.map_append, List.append_assoc]
      _ = ((done ev pots loaded is).map Prod.fst ++ s.todo) ++
            (charRead s i).flatMap (reply ev) := by rw [hmove.tasks, List.append_assoc]
      _ = startup ++ (chars ev pots loaded (is ++ [i])).flatMap (reply ev) := by
          rw [hs.tasks, chars_concat hr, List.flatMap_append, List.append_assoc]

end Runs

end BowerBird.Console
