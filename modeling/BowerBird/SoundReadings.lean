import BowerBird.SoundGains
import BowerBird.SoundConversation

/-!
# The readings that the console shows

The reply to `a` reads eleven volatile variables one after another while interrupts
change them. Each number was right at some moment after the character had been read;
the moments can differ. `latestSamples1` is one of two buffers and gets every second
sample of a channel.
-/

namespace BowerBird.Sound

open Firmware
set_option autoImplicit false

def taggedSamples (j : Nat) (words : List (BitVec 16)) : List (BitVec 16) :=
  (words.filter fun word => tagOf word = j).map sampleOf

theorem taggedSamples_concat (j : Nat) (words : List (BitVec 16)) (word : BitVec 16) :
    taggedSamples j (words ++ [word]) =
      if tagOf word = j then taggedSamples j words ++ [sampleOf word] else taggedSamples j words := by
  unfold taggedSamples
  by_cases h : tagOf word = j <;> simp [List.filter_append, h]

theorem receivedWords_concat (is : List Input) (i : Input) :
    receivedWords (is ++ [i]) = receivedWords is ++ i.word?.toList := by
  rw [receivedWords, List.filterMap_append]
  cases hw : i.word? <;> simp [receivedWords, hw]

theorem runs_slot {is : List Input} {es : List Event} {b : Board}
    (h : Runs step powerUp is es b) (j : Fin numAdcChannels) :
    slot b.adc j = (slot powerUp.adc j).writes (taggedSamples j (receivedWords is)) := by
  refine runs_history (C := fun _ _ => True) (H := fun is _ b =>
    slot b.adc j = (slot powerUp.adc j).writes (taggedSamples j (receivedWords is))) rfl ?_
    along_true h
  intro is es s i fs u _ hs _ hmove
  rw [receivedWords_concat]
  cases hmove with
  | @spi rdrf _ word _ a _ hslot =>
    cases rdrf with
    | false => simpa [Input.word?, hslot j] using hs
    | true =>
      have hword : (Input.spiInterrupt true word ‹_›).word?.toList = [word] := rfl
      rw [hword, taggedSamples_concat]
      simp only [hslot j, true_and, channelOf_eq_iff]
      by_cases hj : tagOf word = j
      · rw [if_pos hj, if_pos hj, DoubleBuffer.writes_concat, hs]
      · rw [if_neg hj, if_neg hj, hs]
  | _ =>
    simp only [Input.word?, Option.toList_none, List.append_nil]
    exact hs

/-- The newest sample of even rank of channel `j`, scaled to sixteen bits. -/
def shownSample (j : Nat) (words : List (BitVec 16)) : Int :=
  let tagged := words.filter fun word => tagOf word = j
  match (tagged.take (2 * (tagged.length / 2))).getLast? with
  | some word => 16 * valueOf word
  | none => -1

theorem runs_latestSamples1 {is : List Input} {es : List Event} {b : Board}
    (h : Runs step powerUp is es b) (j : Fin numAdcChannels) :
    (b.adc.latestSamples1.get j).toInt = shownSample j (receivedWords is) := by
  have hslot : b.adc.latestSamples1.get j =
      ((slot powerUp.adc j).writes (taggedSamples j (receivedWords is))).slot1 := by
    rw [← runs_slot h j]
    rfl
  have hsecond : (slot powerUp.adc j).second = false := by
    simp [slot, get_eq_getElem, powerUp]
  rw [hslot, DoubleBuffer.slot1_writes _ _ hsecond, taggedSamples, shownSample, List.length_map,
    ← List.map_take, List.getLast?_map]
  cases (List.take _ _).getLast? with
  | none => simp [slot, get_eq_getElem, powerUp]
  | some word => exact toInt_sampleOf word

end BowerBird.Sound

namespace BowerBird.Console

open Firmware Firmware.CString Firmware.Printf
open Sound (numAdcChannels receivedWords answeredWords)
open PreAmp (Pots)
set_option autoImplicit false

/-- What a variable holds after these interrupts. -/
def Volatile.after (is : List Sound.Input) : Volatile → BitVec 32
  | .spiHandlerCalled => BitVec.ofNat 32 (receivedWords is).length
  | .spiWrites => BitVec.ofNat 32 (answeredWords is).length
  | .latestChannel => 0#32
  | .latestSamples1 j => BitVec.ofInt 32 (Sound.shownSample j (receivedWords is))

theorem value_eq_after {is : List Sound.Input} {es : List Sound.Event} {b : Sound.Board}
    (h : Runs Sound.step Sound.powerUp is es b) (v : Volatile) : v.value b.adc = v.after is := by
  cases v with
  | spiHandlerCalled => exact (Sound.runs_talked h).calls
  | spiWrites => exact (Sound.runs_talked h).writes
  | latestChannel => rfl
  | latestSamples1 j => rw [Volatile.after, ← Sound.runs_latestSamples1 h j]; rfl

section Replies
variable {ev : Evaluation} {pots : Pots} {loaded : Volatile → BitVec 32}
variable {m t : Machine} {i : Input} {is : List Input} {es fs : List Event} {task : Task}

theorem Performs.loads {answer : Int} (h : Performs m answer task fs t) (v : Volatile) :
    t.loaded v = if task = .load v then v.value m.board.adc else m.loaded v := by
  cases h with
  | load w =>
    by_cases hwv : w = v
    · subst hwv
      simp
    · simp [hwv, Function.update_of_ne (Ne.symm hwv)]
  | @line _ _ h =>
    rw [if_neg]
    rintro rfl
    cases h
  | _ => simp

/-- The character `c` was read behind `pre`, and `front` is what has been done since. What
has been loaded was right at some moment since then. -/
structure Replying (ev : Evaluation) (pots : Pots) (loaded : Volatile → BitVec 32)
    (is : List Input) (m : Machine) (c : Byte) where
  pre : List Input
  answer : Int
  mid : List Input
  front : List Task
  inputs : is = pre ++ .mainLoop (some c) answer :: mid
  idle : ∀ es s, Runs (step ev) (start pots loaded) pre es s → s.todo = []
  quiet : chars ev pots loaded is = chars ev pots loaded pre ++ [c]
  tasks : reply ev c = front ++ m.todo
  values : ∀ v, .load v ∈ front → ∃ p, p <+: mid ∧ m.loaded v = v.after (interrupts (pre ++ p))

theorem interrupts_reply (pre mid : List Input) (c : Byte) (answer : Int) :
    interrupts (pre ++ .mainLoop (some c) answer :: mid) = interrupts (pre ++ mid) := by
  simp [interrupts, List.filterMap_append, List.filterMap_cons, Input.interrupt?]

namespace Replying
variable {c : Byte}

def extend (r : Replying ev pots loaded is m c) (hr : Runs (step ev) (start pots loaded) is es m)
    (hchar : charRead m i = []) (more : List Task) (htodo : m.todo = more ++ t.todo)
    (hloaded : ∀ v, t.loaded v = if .load v ∈ more then v.value m.board.adc else m.loaded v) :
    Replying ev pots loaded (is ++ [i]) t c where
  pre := r.pre
  answer := r.answer
  mid := r.mid ++ [i]
  front := r.front ++ more
  inputs := (congrArg (· ++ [i]) r.inputs).trans (List.append_assoc _ _ _)
  idle := r.idle
  quiet := by rw [chars_concat hr, hchar, List.append_nil, r.quiet]
  tasks := by rw [r.tasks, htodo, List.append_assoc]
  values := by
    intro v hv
    rw [hloaded v]
    by_cases hmore : Task.load v ∈ more
    · refine ⟨r.mid, List.prefix_append _ _, ?_⟩
      have hin := congrArg interrupts r.inputs
      rw [interrupts_reply] at hin
      rw [if_pos hmore, value_eq_after (runs_account hr).board, hin]
    · rw [if_neg hmore]
      obtain ⟨p, hp, hval⟩ := r.values v ((List.mem_append.mp hv).resolve_right hmore)
      exact ⟨p, hp.trans (List.prefix_append _ _), hval⟩

def begin (hr : Runs (step ev) (start pots loaded) is es m) (hidle : m.todo = []) (answer : Int) :
    Replying ev pots loaded (is ++ [.mainLoop (some c) answer]) { m with todo := reply ev c } c where
  pre := is
  answer := answer
  mid := []
  front := []
  inputs := rfl
  idle := by
    intro es' s hs
    rw [Runs, hr] at hs
    cases hs
    exact hidle
  quiet := by rw [chars_concat hr, charRead, if_pos hidle]
  tasks := rfl
  values := by
    intro v hv
    cases hv

end Replying

/-- `main_loop` is in its start-up or in a reply. -/
theorem runs_replying (h : Runs (step ev) (start pots loaded) is es m) :
    (∃ front, startup = front ++ m.todo) ∨ ∃ c, Nonempty (Replying ev pots loaded is m c) := by
  refine Runs.history (C := fun _ _ => True) (H := fun is _ m =>
    (∃ front, startup = front ++ m.todo) ∨ ∃ c, Nonempty (Replying ev pots loaded is m c))
    (.inl ⟨[], rfl⟩) ?_ along_true h
  intro is es s i fs u hr hs _ hstep
  cases move_of_step hstep with
  | interrupt =>
    rcases hs with hs | ⟨c, ⟨r⟩⟩
    · exact .inl hs
    · exact .inr ⟨c, ⟨r.extend hr rfl [] rfl fun v => by simp⟩⟩
  | polled h =>
    rcases hs with hs | ⟨c, ⟨r⟩⟩
    · exact .inl hs
    · exact .inr ⟨c, ⟨r.extend hr rfl [] rfl fun v => by simp⟩⟩
  | char c h => exact .inr ⟨c, ⟨Replying.begin hr h _⟩⟩
  | @task rx _ task _ _ _ htodo hp =>
    have hu : s.todo = [task] ++ u.todo := by rw [hp.todo, htodo]; rfl
    rcases hs with ⟨front, hfront⟩ | ⟨c, ⟨r⟩⟩
    · exact .inl ⟨front ++ [task], by rw [hfront, hu, List.append_assoc]⟩
    · refine .inr ⟨c, ⟨r.extend hr ?_ [task] hu fun v => ?_⟩⟩
      · cases rx <;> simp [charRead, htodo]
      · rw [hp.loads v]
        simp [eq_comm]

theorem showLatest_mem_reply {c : Byte} (h : Task.showLatest ∈ reply ev c) : c = 0x61#8 := by
  by_contra hc
  have ha : [c] ≠ ascii "a" := fun heq => hc (List.cons.inj heq).1
  rw [reply, if_neg ha] at h
  simp only [List.mem_append, List.not_mem_nil, or_false] at h
  rcases h with h | h
  · split at h <;> simp at h
  · split at h <;> simp [initialise] at h

/-- All arguments have been evaluated when the line is printed. -/
theorem load_mem_front {front todo : List Task} {v : Volatile} (hv : v ∈ arguments)
    (h : reply ev 0x61#8 = front ++ .showLatest :: todo) : .load v ∈ front := by
  have hload : Task.load v ∈ ev.order.map Task.load :=
    List.mem_map_of_mem (ev.perm.mem_iff.mpr hv)
  have hreply : reply ev 0x61#8 = ev.order.map .load ++ [.showLatest, .status] := rfl
  rw [hreply] at h
  rcases List.append_eq_append_iff.mp h with ⟨back, rfl, -⟩ | ⟨back, hfront, hback⟩
  · exact List.mem_append_left _ hload
  · rw [hfront] at hload
    refine (List.mem_append.mp hload).resolve_right ?_
    cases back with
    | nil => simp
    | cons task back =>
      have hmem : task ∈ ev.order.map Task.load := by rw [hfront]; simp
      obtain ⟨w, -, rfl⟩ := List.mem_map.mp hmem
      cases hback

/-- When the console shows its readings, the last character it read is an `a`, and each
number is what its variable held at some moment after that. -/
theorem readings_shown (h : Runs (step ev) (start pots loaded) is es m) {rx : Option Byte}
    {answer : Int} {args : List Arg}
    (hline : .printf latestFormat args ∈ (step ev m (.mainLoop rx answer)).events) :
    ∃ (pre : List Input) (asked : Int) (mid : List Input) (shown : Volatile → BitVec 32),
      is = pre ++ .mainLoop (some 0x61#8) asked :: mid ∧
      (∀ es s, Runs (step ev) (start pots loaded) pre es s → s.todo = []) ∧
      chars ev pots loaded is = chars ev pots loaded pre ++ [0x61#8] ∧
      (args = arguments.map fun v => .word (shown v)) ∧
      ∀ v ∈ arguments, ∃ p, p <+: mid ∧ shown v = v.after (interrupts (pre ++ p)) := by
  rcases (runs_account h).printed hline with hplain | ⟨hformat, -⟩ | ⟨-, ⟨todo, htodo⟩, hargs⟩
  · exact absurd hplain (by decide)
  · exact absurd hformat (by decide)
  rcases runs_replying h with ⟨front, hstartup⟩ | ⟨c, ⟨r⟩⟩
  · have hmem : Task.showLatest ∈ startup := by rw [hstartup, htodo]; simp
    simp [mem_startup, mem_initialise] at hmem
  · have htasks := r.tasks
    rw [htodo] at htasks
    obtain rfl : c = 0x61#8 := showLatest_mem_reply (by rw [htasks]; simp)
    refine ⟨r.pre, r.answer, r.mid, m.loaded, r.inputs, r.idle, r.quiet, hargs, ?_⟩
    intro v hv
    exact r.values v (load_mem_front hv htasks)

def interrupted : List Input :=
  List.replicate 11 (.mainLoop none 0) ++ [.mainLoop (some 0x61#8) 0, .mainLoop none 0] ++
    .interrupt (.spiInterrupt true 0x0010#16 true) :: List.replicate 10 (.mainLoop none 0)

theorem readings_shown_interrupted :
    ∃ es m, Runs (step ⟨arguments, .refl _⟩) (start (fun _ => 0#8) fun _ => 0#32) interrupted es m ∧
      ∃ (pre : List Input) (asked : Int) (mid : List Input) (shown : Volatile → BitVec 32),
        interrupted = pre ++ .mainLoop (some 0x61#8) asked :: mid ∧
        .printf latestFormat (arguments.map fun v => .word (shown v)) ∈
          (step ⟨arguments, .refl _⟩ m (.mainLoop none 0)).events ∧
        (∀ v ∈ arguments, ∃ p, p <+: mid ∧ shown v = v.after (interrupts (pre ++ p))) ∧
        shown .spiHandlerCalled = 0#32 ∧ shown .spiWrites = 1#32 := by
  obtain ⟨m, h, hend⟩ := runs_of_ret? (step ⟨arguments, .refl _⟩)
    (start (fun _ => 0#8) fun _ => 0#32) interrupted
    (fun m => (m.todo, m.loaded .spiHandlerCalled, m.loaded .spiWrites))
    (v := ([.showLatest, .status], 0#32, 1#32)) (by decide +kernel)
  simp only [Prod.mk.injEq] at hend
  obtain ⟨htodo, hcalled, hwrites⟩ := hend
  refine ⟨_, m, h, ?_⟩
  have hline : .printf latestFormat (arguments.map fun v => .word (m.loaded v)) ∈
      (step ⟨arguments, .refl _⟩ m (.mainLoop none 0)).events := by
    rw [step, mainLoop.eq_def, htodo]
    exact List.mem_singleton_self _
  obtain ⟨pre, asked, mid, shown, hpre, -, -, hargs, hshown⟩ := readings_shown h hline
  have hloaded : ∀ v ∈ arguments, shown v = m.loaded v :=
    fun v hv => (Arg.word.inj (List.map_inj_left.mp hargs v hv)).symm
  refine ⟨pre, asked, mid, shown, hpre, hargs ▸ hline, hshown, ?_, ?_⟩
  · rw [hloaded _ (by decide), hcalled]
  · rw [hloaded _ (by decide), hwrites]

end Replies

end BowerBird.Console
