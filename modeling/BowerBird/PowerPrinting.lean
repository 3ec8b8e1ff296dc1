import BowerBird.CommsStrings
import BowerBird.PowerBoard

/-!
# What the host is sent

The calls that a byte causes put one text into the USB buffer, byte by byte, as long
as the host answers that it is ready.
-/

namespace BowerBird.Power

open Firmware Firmware.CString Firmware.Exec Firmware.Printf
set_option autoImplicit false

def Event.putc? : Event → Option Byte
  | .putc c => some c
  | _ => none

/-- The bytes that have been put into the USB buffer. -/
def putBytes (es : List Event) : List Byte := es.filterMap Event.putc?

@[simp] theorem putBytes_append (es fs : List Event) :
    putBytes (es ++ fs) = putBytes es ++ putBytes fs := List.filterMap_append

@[simp] theorem putBytes_map (cs : List Byte) : putBytes (cs.map .putc) = cs := by
  induction cs with
  | nil => rfl
  | cons c cs ih => exact congrArg (c :: ·) ih

/-- What a call prints to the host. -/
def printed : Comms.Call → List Byte
  | .writeStringToUSB format args =>
    ((vsnprintf Comms.maxLineLength format args).getD []).takeWhile (· ≠ 0#8)
  | _ => []

def callsOf (s : Comms.State) (b : Byte) : List Comms.Call :=
  (Comms.processByte s b).events.filterMap Comms.Event.call?

/-- What a byte makes the parser print to the host. -/
def report (s : Comms.State) (c : Byte) : List Byte := (callsOf s c).flatMap printed

/-- The answers behind the `n`-th one that is `true`. -/
def afterReady : Nat → List Bool → List Bool
  | 0, answers => answers
  | _ + 1, [] => []
  | n + 1, true :: answers => afterReady n answers
  | n + 1, false :: answers => afterReady (n + 1) answers

theorem count_afterReady (n : Nat) (answers : List Bool) :
    (afterReady n answers).count true = answers.count true - n := by
  induction answers generalizing n with
  | nil => cases n <;> simp [afterReady]
  | cons a answers ih =>
    cases n with
    | zero => rfl
    | succ n =>
      cases a with
      | true => simp [afterReady, ih]
      | false => simp [afterReady, ih]

theorem afterReady_suffix (n : Nat) (answers : List Bool) : afterReady n answers <:+ answers := by
  induction answers generalizing n with
  | nil => cases n <;> exact List.suffix_refl _
  | cons a answers ih =>
    cases n with
    | zero => exact List.suffix_refl _
    | succ n =>
      cases a with
      | true => exact (ih n).trans (List.suffix_cons _ _)
      | false => exact (ih (n + 1)).trans (List.suffix_cons _ _)

/-- A text is put as far as the host has been ready, and the call comes back if that is
all of it. -/
theorem putString_eq (cs : List Byte) (answers : List Bool) :
    putString cs answers = ⟨(cs.take (answers.count true)).map .putc,
      if cs.length ≤ answers.count true then .ret (afterReady cs.length answers) else .hang⟩ := by
  induction answers generalizing cs with
  | nil =>
    cases cs with
    | nil => rfl
    | cons c cs => rfl
  | cons a answers ih =>
    cases cs with
    | nil => simp [putString, afterReady, pure_def]
    | cons c cs =>
      cases a with
      | true =>
        have hput : putString (c :: cs) (true :: answers) =
            (Exec.emit (.putc c) >>= fun _ => putString cs answers) := rfl
        rw [hput, ih, emit_bind]
        simp [afterReady]
      | false =>
        -- one more time round the busy-wait
        have hput : putString (c :: cs) (false :: answers) = putString (c :: cs) answers := rfl
        rw [hput, ih]
        simp [afterReady]

theorem putString_ret {cs : List Byte} {answers more : List Bool}
    (h : (putString cs answers).outcome = .ret more) :
    (putString cs answers).events = cs.map .putc := by
  rw [putString_eq] at h ⊢
  have hle : cs.length ≤ answers.count true := by
    by_contra hlt
    simp [hlt] at h
  simp only [List.take_of_length_le hle]

theorem putString_append (xs ys : List Byte) (answers : List Bool) :
    putString (xs ++ ys) answers = putString xs answers >>= putString ys := by
  induction xs generalizing answers with
  | nil => rfl
  | cons x xs ih => simp only [List.cons_append, putString, bind_assoc, ih]

theorem perform_eq {c : Comms.Call} (h : (Comms.Event.call c).Formatted) (answers : List Bool) :
    perform c answers = putString (printed c) answers := by
  cases c with
  | writeStringToUSB format args =>
    obtain ⟨string, hstring⟩ := Option.isSome_iff_exists.mp
      (vsnprintf_isSome (n := Comms.maxLineLength) h)
    simp only [perform, writeStringToUSB, printed, hstring, ofOption_some, pure_bind, Option.getD_some]
  | _ => rfl

theorem performAll_eq {cs : List Comms.Call} (h : ∀ c ∈ cs, (Comms.Event.call c).Formatted)
    (answers : List Bool) : performAll cs answers = putString (cs.flatMap printed) answers := by
  induction cs generalizing answers with
  | nil => rfl
  | cons c cs ih =>
    rw [performAll, perform_eq (h c List.mem_cons_self), List.flatMap_cons, putString_append]
    exact congrArg _ (funext fun more => ih (fun d hd => h d (List.mem_cons_of_mem c hd)) more)

/-- All calls of a byte together print its report. -/
theorem performAll_callsOf (s : Comms.State) (c : Byte) (answers : List Bool) :
    performAll (callsOf s c) answers = putString (report s c) answers := by
  apply performAll_eq
  intro d hd
  obtain ⟨e, he, hed⟩ := List.mem_filterMap.mp hd
  cases e <;> cases hed
  exact Comms.processByte_formatted s c _ he

theorem handleByte_eq (s : Comms.State) (c : Byte) (answers : List Bool) :
    handleByte s c answers = (Exec.emit (.processByte c) >>= fun _ =>
      putString (report s c) answers >>= fun more =>
      Exec.ofOutcome (Comms.processByte s c).outcome >>= fun t =>
      echo c more >>= fun _ => pure t) := by
  simp only [← performAll_callsOf, handleByte, processByte, callsOf, bind_assoc, pure_bind]

/-- How the handling of a byte ends: inside its report, with the parser, at an echo for which
there is no answer, or behind the echo. -/
inductive Handling (s : Comms.State) (c : Byte) (answers : List Bool) :
    Exec Event Comms.State → Prop where
  | reporting (h : answers.count true < (report s c).length) :
      Handling s c answers
        ⟨.processByte c :: ((report s c).take (answers.count true)).map .putc, .hang⟩
  | parsing {o : Outcome Comms.State} (h : (report s c).length ≤ answers.count true)
      (ho : (Comms.processByte s c).outcome = o) (hstuck : ∀ t, o ≠ .ret t) :
      Handling s c answers ⟨.processByte c :: (report s c).map .putc, o⟩
  | asking {t : Comms.State} (h : (report s c).length ≤ answers.count true)
      (ht : (Comms.processByte s c).outcome = .ret t)
      (hnone : afterReady (report s c).length answers = []) :
      Handling s c answers ⟨.processByte c :: (report s c).map .putc, .hang⟩
  | echoed {t : Comms.State} {a : Bool} {more : List Bool}
      (h : (report s c).length ≤ answers.count true)
      (ht : (Comms.processByte s c).outcome = .ret t)
      (ha : afterReady (report s c).length answers = a :: more) :
      Handling s c answers
        ⟨.processByte c :: (report s c ++ if a then [c] else []).map .putc, .ret t⟩

theorem handleByte_handles (s : Comms.State) (c : Byte) (answers : List Bool) :
    Handling s c answers (handleByte s c answers) := by
  rw [handleByte_eq, putString_eq, emit_bind]
  by_cases h : (report s c).length ≤ answers.count true
  · rw [if_pos h, List.take_of_length_le h, ret_bind]
    cases ho : (Comms.processByte s c).outcome with
    | ret t =>
      cases ha : afterReady (report s c).length answers with
      | nil => simpa [Exec.ofOutcome, echo, Exec.hang, -bind_pure_comp] using Handling.asking h ho ha
      | cons a more =>
        have hechoed := Handling.echoed h ho ha
        cases a with
        | true => simpa [Exec.ofOutcome, echo, Exec.emit, pure_def] using hechoed
        | false => simpa [Exec.ofOutcome, echo, pure_def] using hechoed
    | hang => simpa [Exec.ofOutcome] using Handling.parsing h ho (by simp)
    | fault => simpa [Exec.ofOutcome] using Handling.parsing h ho (by simp)
  · rw [if_neg h, hang_bind]
    exact .reporting (Nat.lt_of_not_le h)

theorem handleByte_ret_iff {s t : Comms.State} {c : Byte} {answers : List Bool} :
    (handleByte s c answers).outcome = .ret t ↔ (Comms.processByte s c).outcome = .ret t ∧
      (report s c).length ≤ answers.count true ∧ afterReady (report s c).length answers ≠ [] := by
  have hhandles := handleByte_handles s c answers
  generalize handleByte s c answers = x at hhandles ⊢
  cases hhandles with
  | reporting h =>
    constructor
    · intro hret
      cases hret
    · intro hret
      omega
  | parsing h ho hstuck =>
    constructor
    · intro hret
      exact absurd hret (hstuck t)
    · intro hret
      exact absurd (ho.symm.trans hret.1) (hstuck t)
  | asking h ht hnone =>
    constructor
    · intro hret
      cases hret
    · intro hret
      exact absurd hnone hret.2.2
  | echoed h ht ha =>
    constructor
    · intro hret
      exact ⟨ht.trans hret, h, by simp [ha]⟩
    · intro hret
      exact ht.symm.trans hret.1

end BowerBird.Power
