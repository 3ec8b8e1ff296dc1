import BowerBird.SoundSteps

/-!
# Packets in flight

`gBuffer` is filled before the driver is asked, so a packet that is refused
overwrites the one that is still being read. What is transmitted is what was
accepted exactly as long as no such packet differs from the running one where
the controller has yet to read.
-/

namespace BowerBird.Sound

open Firmware Firmware.CString
set_option autoImplicit false

def Event.accepted? : Event → Option (List Byte)
  | .epRun packet true => some packet
  | _ => none

def Event.transmitted? : Event → Option (List Byte)
  | .transmitted bytes => some bytes
  | _ => none

def accepted (es : List Event) : List (List Byte) := es.filterMap Event.accepted?

def transmitted (es : List Event) : List (List Byte) := es.filterMap Event.transmitted?

def Input.OfController (i : Input) : Prop := i = .fetch ∨ i = .complete

/-- Whatever the controller does after these inputs, the transfers it completes
carry the accepted packets, in order and byte for byte. -/
def TransfersIntact (is : List Input) : Prop :=
  ∀ js, (∀ j ∈ js, j.OfController) → ∀ es b, Runs step powerUp (is ++ js) es b →
    transmitted es <+: accepted es

/-- A timer interrupt that completes a packet while a transfer runs does so with
the bytes that the transfer has yet to read. -/
def Undisturbed (b : Board) (i : Input) : Prop :=
  ∀ ok, i = .tcInterrupt ok → udiAudioIsActive b = true →
    b.sampleIndex + inFormatNbChannels = samplesPerPacket → ∀ t, b.running = some t →
      (packet b).toList.drop t.fetched.length = b.gBuffer.toList.drop t.fetched.length

/-- What the running transfer will have carried if `gBuffer` stays as it is. -/
def inFlight (b : Board) : List (List Byte) :=
  match b.running with
  | none => []
  | some t => [t.fetched ++ b.gBuffer.toList.drop t.fetched.length]

def Accounted (es : List Event) (b : Board) : Prop := accepted es = transmitted es ++ inFlight b

theorem Accounted.in_order {es : List Event} {b : Board} (h : Accounted es b) :
    transmitted es <+: accepted es := by
  rw [h]
  exact List.prefix_append _ _

theorem Accounted.concat {es fs : List Event} {b u : Board} (h : Accounted es b)
    (hstep : inFlight b ++ accepted fs = transmitted fs ++ inFlight u) :
    Accounted (es ++ fs) u := by
  unfold Accounted accepted transmitted at *
  rw [List.filterMap_append, List.filterMap_append, h, List.append_assoc, hstep, List.append_assoc]

theorem drop_eq_cons {α : Type*} {xs : List α} {k : Nat} {x : α} (h : xs[k]? = some x) :
    xs.drop k = x :: xs.drop (k + 1) := by
  obtain ⟨hk, rfl⟩ := List.getElem?_eq_some_iff.mp h
  exact List.drop_eq_getElem_cons hk

theorem accepted_flush (i j : Nat) (v w : BitVec 16) (xs : List (BitVec 16)) (p : List Byte)
    (ok : Bool) :
    accepted [.store i v, .store j w, .sendSamples xs, .epRun p ok] = if ok then [p] else [] := by
  cases ok <;> rfl

theorem Move.accounted {b u : Board} {i : Input} {fs : List Event} (h : Move b i fs u)
    (hC : Undisturbed b i) : inFlight b ++ accepted fs = transmitted fs ++ inFlight u := by
  cases h with
  | spi hes => rcases hes with rfl | ⟨w, rfl⟩ <;> exact List.append_nil _
  | @flush ok h hidx =>
    rw [accepted_flush]
    change _ = [] ++ _
    cases hr : b.running with
    | none => cases ok <;> simp [inFlight, hr, nextTransfer]
    | some t => simp [inFlight, hr, nextTransfer, hC ok rfl h hidx t hr]
  | fetch ht hc =>
    change _ ++ [] = [] ++ _
    simp [inFlight, ht, drop_eq_cons hc]
  | complete ht =>
    change _ ++ [] = [_] ++ _
    simp [inFlight, ht]
  | _ => exact List.append_nil _

theorem runs_accounted {is : List Input} {es : List Event} {b : Board}
    (hC : Along step Undisturbed powerUp is) (h : Runs step powerUp is es b) : Accounted es b := by
  refine runs_history (H := fun _ es b => Accounted es b) rfl ?_ hC h
  intro is es s i fs u _ hs hCi hmove
  exact hs.concat (hmove.accounted hCi)

theorem undisturbed_of_controller {b : Board} {i : Input} (h : i.OfController) :
    Undisturbed b i := by
  rintro ok rfl
  rcases h with h | h <;> cases h

theorem along_controller {is js : List Input} (h : Along step Undisturbed powerUp is)
    (hjs : ∀ j ∈ js, j.OfController) : Along step Undisturbed powerUp (is ++ js) := by
  induction js using List.reverseRecOn with
  | nil => simpa using h
  | append_singleton js j ih =>
    rw [← List.append_assoc]
    refine (ih fun k hk => hjs k (by simp [hk])).concat fun _ b _ => ?_
    exact undisturbed_of_controller (hjs j (by simp))

theorem flush_then_complete {is : List Input} {es : List Event} {b : Board} {ok : Bool}
    (hb : Runs step powerUp is es b) (hacc : Accounted es b) (hactive : udiAudioIsActive b = true)
    (hidx : b.sampleIndex + inFormatNbChannels = samplesPerPacket) {t : Transfer}
    (ht : b.running = some t) :
    ∃ es' b', Runs step powerUp (is ++ [.tcInterrupt ok] ++ [.complete]) es' b' ∧
      accepted es' =
        transmitted es ++ [t.fetched ++ b.gBuffer.toList.drop t.fetched.length] ∧
      transmitted es' =
        transmitted es ++ [t.fetched ++ (packet b).toList.drop t.fetched.length] := by
  have hflush : step b (.tcInterrupt ok) = _ := tcIrq_flush hactive hidx
  have hrun := hb.concat hflush
  have hkept : nextTransfer b.running ok = some t := by simp [nextTransfer, ht]
  obtain ⟨gs, c, hc, hmove⟩ := step_moves (runs_wellFormed hrun) .complete
  refine ⟨_, c, hrun.concat hc, ?_⟩
  cases hmove with
  | completed hnone =>
    have hnone' : nextTransfer b.running ok = none := hnone
    rw [hnone'] at hkept
    cases hkept
  | @complete t' ht' =>
    obtain rfl : t' = t := Option.some.inj (ht'.symm.trans hkept)
    have hidle : b.running.isNone = false := by rw [ht]; rfl
    have hbefore : inFlight b = [t'.fetched ++ b.gBuffer.toList.drop t'.fetched.length] := by
      simp [inFlight, ht]
    constructor
    · rw [← hbefore, ← hacc, accepted, List.filterMap_append, List.filterMap_append, hidle]
      change _ ++ [] ++ [] = _
      simp [accepted]
    · rw [transmitted, List.filterMap_append, List.filterMap_append]
      change _ ++ [] ++ [_] = _
      simp [transmitted]

/-- A refused packet that differs from the running one is what the controller sends. -/
theorem disturbed_of_flush {is : List Input} {es : List Event} {b : Board} {ok : Bool}
    (hb : Runs step powerUp is es b) (hacc : Accounted es b) (hactive : udiAudioIsActive b = true)
    (hidx : b.sampleIndex + inFormatNbChannels = samplesPerPacket) {t : Transfer}
    (ht : b.running = some t) (h : TransfersIntact (is ++ [.tcInterrupt ok])) :
    (packet b).toList.drop t.fetched.length = b.gBuffer.toList.drop t.fetched.length := by
  obtain ⟨es', b', hb', hacc', hsent⟩ := flush_then_complete hb hacc hactive hidx ht
  have hprefix := h [.complete] (by simp [Input.OfController]) es' b' hb'
  rw [hacc', hsent, List.prefix_append_right_inj] at hprefix
  have heq := (List.cons_prefix_cons.mp hprefix).1
  exact List.append_cancel_left heq

/-- The transfers of a run are intact, however the controller reads on, exactly
if every packet that comes while a transfer runs agrees with it where the
controller has yet to read. -/
theorem transfers_intact_iff (is : List Input) :
    (∀ pre, pre <+: is → TransfersIntact pre) ↔ Along step Undisturbed powerUp is := by
  refine forall_prefix_iff_along (fun is hC => ?_) (fun is i es b hC hb hintact => ?_) is
  · intro js hjs es b hb
    exact (runs_accounted (along_controller hC hjs) hb).in_order
  · rintro ok rfl hactive hidx t ht
    exact disturbed_of_flush hb (runs_accounted hC hb) hactive hidx ht hintact

def slowHost : List Input :=
  [.enable 1#8] ++ List.replicate 32 (.tcInterrupt true) ++ [.spiInterrupt true 0x0002#16 true] ++
    List.replicate 32 (.tcInterrupt true) ++ [.complete]

/-- The first packet is accepted and the second, which is refused, is transmitted. -/
theorem slowHost_gets_refused_packet :
    ∃ es b, Runs step powerUp slowHost es b ∧ accepted es = [List.replicate 128 0xff#8] ∧
      transmitted es = [(List.replicate 32 [0x10#8, 0x00#8, 0xff#8, 0xff#8]).flatten] := by
  obtain ⟨b, hb, -⟩ := runs_of_ret? step powerUp slowHost (fun b => b.running.isSome)
    (v := false) (by decide +kernel)
  exact ⟨_, b, hb, by decide +kernel, by decide +kernel⟩

end BowerBird.Sound
