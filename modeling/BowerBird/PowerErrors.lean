import BowerBird.PowerTranscript

/-!
# After a line error

The error flags are never reset. So the first character that comes damaged, or overruns
another one, ends the reception: the handler reads nothing any more, and each run of it
leaves a character behind that raises the interrupt again.
-/

namespace BowerBird.Power

open Firmware Firmware.CString Firmware.Exec
set_option autoImplicit false

variable {b t : Board} {i : Input} {is js : List Input} {es fs : List Event}

/-- Nothing is received, or a character that is not damaged and overruns no other one. -/
def Event.intact : Event → Bool
  | .received (.good _) _ false => true
  | .received _ _ _ => false
  | _ => true

theorem error_receive (u : Usart) (c : Line) (full : Bool) :
    (u.receive c).error = (u.error || !(Event.received c full u.rhr.isSome).intact) := by
  obtain ⟨rhr, ovre, frame, pare⟩ := u
  cases c <;> cases rhr <;> cases ovre <;> cases frame <;> cases pare <;> rfl

/-- An error is flagged if there was one, and then a character waits behind the flag. -/
structure Flagged (es : List Event) (b : Board) : Prop where
  error_iff : b.usart.error = true ↔ ∃ e ∈ es, e.intact = false
  waits : b.usart.error = true → b.usart.rhr.isSome = true

theorem Flagged.concat (h : Flagged es b) (herror : t.usart.error = b.usart.error)
    (hrhr : b.usart.error = true → t.usart.rhr = b.usart.rhr) (hfs : ∀ e ∈ fs, e.intact = true) :
    Flagged (es ++ fs) t := by
  constructor
  · rw [herror, h.error_iff]
    constructor
    · rintro ⟨e, he, hbad⟩
      exact ⟨e, List.mem_append_left _ he, hbad⟩
    · rintro ⟨e, he, hbad⟩
      rcases List.mem_append.mp he with he | he
      · exact ⟨e, he, hbad⟩
      · rw [hfs e he] at hbad
        cases hbad
  · intro ht
    rw [herror] at ht
    rw [hrhr ht]
    exact h.waits ht

theorem Flagged.receive (h : Flagged es b) (c : Line) (full : Bool) :
    Flagged (es ++ [.received c full b.usart.rhr.isSome])
      { b with usart := b.usart.receive c } := by
  constructor
  · rw [error_receive b.usart c full, Bool.or_eq_true, h.error_iff, Bool.not_eq_true']
    simp only [List.mem_append, List.mem_singleton, or_and_right, exists_or, exists_eq_left]
  · intro _
    rfl

theorem Move.flagged (hmove : Move b i fs t) (h : Flagged es b) : Flagged (es ++ fs) t := by
  cases hmove with
  | receive c => exact h.receive c _
  | taken _ herror =>
    refine h.concat rfl (fun h => ?_) (by simp)
    rw [herror] at h
    cases h
  | @handled env c q gs s n hin hnext hc hgs =>
    refine h.concat rfl (fun _ => rfl) ?_
    intro e he
    rcases List.mem_cons.mp he with rfl | he
    · rfl
    · obtain ⟨d, rfl⟩ := hgs e he
      rfl
  | _ => exact h.concat rfl (fun _ => rfl) (by simp [Event.intact])

theorem runs_flagged (h : Runs step powerUp is es b) : Flagged es b := by
  refine Runs.history (C := fun _ _ => True) (H := fun _ es b => Flagged es b) ?_ ?_ along_true h
  · constructor
    · exact iff_of_false (by decide) (by simp)
    · intro herror
      cases herror
  · intro is es b i fs t _ hb _ hstep
    exact (step_moves hstep).flagged hb

theorem no_error_of_intact (h : Runs step powerUp is es b) (hintact : ∀ e ∈ es, e.intact = true) :
    b.usart.error = false := by
  rw [← Bool.not_eq_true, (runs_flagged h).error_iff]
  rintro ⟨e, he, hbad⟩
  rw [hintact e he] at hbad
  cases hbad

/-- What a board shows and does once an error is flagged, with the bytes `queue` to handle. -/
structure Deaf (queue : List Byte) (es : List Event) (b : Board) : Prop where
  error : b.usart.error = true
  waits : b.usart.rhr.isSome = true
  handled : handed es ++ b.beagleInFIFO.contents = queue
  unread : ∀ u, Event.handlerReturned u ∈ es → u.isSome = true

theorem Deaf.concat {queue : List Byte} (h : Deaf queue es b) (herror : t.usart.error = true)
    (hwaits : t.usart.rhr.isSome = true)
    (hfifo : handed fs ++ t.beagleInFIFO.contents = b.beagleInFIFO.contents)
    (hfs : ∀ u, Event.handlerReturned u ∈ fs → u.isSome = true) : Deaf queue (es ++ fs) t := by
  refine ⟨herror, hwaits, ?_, ?_⟩
  · rw [handed_append, List.append_assoc, hfifo, h.handled]
  · intro u hu
    rcases List.mem_append.mp hu with hu | hu
    · exact h.unread u hu
    · exact hfs u hu

theorem Move.deaf {queue : List Byte} (hmove : Move b i fs t) (h : Deaf queue es b) :
    Deaf queue (es ++ fs) t := by
  cases hmove with
  | receive c =>
    refine h.concat ?_ rfl rfl (by simp)
    rw [error_receive b.usart c true, h.error, Bool.true_or]
  | taken _ herror =>
    rw [h.error] at herror
    cases herror
  | left =>
    refine h.concat h.error h.waits rfl ?_
    intro u hu
    obtain rfl : u = b.usart.rhr := by simpa using hu
    exact h.waits
  | @handled env c q gs s n hin hnext hc hgs =>
    refine h.concat h.error h.waits ?_ ?_
    · have hnone : handed gs = [] := handed_of_putc hgs
      have hcons : handed (.processByte c :: gs) = c :: handed gs := rfl
      rw [hcons, hnone, Fifo.contents_of_pull? hc]
      rfl
    · intro u hu
      rcases List.mem_cons.mp hu with hu | hu
      · cases hu
      · obtain ⟨d, hd⟩ := hgs _ hu
        cases hd
  | _ => exact h.concat h.error h.waits rfl (by simp)

/-- After the first damaged or overrun character nothing but what was queued is handled any
more, and each run of the handler leaves a character unread. -/
theorem deaf_after_error (h : Runs step powerUp is es b) (herror : ∃ e ∈ es, e.intact = false)
    (hafter : Runs step b js fs t) :
    handed fs ++ t.beagleInFIFO.contents = b.beagleInFIFO.contents ∧
      ∀ u, Event.handlerReturned u ∈ fs → u.isSome = true := by
  have hflagged := runs_flagged h
  have hb : b.usart.error = true := hflagged.error_iff.mpr herror
  have hdeaf : Deaf b.beagleInFIFO.contents fs t := by
    refine Runs.history (C := fun _ _ => True)
      (H := fun _ fs t => Deaf b.beagleInFIFO.contents fs t) ?_ ?_ along_true hafter
    · exact ⟨hb, hflagged.waits hb, rfl, by simp⟩
    · intro is es b i fs t _ hs _ hstep
      exact (step_moves hstep).deaf hs
  exact ⟨hdeaf.handled, hdeaf.unread⟩

def damagedBoard : Board :=
  { powerUp with usart := powerUp.usart.receive (.framingError 0x41#8) }

def nextCharacter : List Input :=
  [.interrupt, .handlerRead, .receive (.good 0x62#8), .interrupt, .handlerRead]

theorem deaf_after_error_noise :
    ∃ es fs t, Runs step powerUp [.receive (.framingError 0x41#8)] es damagedBoard ∧
      Runs step damagedBoard nextCharacter fs t ∧ .handlerReturned (some 0x62#8) ∈ fs ∧
      handed fs ++ t.beagleInFIFO.contents = [] ∧
      ∀ u, Event.handlerReturned u ∈ fs → u.isSome = true := by
  have hnoise : Runs step powerUp [.receive (.framingError 0x41#8)]
      [.received (.framingError 0x41#8) false false] damagedBoard := rfl
  obtain ⟨t, ht, -⟩ := runs_of_ret? step damagedBoard nextCharacter (fun b => b.usart.rhr)
    (v := some 0x62#8) (by decide +kernel)
  refine ⟨_, _, t, hnoise, ht, by decide +kernel, ?_⟩
  exact deaf_after_error hnoise ⟨_, List.mem_singleton_self _, rfl⟩ ht

end BowerBird.Power
