import BowerBird.PowerSteps

/-!
# The serial path from the Beagle to the parser

The handler reads characters until the USART has none or flags an error. A flag is
never reset, so a character that waits behind one stays where it is. As long as
no such read happens, the parser gets the good bytes but for those that were
overrun or found the queue full.
-/

namespace BowerBird.Power

open Firmware Firmware.CString
set_option autoImplicit false

abbrev Arrival := Line × Bool

def overrunLast (as : List Arrival) : List Arrival :=
  match as.getLast? with
  | some a => as.dropLast ++ [(a.1, true)]
  | none => []

def record (as : List Arrival) : Event → List Arrival
  | .received c fifoFull overrun => (if overrun then overrunLast as else as) ++ [(c, fifoFull)]
  | _ => as

/-- The characters so far. One may be lost if it found `beagleInFIFO` full or the
next one overran it. -/
def arrivals (es : List Event) : List Arrival := es.foldl record []

/-- The bytes are the good ones, in order, less some that may be lost. -/
inductive Delivers : List Arrival → List Byte → Prop where
  | nil : Delivers [] []
  | delivered {as : List Arrival} {bs : List Byte} (b : Byte) (mayBeLost : Bool)
      (h : Delivers as bs) : Delivers (as ++ [(.good b, mayBeLost)]) (bs ++ [b])
  | damaged {as : List Arrival} {bs : List Byte} {c : Line} (mayBeLost : Bool)
      (hc : c ≠ .good c.byte) (h : Delivers as bs) : Delivers (as ++ [(c, mayBeLost)]) bs
  | lost {as : List Arrival} {bs : List Byte} (c : Line) (h : Delivers as bs) :
      Delivers (as ++ [(c, true)]) bs

def Event.processByte? : Event → Option Byte
  | .processByte c => some c
  | _ => none

def handed (es : List Event) : List Byte := es.filterMap Event.processByte?

@[simp] theorem handed_append (es fs : List Event) :
    handed (es ++ fs) = handed es ++ handed fs := List.filterMap_append

theorem handed_of_putc {es : List Event} (h : ∀ e ∈ es, e.IsPutc) : handed es = [] :=
  filterMap_putc (fun _ => rfl) h

theorem handleByte_handed (s : Comms.State) (c : Byte) (answers : List Bool) :
    handed (handleByte s c answers).events = [c] := by
  obtain ⟨es, hes, hputc⟩ := handleByte_events s c answers
  rw [hes]
  exact congrArg (c :: ·) (handed_of_putc hputc)

/-- The characters that are no longer in the USART. -/
def settled (es : List Event) (b : Board) : List Arrival :=
  if b.usart.rhr.isSome then (arrivals es).dropLast else arrivals es

/-- No handler has left a character unread, and what went to the parser or waits
for it is what arrived less what may be lost. -/
def SurvivesErrors (is : List Input) : Prop :=
  ∀ es b, Runs step powerUp is es b →
    (∀ u, .handlerReturned u ∈ es → u = none) ∧
    Delivers (settled es b) (handed es ++ b.beagleInFIFO.contents)

/-- The handler does not look for a character that waits behind an error flag. -/
def CleanRead (b : Board) (i : Input) : Prop :=
  i = .handlerRead → b.inHandler = true → b.usart.rhr ≠ none → b.usart.error = false

@[simp] theorem arrivals_append (es fs : List Event) :
    arrivals (es ++ fs) = fs.foldl record (arrivals es) := List.foldl_append

@[simp] theorem overrunLast_concat (as : List Arrival) (a : Arrival) :
    overrunLast (as ++ [a]) = as ++ [(a.1, true)] := by
  simp [overrunLast]

/-- The unread character `c` came as `line`. It is a good one if no error is
flagged, and it may be lost if the queue is full now. -/
structure Unread (b : Board) (c : Byte) (line : Line) (mayBeLost : Bool) : Prop where
  byte : line.byte = c
  good : b.usart.error = false → line = .good c
  full : b.beagleInFIFO.contents.length = fifoBufferSize → mayBeLost = true

/-- What left the USART was delivered or lost, and the last arrival is still in it
if anything is. -/
def Serial (es : List Event) (b : Board) : Prop :=
  match b.usart.rhr with
  | none => Delivers (arrivals es) (handed es ++ b.beagleInFIFO.contents)
  | some c => ∃ as line mayBeLost, arrivals es = as ++ [(line, mayBeLost)] ∧
      Unread b c line mayBeLost ∧ Delivers as (handed es ++ b.beagleInFIFO.contents)

theorem serial_none {es : List Event} {b : Board} (h : b.usart.rhr = none) :
    Serial es b ↔ Delivers (arrivals es) (handed es ++ b.beagleInFIFO.contents) := by
  simp only [Serial, h]

theorem serial_some {es : List Event} {b : Board} {c : Byte} (h : b.usart.rhr = some c) :
    Serial es b ↔ ∃ as line mayBeLost, arrivals es = as ++ [(line, mayBeLost)] ∧
      Unread b c line mayBeLost ∧ Delivers as (handed es ++ b.beagleInFIFO.contents) := by
  simp only [Serial, h]

theorem Serial.delivers {es : List Event} {b : Board} (h : Serial es b) :
    Delivers (settled es b) (handed es ++ b.beagleInFIFO.contents) := by
  unfold settled
  cases hrhr : b.usart.rhr with
  | none => exact (serial_none hrhr).mp h
  | some c =>
    obtain ⟨as, line, mayBeLost, has, -, hdelivers⟩ := (serial_some hrhr).mp h
    simpa [has] using hdelivers

theorem Serial.move {es fs : List Event} {b t : Board} (h : Serial es b)
    (husart : t.usart = b.usart) (hrecord : fs.foldl record (arrivals es) = arrivals es)
    (hbytes : handed fs ++ t.beagleInFIFO.contents = b.beagleInFIFO.contents) :
    Serial (es ++ fs) t := by
  have harrivals : arrivals (es ++ fs) = arrivals es := by rw [arrivals_append, hrecord]
  have hhanded : handed (es ++ fs) ++ t.beagleInFIFO.contents =
      handed es ++ b.beagleInFIFO.contents := by
    rw [handed, List.filterMap_append, List.append_assoc, ← hbytes]
    rfl
  cases hrhr : b.usart.rhr with
  | none =>
    rw [serial_none (husart ▸ hrhr), harrivals, hhanded]
    exact (serial_none hrhr).mp h
  | some c =>
    rw [serial_some (husart ▸ hrhr), harrivals, hhanded]
    obtain ⟨as, line, mayBeLost, has, hunread, hdelivers⟩ := (serial_some hrhr).mp h
    refine ⟨as, line, mayBeLost, has, ⟨hunread.byte, ?_, ?_⟩, hdelivers⟩
    · rw [husart]
      exact hunread.good
    · intro hfull
      have hle := b.beagleInFIFO.bounded
      rw [← hbytes, List.length_append] at hle
      apply hunread.full
      rw [← hbytes, List.length_append]
      omega

theorem receive_good {u : Usart} {c : Line} (h : (u.receive c).error = false) :
    c = .good c.byte := by
  cases c <;> simp_all [Usart.receive, Usart.error, Line.byte]

theorem Serial.receive {es : List Event} {b : Board} (h : Serial es b) (c : Line) :
    Serial (es ++ [.received c (b.beagleInFIFO.contents.length == fifoBufferSize)
      b.usart.rhr.isSome]) { b with usart := b.usart.receive c } := by
  have hhanded : handed (es ++ [.received c (b.beagleInFIFO.contents.length == fifoBufferSize)
      b.usart.rhr.isSome]) = handed es := by
    rw [handed, List.filterMap_append]
    exact List.append_nil _
  have hunread : Unread { b with usart := b.usart.receive c } c.byte c
      (b.beagleInFIFO.contents.length == fifoBufferSize) :=
    ⟨rfl, receive_good, by simp⟩
  rw [serial_some rfl, hhanded, arrivals_append]
  cases hrhr : b.usart.rhr with
  | none => exact ⟨_, c, _, rfl, hunread, (serial_none hrhr).mp h⟩
  | some d =>
    obtain ⟨as, line, mayBeLost, has, -, hdelivers⟩ := (serial_some hrhr).mp h
    refine ⟨as ++ [(line, true)], c, _, ?_, hunread, .lost line hdelivers⟩
    simp [record, has]

theorem Serial.take {es : List Event} {b : Board} {c : Byte} (h : Serial es b)
    (herror : b.usart.error = false) (hc : b.usart.rhr = some c) :
    Serial es { b with
      usart := { b.usart with rhr := none }
      beagleInFIFO := b.beagleInFIFO.push c } := by
  obtain ⟨as, line, mayBeLost, has, hunread, hdelivers⟩ := (serial_some hc).mp h
  obtain rfl := hunread.good herror
  rw [serial_none rfl, has]
  change Delivers _ (_ ++ (b.beagleInFIFO.push c).contents)
  rw [Fifo.contents_push]
  split
  · rw [← List.append_assoc]
    exact .delivered c mayBeLost hdelivers
  · rename_i hroom
    have hle := b.beagleInFIFO.bounded
    obtain rfl := hunread.full (by omega)
    exact .lost _ hdelivers

theorem record_putc {es : List Event} (h : ∀ e ∈ es, e.IsPutc) (as : List Arrival) :
    es.foldl record as = as := by
  induction es with
  | nil => rfl
  | cons e es ih =>
    obtain ⟨c, rfl⟩ := h e List.mem_cons_self
    exact ih fun e he => h e (List.mem_cons_of_mem _ he)

theorem Move.serial {es fs : List Event} {b t : Board} {i : Input} (h : Move b i fs t)
    (hs : Serial es b) : Serial (es ++ fs) t := by
  cases h with
  | receive c => exact hs.receive c
  | taken _ herror hc =>
    rw [List.append_nil]
    exact hs.take herror hc
  | @handled env c q gs s n hin hnext hc hes =>
    have hhanded : handed gs = [] := handed_of_putc hes
    refine hs.move rfl (record_putc hes _ : gs.foldl record _ = _) ?_
    rw [Fifo.contents_of_pull? hc]
    change (c :: handed gs) ++ _ = _
    rw [hhanded]
    rfl
  | _ => exact hs.move rfl rfl rfl

theorem serial_powerUp : Serial [] powerUp := (serial_none rfl).mpr .nil

theorem Move.returns_empty {fs : List Event} {b t : Board} {i : Input} (h : Move b i fs t)
    (hclean : CleanRead b i) : ∀ u, .handlerReturned u ∈ fs → u = none := by
  intro u hu
  cases h with
  | left hin hend =>
    obtain rfl : u = b.usart.rhr := by simpa using hu
    by_contra hne
    have herror := hclean rfl hin hne
    rw [hend (Option.isSome_iff_ne_none.mpr hne)] at herror
    cases herror
  | handled _ _ _ hes =>
    rcases List.mem_cons.mp hu with hu | hu
    · cases hu
    · obtain ⟨c, hc⟩ := hes _ hu
      cases hc
  | _ => simp at hu

theorem runs_survive {is : List Input} (hC : Along step CleanRead powerUp is) :
    SurvivesErrors is := by
  intro es b h
  have hboth := Runs.history (H := fun _ es b =>
    (∀ u, .handlerReturned u ∈ es → u = none) ∧ Serial es b) ⟨by simp, serial_powerUp⟩ ?_ hC h
  · exact ⟨hboth.1, hboth.2.delivers⟩
  rintro is es s i fs u _ ⟨hreturned, hs⟩ hCi hstep
  have hmove := step_moves hstep
  refine ⟨fun v hv => ?_, hmove.serial hs⟩
  rcases List.mem_append.mp hv with hv | hv
  · exact hreturned v hv
  · exact hmove.returns_empty hCi v hv

/-- The serial path survives a run exactly if the handler never looks for a
character that waits behind an error flag. -/
theorem survives_errors_iff (is : List Input) :
    (∀ pre, pre <+: is → SurvivesErrors pre) ↔ Along step CleanRead powerUp is := by
  refine forall_prefix_iff_along (fun is hC => runs_survive hC) ?_ is
  rintro is i es b - hb hsurvives rfl hin hunread
  by_contra herror
  have hread : usartReadChar b.usart = (.rxError, b.usart) := if_pos (by simpa using herror)
  have hstep : step b .handlerRead =
      ⟨[.handlerReturned b.usart.rhr], .ret { b with inHandler := false }⟩ := by
    simp [step, hin, handlerRead, hread, Exec.pure_def]
  exact hunread ((hsurvives _ _ (hb.concat hstep)).1 b.usart.rhr (by simp))

def noise : List Input := [.receive (.framingError 0x41#8), .interrupt, .handlerRead]

/-- The handler returns with the character unread, so the interrupt stays raised. -/
theorem noise_stays_unread :
    ∃ es b, Runs step powerUp noise es b ∧ .handlerReturned (some 0x41#8) ∈ es ∧
      b.usart.rhr = some 0x41#8 := by
  obtain ⟨b, hb, hrhr⟩ := runs_of_ret? step powerUp noise (fun b => b.usart.rhr)
    (v := some 0x41#8) (by decide +kernel)
  exact ⟨_, b, hb, by decide +kernel, hrhr⟩

end BowerBird.Power
