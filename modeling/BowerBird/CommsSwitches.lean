import BowerBird.CommsRequests

/-!
# Lines of the power port

The port has eight lines and the interpreter takes the digits 1 to 9. With the
numbering of the new cable switch 9 is line -1, and it is the only one that is
not a line of the port.
-/

namespace BowerBird.Comms

open Firmware Firmware.CString Firmware.Exec
set_option autoImplicit false

def Event.port? : Event → Option (Int × Int)
  | .carryOut _ true pin sw => some (pin, sw)
  | _ => none

def ports (bs : List Byte) : List (Int × Int) := (feed powerUp bs).events.filterMap Event.port?

/-- The byte does not complete a power command for switch 9. -/
def NotSwitch9 (s : State) (b : Byte) : Prop :=
  ∀ on h, completed s b ≠ some (.turn on (.switch 9 h))

theorem port_of_effect {r : Request} {e : Event} {p : Int × Int} (he : e ∈ r.effects)
    (hp : e.port? = some p) :
    ∃ on d, r = .turn on d ∧ d.isOnPowerPort = true ∧ p = (d.pin, d.sw) := by
  have hother : (∀ e ∈ r.effects, e.port? = none) → False := by
    intro h
    rw [h e he] at hp
    cases hp
  cases r with
  | turn on d =>
    refine ⟨on, d, rfl, ?_⟩
    simp only [Request.effects, List.mem_cons, List.not_mem_nil, or_false] at he
    rcases he with rfl | rfl | rfl
    · cases hport : d.isOnPowerPort with
      | true =>
        rw [hport] at hp
        exact ⟨rfl, (Option.some.inj hp).symm⟩
      | false =>
        rw [hport] at hp
        cases hp
    · cases hp
    · cases hp
  | _ =>
    exact absurd (by simp [Request.effects, refusal, reportToUSB, reportToLCD, Event.port?]) hother

theorem ports_forall_iff {P : Int × Int → Prop} (bs : List Byte) :
    (∀ p ∈ ports bs, P p) ↔ Along processByte (fun s b => ∀ on d, d.isOnPowerPort = true →
      completed s b = some (.turn on d) → P (d.pin, d.sw)) powerUp bs := by
  have hports : (∀ p ∈ ports bs, P p) ↔
      ∀ e ∈ (feed powerUp bs).events, ∀ p, e.port? = some p → P p := by
    simp only [ports, List.mem_filterMap]
    constructor
    · exact fun h e he p hp => h p ⟨e, he, hp⟩
    · rintro h p ⟨e, he, hp⟩
      exact h e he p hp
  have hother : ∀ e : Event, e.effect? = none → ∀ p, e.port? = some p → P p := by
    intro e he p hp
    cases e <;> first | cases hp | cases he
  rw [hports, always_feed_effects_iff hother]
  apply along_congr
  intro _ _ s b _
  constructor
  · intro h on d hd hr
    apply h _ hr (.carryOut on d.isOnPowerPort d.pin d.sw) List.mem_cons_self
    rw [hd]
    rfl
  · intro h r hr e he p hp
    obtain ⟨on, d, rfl, hd, rfl⟩ := port_of_effect he hp
    exact h on d hd hr

theorem pin_inside_iff (d : Device) : 0 ≤ d.pin ∧ d.pin ≤ 7 ↔ ∀ h, d ≠ .switch 9 h := by
  cases d with
  | switch d hd =>
    simp only [Device.pin, ne_eq, Device.switch.injEq]
    constructor
    · intro h _ hnine
      omega
    · intro h
      have hnine : d ≠ 9 := h (by decide)
      omega
  | usbMic => simp [Device.pin]
  | lcdPanel => simp [Device.pin]

theorem sw_of_pin {d d' : Device} (h : d.sw ≠ 0) (h' : d'.sw ≠ 0) (hpin : d.pin = d'.pin) :
    d.sw = d'.sw := by
  cases d <;> cases d' <;> simp only [Device.sw, Device.pin] at * <;> omega

/-- Every command that a stream carries out on the power port is for one of its eight
lines, and for one switch a line, exactly if none is for switch 9. -/
theorem ports_inside_iff (bs : List Byte) :
    ((∀ p ∈ ports bs, 0 ≤ p.1 ∧ p.1 ≤ 7) ∧
      ∀ p ∈ ports bs, ∀ q ∈ ports bs, p.2 ≠ 0 → q.2 ≠ 0 → p.1 = q.1 → p.2 = q.2) ↔
      Along processByte NotSwitch9 powerUp bs := by
  have hinside : (∀ p ∈ ports bs, 0 ≤ p.1 ∧ p.1 ≤ 7) ↔
      Along processByte NotSwitch9 powerUp bs := by
    rw [ports_forall_iff]
    apply along_congr
    intro _ _ s b _
    simp only [pin_inside_iff, NotSwitch9]
    constructor
    · intro h on hnine hr
      exact h on _ rfl hr hnine rfl
    · rintro h on d - hr hnine rfl
      exact h on hnine hr
  have hdevice : ∀ p ∈ ports bs, ∃ d : Device, p = (d.pin, d.sw) := by
    rw [ports_forall_iff]
    exact fun _ _ _ _ _ _ _ on d _ _ => ⟨d, rfl⟩
  rw [hinside, and_iff_left]
  intro p hp q hq hsw hsw' hpin
  obtain ⟨d, rfl⟩ := hdevice p hp
  obtain ⟨d', rfl⟩ := hdevice q hq
  exact sw_of_pin hsw hsw' hpin

/-- `power on 9` is carried out on line -1. -/
theorem switch_9_outside_port :
    ∃ p ∈ ports (ascii "avr://power on 9\n"), ¬ (0 ≤ p.1 ∧ p.1 ≤ 7) :=
  ⟨(-1, 9), by decide +kernel, by decide⟩

end BowerBird.Comms
