import BowerBird.SoundSteps

/-!
# When the board streams

The host turns streaming on and off through the callbacks of the interface. The
board keeps the alternate setting of the last `enable`, and `disable` leaves it
as it is: the flag follows the callbacks exactly as long as no `disable` finds
the interface in setting 1.
-/

namespace BowerBird.Sound

open Firmware
set_option autoImplicit false

def Input.isCallback : Input → Bool
  | .enable _ => true
  | .disable => true
  | _ => false

def lastCallback (is : List Input) : Option Input := (is.filter Input.isCallback).getLast?

/-- The stream is active exactly after `enable` with setting 1, and a timer
interrupt after a `disable` that no `enable` followed hands on no packet. -/
def FollowsCallbacks (is : List Input) : Prop :=
  ∀ es b, Runs step powerUp is es b →
    (udiAudioIsActive b = true ↔ lastCallback is = some (.enable 1#8)) ∧
    (lastCallback is = some .disable →
      ∀ ok fs t, step b (.tcInterrupt ok) = ⟨fs, .ret t⟩ → handed fs = [])

/-- The interface is not torn down while it streams. -/
def DisabledInactive (b : Board) (i : Input) : Prop := i = .disable → udiAudioIsActive b = false

theorem lastCallback_concat (is : List Input) (i : Input) :
    lastCallback (is ++ [i]) = if i.isCallback then some i else lastCallback is := by
  unfold lastCallback
  cases h : i.isCallback <;> simp [List.filter_append, h]

theorem enable_active_iff (b : Board) (alt : BitVec 8) :
    udiAudioIsActive { b with setting := alt.toNat } = true ↔
      some (Input.enable alt) = some (.enable 1#8) := by
  have hone : (alt.toNat : Int) = 1 ↔ alt = 1#8 := by
    rw [← BitVec.toNat_inj, BitVec.toNat_ofNat]
    omega
  simp only [udiAudioIsActive, beq_iff_eq, hone, Option.some.injEq, Input.enable.injEq]

theorem runs_active_iff {is : List Input} {es : List Event} {b : Board}
    (hC : Along step DisabledInactive powerUp is) (h : Runs step powerUp is es b) :
    udiAudioIsActive b = true ↔ lastCallback is = some (.enable 1#8) := by
  refine runs_history (H := fun is _ b =>
    udiAudioIsActive b = true ↔ lastCallback is = some (.enable 1#8)) ?_ ?_ hC h
  · simp [lastCallback, udiAudioIsActive, powerUp]
  intro is es s i fs u _ hs hCi hmove
  rw [lastCallback_concat]
  cases hmove with
  | enable alt => exact enable_active_iff s alt
  | disable => simp [Input.isCallback, hCi rfl]
  | spi => exact hs
  | inactive => exact hs
  | within => exact hs
  | flush => exact hs
  | fetch => exact hs
  | fetched => exact hs
  | complete => exact hs
  | completed => exact hs

theorem inactive_hands_nothing {b t : Board} {ok : Bool} {fs : List Event}
    (h : udiAudioIsActive b = false) (hstep : step b (.tcInterrupt ok) = ⟨fs, .ret t⟩) :
    handed fs = [] := by
  have hret : step b (.tcInterrupt ok) = ⟨[], .ret (ticked b)⟩ := tcIrq_inactive h
  rw [hret] at hstep
  cases hstep
  rfl

/-- The flag follows the callbacks throughout a run exactly if no `disable` of
the run finds the stream active. -/
theorem follows_callbacks_iff (is : List Input) :
    (∀ pre, pre <+: is → FollowsCallbacks pre) ↔ Along step DisabledInactive powerUp is := by
  refine forall_prefix_iff_along (fun is hC => ?_) (fun is i es b hC hb hfollows => ?_) is
  · intro es b hb
    have hactive := runs_active_iff hC hb
    refine ⟨hactive, fun hlast ok fs t hstep => inactive_hands_nothing ?_ hstep⟩
    rw [← Bool.not_eq_true, hactive, hlast]
    simp
  · rintro rfl
    have hdisable : Runs step powerUp (is ++ [.disable]) _ b := hb.concat rfl
    have hflag := (hfollows _ b hdisable).1
    rw [lastCallback_concat] at hflag
    simpa [Input.isCallback] using hflag

def tornDown : List Input := [.enable 1#8, .disable] ++ List.replicate 32 (.tcInterrupt true)

/-- The board still counts as active then, and it has handed on a packet. -/
theorem tornDown_streams_on :
    ∃ es b, Runs step powerUp tornDown es b ∧ lastCallback tornDown = some .disable ∧
      udiAudioIsActive b = true ∧ handed es ≠ [] := by
  obtain ⟨b, hb, hactive⟩ := runs_of_ret? step powerUp tornDown udiAudioIsActive
    (v := true) (by decide +kernel)
  exact ⟨_, b, hb, by decide, hactive, by decide +kernel⟩

end BowerBird.Sound
