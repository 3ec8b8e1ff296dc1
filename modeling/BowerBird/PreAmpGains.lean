import BowerBird.PreAmp

/-!
# Gains read back

A read gives the register of its channel exactly if the contents fit a signed
`char`. A failed read gives the byte that the buffer was set to before.
-/

namespace BowerBird.PreAmp

open Firmware
set_option autoImplicit false

def Input.stored? (c : Fin numChannels) : Input → Option Byte
  | .write d value status => if d = c ∧ status = statusOk then some value else none
  | .read _ _ => none

/-- The value of the last successful write to the channel, or what it held at first. -/
def content (initial : Pots) (c : Fin numChannels) (is : List Input) : Byte :=
  (is.filterMap (Input.stored? c)).getLast?.getD (initial (register c))

/-- The last call of the run, if it reads: a number it returns as a byte is the
contents of the register, and a successful transfer gives a byte. -/
def ReadsBack (initial : Pots) (is : List Input) : Prop :=
  ∀ js c status, is = js ++ [.read c status] → ∀ es pots (r : Int), Runs step initial js es pots →
    .readReturned r ∈ (step pots (.read c status)).events →
    (0 ≤ r ∧ r ≤ 255 → r = (content initial c js).toNat) ∧
      (status = statusOk → 0 ≤ r ∧ r ≤ 255)

/-- A successful read finds a small value, and a failed one what the buffer holds anyway. -/
def Readable (pots : Pots) : Input → Prop
  | .read c status =>
    if status = statusOk then (pots (register c)).toNat < 128 else pots (register c) = 0x42#8
  | .write _ _ _ => True

theorem content_concat (initial : Pots) (c : Fin numChannels) (is : List Input) (i : Input) :
    content initial c (is ++ [i]) = (i.stored? c).getD (content initial c is) := by
  unfold content
  rw [List.filterMap_append]
  cases h : i.stored? c <;> simp [h]

theorem runs_content {initial pots : Pots} {is : List Input} {es : List Event}
    (h : Runs step initial is es pots) (c : Fin numChannels) :
    pots (register c) = content initial c is := by
  refine Runs.history (C := fun _ _ => True)
    (H := fun is _ pots => pots (register c) = content initial c is) rfl ?_ along_true h
  intro is es s i fs u _ hs _ hstep
  rw [content_concat]
  cases i with
  | read d status =>
    obtain ⟨report, hread⟩ := step_read s d status
    rw [hread] at hstep
    cases hstep
    exact hs
  | write d value status =>
    obtain ⟨report, hwrite⟩ := step_write s d value status
    rw [hwrite] at hstep
    cases hstep
    rw [written_apply, Input.stored?, hs]
    split <;> rfl

theorem readReturned_iff (pots : Pots) (c : Fin numChannels) (status r : Int) :
    .readReturned r ∈ (step pots (.read c status)).events ↔ r = readValue pots c status := by
  obtain ⟨report, hread⟩ := step_read pots c status
  rw [hread]
  simp

theorem readable_iff (pots : Pots) (c : Fin numChannels) (status : Int) :
    Readable pots (.read c status) ↔
      (0 ≤ readValue pots c status ∧ readValue pots c status ≤ 255 →
        readValue pots c status = (pots (register c)).toNat) ∧
      (status = statusOk → 0 ≤ readValue pots c status ∧ readValue pots c status ≤ 255) := by
  have hlt := (pots (register c)).isLt
  unfold Readable readValue
  by_cases h : status = statusOk
  · simp only [if_pos h, BitVec.toInt_eq_toNat_cond]
    split <;> omega
  · have hbuf : pots (register c) = 0x42#8 ↔ (pots (register c)).toNat = 66 :=
      BitVec.toNat_inj.symm
    simp only [if_neg h, hbuf]
    omega

/-- Every read of a run gives the gain last written exactly if each finds the register
readable. -/
theorem gains_read_back_iff (initial : Pots) (is : List Input) :
    (∀ pre, pre <+: is → ReadsBack initial pre) ↔ Along step Readable initial is := by
  refine forall_prefix_iff_along (fun is hC => ?_) (fun is i es pots _ hrun hback => ?_) is
  · rintro js c status rfl es pots r hrun hr
    rw [readReturned_iff] at hr
    subst hr
    rw [← runs_content hrun c]
    exact (readable_iff pots c status).mp (hC.last hrun)
  · cases i with
    | write d value status => trivial
    | read c status =>
      apply (readable_iff pots c status).mpr
      rw [runs_content hrun c]
      exact hback is c status rfl es pots _ hrun ((readReturned_iff pots c status _).mpr rfl)

/-- 182 written and read back is a negative number, and a failed read of a register
that holds 0 looks like 66. -/
theorem written_182_reads_negative :
    ¬ ReadsBack (fun _ => 0#8) [.write 0 182#8 0, .read 0 0] ∧
      ¬ ReadsBack (fun _ => 0#8) [.read 0 (-1)] := by
  constructor
  · intro h
    have hread := (readReturned_iff (written (fun _ => 0#8) 0 182#8 0) 0 0 (-74)).mpr (by decide)
    have hbyte := (h [.write 0 182#8 0] 0 0 rfl _ _ (-74) rfl hread).2 rfl
    omega
  · intro h
    have hread := (readReturned_iff (fun _ => 0#8) 0 (-1) 66).mpr (by decide)
    have hvalue := (h [] 0 (-1) rfl [] _ 66 rfl hread).1 (by decide)
    exact absurd hvalue (by decide)

end BowerBird.PreAmp
