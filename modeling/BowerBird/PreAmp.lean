import BowerBird.Firmware.Runs
import BowerBird.Firmware.CString
import Mathlib.Algebra.GroupWithZero.Nat
import Mathlib.Logic.Function.Basic

/-!
# The pre-amplifiers of the sound board

`PreAmp_read` and `PreAmp_write` of `PreAmp.c`, which set the gains of the eight
channels. The driver `twim` is not part of the firmware: a transfer comes with the
status it ends in, and reaches the register file of the digital potentiometers if
that is `STATUS_OK`.
-/

namespace BowerBird.PreAmp

open Firmware Firmware.CString
set_option autoImplicit false

def numChannels : Nat := 8

instance : NeZero numChannels := ⟨by decide⟩

def statusOk : Int := 0

def rdacTwiAddr (addr : BitVec 32) : BitVec 32 := (0x58#32 ||| (addr &&& 0x06#32)) >>> 1

def rdac1Or3 (addr : BitVec 32) : BitVec 32 := if addr &&& 0x1#32 ≠ 0#32 then 0x3#32 else 0x1#32

/-- The fields of `twim_package_t` but for the buffer. -/
structure Package where
  chip : BitVec 32
  addr : BitVec 32
  addrLength : Nat
  length : Nat
  deriving Repr, DecidableEq

def transfer (channel : Byte) : Package where
  chip := rdacTwiAddr (channel.setWidth 32)
  addr := rdac1Or3 (channel.setWidth 32)
  addrLength := 1
  length := 1

/-- The registers, by chip and register address. -/
abbrev Pots : Type := BitVec 32 × BitVec 32 → Byte

def Package.register (t : Package) : BitVec 32 × BitVec 32 := (t.chip, t.addr)

inductive Event where
  /-- the write protection is taken off -/
  | gpioSet
  | gpioClr
  | readPacket (transfer : Package)
  | writePacket (transfer : Package) (value : Byte)
  | printf (format : List Byte)
  /-- the value that the caller of `PreAmp_read` gets -/
  | readReturned (value : Int)
  | writeReturned (value : Int)
  deriving Repr, DecidableEq

/-- A call with the status of its transfer. -/
inductive Input where
  | read (channel : Fin numChannels) (status : Int)
  | write (channel : Fin numChannels) (value : Byte) (status : Int)
  deriving Repr, DecidableEq

def twimReadPacket (pots : Pots) (t : Package) (buffer : Byte) (status : Int) :
    Exec Event Byte := do
  Exec.emit (.readPacket t)
  pure (if status = statusOk then pots t.register else buffer)

def twimWritePacket (pots : Pots) (t : Package) (buffer : Byte) (status : Int) :
    Exec Event Pots := do
  Exec.emit (.writePacket t buffer)
  pure (if status = statusOk then Function.update pots t.register buffer else pots)

def preAmpRead (pots : Pots) (channel : Byte) (status : Int) : Exec Event Int := do
  let buf ← twimReadPacket pots (transfer channel) 0x42#8 status
  if status = statusOk then
    Exec.emit (.printf (ascii "twim_read_packet: OK!\r\n"))
  else
    Exec.emit (.printf (ascii "twim_read_packet: ERR\r\n"))
  -- `char` is signed
  pure buf.toInt

def preAmpWrite (pots : Pots) (channel value : Byte) (status : Int) : Exec Event (Pots × Int) := do
  Exec.emit .gpioSet
  let pots ← twimWritePacket pots (transfer channel) value status
  if status = statusOk then
    Exec.emit (.printf (ascii "twim_write_packet: OK!\r\n"))
  else
    Exec.emit (.printf (ascii "twim_write_packet: ERR\r\n"))
  Exec.emit .gpioClr
  pure (pots, status)

def step (pots : Pots) : Input → Exec Event Pots
  | .read channel status => do
    let r ← preAmpRead pots (BitVec.ofNat 8 channel) status
    Exec.emit (.readReturned r)
    pure pots
  | .write channel value status => do
    let (pots, r) ← preAmpWrite pots (BitVec.ofNat 8 channel) value status
    Exec.emit (.writeReturned r)
    pure pots

def register (channel : Fin numChannels) : BitVec 32 × BitVec 32 :=
  (transfer (BitVec.ofNat 8 channel)).register

/-- The eight channels have eight registers. -/
theorem register_injective : Function.Injective register := by
  intro c d
  revert c d
  decide

def readValue (pots : Pots) (channel : Fin numChannels) (status : Int) : Int :=
  if status = statusOk then (pots (register channel)).toInt else 0x42

def written (pots : Pots) (channel : Fin numChannels) (value : Byte) (status : Int) : Pots :=
  if status = statusOk then Function.update pots (register channel) value else pots

theorem preAmpRead_eq (pots : Pots) (channel : Fin numChannels) (status : Int) :
    ∃ report, preAmpRead pots (BitVec.ofNat 8 channel) status =
      ⟨[.readPacket (transfer (BitVec.ofNat 8 channel)), .printf report],
        .ret (readValue pots channel status)⟩ := by
  unfold preAmpRead twimReadPacket readValue
  by_cases h : status = statusOk
  · simp only [if_pos h]
    exact ⟨_, rfl⟩
  · simp only [if_neg h]
    exact ⟨_, rfl⟩

theorem preAmpWrite_eq (pots : Pots) (channel : Fin numChannels) (value : Byte) (status : Int) :
    ∃ report, preAmpWrite pots (BitVec.ofNat 8 channel) value status =
      ⟨[.gpioSet, .writePacket (transfer (BitVec.ofNat 8 channel)) value, .printf report,
          .gpioClr], .ret (written pots channel value status, status)⟩ := by
  unfold preAmpWrite twimWritePacket written
  by_cases h : status = statusOk
  · simp only [if_pos h]
    exact ⟨_, rfl⟩
  · simp only [if_neg h]
    exact ⟨_, rfl⟩

theorem step_read (pots : Pots) (channel : Fin numChannels) (status : Int) :
    ∃ report, step pots (.read channel status) =
      ⟨[.readPacket (transfer (BitVec.ofNat 8 channel)), .printf report,
          .readReturned (readValue pots channel status)], .ret pots⟩ := by
  obtain ⟨report, hread⟩ := preAmpRead_eq pots channel status
  refine ⟨report, ?_⟩
  rw [step, hread]
  rfl

theorem step_write (pots : Pots) (channel : Fin numChannels) (value : Byte) (status : Int) :
    ∃ report, step pots (.write channel value status) =
      ⟨[.gpioSet, .writePacket (transfer (BitVec.ofNat 8 channel)) value, .printf report,
          .gpioClr, .writeReturned status], .ret (written pots channel value status)⟩ := by
  obtain ⟨report, hwrite⟩ := preAmpWrite_eq pots channel value status
  refine ⟨report, ?_⟩
  rw [step, hwrite]
  rfl

theorem written_apply (pots : Pots) (c d : Fin numChannels) (value : Byte) (status : Int) :
    written pots d value status (register c) =
      if d = c ∧ status = statusOk then value else pots (register c) := by
  unfold written
  by_cases hstatus : status = statusOk
  · by_cases hdc : d = c
    · simp [hstatus, hdc]
    · have hne : register c ≠ register d := fun h => hdc (register_injective h).symm
      simp [hstatus, hdc, Function.update_of_ne hne]
  · simp [hstatus]

end BowerBird.PreAmp
