import BowerBird.Firmware.Runs
import BowerBird.Firmware.Buffers
import BowerBird.Firmware.Printf
import Mathlib.Algebra.GroupWithZero.Nat

/-!
# The sound board

The interrupt handlers of `ADC.c` and `sampler.c` and the audio interface of
`udi_audio.c`, with the globals of these files as one state. The handlers run at
one interrupt level, so each of them is one step. The audio endpoint stands for
the USB driver and controller: it runs one transfer at a time and reads `gBuffer`
byte by byte while the transfer lasts.

AVR32 stores the high byte of a word first.
-/

namespace BowerBird.Sound

open Firmware Firmware.CString Firmware.Printf
set_option autoImplicit false

def numAdcChannels : Nat := 8

instance : NeZero numAdcChannels := ⟨by decide⟩

def adcWrite : BitVec 32 := 1#32 <<< 11
def adcAddrMask : BitVec 32 := 0x07#32
def adcAddr (x : BitVec 32) : BitVec 32 := (x &&& adcAddrMask) <<< 6
def pm0 : BitVec 32 := 1#32 <<< 4
def pm1 : BitVec 32 := 1#32 <<< 5
def adcPmNormal : BitVec 32 := pm0 ||| pm1
def adcRangeRefin : BitVec 32 := 1#32 <<< 1
def adcCodingTwosComplement : BitVec 32 := 0#32 <<< 0
def adcCrMsb : BitVec 32 := adcWrite ||| adcPmNormal
def adcCrLsb : BitVec 32 := adcRangeRefin ||| adcCodingTwosComplement
def adcCrAddr (x : BitVec 32) : BitVec 32 := adcCrMsb ||| adcAddr x ||| adcCrLsb
def adcCrShift (x : BitVec 32) : BitVec 32 := x <<< 4

def epSizeIn : Nat := 128
def inFormatNbChannels : Nat := 2
def inFormatLsbyteSampleFreq : BitVec 32 := 32000#32
def sampleSize : Nat := 2
def samplesPerPacket : Nat := epSizeIn / sampleSize

/-- `LE16` on this big-endian machine. -/
def le16 (x : BitVec 16) : BitVec 16 := (x <<< 8) ||| (x >>> 8)

/-- An `int16_t` as it lies in memory. -/
def memoryBytes (x : BitVec 16) : List Byte := [(x >>> 8).setWidth 8, x.setWidth 8]

def memoryImage (xs : List (BitVec 16)) : List Byte := xs.flatMap memoryBytes

def memcpy {n : Nat} (dst : Vector Byte n) (src : List Byte) (len : Nat) :
    Option (Vector Byte n) :=
  if h : len ≤ n ∧ len ≤ src.length then
    some ⟨(src.take len ++ dst.toList.drop len).toArray, by simp; omega⟩
  else none

structure Adc where
  currReadBuf : BitVec 16
  currWriteBuf : BitVec 16
  latestSamples1 : Vector (BitVec 16) numAdcChannels
  latestSamples2 : Vector (BitVec 16) numAdcChannels
  latestSelector : Vector (BitVec 8) numAdcChannels
  spiHandlerCalled : BitVec 32
  spiWrites : BitVec 32

/-- A transfer that the endpoint runs, with the bytes it has read of `gBuffer` so far. -/
structure Transfer where
  size : Nat
  fetched : List Byte

structure Board where
  adc : Adc
  tcTick : BitVec 32
  samples : Vector (BitVec 16) samplesPerPacket
  sampleIndex : Nat
  setting : Int
  gBuffer : Vector Byte epSizeIn
  running : Option Transfer

inductive Event where
  | spiDeselect
  | spiSelect
  | spiPut (word : BitVec 16)
  /-- `samples[k] = v` -/
  | store (k : Nat) (v : BitVec 16)
  /-- `udi_audio_send_samples` is called, with `samples` as it is then -/
  | sendSamples (samples : List (BitVec 16))
  /-- `udd_ep_run` is called for a packet and answers -/
  | epRun (packet : List Byte) (accepted : Bool)
  /-- the controller has finished a transfer -/
  | transmitted (bytes : List Byte)
  | printf (format : List Byte) (args : List Arg)
  deriving Repr, DecidableEq

inductive Input where
  /-- `SR.rdrf`, the received word, and the answer of `spi_is_tx_ready` -/
  | spiInterrupt (rdrf : Bool) (word : BitVec 16) (txReady : Bool)
  /-- the answer of `udd_ep_run` if the endpoint is idle -/
  | tcInterrupt (idleAccepts : Bool)
  | enable (bAlternateSetting : BitVec 8)
  | disable
  /-- the controller reads the next byte of the running transfer -/
  | fetch
  /-- the running transfer ends, after what is left of it has been read -/
  | complete
  deriving Repr, DecidableEq

def powerUp : Board where
  adc :=
    { currReadBuf := 0#16
      currWriteBuf := (adcCrShift (adcCrAddr 0#32)).setWidth 16
      latestSamples1 := Vector.replicate numAdcChannels (-1#16)
      latestSamples2 := Vector.replicate numAdcChannels (-1#16)
      latestSelector := Vector.replicate numAdcChannels 0#8
      spiHandlerCalled := 0#32
      spiWrites := 0#32 }
  tcTick := 0#32
  samples := Vector.replicate samplesPerPacket 0#16
  sampleIndex := 0
  setting := 0
  gBuffer := Vector.replicate epSizeIn 0#8
  running := none

/-- `(currReadBuf >> 13) & 0x7` -/
def channelOf (word : BitVec 16) : Fin numAdcChannels :=
  ⟨((word >>> 13) &&& 0x7#16).toNat, by
    rw [BitVec.toNat_and]
    exact Nat.lt_of_le_of_lt Nat.and_le_right (by decide)⟩

/-- `(currReadBuf & 0x1FFE) << 3` -/
def sampleOf (word : BitVec 16) : BitVec 16 := (word &&& 0x1FFE#16) <<< 3

def storeLatest (a : Adc) (ch : Fin numAdcChannels) (sample : BitVec 16) : Adc :=
  if a.latestSelector[ch] ≠ 0#8 then
    { a with
      latestSamples1 := a.latestSamples1.set ch sample
      latestSelector := a.latestSelector.set ch 0#8 }
  else
    { a with
      latestSamples2 := a.latestSamples2.set ch sample
      latestSelector := a.latestSelector.set ch 1#8 }

def spiIntHandler (a : Adc) (rdrf : Bool) (word : BitVec 16) (txReady : Bool) :
    Exec Event Adc := do
  if rdrf then
    let a := { a with currReadBuf := word, spiHandlerCalled := a.spiHandlerCalled + 1#32 }
    let a := storeLatest a (channelOf word) (sampleOf word)
    let ch : BitVec 32 := (BitVec.ofNat 32 (channelOf word) + 1#32) &&& 0x1#32
    let a := { a with currWriteBuf := (adcCrShift (adcCrAddr ch)).setWidth 16 }
    if txReady then
      Exec.emit .spiDeselect
      Exec.emit .spiSelect
      Exec.emit (.spiPut a.currWriteBuf)
      pure { a with spiWrites := a.spiWrites + 1#32 }
    else pure a
  else pure a

def udiAudioStreamingEnable (b : Board) (bAlternateSetting : BitVec 8) : Exec Event Board := do
  let b := { b with setting := bAlternateSetting.toNat }
  Exec.emit (.printf (ascii "Changed to alt %d\r\n") [.word (BitVec.ofInt 32 b.setting)])
  pure b

/-- The setting stays what it was. -/
def udiAudioStreamingDisable (b : Board) : Exec Event Board := do
  Exec.emit (.printf (ascii "AS disable\r\n") [])
  pure b

def udiAudioIsActive (b : Board) : Bool := b.setting == 1

/-- The driver: a running transfer refuses the next one. -/
def uddEpRun (b : Board) (idleAccepts : Bool) (packet : List Byte) : Exec Event Board := do
  match b.running with
  | some _ =>
    Exec.emit (.epRun packet false)
    pure b
  | none =>
    Exec.emit (.epRun packet idleAccepts)
    if idleAccepts then pure { b with running := some ⟨packet.length, []⟩ } else pure b

def udiAudioSendSamples (b : Board) (idleAccepts : Bool) (buffer : List Byte)
    (bufferSize : Nat) : Exec Event Board := do
  -- the copy is made before the driver says whether the last packet is out
  let g ← Exec.ofOption (memcpy b.gBuffer buffer bufferSize)
  uddEpRun { b with gBuffer := g } idleAccepts (buffer.take bufferSize)

/-- `latestSelector[j] ? latestSamples2[j] : latestSamples1[j]` -/
def latest (a : Adc) (j : Nat) : Exec Event (BitVec 16) := do
  let sel ← Exec.ofOption a.latestSelector[j]?
  if sel ≠ 0#8 then Exec.ofOption a.latestSamples2[j]? else Exec.ofOption a.latestSamples1[j]?

def storeSample (b : Board) (v : BitVec 16) : Exec Event Board := do
  Exec.emit (.store b.sampleIndex v)
  if h : b.sampleIndex < samplesPerPacket then
    pure { b with
           samples := b.samples.set b.sampleIndex v h
           sampleIndex := b.sampleIndex + 1 }
  else Exec.fault

/-- One round of the loop of `tc_irq`. -/
def sampleChannel (idleAccepts : Bool) (b : Board) (j : Nat) : Exec Event Board := do
  let v ← latest b.adc j
  let b ← storeSample b (le16 v)
  if samplesPerPacket ≤ b.sampleIndex then
    Exec.emit (.sendSamples b.samples.toList)
    let b ← udiAudioSendSamples b idleAccepts (memoryImage b.samples.toList)
      (sampleSize * samplesPerPacket)
    pure { b with sampleIndex := 0 }
  else pure b

def tcIrq (b : Board) (idleAccepts : Bool) : Exec Event Board := do
  let tick := b.tcTick + 1#32
  let b := { b with tcTick := if tick = inFormatLsbyteSampleFreq then 0#32 else tick }
  if udiAudioIsActive b then
    (List.range inFormatNbChannels).foldlM (sampleChannel idleAccepts) b
  else pure b

def fetch (b : Board) : Exec Event Board := do
  match b.running with
  | none => pure b
  | some t =>
    if t.fetched.length < t.size then
      let c ← Exec.ofOption b.gBuffer[t.fetched.length]?
      pure { b with running := some { t with fetched := t.fetched ++ [c] } }
    else pure b

def complete (b : Board) : Exec Event Board := do
  match b.running with
  | none => pure b
  | some t =>
    Exec.emit (.transmitted (t.fetched ++ (b.gBuffer.toList.take t.size).drop t.fetched.length))
    pure { b with running := none }

def step (b : Board) : Input → Exec Event Board
  | .spiInterrupt rdrf word txReady => do
    let a ← spiIntHandler b.adc rdrf word txReady
    pure { b with adc := a }
  | .tcInterrupt idleAccepts => tcIrq b idleAccepts
  | .enable alt => udiAudioStreamingEnable b alt
  | .disable => udiAudioStreamingDisable b
  | .fetch => fetch b
  | .complete => complete b

end BowerBird.Sound
