import BowerBird.SoundSteps
import Mathlib.Tactic.IntervalCases

/-!
# The sample that is stored is the newest

The converter tags each word with its channel and sends twelve bits of it. The
double buffers of the channels, taken together with the shift of `sampleOf`, the
sign and the byte swap, give back the newest of these words at every timer
interrupt.
-/

namespace BowerBird.Sound

open Firmware Firmware.CString
set_option autoImplicit false

def Input.word? : Input → Option (BitVec 16)
  | .spiInterrupt true word _ => some word
  | _ => none

def tagOf (word : BitVec 16) : Nat := (word.extractLsb' 13 3).toNat

/-- Bits 12 to 1 as a two's complement number. -/
def valueOf (word : BitVec 16) : Int := (word.extractLsb' 1 12).toInt

def lastTagged (j : Nat) (words : List (BitVec 16)) : Option (BitVec 16) :=
  (words.filter fun word => tagOf word = j).getLast?

/-- The newest value of channel `j`, scaled to sixteen bits. -/
def freshest (j : Nat) (is : List Input) : Int :=
  match lastTagged j (is.filterMap Input.word?) with
  | some word => 16 * valueOf word
  | none => -1

/-- Two bytes read as a little-endian signed number. -/
def littleEndian : List Byte → Int
  | [lo, hi] => (hi ++ lo).toInt
  | _ => 0

def Event.stored? : Event → Option (BitVec 16)
  | .store _ v => some v
  | _ => none

theorem littleEndian_le16 (x : BitVec 16) : littleEndian (memoryBytes (le16 x)) = x.toInt := by
  have h : (le16 x).setWidth 8 ++ ((le16 x) >>> 8).setWidth 8 = x := by
    apply BitVec.eq_of_getLsbD_eq
    intro i hi
    simp only [BitVec.getLsbD_append, le16, BitVec.getLsbD_setWidth, BitVec.getLsbD_ushiftRight,
      BitVec.getLsbD_or, BitVec.getLsbD_shiftLeft]
    by_cases hlow : i < 8
    · have h1 : ¬ (8 + i < 8) := by omega
      have h2 : 8 + i < 16 := by omega
      have h3 : x.getLsbD (8 + (8 + i)) = false := BitVec.getLsbD_of_ge x _ (by omega)
      simp [hlow, h1, h2, h3]
    · have h1 : i - 8 < 8 := by omega
      have h2 : 8 + (i - 8) = i := by omega
      simp [hlow, h1, h2]
  exact congrArg BitVec.toInt h

theorem channelOf_eq_iff (word : BitVec 16) (j : Fin numAdcChannels) :
    channelOf word = j ↔ tagOf word = j := by
  have h : ((word >>> 13) &&& 0x7#16).toNat = tagOf word := by
    simp only [tagOf, BitVec.toNat_and, BitVec.toNat_ushiftRight, BitVec.extractLsb'_toNat]
    exact Nat.and_two_pow_sub_one_eq_mod (word.toNat >>> 13) 3
  rw [Fin.ext_iff, ← h]
  rfl

theorem sampleOf_eq (word : BitVec 16) :
    sampleOf word = (word.extractLsb' 1 12).setWidth 16 <<< 4 := by
  apply BitVec.eq_of_getLsbD_eq
  intro i hi
  unfold sampleOf
  interval_cases i <;> simp

theorem toInt_sampleOf (word : BitVec 16) : (sampleOf word).toInt = 16 * valueOf word := by
  have hlt : (word.extractLsb' 1 12).toNat < 2 ^ 12 := BitVec.isLt _
  have hnat : (sampleOf word).toNat = 16 * (word.extractLsb' 1 12).toNat := by
    rw [sampleOf_eq, BitVec.toNat_shiftLeft, BitVec.toNat_setWidth, Nat.shiftLeft_eq]
    omega
  rw [valueOf, BitVec.toInt_eq_toNat_cond, BitVec.toInt_eq_toNat_cond, hnat]
  split <;> split <;> omega

theorem lastTagged_concat (j : Nat) (words : List (BitVec 16)) (word : BitVec 16) :
    lastTagged j (words ++ [word]) = if tagOf word = j then some word else lastTagged j words := by
  unfold lastTagged
  by_cases h : tagOf word = j <;> simp [List.filter_append, h]

def newestSample (j : Nat) (words : List (BitVec 16)) : BitVec 16 :=
  match lastTagged j words with
  | some word => sampleOf word
  | none => -1#16

theorem newestSample_concat (j : Nat) (words : List (BitVec 16)) (word : BitVec 16) :
    newestSample j (words ++ [word]) =
      if tagOf word = j then sampleOf word else newestSample j words := by
  unfold newestSample
  rw [lastTagged_concat]
  by_cases h : tagOf word = j <;> simp only [h, if_true, if_false]

def Fresh (is : List Input) (a : Adc) : Prop :=
  ∀ j, (slot a j).read = newestSample j (is.filterMap Input.word?)

theorem Fresh.of_no_word {is : List Input} {a : Adc} {i : Input} (h : Fresh is a)
    (hi : i.word? = none) : Fresh (is ++ [i]) a := by
  intro j
  rw [h j]
  simp [List.filterMap_append, hi]

theorem Fresh.received {is : List Input} {a a' : Adc} {word : BitVec 16} {txReady : Bool}
    (h : Fresh is a)
    (hslot : ∀ j, slot a' j =
      if channelOf word = j then (slot a j).write (sampleOf word) else slot a j) :
    Fresh (is ++ [.spiInterrupt true word txReady]) a' := by
  intro j
  have hword : (is ++ [Input.spiInterrupt true word txReady]).filterMap Input.word? =
      is.filterMap Input.word? ++ [word] := by simp [Input.word?]
  rw [hslot j, hword, newestSample_concat]
  by_cases hj : channelOf word = j
  · rw [if_pos hj, if_pos ((channelOf_eq_iff word j).mp hj), DoubleBuffer.read_write]
  · rw [if_neg hj, if_neg fun ht => hj ((channelOf_eq_iff word j).mpr ht), h j]

theorem fresh_powerUp : Fresh [] powerUp.adc := by
  intro j
  simp [slot, get_eq_getElem, powerUp, DoubleBuffer.read, newestSample, lastTagged]

theorem runs_fresh {is : List Input} {es : List Event} {b : Board}
    (h : Runs step powerUp is es b) : Fresh is b.adc := by
  refine runs_history (C := fun _ _ => True) (H := fun is _ b => Fresh is b.adc) fresh_powerUp ?_
    along_true h
  intro is es s i fs u _ hs _ hmove
  cases hmove with
  | @spi rdrf _ word _ a _ hslot =>
    cases rdrf with
    | false => exact Fresh.of_no_word (a := a) (fun j => by rw [hslot j]; simpa using hs j) rfl
    | true => exact hs.received fun j => by simpa using hslot j
  | inactive => exact hs.of_no_word rfl
  | within => exact hs.of_no_word rfl
  | flush => exact hs.of_no_word rfl
  | enable => exact hs.of_no_word rfl
  | disable => exact hs.of_no_word rfl
  | fetch => exact hs.of_no_word rfl
  | fetched => exact hs.of_no_word rfl
  | complete => exact hs.of_no_word rfl
  | completed => exact hs.of_no_word rfl

theorem littleEndian_channelValue {is : List Input} {b : Board} (h : Fresh is b.adc)
    (j : Fin numAdcChannels) :
    littleEndian (memoryBytes (channelValue b j)) = freshest j is := by
  rw [channelValue, littleEndian_le16, h j]
  unfold newestSample freshest
  cases lastTagged j (is.filterMap Input.word?) with
  | none => rfl
  | some word => exact toInt_sampleOf word

theorem tcIrq_stores {b : Board} (hwf : WellFormed b) (idleAccepts : Bool) :
    ∃ fs b', step b (.tcInterrupt idleAccepts) = ⟨fs, .ret b'⟩ ∧
      fs.filterMap Event.stored? =
        if udiAudioIsActive b then [channelValue b 0, channelValue b 1] else [] := by
  obtain ⟨fs, b', hstep, hmove⟩ := step_moves hwf (.tcInterrupt idleAccepts)
  refine ⟨fs, b', hstep, ?_⟩
  cases hmove with
  | inactive h => simp [h]
  | within h => simp [h, Event.stored?]
  | flush h => simp [h, Event.stored?]

/-- Whatever came before, a timer interrupt stores for channel 0 and then for
channel 1 the newest value the converter sent. -/
theorem stored_samples_freshest (is : List Input) (idleAccepts : Bool) :
    ∃ es b fs b', Runs step powerUp is es b ∧
      step b (.tcInterrupt idleAccepts) = ⟨fs, .ret b'⟩ ∧
      (fs.filterMap Event.stored?).map (fun v => littleEndian (memoryBytes v)) =
        if udiAudioIsActive b then [freshest 0 is, freshest 1 is] else [] := by
  obtain ⟨es, b, hb⟩ := runs_exist is
  obtain ⟨fs, b', hstep, hstored⟩ := tcIrq_stores (runs_wellFormed hb) idleAccepts
  refine ⟨es, b, fs, b', hb, hstep, ?_⟩
  have h0 := littleEndian_channelValue (runs_fresh hb) 0
  have h1 := littleEndian_channelValue (runs_fresh hb) 1
  rw [hstored]
  split
  · simp only [List.map_cons, List.map_nil, h0, h1]
    rfl
  · rfl

end BowerBird.Sound
