import BowerBird.SoundSamples
import BowerBird.SoundSessions
import BowerBird.SoundTransfers

/-!
# From the converter to the host

What a host hears that reads the transmitted bytes as little-endian stereo: while the
interface streams, one frame for each timer interrupt, with the newest value the
converter has sent for each channel. A driver that keeps pace loses none of them.
-/

namespace BowerBird.Sound

open Firmware Firmware.CString
set_option autoImplicit false

def Input.alternate? : Input → Option (BitVec 8)
  | .enable alt => some alt
  | _ => none

def lastAlternate (is : List Input) : Option (BitVec 8) := (is.filterMap Input.alternate?).getLast?

def udiAudioStreamingGetsetting (b : Board) : BitVec 8 := BitVec.ofInt 8 b.setting

/-- The frame that an input adds behind these inputs. -/
def frameAt (past : List Input) : Input → List (Int × Int)
  | .tcInterrupt _ =>
    if lastAlternate past = some 1#8 then [(freshest 0 past, freshest 1 past)] else []
  | _ => []

def framesFrom (past : List Input) : List Input → List (Int × Int)
  | [] => []
  | i :: is => frameAt past i ++ framesFrom (past ++ [i]) is

/-- The sound of a run, told from its inputs alone. -/
def frames (is : List Input) : List (Int × Int) := framesFrom [] is

theorem lastAlternate_concat (is : List Input) (i : Input) :
    lastAlternate (is ++ [i]) = i.alternate?.or (lastAlternate is) := by
  unfold lastAlternate
  rw [List.filterMap_append, List.getLast?_append]
  cases h : i.alternate? <;> simp [h]

theorem framesFrom_concat (past is : List Input) (i : Input) :
    framesFrom past (is ++ [i]) = framesFrom past is ++ frameAt (past ++ is) i := by
  induction is generalizing past with
  | nil => simp [framesFrom]
  | cons j is ih =>
    rw [List.cons_append, framesFrom, ih, framesFrom, List.append_assoc, List.append_assoc,
      List.singleton_append]

theorem runs_setting {is : List Input} {es : List Event} {b : Board}
    (h : Runs step powerUp is es b) :
    b.setting = (((lastAlternate is).map BitVec.toNat).getD 0 : Nat) := by
  refine runs_history (C := fun _ _ => True) (H := fun is _ b =>
    b.setting = (((lastAlternate is).map BitVec.toNat).getD 0 : Nat)) rfl ?_ along_true h
  intro is es s i fs u _ hs _ hmove
  rw [lastAlternate_concat]
  cases hmove with
  | enable alt => simp [Input.alternate?]
  | spi => exact hs
  | inactive => exact hs
  | within => exact hs
  | flush => exact hs
  | disable => exact hs
  | fetch => exact hs
  | fetched => exact hs
  | complete => exact hs
  | completed => exact hs

theorem runs_getsetting {is : List Input} {es : List Event} {b : Board}
    (h : Runs step powerUp is es b) :
    udiAudioStreamingGetsetting b = (lastAlternate is).getD 0#8 := by
  rw [udiAudioStreamingGetsetting, runs_setting h]
  cases lastAlternate is <;> simp

theorem runs_streaming {is : List Input} {es : List Event} {b : Board}
    (h : Runs step powerUp is es b) :
    udiAudioIsActive b = true ↔ lastAlternate is = some 1#8 := by
  rw [udiAudioIsActive, runs_setting h]
  cases hlast : lastAlternate is with
  | none => simp
  | some alt =>
    have hone : alt.toNat = 1 ↔ alt = 1#8 := by
      rw [← BitVec.toNat_inj, BitVec.toNat_ofNat]
    simp [← hone]

/-- A stream of stereo frames, two bytes to a channel, the low one first. -/
def decodeFrames : List Byte → List (Int × Int)
  | a :: b :: c :: d :: rest => (littleEndian [a, b], littleEndian [c, d]) :: decodeFrames rest
  | _ => []

def heard (p : BitVec 16 × BitVec 16) : Int × Int :=
  (littleEndian (memoryBytes p.1), littleEndian (memoryBytes p.2))

theorem decodeFrames_memoryImage (ps : List (BitVec 16 × BitVec 16)) :
    decodeFrames (memoryImage (ps.flatMap entries)) = ps.map heard := by
  induction ps with
  | nil => rfl
  | cons p ps ih =>
    rw [List.map_cons, ← ih]
    rfl

theorem runs_frames {is : List Input} {es : List Event} {b : Board}
    (h : Runs step powerUp is es b) : (pairsTaken is).map heard = frames is := by
  refine runs_history (C := fun _ _ => True) (H := fun is _ _ =>
    (pairsTaken is).map heard = frames is) rfl ?_ along_true h
  intro is es s i fs u hr hs _ _
  have hgather : pairsTaken (is ++ [i]) = pairsTaken is ++ pairTaken s i :=
    gather_concat pairTaken hr i
  have hframes : frames (is ++ [i]) = frames is ++ frameAt is i := framesFrom_concat [] is i
  rw [hgather, hframes, List.map_append, hs]
  congr 1
  cases i with
  | tcInterrupt ok =>
    simp only [pairTaken, frameAt, runs_streaming hr]
    split
    · have h0 := littleEndian_channelValue (runs_fresh hr) 0
      have h1 := littleEndian_channelValue (runs_fresh hr) 1
      simp only [List.map_cons, List.map_nil, heard, h0, h1]
      rfl
    · rfl
  | _ => rfl

/-- When a packet is complete, the endpoint is idle and takes it. -/
def KeepsPace (b : Board) (i : Input) : Prop :=
  ∀ ok, i = .tcInterrupt ok → udiAudioIsActive b = true →
    b.sampleIndex + inFormatNbChannels = samplesPerPacket → b.running = none ∧ ok = true

theorem undisturbed_of_keepsPace {b : Board} {i : Input} (h : KeepsPace b i) :
    Undisturbed b i := by
  intro ok hi hactive hidx t ht
  rw [(h ok hi hactive hidx).1] at ht
  cases ht

theorem Move.accepts {b u : Board} {i : Input} {fs : List Event} (h : Move b i fs u)
    (hC : KeepsPace b i) : accepted fs = (handed fs).map memoryImage := by
  cases h with
  | spi hes => rcases hes with rfl | ⟨w, rfl⟩ <;> rfl
  | @flush ok h hidx =>
    obtain ⟨hidle, rfl⟩ := hC ok rfl h hidx
    rw [accepted_flush, hidle]
    rfl
  | _ => rfl

theorem runs_packets {is : List Input} {es : List Event} {b : Board}
    (hC : Along step KeepsPace powerUp is) (h : Runs step powerUp is es b) :
    transmitted es ++ inFlight b = (handed es).map memoryImage := by
  have haccepted : accepted es = (handed es).map memoryImage := by
    refine runs_history (H := fun _ es _ => accepted es = (handed es).map memoryImage) rfl ?_ hC h
    intro is es s i fs u _ hs hCi hmove
    have hfs := hmove.accepts hCi
    unfold accepted at hs hfs ⊢
    rw [List.filterMap_append, handed_append, List.map_append, hs, hfs]
  have haccounted : Accounted es b :=
    runs_accounted (hC.mono fun _ _ => undisturbed_of_keepsPace) h
  rw [← haccepted, ← haccounted]

theorem take_flatMap_entries (ps : List (BitVec 16 × BitVec 16)) (n : Nat) :
    (ps.take n).flatMap entries = (ps.flatMap entries).take (2 * n) := by
  induction ps generalizing n with
  | nil => simp
  | cons p ps ih =>
    cases n with
    | zero => rfl
    | succ n =>
      have hn : 2 * (n + 1) = (entries p).length + 2 * n := by
        simp only [entries, List.length_cons, List.length_nil]
        omega
      rw [List.take_succ_cons, List.flatMap_cons, ih, hn, List.flatMap_cons,
        List.take_length_add_append]

theorem memoryImage_flatten (packets : List (List (BitVec 16))) :
    (packets.map memoryImage).flatten = memoryImage packets.flatten := by
  induction packets with
  | nil => rfl
  | cons p packets ih =>
    rw [List.map_cons, List.flatten_cons, ih, List.flatten_cons, memoryImage, memoryImage,
      memoryImage, List.flatMap_append]

theorem length_packets {packets : List (List (BitVec 16))}
    (h : ∀ p ∈ packets, p.length = samplesPerPacket) :
    packets.flatten.length = samplesPerPacket * packets.length := by
  induction packets with
  | nil => rfl
  | cons p packets ih =>
    rw [List.flatten_cons, List.length_append, h p List.mem_cons_self,
      ih fun q hq => h q (List.mem_cons_of_mem p hq), List.length_cons, Nat.mul_succ, Nat.add_comm]

theorem length_inFlight (b : Board) : (inFlight b).length ≤ 1 := by
  unfold inFlight
  cases b.running with
  | none => exact Nat.zero_le 1
  | some t => exact Nat.le_refl 1

theorem decodeFrames_packets {is : List Input} {es : List Event} {b : Board}
    (h : Runs step powerUp is es b) {n : Nat} (hn : n ≤ (handed es).length) :
    decodeFrames (((handed es).take n).map memoryImage).flatten =
      ((pairsTaken is).map heard).take (32 * n) := by
  obtain ⟨hconserves, -, hlen⟩ := runs_conserve h
  have hlen' : ∀ p ∈ (handed es).take n, p.length = samplesPerPacket :=
    fun p hp => hlen p (List.mem_of_mem_take hp)
  have htake : ((handed es).take n).flatten = ((pairsTaken is).take (32 * n)).flatMap entries := by
    have hsplit : (handed es).flatten =
        ((handed es).take n).flatten ++ ((handed es).drop n).flatten := by
      rw [← List.flatten_append, List.take_append_drop]
    have hcount : ((handed es).take n).flatten.length = 2 * (32 * n) := by
      rw [length_packets hlen', List.length_take, Nat.min_eq_left hn, samplesPerPacket, epSizeIn,
        sampleSize]
      omega
    rw [take_flatMap_entries, ← hconserves, hsplit, List.append_assoc, ← hcount, List.take_left]
  rw [memoryImage_flatten, htake, decodeFrames_memoryImage, List.map_take]

/-- With a driver that keeps pace, the host hears the sound that was sampled: from the
first frame on, in order and without a gap, and never more than 63 frames late. -/
theorem sound_arrives {is : List Input} {es : List Event} {b : Board}
    (hC : Along step KeepsPace powerUp is) (h : Runs step powerUp is es b) :
    decodeFrames (transmitted es).flatten <+: frames is ∧
      (frames is).length ≤ (decodeFrames (transmitted es).flatten).length + 63 := by
  have hpackets := runs_packets hC h
  have hcount := congrArg List.length hpackets
  rw [List.length_append, List.length_map] at hcount
  have hone := length_inFlight b
  have hn : (transmitted es).length ≤ (handed es).length := by omega
  have hsent : transmitted es = ((handed es).take (transmitted es).length).map memoryImage := by
    rw [List.map_take, ← hpackets, List.take_left]
  obtain ⟨hconserves, -, hlen⟩ := runs_conserve h
  have hidx := (runs_wellFormed h).index
  have hpairs := congrArg List.length hconserves
  rw [List.length_append, length_packets hlen, length_flatMap_entries, List.length_take,
    Vector.length_toList] at hpairs
  rw [hsent, decodeFrames_packets h hn, ← runs_frames h]
  refine ⟨List.take_prefix _ _, ?_⟩
  rw [List.length_take, List.length_map]
  simp only [samplesPerPacket, epSizeIn, sampleSize] at hidx hpairs
  omega

def keepsPaceTest (b : Board) : Input → Bool
  | .tcInterrupt ok =>
    !(udiAudioIsActive b && b.sampleIndex + inFormatNbChannels == samplesPerPacket) ||
      b.running.isNone && ok
  | _ => true

theorem keepsPace_of_test {b : Board} {i : Input} (h : keepsPaceTest b i = true) :
    KeepsPace b i := by
  rintro ok rfl hactive hidx
  simpa [keepsPaceTest, hactive, hidx] using h

def oneMillisecond : List Input :=
  [.enable 1#8, .spiInterrupt true 0x0010#16 true, .spiInterrupt true 0x2020#16 true] ++
    List.replicate 32 (.tcInterrupt true) ++ [.complete]

theorem sound_arrives_one_millisecond :
    ∃ es b, Runs step powerUp oneMillisecond es b ∧
      frames oneMillisecond = List.replicate 32 (128, 256) ∧ (transmitted es).length = 1 ∧
      decodeFrames (transmitted es).flatten <+: List.replicate 32 (128, 256) := by
  obtain ⟨es, b, hb⟩ := runs_exist oneMillisecond
  have hC : Along step KeepsPace powerUp oneMillisecond :=
    along_of_test (fun _ _ => keepsPace_of_test) (by decide +kernel)
  have hframes : frames oneMillisecond = List.replicate 32 (128, 256) := by decide +kernel
  have hevents : es = (Exec.feed step powerUp oneMillisecond).events := by rw [hb]
  have harrives := (sound_arrives hC hb).1
  rw [hframes] at harrives
  refine ⟨es, b, hb, hframes, ?_, harrives⟩
  rw [hevents]
  decide +kernel

end BowerBird.Sound
