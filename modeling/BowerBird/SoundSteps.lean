import BowerBird.SoundBoard

/-!
# What one step of the sound board does

Each handler in closed form. A timer interrupt either finds the stream inactive,
or stores one sample of each channel, or stores them and hands on the packet they
complete.
-/

namespace BowerBird.Sound

open Firmware Firmware.CString Firmware.Exec
set_option autoImplicit false

variable {b t : Board} {ok : Bool}

def Event.handed? : Event → Option (List (BitVec 16))
  | .sendSamples samples => some samples
  | _ => none

def handed (es : List Event) : List (List (BitVec 16)) := es.filterMap Event.handed?

theorem handed_append (es fs : List Event) : handed (es ++ fs) = handed es ++ handed fs :=
  List.filterMap_append

@[simp] theorem memoryImage_length (xs : List (BitVec 16)) :
    (memoryImage xs).length = sampleSize * xs.length := by
  induction xs with
  | nil => rfl
  | cons x xs ih =>
    simp only [memoryImage, List.flatMap_cons, List.length_append, List.length_cons] at ih ⊢
    rw [ih]
    simp only [memoryBytes, List.length_cons, List.length_nil, sampleSize]
    omega

theorem memcpy_all {n : Nat} {dst : Vector Byte n} {src : List Byte} (h : src.length = n) :
    memcpy dst src n = some ⟨src.toArray, by simpa using h⟩ := by
  unfold memcpy
  rw [dif_pos ⟨Nat.le_refl n, Nat.le_of_eq h.symm⟩]
  have hdrop : dst.toList.drop n = [] := List.drop_eq_nil_of_le (by simp)
  have htake : src.take n = src := List.take_of_length_le (Nat.le_of_eq h)
  simp only [hdrop, htake, List.append_nil]

theorem get_eq_getElem {α : Type*} {n : Nat} (xs : Vector α n) (i : Fin n) :
    xs.get i = xs[(i : Nat)] := rfl

theorem set_eq_setIfInBounds {α : Type*} {n i : Nat} (xs : Vector α n) (v : α) (h : i < n) :
    xs.set i v h = xs.setIfInBounds i v := by
  ext j hj
  simp only [Vector.getElem_set, Vector.getElem_setIfInBounds]

def slot (a : Adc) (j : Fin numAdcChannels) : DoubleBuffer (BitVec 16) :=
  ⟨a.latestSamples1.get j, a.latestSamples2.get j, decide (a.latestSelector.get j ≠ 0#8)⟩

theorem latest_eq (a : Adc) (j : Fin numAdcChannels) : latest a j = pure (slot a j).read := by
  have h1 : a.latestSelector[(j : Nat)]? = some a.latestSelector[(j : Nat)] := by simp
  have h2 : a.latestSamples1[(j : Nat)]? = some a.latestSamples1[(j : Nat)] := by simp
  have h3 : a.latestSamples2[(j : Nat)]? = some a.latestSamples2[(j : Nat)] := by simp
  simp only [latest, h1, h2, h3, ofOption_some, pure_bind, DoubleBuffer.read, slot,
    get_eq_getElem, decide_eq_true_eq]
  split <;> rfl

theorem slot_storeLatest (a : Adc) (ch : Fin numAdcChannels) (sample : BitVec 16)
    (j : Fin numAdcChannels) :
    slot (storeLatest a ch sample) j = if ch = j then (slot a j).write sample else slot a j := by
  by_cases hch : ch = j
  · subst hch
    rw [if_pos rfl]
    simp only [slot, get_eq_getElem]
    unfold storeLatest DoubleBuffer.write
    by_cases hsel : a.latestSelector[(ch : Nat)] = 0#8 <;> simp [hsel]
  · rw [if_neg hch]
    have hne : (ch : Nat) ≠ j := fun h => hch (Fin.ext h)
    simp only [slot, get_eq_getElem]
    unfold storeLatest
    by_cases hsel : a.latestSelector[(ch : Nat)] = 0#8 <;> simp [hsel, hne]

/-- What a timer interrupt stores for channel `j`. -/
def channelValue (b : Board) (j : Fin numAdcChannels) : BitVec 16 := le16 (slot b.adc j).read

def ticked (b : Board) : Board :=
  { b with
    tcTick := if b.tcTick + 1#32 = inFormatLsbyteSampleFreq then 0#32 else b.tcTick + 1#32 }

def sampled (b : Board) : Vector (BitVec 16) samplesPerPacket :=
  (b.samples.setIfInBounds b.sampleIndex (channelValue b 0)).setIfInBounds (b.sampleIndex + 1)
    (channelValue b 1)

/-- The bytes of the packet that an interrupt hands on if it completes one. -/
def packet (b : Board) : Vector Byte epSizeIn :=
  ⟨(memoryImage (sampled b).toList).toArray, by
    simp only [List.size_toArray, memoryImage_length, Vector.length_toList]; rfl⟩

/-- What becomes of the endpoint when it is asked to run a packet. -/
def nextTransfer (running : Option Transfer) (ok : Bool) : Option Transfer :=
  if running.isNone && ok then some ⟨epSizeIn, []⟩ else running

theorem uddEpRun_eq (b : Board) (ok : Bool) {p : List Byte} (hp : p.length = epSizeIn) :
    uddEpRun b ok p =
      ⟨[.epRun p (b.running.isNone && ok)], .ret { b with running := nextTransfer b.running ok }⟩ := by
  obtain ⟨adc, tick, samples, idx, setting, g, _ | t⟩ := b
  · cases ok <;> simp [uddEpRun, nextTransfer, hp, pure_def]
  · simp [uddEpRun, nextTransfer, pure_def]

theorem storeSample_eq (b : Board) (v : BitVec 16) (h : b.sampleIndex < samplesPerPacket) :
    storeSample b v =
      ⟨[.store b.sampleIndex v],
        .ret { b with
               samples := b.samples.setIfInBounds b.sampleIndex v
               sampleIndex := b.sampleIndex + 1 }⟩ := by
  simp only [storeSample, dif_pos h, emit_bind, pure_def, set_eq_setIfInBounds]

theorem sampleChannel_within {j : Fin numAdcChannels} (h : b.sampleIndex + 1 < samplesPerPacket) :
    sampleChannel ok b j =
      ⟨[.store b.sampleIndex (channelValue b j)],
        .ret { b with
               samples := b.samples.setIfInBounds b.sampleIndex (channelValue b j)
               sampleIndex := b.sampleIndex + 1 }⟩ := by
  have hidx : b.sampleIndex < samplesPerPacket := by omega
  rw [sampleChannel, latest_eq, pure_bind, storeSample_eq _ _ hidx, ret_bind,
    if_neg (Nat.not_le.mpr h)]
  rfl

theorem sampleChannel_last {j : Fin numAdcChannels} {xs : Vector (BitVec 16) samplesPerPacket}
    (h : b.sampleIndex + 1 = samplesPerPacket)
    (hxs : xs = b.samples.setIfInBounds b.sampleIndex (channelValue b j)) :
    sampleChannel ok b j =
      ⟨[.store b.sampleIndex (channelValue b j), .sendSamples xs.toList,
          .epRun (memoryImage xs.toList) (b.running.isNone && ok)],
        .ret { b with
               samples := xs
               sampleIndex := 0
               gBuffer := ⟨(memoryImage xs.toList).toArray, by
                 simp only [List.size_toArray, memoryImage_length, Vector.length_toList]; rfl⟩
               running := nextTransfer b.running ok }⟩ := by
  have hidx : b.sampleIndex < samplesPerPacket := by omega
  have hlen : (memoryImage xs.toList).length = epSizeIn := by
    simp only [memoryImage_length, Vector.length_toList]; rfl
  have hsize : sampleSize * samplesPerPacket = epSizeIn := rfl
  have htake : (memoryImage xs.toList).take epSizeIn = memoryImage xs.toList :=
    List.take_of_length_le (Nat.le_of_eq hlen)
  rw [sampleChannel, latest_eq, pure_bind, storeSample_eq _ _ hidx, ret_bind,
    if_pos (Nat.le_of_eq h.symm)]
  subst hxs
  simp only [channelValue] at hlen htake ⊢
  simp only [udiAudioSendSamples, hsize, memcpy_all hlen, ofOption_some, htake,
    uddEpRun_eq _ _ hlen, emit_bind, ret_bind, pure_def, List.cons_append, List.nil_append,
    List.append_nil]

theorem tcIrq_inactive (h : udiAudioIsActive b = false) : tcIrq b ok = ⟨[], .ret (ticked b)⟩ := by
  have hticked : udiAudioIsActive (ticked b) = false := h
  exact if_neg (Bool.eq_false_iff.mp hticked)

theorem tcIrq_active (h : udiAudioIsActive b = true) :
    tcIrq b ok = sampleChannel ok (ticked b) 0 >>= fun c => sampleChannel ok c 1 := by
  have hticked : udiAudioIsActive (ticked b) = true := h
  have hloop : (List.range inFormatNbChannels).foldlM (sampleChannel ok) (ticked b) =
      sampleChannel ok (ticked b) 0 >>= fun c => sampleChannel ok c 1 := by
    simp [inFormatNbChannels, List.range_succ]
  exact (if_pos hticked).trans hloop

theorem tcIrq_first (h : udiAudioIsActive b = true) (hidx : b.sampleIndex + 1 < samplesPerPacket) :
    tcIrq b ok =
      (⟨[.store b.sampleIndex (channelValue b 0)],
        .ret { ticked b with
               samples := b.samples.setIfInBounds b.sampleIndex (channelValue b 0)
               sampleIndex := b.sampleIndex + 1 }⟩ : Exec Event Board) >>= fun c =>
      sampleChannel ok c 1 := by
  have h0 : sampleChannel ok (ticked b) 0 = _ := sampleChannel_within (j := 0) hidx
  rw [tcIrq_active h, h0]
  rfl

theorem tcIrq_within (h : udiAudioIsActive b = true)
    (hidx : b.sampleIndex + 2 < samplesPerPacket) :
    tcIrq b ok =
      ⟨[.store b.sampleIndex (channelValue b 0), .store (b.sampleIndex + 1) (channelValue b 1)],
        .ret { ticked b with samples := sampled b, sampleIndex := b.sampleIndex + 2 }⟩ := by
  have h1 : sampleChannel ok { ticked b with
      samples := b.samples.setIfInBounds b.sampleIndex (channelValue b 0)
      sampleIndex := b.sampleIndex + 1 } 1 = _ := sampleChannel_within (j := 1) hidx
  rw [tcIrq_first h (by omega), ret_bind, h1]
  rfl

theorem tcIrq_flush (h : udiAudioIsActive b = true) (hidx : b.sampleIndex + 2 = samplesPerPacket) :
    tcIrq b ok =
      ⟨[.store b.sampleIndex (channelValue b 0), .store (b.sampleIndex + 1) (channelValue b 1),
          .sendSamples (sampled b).toList, .epRun (packet b).toList (b.running.isNone && ok)],
        .ret { ticked b with
               samples := sampled b
               sampleIndex := 0
               gBuffer := packet b
               running := nextTransfer b.running ok }⟩ := by
  have h1 : sampleChannel ok { ticked b with
      samples := b.samples.setIfInBounds b.sampleIndex (channelValue b 0)
      sampleIndex := b.sampleIndex + 1 } 1 = _ :=
    sampleChannel_last (j := 1) hidx (rfl : sampled b = _)
  rw [tcIrq_first h (by omega), ret_bind, h1]
  rfl

structure WellFormed (b : Board) : Prop where
  index : b.sampleIndex < samplesPerPacket
  aligned : inFormatNbChannels ∣ b.sampleIndex
  transfer : ∀ t, b.running = some t → t.size = epSizeIn ∧ t.fetched.length ≤ epSizeIn

/-- What the step for an input shows and where it leads. -/
inductive Move (b : Board) : Input → List Event → Board → Prop where
  | spi {rdrf txReady : Bool} {word : BitVec 16} {es : List Event} {a : Adc}
      (hes : es = [] ∨ ∃ w, es = [.spiDeselect, .spiSelect, .spiPut w])
      (hslot : ∀ j, slot a j =
        if rdrf ∧ channelOf word = j then (slot b.adc j).write (sampleOf word) else slot b.adc j) :
      Move b (.spiInterrupt rdrf word txReady) es { b with adc := a }
  | inactive {ok : Bool} (h : udiAudioIsActive b = false) : Move b (.tcInterrupt ok) [] (ticked b)
  | within {ok : Bool} (h : udiAudioIsActive b = true)
      (hidx : b.sampleIndex + 2 < samplesPerPacket) :
      Move b (.tcInterrupt ok)
        [.store b.sampleIndex (channelValue b 0), .store (b.sampleIndex + 1) (channelValue b 1)]
        { ticked b with samples := sampled b, sampleIndex := b.sampleIndex + 2 }
  | flush {ok : Bool} (h : udiAudioIsActive b = true)
      (hidx : b.sampleIndex + 2 = samplesPerPacket) :
      Move b (.tcInterrupt ok)
        [.store b.sampleIndex (channelValue b 0), .store (b.sampleIndex + 1) (channelValue b 1),
          .sendSamples (sampled b).toList, .epRun (packet b).toList (b.running.isNone && ok)]
        { ticked b with
          samples := sampled b
          sampleIndex := 0
          gBuffer := packet b
          running := nextTransfer b.running ok }
  | enable (alt : BitVec 8) :
      Move b (.enable alt)
        [.printf (ascii "Changed to alt %d\r\n") [.word (BitVec.ofInt 32 alt.toNat)]]
        { b with setting := alt.toNat }
  | disable : Move b .disable [.printf (ascii "AS disable\r\n") []] b
  | fetch {t : Transfer} {c : Byte} (ht : b.running = some t)
      (hc : b.gBuffer.toList[t.fetched.length]? = some c) :
      Move b .fetch [] { b with running := some { t with fetched := t.fetched ++ [c] } }
  | fetched (h : ∀ t, b.running = some t → t.fetched.length = epSizeIn) : Move b .fetch [] b
  | complete {t : Transfer} (ht : b.running = some t) :
      Move b .complete [.transmitted (t.fetched ++ b.gBuffer.toList.drop t.fetched.length)]
        { b with running := none }
  | completed (h : b.running = none) : Move b .complete [] b

theorem spiIntHandler_moves (a : Adc) (rdrf : Bool) (word : BitVec 16) (txReady : Bool) :
    ∃ es a', spiIntHandler a rdrf word txReady = ⟨es, .ret a'⟩ ∧
      (es = [] ∨ ∃ w, es = [.spiDeselect, .spiSelect, .spiPut w]) ∧
      ∀ j, slot a' j =
        if rdrf ∧ channelOf word = j then (slot a j).write (sampleOf word) else slot a j := by
  cases rdrf with
  | false => exact ⟨[], a, rfl, .inl rfl, by simp⟩
  | true =>
    -- the other fields that the handler sets are not read through a slot
    have hslot := slot_storeLatest
      { a with currReadBuf := word, spiHandlerCalled := a.spiHandlerCalled + 1#32 }
      (channelOf word) (sampleOf word)
    simp only [true_and]
    cases txReady with
    | false => exact ⟨[], _, rfl, .inl rfl, hslot⟩
    | true => exact ⟨_, _, rfl, .inr ⟨_, rfl⟩, hslot⟩

theorem tcIrq_moves (hwf : WellFormed b) (ok : Bool) :
    ∃ es t, tcIrq b ok = ⟨es, .ret t⟩ ∧ Move b (.tcInterrupt ok) es t := by
  cases hactive : udiAudioIsActive b with
  | false => exact ⟨_, _, tcIrq_inactive hactive, .inactive hactive⟩
  | true =>
    have hcases : b.sampleIndex + 2 < samplesPerPacket ∨ b.sampleIndex + 2 = samplesPerPacket := by
      have hidx := hwf.index
      have halign := hwf.aligned
      simp only [samplesPerPacket, epSizeIn, sampleSize, inFormatNbChannels] at *
      omega
    rcases hcases with hidx | hidx
    · exact ⟨_, _, tcIrq_within hactive hidx, .within hactive hidx⟩
    · exact ⟨_, _, tcIrq_flush hactive hidx, .flush hactive hidx⟩

theorem fetch_moves (hwf : WellFormed b) :
    ∃ es t, fetch b = ⟨es, .ret t⟩ ∧ Move b .fetch es t := by
  cases hr : b.running with
  | none =>
    refine ⟨[], b, ?_, .fetched (by simp [hr])⟩
    simp [fetch, hr, pure_def]
  | some t =>
    obtain ⟨hsize, hle⟩ := hwf.transfer t hr
    by_cases hlt : t.fetched.length < t.size
    · have hin : t.fetched.length < epSizeIn := by omega
      have hc : b.gBuffer[t.fetched.length]? = some b.gBuffer[t.fetched.length] := by simp
      refine ⟨[], _, ?_, .fetch hr (c := b.gBuffer[t.fetched.length]) (by simp [hin])⟩
      simp [fetch, hr, hlt, hc, pure_def]
    · refine ⟨[], b, ?_, .fetched fun t' ht' => ?_⟩
      · simp [fetch, hr, hlt, pure_def]
      · rw [hr] at ht'
        cases ht'
        omega

theorem complete_moves (hwf : WellFormed b) :
    ∃ es t, complete b = ⟨es, .ret t⟩ ∧ Move b .complete es t := by
  cases hr : b.running with
  | none =>
    refine ⟨[], b, ?_, .completed hr⟩
    simp [complete, hr, pure_def]
  | some t =>
    obtain ⟨hsize, hle⟩ := hwf.transfer t hr
    have htake : b.gBuffer.toList.take epSizeIn = b.gBuffer.toList :=
      List.take_of_length_le (by simp)
    refine ⟨_, _, ?_, .complete hr⟩
    simp [complete, hr, hsize, htake, pure_def]

theorem step_moves (hwf : WellFormed b) (i : Input) :
    ∃ es t, step b i = ⟨es, .ret t⟩ ∧ Move b i es t := by
  cases i with
  | spiInterrupt rdrf word txReady =>
    obtain ⟨es, a, ha, hes, hslot⟩ := spiIntHandler_moves b.adc rdrf word txReady
    refine ⟨es, _, ?_, .spi hes hslot⟩
    simp [step, ha, pure_def]
  | tcInterrupt ok => exact tcIrq_moves hwf ok
  | enable alt => exact ⟨_, _, rfl, .enable alt⟩
  | disable => exact ⟨_, _, rfl, .disable⟩
  | fetch => exact fetch_moves hwf
  | complete => exact complete_moves hwf

theorem move_of_step {i : Input} {es : List Event} (hwf : WellFormed b)
    (h : step b i = ⟨es, .ret t⟩) : Move b i es t := by
  obtain ⟨fs, u, hu, hmove⟩ := step_moves hwf i
  rw [hu] at h
  cases h
  exact hmove

theorem Move.wellFormed {i : Input} {es : List Event} (h : Move b i es t) (hwf : WellFormed b) :
    WellFormed t := by
  cases h with
  | spi => exact ⟨hwf.index, hwf.aligned, hwf.transfer⟩
  | inactive => exact ⟨hwf.index, hwf.aligned, hwf.transfer⟩
  | within _ hidx => exact ⟨hidx, (Nat.dvd_add_left (Nat.dvd_refl 2)).mpr hwf.aligned, hwf.transfer⟩
  | flush =>
    refine ⟨Nat.zero_lt_of_lt hwf.index, Nat.dvd_zero _, ?_⟩
    intro t ht
    simp only [nextTransfer] at ht
    split at ht
    · cases ht
      exact ⟨rfl, Nat.zero_le _⟩
    · exact hwf.transfer t ht
  | enable => exact ⟨hwf.index, hwf.aligned, hwf.transfer⟩
  | disable => exact hwf
  | @fetch t c ht hc =>
    refine ⟨hwf.index, hwf.aligned, ?_⟩
    intro u hu
    cases hu
    have hlt := (List.getElem?_eq_some_iff.mp hc).1
    simp only [Vector.length_toList] at hlt
    refine ⟨(hwf.transfer t ht).1, ?_⟩
    simp only [List.length_append, List.length_singleton]
    omega
  | fetched => exact hwf
  | complete => exact ⟨hwf.index, hwf.aligned, by simp⟩
  | completed => exact hwf

theorem Move.setting {i : Input} {es : List Event} (h : Move b i es t) :
    t.setting = b.setting ∨ ∃ alt, i = .enable alt ∧ t = { b with setting := alt.toNat } := by
  cases h with
  | enable alt => exact .inr ⟨alt, rfl, rfl⟩
  | _ => exact .inl rfl

theorem powerUp_wellFormed : WellFormed powerUp :=
  ⟨by decide, Nat.dvd_zero _, by intro t ht; cases ht⟩

theorem runs_wellFormed {is : List Input} {es : List Event} (h : Runs step powerUp is es b) :
    WellFormed b := by
  refine Runs.history (C := fun _ _ => True) (H := fun _ _ s => WellFormed s) powerUp_wellFormed
    ?_ along_true h
  intro is es s i fs u _ hs _ hstep
  exact (move_of_step hs hstep).wellFormed hs

theorem runs_exist (is : List Input) : ∃ es b, Runs step powerUp is es b := by
  have hstep : ∀ s i, WellFormed s → (step s i).Ensures (fun _ => True) WellFormed := by
    intro s i hs
    obtain ⟨es, u, hu, hmove⟩ := step_moves hs i
    exact ⟨fun _ _ => trivial, u, by rw [hu], hmove.wellFormed hs⟩
  obtain ⟨es, b, hb, -, -⟩ := runs_total powerUp_wellFormed hstep is
  exact ⟨es, b, hb⟩

/-- A relation between the history and the board that every move under the
condition keeps. -/
theorem runs_history {C : Board → Input → Prop} {H : List Input → List Event → Board → Prop}
    (h0 : H [] [] powerUp)
    (hmove : ∀ is es s i fs u, Runs step powerUp is es s → H is es s → C s i →
      Move s i fs u → H (is ++ [i]) (es ++ fs) u)
    {is : List Input} {es : List Event} (hC : Along step C powerUp is)
    (h : Runs step powerUp is es b) : H is es b := by
  refine Runs.history h0 ?_ hC h
  intro is es s i fs u hr hs hCi hstep
  exact hmove is es s i fs u hr hs hCi (move_of_step (runs_wellFormed hr) hstep)

end BowerBird.Sound
