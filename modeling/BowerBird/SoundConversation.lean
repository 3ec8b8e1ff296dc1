import BowerBird.SoundPackets
import BowerBird.SoundSchedule

/-!
# The conversation with the converter

Every frame carries a word in each direction, so the converter sends a word only for
one that it is sent. `ADC_Init` sends the first, and the handler answers each word it
receives if the transmitter is ready then. The one word that finds it busy is the last:
nothing starts another frame, and the samples stay what they are.
-/

namespace BowerBird.Sound

open Firmware Firmware.CString
set_option autoImplicit false

def putWords (es : List Event) : List (BitVec 16) := es.filterMap Event.put?

theorem putWords_append (es fs : List Event) : putWords (es ++ fs) = putWords es ++ putWords fs :=
  List.filterMap_append

/-- The received word, if the handler answers it. -/
def Input.answered? : Input → Option (BitVec 16)
  | .spiInterrupt true word true => some word
  | _ => none

def answeredWords (is : List Input) : List (BitVec 16) := is.filterMap Input.answered?

/-- A word is received and the transmitter is not ready. -/
def Input.missed : Input → Bool
  | .spiInterrupt true _ false => true
  | _ => false

theorem length_receivedWords (is : List Input) :
    (receivedWords is).length = (answeredWords is).length + (is.filter Input.missed).length := by
  induction is with
  | nil => rfl
  | cons i is ih =>
    simp only [receivedWords, answeredWords] at ih ⊢
    cases i with
    | spiInterrupt rdrf word txReady =>
      cases rdrf <;> cases txReady <;>
        simp [List.filterMap_cons, List.filter_cons, Input.word?, Input.answered?, Input.missed, ih] <;>
        omega
    | _ => simpa [List.filterMap_cons, Input.word?, Input.answered?, Input.missed] using ih

/-- What the handler puts, and what it counts. -/
structure Talks (b : Board) (i : Input) (fs : List Event) (t : Board) : Prop where
  puts : putWords fs = i.answered?.toList.map fun word => controlAfter (channelOf word)
  calls : t.adc.spiHandlerCalled = b.adc.spiHandlerCalled + BitVec.ofNat 32 i.word?.toList.length
  writes : t.adc.spiWrites = b.adc.spiWrites + BitVec.ofNat 32 i.answered?.toList.length

theorem storeLatest_counters (a : Adc) (ch : Fin numAdcChannels) (sample : BitVec 16) :
    (storeLatest a ch sample).spiHandlerCalled = a.spiHandlerCalled ∧
      (storeLatest a ch sample).spiWrites = a.spiWrites := by
  unfold storeLatest
  split <;> exact ⟨rfl, rfl⟩

theorem spiIntHandler_talks (a : Adc) (rdrf : Bool) (word : BitVec 16) (txReady : Bool) :
    ∃ es a', spiIntHandler a rdrf word txReady = ⟨es, .ret a'⟩ ∧
      putWords es = (Input.spiInterrupt rdrf word txReady).answered?.toList.map
        (fun word => controlAfter (channelOf word)) ∧
      a'.spiHandlerCalled = a.spiHandlerCalled +
        BitVec.ofNat 32 (Input.spiInterrupt rdrf word txReady).word?.toList.length ∧
      a'.spiWrites = a.spiWrites +
        BitVec.ofNat 32 (Input.spiInterrupt rdrf word txReady).answered?.toList.length := by
  cases rdrf with
  | false => exact ⟨[], a, rfl, rfl, (BitVec.add_zero _).symm, (BitVec.add_zero _).symm⟩
  | true =>
    obtain ⟨hcalls, hwrites⟩ := storeLatest_counters
      { a with currReadBuf := word, spiHandlerCalled := a.spiHandlerCalled + 1#32 }
      (channelOf word) (sampleOf word)
    cases txReady with
    | true => exact ⟨_, _, rfl, rfl, hcalls, congrArg (· + 1#32) hwrites⟩
    | false => exact ⟨_, _, rfl, rfl, hcalls, hwrites.trans (BitVec.add_zero _).symm⟩

theorem step_talks {b t : Board} {i : Input} {fs : List Event} (hwf : WellFormed b)
    (hstep : step b i = ⟨fs, .ret t⟩) : Talks b i fs t := by
  cases move_of_step hwf hstep with
  | @spi rdrf txReady word =>
    obtain ⟨es, a, ha, hputs, hcalls, hwrites⟩ := spiIntHandler_talks b.adc rdrf word txReady
    rw [step, ha] at hstep
    cases hstep
    refine ⟨?_, hcalls, hwrites⟩
    rw [putWords_append, hputs]
    exact List.append_nil _
  | _ => exact ⟨rfl, (BitVec.add_zero _).symm, (BitVec.add_zero _).symm⟩

/-- Over a run the handler answers each word that finds the transmitter ready, and its
counters tell how many words there were of either kind. -/
structure Talked (is : List Input) (es : List Event) (b : Board) : Prop where
  puts : putWords es = (answeredWords is).map fun word => controlAfter (channelOf word)
  calls : b.adc.spiHandlerCalled = BitVec.ofNat 32 (receivedWords is).length
  writes : b.adc.spiWrites = BitVec.ofNat 32 (answeredWords is).length

theorem runs_talked {is : List Input} {es : List Event} {b : Board}
    (h : Runs step powerUp is es b) : Talked is es b := by
  refine Runs.history (C := fun _ _ => True) (H := Talked) ⟨rfl, rfl, rfl⟩ ?_ along_true h
  intro is es s i fs u hr hs _ hstep
  have htalks := step_talks (runs_wellFormed hr) hstep
  have hreceived : receivedWords (is ++ [i]) = receivedWords is ++ i.word?.toList := by
    rw [receivedWords, List.filterMap_append]
    cases hw : i.word? <;> simp [receivedWords, hw]
  have hanswered : answeredWords (is ++ [i]) = answeredWords is ++ i.answered?.toList := by
    rw [answeredWords, List.filterMap_append]
    cases hw : i.answered? <;> simp [answeredWords, hw]
  refine ⟨?_, ?_, ?_⟩
  · rw [putWords_append, hs.puts, htalks.puts, hanswered, List.map_append]
  · rw [htalks.calls, hs.calls, hreceived, List.length_append, BitVec.ofNat_add]
  · rw [htalks.writes, hs.writes, hanswered, List.length_append, BitVec.ofNat_add]

/-- Whenever a word comes in, one more has been put, by `ADC_Init` or the handler, than
came in before. -/
def OneForOne (is : List Input) : Prop :=
  ∀ pre i post, is = pre ++ i :: post → i.word? ≠ none → ∀ es b, Runs step powerUp pre es b →
    (receivedWords pre).length < 1 + (putWords es).length

theorem missed_of_oneForOne {pre post : List Input} {i : Input} (h : OneForOne (pre ++ i :: post))
    (hi : i.word? ≠ none) : pre.filter Input.missed = [] := by
  obtain ⟨es, b, hb⟩ := runs_exist pre
  have hlt := h pre i post rfl hi es b hb
  rw [(runs_talked hb).puts, List.length_map, length_receivedWords] at hlt
  apply List.length_eq_zero_iff.mp
  omega

/-- Words come one for one exactly if none comes behind one that was missed. -/
theorem oneForOne_iff (is : List Input) :
    OneForOne is ↔
      ∀ pre i post, is = pre ++ i :: post → i.missed = true → receivedWords post = [] := by
  constructor
  · rintro h pre i post rfl hmissed
    rw [receivedWords, List.filterMap_eq_nil_iff]
    intro j hj
    by_contra hword
    obtain ⟨mid, post, rfl⟩ := List.append_of_mem hj
    rw [← List.cons_append, ← List.append_assoc] at h
    have hnone := missed_of_oneForOne h hword
    simp [List.filter_append, hmissed] at hnone
  · rintro h pre i post rfl hi es b hb
    have hnone : pre.filter Input.missed = [] := by
      rw [List.filter_eq_nil_iff]
      intro j hj hmissed
      obtain ⟨first, mid, rfl⟩ := List.append_of_mem hj
      have hsilent := h first j (mid ++ i :: post) (by simp) hmissed
      rw [receivedWords, List.filterMap_eq_nil_iff] at hsilent
      exact hi (hsilent i (by simp))
    rw [(runs_talked hb).puts, List.length_map, length_receivedWords, hnone]
    simp only [List.length_nil]
    omega

theorem OneForOne.initial {is js : List Input} (h : OneForOne (is ++ js)) : OneForOne is := by
  rintro pre i post rfl
  exact h pre i (post ++ js) (by simp)

theorem word_of_missed {i : Input} (h : i.missed = true) : i.word? ≠ none := by
  cases i with
  | spiInterrupt rdrf word txReady =>
    cases rdrf with
    | true => simp [Input.word?]
    | false => cases h
  | _ => cases h

theorem length_missed_le {is : List Input} (h : OneForOne is) :
    (is.filter Input.missed).length ≤ 1 := by
  induction is using List.reverseRecOn with
  | nil => exact Nat.zero_le 1
  | append_singleton is i ih =>
    rw [List.filter_append]
    cases hmissed : i.missed with
    | true =>
      rw [missed_of_oneForOne h (word_of_missed hmissed)]
      simp [hmissed]
    | false => simpa [hmissed] using ih h.initial

theorem channelValue_congr {b t : Board} {j : Fin numAdcChannels}
    (h : slot t.adc j = slot b.adc j) : channelValue t j = channelValue b j := by
  rw [channelValue, channelValue, h]

theorem Move.same_values {b t : Board} {i : Input} {fs : List Event} (h : Move b i fs t)
    (hi : i.word? = none) (j : Fin numAdcChannels) : channelValue t j = channelValue b j := by
  apply channelValue_congr
  cases h with
  | @spi rdrf txReady word es a hes hslot =>
    cases rdrf with
    | true => cases hi
    | false => simpa using hslot j
  | _ => rfl

/-- Without received words nothing is put, and every pair of samples is the same. -/
theorem runs_silent {is : List Input} {es : List Event} {b t : Board} (hwf : WellFormed b)
    (h : Runs step b is es t) (hsilent : receivedWords is = []) :
    putWords es = [] ∧
      ∀ p ∈ gather step pairTaken b is, p = (channelValue b 0, channelValue b 1) := by
  induction is generalizing b es with
  | nil =>
    obtain ⟨rfl, -⟩ := runs_nil.mp h
    exact ⟨rfl, by simp [gather]⟩
  | cons i is ih =>
    rw [← List.singleton_append, runs_append] at h
    obtain ⟨fs, u, gs, hi, hrest, rfl⟩ := h
    have hstep := runs_one.mp hi
    have hmove := move_of_step hwf hstep
    have hword : i.word? = none ∧ receivedWords is = [] := by
      cases hw : i.word? <;> simp_all [receivedWords]
    have hanswered : i.answered? = none := by
      cases i with
      | spiInterrupt rdrf word txReady =>
        cases rdrf with
        | true => cases hword.1
        | false => rfl
      | _ => rfl
    obtain ⟨hputs, hpairs⟩ := ih (hmove.wellFormed hwf) hrest hword.2
    have hput : putWords fs = [] := by rw [(step_talks hwf hstep).puts, hanswered]; rfl
    rw [hmove.same_values hword.1, hmove.same_values hword.1] at hpairs
    refine ⟨by rw [putWords_append, hput, hputs]; rfl, ?_⟩
    intro p hp
    have hout : (step b i).outcome = .ret u := by rw [hstep]
    simp only [gather, hout] at hp
    rcases List.mem_append.mp hp with hp | hp
    · cases i with
      | tcInterrupt ok =>
        simp only [pairTaken] at hp
        split at hp
        · exact List.mem_singleton.mp hp
        · cases hp
      | _ => cases hp
    · exact hpairs p hp

/-- A word that finds the transmitter busy is the last one: nothing is put any more, and
from then on every frame of the stream holds the same two samples. -/
theorem missed_word_is_last {is : List Input} (h : OneForOne is) {pre post : List Input}
    {word : BitVec 16} (heq : is = pre ++ .spiInterrupt true word false :: post)
    {es fs : List Event} {b t : Board}
    (hb : Runs step powerUp (pre ++ [.spiInterrupt true word false]) es b)
    (ht : Runs step b post fs t) :
    receivedWords post = [] ∧ putWords fs = [] ∧
      ∀ p ∈ gather step pairTaken b post, p = (channelValue b 0, channelValue b 1) := by
  have hsilent := (oneForOne_iff is).mp h pre _ post heq rfl
  exact ⟨hsilent, runs_silent (runs_wellFormed hb) ht hsilent⟩

/-- The two counters that the console shows agree exactly as long as no word was missed. -/
theorem counters_agree_iff {is : List Input} (h : OneForOne is) {es : List Event} {b : Board}
    (hb : Runs step powerUp is es b) :
    b.adc.spiHandlerCalled = b.adc.spiWrites ↔ ∀ i ∈ is, i.missed = false := by
  have htalked := runs_talked hb
  rw [htalked.calls, htalked.writes, length_receivedWords]
  have hone := length_missed_le h
  constructor
  · intro heq i hi
    by_contra hmissed
    have hmem : i ∈ is.filter Input.missed := List.mem_filter.mpr ⟨hi, by simpa using hmissed⟩
    have hlen : (is.filter Input.missed).length = 1 := by
      have hpos := List.length_pos_of_mem hmem
      omega
    rw [hlen, ← BitVec.toNat_inj, BitVec.toNat_ofNat, BitVec.toNat_ofNat] at heq
    omega
  · intro hnone
    have hempty : is.filter Input.missed = [] := by
      rw [List.filter_eq_nil_iff]
      intro i hi
      simp [hnone i hi]
    rw [hempty, List.length_nil, Nat.add_zero]

def missedFirst : List Input :=
  .spiInterrupt true 0x0010#16 false :: .enable 1#8 :: List.replicate 2 (.tcInterrupt true)

theorem missedFirst_oneForOne : OneForOne missedFirst := by
  apply (oneForOne_iff missedFirst).mpr
  rintro (_ | ⟨j, pre⟩) i post heq hmissed
  · obtain ⟨-, rfl⟩ := List.cons.inj heq
    rfl
  · have hmem : i ∈ .enable 1#8 :: List.replicate 2 (Input.tcInterrupt true) := by
      rw [(List.cons.inj heq).2]
      simp
    simp only [List.mem_cons, List.mem_replicate] at hmem
    rcases hmem with rfl | ⟨-, rfl⟩ <;> cases hmissed

theorem missed_word_is_last_first :
    ∃ es b fs t, Runs step powerUp [.spiInterrupt true 0x0010#16 false] es b ∧
      Runs step b (.enable 1#8 :: List.replicate 2 (.tcInterrupt true)) fs t ∧ putWords fs = [] ∧
      gather step pairTaken b (.enable 1#8 :: List.replicate 2 (.tcInterrupt true)) =
        List.replicate 2 (0x8000#16, 0xffff#16) := by
  obtain ⟨b, hb, hend⟩ := runs_of_ret? step powerUp [.spiInterrupt true 0x0010#16 false]
    (fun b => (channelValue b 0, channelValue b 1,
      (gather step pairTaken b (.enable 1#8 :: List.replicate 2 (.tcInterrupt true))).length))
    (v := (0x8000#16, 0xffff#16, 2)) (by decide +kernel)
  simp only [Prod.mk.injEq] at hend
  obtain ⟨hzero, hone, hlen⟩ := hend
  obtain ⟨es', t, h⟩ := runs_exist missedFirst
  have hparts : Runs step powerUp ([.spiInterrupt true 0x0010#16 false] ++
      .enable 1#8 :: List.replicate 2 (.tcInterrupt true)) es' t := h
  obtain ⟨es, b', fs, hb', ht, -⟩ := runs_append.mp hparts
  obtain rfl : b' = b := by
    rw [Runs, hb] at hb'
    cases hb'
    rfl
  obtain ⟨-, hput, hpairs⟩ :=
    @missed_word_is_last _ missedFirst_oneForOne [] _ _ rfl _ _ _ _ hb' ht
  rw [hzero, hone] at hpairs
  exact ⟨es, b', fs, t, hb', ht, hput, List.eq_replicate_iff.mpr ⟨hlen, hpairs⟩⟩

theorem counters_agree_missed :
    ∃ es b, Runs step powerUp missedFirst es b ∧ b.adc.spiHandlerCalled ≠ b.adc.spiWrites := by
  obtain ⟨es, b, hb⟩ := runs_exist missedFirst
  refine ⟨es, b, hb, ?_⟩
  rw [ne_eq, counters_agree_iff missedFirst_oneForOne hb]
  intro hnone
  have hfirst := hnone (.spiInterrupt true 0x0010#16 false) (by simp [missedFirst])
  cases hfirst

/-- The fields of a control word, which leaves the lowest four bits of the frame unused. -/
structure ControlWord where
  write : Bool
  seq : Bool
  addr : Nat
  pm : BitVec 2
  shadow : Bool
  range : Bool
  coding : Bool
  deriving Repr, DecidableEq

def controlWord (word : BitVec 16) : ControlWord where
  write := word.getLsbD 15
  seq := word.getLsbD 14
  addr := addressOf word
  pm := word.extractLsb' 8 2
  shadow := word.getLsbD 7
  range := word.getLsbD 5
  coding := word.getLsbD 4

/-- The register is written, the sequencer is off, the power mode is normal, and the values
are two's complement numbers from 0 to the reference voltage. -/
def convert (ch : Nat) : ControlWord := ⟨true, false, ch, 3#2, false, true, false⟩

theorem controlWord_adcCrAddr (x : BitVec 32) :
    controlWord ((adcCrShift (adcCrAddr x)).setWidth 16) = convert (x.toNat % 8) := by
  have hmask : x &&& adcAddrMask = BitVec.ofNat 32 (x.toNat % 8) := by
    apply BitVec.eq_of_toNat_eq
    rw [BitVec.toNat_and, BitVec.toNat_ofNat]
    have hand : x.toNat &&& adcAddrMask.toNat = x.toNat % 8 :=
      Nat.and_two_pow_sub_one_eq_mod x.toNat 3
    rw [hand]
    omega
  have hlt : x.toNat % 8 < 8 := Nat.mod_lt _ (by decide)
  rw [adcCrAddr, adcAddr, hmask]
  generalize x.toNat % 8 = n at hlt
  interval_cases n <;> decide

theorem controlWord_controlAfter (word : BitVec 16) :
    controlWord (controlAfter (channelOf word)) = convert ((tagOf word + 1) % 2) := by
  have hnext : ∀ ch : Fin numAdcChannels,
      ((BitVec.ofNat 32 ch + 1#32) &&& 0x1#32).toNat % 8 = (ch + 1 : Nat) % 2 := by
    decide
  rw [controlAfter, controlWord_adcCrAddr, hnext, (channelOf_eq_iff word _).mp rfl]

theorem waitReady_cases (answers : List Bool) :
    (answers.count true = 0 ∧ waitReady answers = Exec.hang) ∨
      ∃ rest, waitReady answers = pure rest ∧ answers.count true = rest.count true + 1 := by
  induction answers with
  | nil => exact .inl ⟨rfl, rfl⟩
  | cons c answers ih =>
    cases c with
    | true => exact .inr ⟨answers, rfl, List.count_cons_self⟩
    | false =>
      have hcount : (false :: answers).count true = answers.count true :=
        List.count_cons_of_ne (by decide)
      rw [hcount]
      exact ih

/-- `ADC_Init` comes back exactly if the SPI answers five times that it is ready. -/
theorem adcInit_cases (a : Adc) (answers : List Bool) :
    (answers.count true < 5 ∧ (adcInit a answers).outcome = .hang) ∨
      (5 ≤ answers.count true ∧ adcInit a answers = ⟨[.spiSelect, .spiPut 0xffff#16,
        .spiPut 0xffff#16, .spiDeselect, .spiSelect, .spiPut a.currWriteBuf], .ret a⟩) := by
  unfold adcInit
  rcases waitReady_cases answers with ⟨hcount, hw⟩ | ⟨rest1, hw, h1⟩
  · exact .inl ⟨by omega, by rw [hw]; rfl⟩
  rw [hw, pure_bind]
  rcases waitReady_cases rest1 with ⟨hcount, hw⟩ | ⟨rest2, hw, h2⟩
  · exact .inl ⟨by omega, by rw [hw]; rfl⟩
  rw [hw, pure_bind]
  rcases waitReady_cases rest2 with ⟨hcount, hw⟩ | ⟨rest3, hw, h3⟩
  · exact .inl ⟨by omega, by rw [hw]; rfl⟩
  rw [hw, pure_bind]
  rcases waitReady_cases rest3 with ⟨hcount, hw⟩ | ⟨rest4, hw, h4⟩
  · exact .inl ⟨by omega, by rw [hw]; rfl⟩
  rw [hw, pure_bind]
  rcases waitReady_cases rest4 with ⟨hcount, hw⟩ | ⟨rest5, hw, h5⟩
  · exact .inl ⟨by omega, by rw [hw]; rfl⟩
  rw [hw, pure_bind]
  exact .inr ⟨by omega, rfl⟩

/-- The words that the converter is sent from power-up on: two dummy words reset it,
one asks for channel 0, and each answer asks for the other channel of the first two. If
the SPI is not ready often enough, the first dialogue never ends. -/
theorem words_sent (answers : List Bool) :
    (answers.count true < 5 → (adcInit powerUp.adc answers).outcome = .hang) ∧
      (5 ≤ answers.count true → ∃ started,
        adcInit powerUp.adc answers = ⟨started, .ret powerUp.adc⟩ ∧
          ∀ is es b, Runs step powerUp is es b → ∃ words,
            putWords (started ++ es) = 0xffff#16 :: 0xffff#16 :: words ∧
              words.map controlWord = convert 0 ::
                (answeredWords is).map fun word => convert ((tagOf word + 1) % 2)) := by
  constructor
  · intro hfew
    rcases adcInit_cases powerUp.adc answers with ⟨-, hhang⟩ | ⟨henough, -⟩
    · exact hhang
    · omega
  · intro henough
    rcases adcInit_cases powerUp.adc answers with ⟨hfew, -⟩ | ⟨-, hinit⟩
    · omega
    refine ⟨_, hinit, ?_⟩
    intro is es b h
    refine ⟨powerUp.adc.currWriteBuf :: putWords es, ?_, ?_⟩
    · rw [putWords_append]
      rfl
    · have hfirst : controlWord powerUp.adc.currWriteBuf = convert 0 := by decide
      rw [List.map_cons, hfirst, (runs_talked h).puts, List.map_map]
      congr 1
      apply List.map_congr_left
      intro word _
      exact controlWord_controlAfter word

end BowerBird.Sound
