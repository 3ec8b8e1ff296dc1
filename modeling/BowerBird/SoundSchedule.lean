import BowerBird.SoundSamples

/-!
# The schedule of the converter

The handler answers each word with the control word of the next frame but one:
the converter converts in one frame the channel that the frame before addressed.
So the channels of even and of odd frames form two sequences of their own. Each
alternates between channels 0 and 1, and they start out of step.
-/

namespace BowerBird.Sound

open Firmware Firmware.CString
set_option autoImplicit false

/-- `while (!ready);` with the answers still to come. -/
def waitReady : List Bool → Exec Event (List Bool)
  | [] => Exec.hang
  | true :: answers => pure answers
  | false :: answers => waitReady answers

/-- The dialogue with the converter. The words that answer the dummy frames are dropped. -/
def adcInit (a : Adc) (answers : List Bool) : Exec Event Adc := do
  Exec.emit .spiSelect
  let answers ← waitReady answers
  Exec.emit (.spiPut 0xffff#16)
  let answers ← waitReady answers
  let answers ← waitReady answers
  Exec.emit (.spiPut 0xffff#16)
  let answers ← waitReady answers
  Exec.emit .spiDeselect
  Exec.emit .spiSelect
  let _ ← waitReady answers
  Exec.emit (.spiPut a.currWriteBuf)
  pure a

def Event.put? : Event → Option (BitVec 16)
  | .spiPut word => some word
  | _ => none

/-- The words sent in the frames after `ADC_Init`, which put the first of them. -/
def controlWords (started shown : List Event) : List (BitVec 16) :=
  (started.filterMap Event.put?).getLast?.toList ++ shown.filterMap Event.put?

def receivedWords (is : List Input) : List (BitVec 16) := is.filterMap Input.word?

/-- Bits 12 to 10, which the converter reads as the channel to convert next. -/
def addressOf (control : BitVec 16) : Nat := (control.extractLsb' 10 3).toNat

/-- The converter returns in each frame the channel addressed in the frame before. -/
def Answers (control received : List (BitVec 16)) : Prop :=
  ∀ p ∈ control.zip received.tail, tagOf p.2 = addressOf p.1

def Input.TxReady : Input → Prop
  | .spiInterrupt true _ txReady => txReady = true
  | _ => True

/-- The control word that the handler puts after a word of this channel. -/
def controlAfter (ch : Fin numAdcChannels) : BitVec 16 :=
  (adcCrShift (adcCrAddr ((BitVec.ofNat 32 ch + 1#32) &&& 0x1#32))).setWidth 16

theorem addressOf_controlAfter (ch : Fin numAdcChannels) :
    addressOf (controlAfter ch) = (ch + 1 : Nat) % 2 := by
  revert ch
  decide

theorem waitReady_bind {α : Type} {answers : List Bool} {f : List Bool → Exec Event α}
    {es : List Event} {x : α} (h : waitReady answers >>= f = ⟨es, .ret x⟩) :
    ∃ rest, f rest = ⟨es, .ret x⟩ := by
  induction answers with
  | nil => cases h
  | cons c answers ih =>
    cases c with
    | true => exact ⟨answers, h⟩
    | false => exact ih h

theorem adcInit_returns {a a' : Adc} {answers : List Bool} {es : List Event}
    (h : adcInit a answers = ⟨es, .ret a'⟩) :
    a' = a ∧ (es.filterMap Event.put?).getLast? = some a.currWriteBuf := by
  obtain ⟨_, rfl, h1⟩ := Exec.emit_bind_ret h
  obtain ⟨_, h2⟩ := waitReady_bind h1
  obtain ⟨_, rfl, h3⟩ := Exec.emit_bind_ret h2
  obtain ⟨_, h4⟩ := waitReady_bind h3
  obtain ⟨_, h5⟩ := waitReady_bind h4
  obtain ⟨_, rfl, h6⟩ := Exec.emit_bind_ret h5
  obtain ⟨_, h7⟩ := waitReady_bind h6
  obtain ⟨_, rfl, h8⟩ := Exec.emit_bind_ret h7
  obtain ⟨_, rfl, h9⟩ := Exec.emit_bind_ret h8
  obtain ⟨_, h10⟩ := waitReady_bind h9
  cases h10
  exact ⟨rfl, rfl⟩

theorem spiIntHandler_ready (a : Adc) (word : BitVec 16) :
    ∃ a', spiIntHandler a true word true =
      ⟨[.spiDeselect, .spiSelect, .spiPut (controlAfter (channelOf word))], .ret a'⟩ :=
  ⟨_, rfl⟩

theorem step_puts {b t : Board} {i : Input} {fs : List Event} (hwf : WellFormed b)
    (hi : i.TxReady) (hstep : step b i = ⟨fs, .ret t⟩) :
    fs.filterMap Event.put? = i.word?.toList.map fun word => controlAfter (channelOf word) := by
  cases move_of_step hwf hstep with
  | @spi rdrf txReady word =>
    cases rdrf with
    | false =>
      cases hstep
      rfl
    | true =>
      obtain rfl : txReady = true := hi
      obtain ⟨a, ha⟩ := spiIntHandler_ready b.adc word
      rw [step, ha] at hstep
      cases hstep
      rfl
  | _ => rfl

theorem runs_puts {is : List Input} {es : List Event} {b : Board} (hready : ∀ i ∈ is, i.TxReady)
    (h : Runs step powerUp is es b) :
    es.filterMap Event.put? = (receivedWords is).map fun word => controlAfter (channelOf word) := by
  refine Runs.history (C := fun _ i => i.TxReady) (H := fun is es _ =>
    es.filterMap Event.put? = (receivedWords is).map fun word => controlAfter (channelOf word))
    rfl ?_ ?_ h
  · intro is es s i fs u hr hs hi hstep
    have hput := step_puts (runs_wellFormed hr) hi hstep
    have hword : [i].filterMap Input.word? = i.word?.toList := by
      cases hw : i.word? <;> simp [hw]
    rw [receivedWords] at hs ⊢
    rw [List.filterMap_append, List.filterMap_append, List.map_append, hs, hput, hword]
  · intro pre i post heq es t _
    exact hready i (by simp [heq])

/-- Every term is 0 or 1 and differs from the next but one. -/
structure Alternating (ts : List Nat) : Prop where
  binary : ∀ t ∈ ts, t = 0 ∨ t = 1
  flips : ∀ n a c, ts[n]? = some a → ts[n + 2]? = some c → a + c = 1

namespace Alternating
variable {ts us : List Nat}

theorem infix_of (h : Alternating ts) (hus : us <:+: ts) : Alternating us := by
  obtain ⟨pre, post, rfl⟩ := hus
  refine ⟨fun t ht => h.binary t (by simp [ht]), ?_⟩
  intro n a c ha hc
  apply h.flips (pre.length + n) a c
  · rw [List.append_assoc, List.getElem?_append_right (by omega), Nat.add_sub_cancel_left,
      List.getElem?_append_left (List.getElem?_eq_some_iff.mp ha).1, ha]
  · rw [Nat.add_assoc, List.append_assoc, List.getElem?_append_right (by omega),
      Nat.add_sub_cancel_left, List.getElem?_append_left (List.getElem?_eq_some_iff.mp hc).1, hc]

theorem three_mem (h : Alternating ts) (hlen : ts.length = 3) : 0 ∈ ts ∧ 1 ∈ ts := by
  obtain ⟨a, b, c, rfl⟩ := List.length_eq_three.mp hlen
  have hac := h.flips 0 a c rfl rfl
  rcases h.binary a (by simp) with rfl | rfl
  · obtain rfl : c = 1 := by omega
    simp
  · obtain rfl : c = 0 := by omega
    simp

theorem four_count (h : Alternating ts) (hlen : ts.length = 4) : ts.count 0 = 2 ∧ ts.count 1 = 2 := by
  obtain ⟨a, b, c, d, rfl⟩ : ∃ a b c d, ts = [a, b, c, d] := by
    match ts, hlen with
    | [a, b, c, d], _ => exact ⟨a, b, c, d, rfl⟩
  have hac := h.flips 0 a c rfl rfl
  have hbd := h.flips 1 b d rfl rfl
  rcases h.binary a (by simp) with rfl | rfl <;> rcases h.binary b (by simp) with rfl | rfl
  · obtain ⟨rfl, rfl⟩ : c = 1 ∧ d = 1 := by omega
    decide
  · obtain ⟨rfl, rfl⟩ : c = 1 ∧ d = 0 := by omega
    decide
  · obtain ⟨rfl, rfl⟩ : c = 0 ∧ d = 1 := by omega
    decide
  · obtain ⟨rfl, rfl⟩ : c = 0 ∧ d = 0 := by omega
    decide

end Alternating

def tags (is : List Input) : List Nat := (receivedWords is).map tagOf

/-- Every term from the second on is 0 or 1, and the next but one after a term is the
other one. -/
theorem alternating_tail {ts : List Nat} (h1 : ∀ t, ts[1]? = some t → t = 0)
    (h2 : ∀ n a c, ts[n]? = some a → ts[n + 2]? = some c → c = (a + 1) % 2) :
    Alternating ts.tail := by
  have hbinary : ∀ n t, ts[n + 1]? = some t → t = 0 ∨ t = 1 := by
    intro n t ht
    cases n with
    | zero => exact .inl (h1 t ht)
    | succ n =>
      have hlt := (List.getElem?_eq_some_iff.mp ht).1
      have hval := h2 n ts[n] t (List.getElem?_eq_getElem (by omega)) ht
      omega
  refine ⟨?_, ?_⟩
  · intro t ht
    obtain ⟨n, hn⟩ := List.mem_iff_getElem?.mp ht
    rw [List.getElem?_tail] at hn
    exact hbinary n t hn
  · intro n a c ha hc
    rw [List.getElem?_tail] at ha hc
    have hval := h2 (n + 1) a c ha hc
    have ha := hbinary n a ha
    omega

theorem Answers.tagOf_eq {control received : List (BitVec 16)} (h : Answers control received)
    {n : Nat} {c w : BitVec 16} (hc : control[n]? = some c) (hw : received[n + 1]? = some w) :
    tagOf w = addressOf c := by
  rw [← List.getElem?_tail] at hw
  have hpair := (List.getElem?_zip_eq_some (z := (c, w))).mpr ⟨hc, hw⟩
  exact h (c, w) (List.mem_of_getElem? hpair)

theorem controlWords_eq {is : List Input} {a : Adc} {answers : List Bool}
    {started es : List Event} {b : Board}
    (hinit : adcInit powerUp.adc answers = ⟨started, .ret a⟩)
    (hrun : Runs step powerUp is es b) (hready : ∀ i ∈ is, i.TxReady) :
    controlWords started es = powerUp.adc.currWriteBuf ::
      (receivedWords is).map fun word => controlAfter (channelOf word) := by
  rw [controlWords, (adcInit_returns hinit).2, runs_puts hready hrun, Option.toList_some,
    List.singleton_append]

theorem tags_alternating {is : List Input} {a : Adc} {answers : List Bool}
    {started es : List Event} {b : Board}
    (hinit : adcInit powerUp.adc answers = ⟨started, .ret a⟩)
    (hrun : Runs step powerUp is es b) (hready : ∀ i ∈ is, i.TxReady)
    (hanswers : Answers (controlWords started es) (receivedWords is)) :
    Alternating (tags is).tail := by
  have hcontrol := controlWords_eq hinit hrun hready
  unfold tags
  apply alternating_tail
  · intro t ht
    rw [List.getElem?_map, Option.map_eq_some_iff] at ht
    obtain ⟨w, hw, rfl⟩ := ht
    have hfirst : (controlWords started es)[0]? = some powerUp.adc.currWriteBuf := by
      rw [hcontrol, List.getElem?_cons_zero]
    rw [hanswers.tagOf_eq hfirst hw]
    decide
  · intro n x c hx hc
    rw [List.getElem?_map, Option.map_eq_some_iff] at hx hc
    obtain ⟨v, hv, rfl⟩ := hx
    obtain ⟨w, hw, rfl⟩ := hc
    have hput : (controlWords started es)[n + 1]? = some (controlAfter (channelOf v)) := by
      rw [hcontrol, List.getElem?_cons_succ, List.getElem?_map, hv, Option.map_some]
    rw [hanswers.tagOf_eq hput hw, addressOf_controlAfter,
      (channelOf_eq_iff v (channelOf v)).mp rfl]

theorem lastTagged_append (j : Nat) (xs ys : List (BitVec 16)) :
    lastTagged j (xs ++ ys) = (lastTagged j ys).or (lastTagged j xs) := by
  rw [lastTagged, List.filter_append, List.getLast?_append]
  rfl

theorem lastTagged_of_mem {j : Nat} {words : List (BitVec 16)} (h : j ∈ words.map tagOf) :
    ∃ w ∈ words, tagOf w = j ∧ lastTagged j words = some w := by
  obtain ⟨v, hv, hj⟩ := List.mem_map.mp h
  have hne : words.filter (fun word => tagOf word = j) ≠ [] := by
    apply List.ne_nil_of_mem (a := v)
    simp [hv, hj]
  have hlast := List.getLast_mem hne
  rw [List.mem_filter, decide_eq_true_eq] at hlast
  exact ⟨_, hlast.1, hlast.2, List.getLast?_eq_getLast_of_ne_nil hne⟩

theorem latest_of_recent {is : List Input} {es : List Event} {b : Board}
    {older recent : List (BitVec 16)} {j : Nat} (hrun : Runs step powerUp is es b)
    (hwords : receivedWords is = older ++ recent) (hlt : j < numAdcChannels)
    (hj : j ∈ recent.map tagOf) :
    ∃ w ∈ recent, tagOf w = j ∧ latest b.adc j = pure (sampleOf w) := by
  obtain ⟨w, hw, htag, hlast⟩ := lastTagged_of_mem hj
  have hnewest : newestSample j (receivedWords is) = sampleOf w := by
    rw [newestSample, hwords, lastTagged_append, hlast, Option.some_or]
  have hslot : latest b.adc j = _ := latest_eq b.adc ⟨j, hlt⟩
  refine ⟨w, hw, htag, ?_⟩
  rw [hslot, runs_fresh hrun, ← hnewest]
  rfl

/-- From the second frame on the converter returns channels 0 and 1 only, both in any
three frames in a row and each twice in any four. From the fourth on the sample in
use of either comes from one of the last three frames. -/
theorem channels_served_evenly {a : Adc} {answers : List Bool} {started : List Event}
    {is : List Input} {es : List Event} {b : Board}
    (hinit : adcInit powerUp.adc answers = ⟨started, .ret a⟩)
    (hrun : Runs step { powerUp with adc := a } is es b) (hready : ∀ i ∈ is, i.TxReady)
    (hanswers : Answers (controlWords started es) (receivedWords is)) :
    (∀ t ∈ (tags is).tail, t = 0 ∨ t = 1) ∧
      (∀ ts, ts <:+: (tags is).tail → ts.length = 3 → 0 ∈ ts ∧ 1 ∈ ts) ∧
      (∀ ts, ts <:+: (tags is).tail → ts.length = 4 → ts.count 0 = 2 ∧ ts.count 1 = 2) ∧
      (4 ≤ (receivedWords is).length → ∀ j < inFormatNbChannels,
        ∃ w ∈ (receivedWords is).drop ((receivedWords is).length - 3),
          tagOf w = j ∧ latest b.adc j = pure (sampleOf w)) := by
  obtain ⟨rfl, -⟩ := adcInit_returns hinit
  have halt := tags_alternating hinit hrun hready hanswers
  refine ⟨halt.binary, fun ts hts => (halt.infix_of hts).three_mem,
    fun ts hts => (halt.infix_of hts).four_count, ?_⟩
  intro hlen j hj
  have hrecent : ((receivedWords is).drop ((receivedWords is).length - 3)).map tagOf <:+:
      (tags is).tail := by
    have hdrop : 1 + ((receivedWords is).length - 4) = (receivedWords is).length - 3 := by omega
    rw [List.map_drop, ← hdrop, ← List.drop_drop, List.drop_one]
    exact (List.drop_suffix _ _).isInfix
  have hboth := (halt.infix_of hrecent).three_mem (by simp; omega)
  apply latest_of_recent hrun (List.take_append_drop _ _).symm
  · simp only [inFormatNbChannels, numAdcChannels] at hj ⊢
    omega
  · rcases (by simp only [inFormatNbChannels] at hj; omega : j = 0 ∨ j = 1) with rfl | rfl
    · exact hboth.1
    · exact hboth.2

def fiveFrames : List Input :=
  [0xe000#16, 0x0010#16, 0x0020#16, 0x2030#16, 0x2040#16].map fun word =>
    .spiInterrupt true word true

theorem channels_served_evenly_five :
    ∃ es b, Runs step powerUp fiveFrames es b ∧ ∀ j < inFormatNbChannels,
      ∃ w ∈ [0x0020#16, 0x2030#16, 0x2040#16],
        tagOf w = j ∧ latest b.adc j = pure (sampleOf w) := by
  obtain ⟨es, b, hb⟩ := runs_exist fiveFrames
  have hready : ∀ i ∈ fiveFrames, i.TxReady := by simp [fiveFrames, Input.TxReady]
  obtain ⟨started, hinit⟩ : ∃ started,
      adcInit powerUp.adc (List.replicate 5 true) = ⟨started, .ret powerUp.adc⟩ := ⟨_, rfl⟩
  have hanswers : Answers (controlWords started es) (receivedWords fiveFrames) := by
    rw [controlWords_eq hinit hb hready]
    intro p hp
    have hall : (List.zip (powerUp.adc.currWriteBuf :: (receivedWords fiveFrames).map fun word =>
        controlAfter (channelOf word)) (receivedWords fiveFrames).tail).all
        (fun p => tagOf p.2 == addressOf p.1) = true := by decide
    exact eq_of_beq (List.all_eq_true.mp hall p hp)
  exact ⟨es, b, hb, (channels_served_evenly hinit hb hready hanswers).2.2.2 (by decide)⟩

end BowerBird.Sound
