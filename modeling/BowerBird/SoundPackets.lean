import BowerBird.SoundSteps

/-!
# Packets carry every sample once and in order

Over a run with the stream on and off at will, the packets handed to the audio
interface and the samples still waiting are together the pairs of samples taken
so far.
-/

namespace BowerBird.Sound

open Firmware
set_option autoImplicit false

/-- The samples of channels 0 and 1 that an interrupt finds, if it takes any. -/
def pairTaken (b : Board) : Input → List (BitVec 16 × BitVec 16)
  | .tcInterrupt _ => if udiAudioIsActive b then [(channelValue b 0, channelValue b 1)] else []
  | _ => []

def pairsTaken (is : List Input) : List (BitVec 16 × BitVec 16) := gather step pairTaken powerUp is

def entries (p : BitVec 16 × BitVec 16) : List (BitVec 16) := [p.1, p.2]

def Event.InBounds : Event → Prop
  | .store k _ => k < samplesPerPacket
  | _ => True

theorem take_set_set {α : Type*} (xs : List α) (i : Nat) (v w : α) (h : i + 1 < xs.length) :
    ((xs.set i v).set (i + 1) w).take (i + 2) = xs.take i ++ [v, w] := by
  induction xs generalizing i with
  | nil => simp at h
  | cons x xs ih =>
    cases i with
    | zero =>
      cases xs with
      | nil => simp at h
      | cons y ys => simp
    | succ i => simpa using ih i (by simpa using h)

theorem take_sampled {b : Board} (h : b.sampleIndex + 2 ≤ samplesPerPacket) :
    (sampled b).toList.take (b.sampleIndex + 2) =
      b.samples.toList.take b.sampleIndex ++ [channelValue b 0, channelValue b 1] := by
  have hlen : b.sampleIndex + 1 < b.samples.toList.length := by simp; omega
  simp only [sampled, Vector.toList_setIfInBounds]
  exact take_set_set _ _ _ _ hlen

/-- The packets so far and the samples that wait for the next one are the pairs taken. -/
def Conserves (is : List Input) (es : List Event) (b : Board) : Prop :=
  (handed es).flatten ++ b.samples.toList.take b.sampleIndex = (pairsTaken is).flatMap entries

theorem conserves_concat {is : List Input} {es fs : List Event} {s u : Board} {i : Input}
    (hs : Conserves is es s) (hgather : pairsTaken (is ++ [i]) = pairsTaken is ++ pairTaken s i)
    (h : (handed fs).flatten ++ u.samples.toList.take u.sampleIndex =
      s.samples.toList.take s.sampleIndex ++ (pairTaken s i).flatMap entries) :
    Conserves (is ++ [i]) (es ++ fs) u := by
  unfold Conserves at hs ⊢
  rw [hgather, List.flatMap_append, ← hs, List.append_assoc, ← h]
  simp [handed, List.filterMap_append]

theorem Move.conserves {b t : Board} {i : Input} {fs : List Event} (h : Move b i fs t) :
    (handed fs).flatten ++ t.samples.toList.take t.sampleIndex =
      b.samples.toList.take b.sampleIndex ++ (pairTaken b i).flatMap entries := by
  cases h with
  | spi hes =>
    rcases hes with rfl | ⟨w, rfl⟩ <;> simp [handed, Event.handed?, pairTaken]
  | inactive h => simp [handed, pairTaken, h, ticked]
  | within h hidx =>
    simp [handed, Event.handed?, pairTaken, h, entries, take_sampled (Nat.le_of_lt hidx)]
  | flush h hidx =>
    have hall : (sampled b).toList.take (b.sampleIndex + 2) = (sampled b).toList :=
      List.take_of_length_le (by simp; omega)
    have htake := take_sampled (Nat.le_of_eq hidx)
    rw [hall] at htake
    change [(sampled b).toList].flatten ++ (sampled b).toList.take 0 = _
    simp [pairTaken, h, entries, htake]
  | enable => simp [handed, Event.handed?, pairTaken]
  | disable => simp [handed, Event.handed?, pairTaken]
  | fetch => simp [handed, pairTaken]
  | fetched => simp [handed, pairTaken]
  | complete => simp [handed, Event.handed?, pairTaken]
  | completed => simp [handed, pairTaken]

theorem Move.inBounds {b t : Board} {i : Input} {fs : List Event} (h : Move b i fs t) :
    ∀ e ∈ fs, e.InBounds := by
  cases h with
  | spi hes => rcases hes with rfl | ⟨w, rfl⟩ <;> simp [Event.InBounds]
  | within _ hidx =>
    simp only [List.mem_cons, List.not_mem_nil, or_false, forall_eq_or_imp, forall_eq,
      Event.InBounds]
    omega
  | flush _ hidx =>
    simp only [List.mem_cons, List.not_mem_nil, or_false, forall_eq_or_imp, forall_eq,
      Event.InBounds, and_true]
    omega
  | _ => simp [Event.InBounds]

theorem Move.handed_length {b t : Board} {i : Input} {fs : List Event} (h : Move b i fs t) :
    ∀ p ∈ handed fs, p.length = samplesPerPacket := by
  cases h with
  | spi hes => rcases hes with rfl | ⟨w, rfl⟩ <;> simp [handed, Event.handed?]
  | _ => simp [handed, Event.handed?]

theorem runs_conserve {is : List Input} {es : List Event} {b : Board}
    (h : Runs step powerUp is es b) :
    Conserves is es b ∧ (∀ e ∈ es, e.InBounds) ∧ ∀ p ∈ handed es, p.length = samplesPerPacket := by
  refine runs_history (C := fun _ _ => True) (H := fun is es b => Conserves is es b ∧
    (∀ e ∈ es, e.InBounds) ∧ ∀ p ∈ handed es, p.length = samplesPerPacket) ⟨rfl, ?_, ?_⟩ ?_
    along_true h
  · simp
  · simp [handed]
  rintro is es s i fs u hr ⟨hs, hbounds, hlen⟩ _ hmove
  refine ⟨conserves_concat hs (gather_concat pairTaken hr i) hmove.conserves, ?_, ?_⟩
  · intro e he
    rcases List.mem_append.mp he with he | he
    · exact hbounds e he
    · exact hmove.inBounds e he
  · intro p hp
    rw [handed, List.filterMap_append] at hp
    rcases List.mem_append.mp hp with hp | hp
    · exact hlen p hp
    · exact hmove.handed_length p hp

theorem getElem?_flatten_append {α : Type*} {n k i : Nat} {gs : List (List α)} {g : List α}
    (rest : List α) (hn : ∀ g ∈ gs, g.length = n) (hg : gs[k]? = some g) (hi : i < n) :
    (gs.flatten ++ rest)[k * n + i]? = g[i]? := by
  induction gs generalizing k with
  | nil => simp at hg
  | cons h gs ih =>
    have hlen : h.length = n := hn h (by simp)
    cases k with
    | zero =>
      obtain rfl : h = g := by simpa using hg
      simp [List.getElem?_append, hlen, hi]
    | succ k =>
      have hidx : (k + 1) * n + i = h.length + (k * n + i) := by
        rw [hlen, Nat.succ_mul]
        omega
      rw [List.flatten_cons, List.append_assoc, hidx, List.getElem?_append_right (by omega),
        Nat.add_sub_cancel_left]
      exact ih (fun g hg => hn g (List.mem_cons_of_mem h hg)) (by simpa using hg)

theorem getElem?_entries (ps : List (BitVec 16 × BitVec 16)) (m : Nat) :
    (ps.flatMap entries)[m]? =
      ps[m / 2]?.map fun p => if m % 2 = 0 then p.1 else p.2 := by
  induction ps generalizing m with
  | nil => simp
  | cons p ps ih =>
    match m with
    | 0 => simp [entries]
    | 1 => simp [entries]
    | m + 2 =>
      have hdiv : (m + 2) / 2 = m / 2 + 1 := by omega
      have hmod : (m + 2) % 2 = m % 2 := by omega
      simpa [entries, hdiv, hmod] using ih m

/-- Entry `k` of a packet is the sample of channel `k % 2` in a pair. -/
def Aligned (ps : List (BitVec 16 × BitVec 16)) (packets : List (List (BitVec 16))) : Prop :=
  ∀ n p, packets[n]? = some p → p.length = samplesPerPacket ∧
    ∀ k < samplesPerPacket, ∃ q, ps[(n * samplesPerPacket + k) / inFormatNbChannels]? = some q ∧
      p[k]? = some (if k % inFormatNbChannels = 0 then q.1 else q.2)

theorem aligned_of_conserves {is : List Input} {es : List Event} {b : Board}
    (h : Conserves is es b) (hlen : ∀ p ∈ handed es, p.length = samplesPerPacket) :
    Aligned (pairsTaken is) (handed es) := by
  intro n p hp
  have hplen := hlen p (List.mem_of_getElem? hp)
  refine ⟨hplen, fun k hk => ?_⟩
  have hget := getElem?_flatten_append (b.samples.toList.take b.sampleIndex) hlen hp hk
  rw [h, getElem?_entries] at hget
  have hk' : k < p.length := by omega
  have hsome : p[k]? = some p[k] := List.getElem?_eq_getElem hk'
  rw [hsome, Option.map_eq_some_iff] at hget
  obtain ⟨q, hq, hval⟩ := hget
  have hmod : (n * samplesPerPacket + k) % 2 = k % 2 := by
    simp only [samplesPerPacket, epSizeIn, sampleSize]
    omega
  rw [hmod] at hval
  exact ⟨q, hq, by rw [hsome, ← hval]; rfl⟩

/-- After every run the index is inside the packet and at a pair, no store left
`samples`, and the packets hold the pairs taken, in order and in step. -/
theorem packets_conserve_samples (is : List Input) :
    ∃ es b, Runs step powerUp is es b ∧ (∀ e ∈ es, e.InBounds) ∧
      b.sampleIndex < samplesPerPacket ∧ inFormatNbChannels ∣ b.sampleIndex ∧
      (handed es).flatten ++ b.samples.toList.take b.sampleIndex =
        (pairsTaken is).flatMap entries ∧
      Aligned (pairsTaken is) (handed es) := by
  obtain ⟨es, b, hb⟩ := runs_exist is
  have hwf := runs_wellFormed hb
  obtain ⟨hconserves, hbounds, hlen⟩ := runs_conserve hb
  exact ⟨es, b, hb, hbounds, hwf.index, hwf.aligned, hconserves,
    aligned_of_conserves hconserves hlen⟩

end BowerBird.Sound
