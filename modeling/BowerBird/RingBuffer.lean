import BowerBird.Firmware.Runs
import BowerBird.Firmware.Buffers
import BowerBird.Firmware.CString
import Mathlib.Data.Nat.ModEq

/-!
# The ring buffer

`ring_buffer.h` counts offsets from 0 up to and including `size`. So the ring holds
`size` bytes, one slot less than it goes through, and needs a buffer of `size + 1`.
`Assert` is left to the caller, who makes sure that the ring is not full before a put
and not empty before a get.
-/

namespace BowerBird.RingBuffer

open Firmware Firmware.CString
set_option autoImplicit false

/-- The object that `buffer` points to is a part of the ring here. -/
structure Ring where
  writeOffset : Byte
  readOffset : Byte
  size : Byte
  buffer : List Byte

def getNext (curOffset maxOffset : Byte) : Byte :=
  if curOffset = maxOffset then 0#8 else curOffset + 1#8

def ringBufferGetNextWrite (ring : Ring) : Byte := getNext ring.writeOffset ring.size

def ringBufferGetNextRead (ring : Ring) : Byte := getNext ring.readOffset ring.size

def ringBufferIsFull (ring : Ring) : Bool := ring.readOffset == ringBufferGetNextWrite ring

def ringBufferIsEmpty (ring : Ring) : Bool := ring.readOffset == ring.writeOffset

def ringBufferInit (buffer : List Byte) (size : Byte) : Ring := ⟨0#8, 0#8, size, buffer⟩

inductive Event where
  /-- the value that `ring_buffer_get` returns -/
  | got (data : Byte)
  deriving Repr, DecidableEq

def ringBufferGet (ring : Ring) : Exec Event Ring := do
  let data ← Exec.ofOption ring.buffer[ring.readOffset.toNat]?
  Exec.emit (.got data)
  pure { ring with readOffset := ringBufferGetNextRead ring }

def ringBufferPut (ring : Ring) (data : Byte) : Exec Event Ring := do
  if ring.writeOffset.toNat < ring.buffer.length then
    let ring := { ring with buffer := ring.buffer.set ring.writeOffset.toNat data }
    pure { ring with writeOffset := ringBufferGetNextWrite ring }
  else Exec.fault

inductive Call where
  | put (data : Byte)
  | get
  deriving Repr, DecidableEq

def step (ring : Ring) : Call → Exec Event Ring
  | .put data => ringBufferPut ring data
  | .get => ringBufferGet ring

/-- What the callers are told to make sure of. -/
def Allowed (ring : Ring) : Call → Prop
  | .put _ => ringBufferIsFull ring = false
  | .get => ringBufferIsEmpty ring = false

theorem toNat_getNext {cur max : Byte} (h : cur.toNat ≤ max.toNat) :
    (getNext cur max).toNat = (cur.toNat + 1) % (max.toNat + 1) := by
  have hmax := max.isLt
  unfold getNext
  by_cases heq : cur = max
  · rw [if_pos heq, heq, Nat.mod_self]
    rfl
  · have hne : cur.toNat ≠ max.toNat := fun h => heq (BitVec.eq_of_toNat_eq h)
    rw [if_neg heq, BitVec.toNat_add, Nat.mod_eq_of_lt (by omega : cur.toNat + 1 < max.toNat + 1)]
    simp only [BitVec.toNat_ofNat]
    omega

/-- An offset that has advanced `n` times. -/
def At (size offset : Byte) (n : Nat) : Prop := offset.toNat = n % (size.toNat + 1)

theorem At.next {size offset : Byte} {n : Nat} (h : At size offset n) :
    At size (getNext offset size) (n + 1) := by
  have hle : offset.toNat ≤ size.toNat := by
    have hlt : n % (size.toNat + 1) < size.toNat + 1 := Nat.mod_lt n (Nat.succ_pos _)
    unfold At at h
    omega
  rw [At, toNat_getNext hle, h, Nat.mod_add_mod]

theorem At.eq_iff {size a b : Byte} {m n : Nat} (ha : At size a m) (hb : At size b n) :
    a = b ↔ m % (size.toNat + 1) = n % (size.toNat + 1) := by
  rw [← ha, ← hb]
  exact BitVec.toNat_inj.symm

/-- Two counts less than a round apart name the same slot only if they are the same. -/
theorem mod_inj {m n k : Nat} (hmn : m ≤ n) (hlt : n < m + k) (h : m % k = n % k) : m = n := by
  have hmod : (n - m) % k = 0 := (Nat.modEq_iff_dvd' hmn).mp h |> Nat.mod_eq_zero_of_dvd
  rw [Nat.mod_eq_of_lt (by omega)] at hmod
  omega

def Call.put? : Call → Option Byte
  | .put data => some data
  | .get => none

def puts (is : List Call) : List Byte := is.filterMap Call.put?

def gots (es : List Event) : List Byte := es.map fun | .got data => data

variable {ring : Ring} {ps gs : List Byte}

/-- `ps` has been put and `gs` has been got. What lies between is in its slots. -/
structure Tracks (ring : Ring) (ps gs : List Byte) : Prop where
  writes : At ring.size ring.writeOffset ps.length
  reads : At ring.size ring.readOffset gs.length
  order : gs <+: ps
  fits : ps.length ≤ gs.length + ring.size.toNat
  slots : ∀ k, gs.length ≤ k → k < ps.length →
    ring.buffer[k % (ring.size.toNat + 1)]? = ps[k]?

theorem Tracks.full_iff (h : Tracks ring ps gs) :
    ringBufferIsFull ring = true ↔ ps.length = gs.length + ring.size.toNat := by
  have hle := h.order.length_le
  have hfits := h.fits
  rw [ringBufferIsFull, beq_iff_eq, ringBufferGetNextWrite, h.reads.eq_iff h.writes.next]
  constructor
  · intro hmod
    by_contra hne
    have heq := mod_inj (by omega) (by omega) hmod
    omega
  · intro heq
    rw [heq, Nat.add_assoc, Nat.add_mod_right]

theorem Tracks.empty_iff (h : Tracks ring ps gs) :
    ringBufferIsEmpty ring = true ↔ ps.length = gs.length := by
  have hle := h.order.length_le
  have hfits := h.fits
  rw [ringBufferIsEmpty, beq_iff_eq, h.reads.eq_iff h.writes]
  constructor
  · intro hmod
    exact (mod_inj hle (by omega) hmod).symm
  · intro heq
    rw [heq]

theorem Tracks.put (h : Tracks ring ps gs) (hroom : ringBufferIsFull ring = false) (data : Byte)
    (hin : ring.writeOffset.toNat < ring.buffer.length) :
    Tracks { ring with
      buffer := ring.buffer.set ring.writeOffset.toNat data
      writeOffset := ringBufferGetNextWrite ring } (ps ++ [data]) gs := by
  have hnot := mt h.full_iff.mpr (by simp [hroom])
  have hfits := h.fits
  have hwrites : ring.writeOffset.toNat = ps.length % (ring.size.toNat + 1) := h.writes
  refine ⟨?_, h.reads, h.order.trans (List.prefix_append _ _), ?_, ?_⟩
  · rw [List.length_append, List.length_singleton]
    exact h.writes.next
  · rw [List.length_append, List.length_singleton]
    change ps.length + 1 ≤ gs.length + ring.size.toNat
    omega
  · intro k hk hlt
    rw [List.length_append, List.length_singleton] at hlt
    change (ring.buffer.set ring.writeOffset.toNat data)[k % (ring.size.toNat + 1)]? = _
    by_cases hlast : k = ps.length
    · rw [hlast, ← hwrites]
      simp [hin]
    · have hne : ring.writeOffset.toNat ≠ k % (ring.size.toNat + 1) := by
        rw [hwrites]
        intro hmod
        have heq := mod_inj (by omega) (by omega) hmod.symm
        omega
      rw [List.getElem?_set_ne hne, List.getElem?_append_left (by omega)]
      exact h.slots k hk (by omega)

theorem Tracks.get (h : Tracks ring ps gs) (hsome : ringBufferIsEmpty ring = false) :
    ∃ data, ring.buffer[ring.readOffset.toNat]? = some data ∧
      Tracks { ring with readOffset := ringBufferGetNextRead ring } ps (gs ++ [data]) := by
  have hnot := mt h.empty_iff.mpr (by simp [hsome])
  have hle := h.order.length_le
  have hlt : gs.length < ps.length := by omega
  have hreads : ring.readOffset.toNat = gs.length % (ring.size.toNat + 1) := h.reads
  have hslot := h.slots gs.length (Nat.le_refl _) hlt
  refine ⟨ps[gs.length], ?_, h.writes, ?_, ?_, ?_, ?_⟩
  · rw [hreads, hslot, List.getElem?_eq_getElem hlt]
  · rw [List.length_append, List.length_singleton]
    exact h.reads.next
  · obtain ⟨rest, rfl⟩ := h.order
    cases rest with
    | nil => simp at hlt
    | cons data rest => exact ⟨rest, by simp⟩
  · rw [List.length_append, List.length_singleton]
    have hfits := h.fits
    change ps.length ≤ gs.length + 1 + ring.size.toNat
    omega
  · intro k hk hkp
    rw [List.length_append, List.length_singleton] at hk
    exact h.slots k (by omega) hkp

section Runs
variable {buffer : List Byte} {size : Byte} {is : List Call} {es : List Event}

/-- The ring after a run, whose buffer is still the object it was given. -/
structure Reached (buffer : List Byte) (size : Byte) (is : List Call) (es : List Event)
    (ring : Ring) : Prop where
  tracks : Tracks ring (puts is) (gots es)
  size_eq : ring.size = size
  length_eq : ring.buffer.length = buffer.length

theorem step_put (hin : ring.writeOffset.toNat < ring.buffer.length) (data : Byte) :
    step ring (.put data) = ⟨[], .ret { ring with
      buffer := ring.buffer.set ring.writeOffset.toNat data
      writeOffset := ringBufferGetNextWrite ring }⟩ := by
  simp only [step, ringBufferPut, if_pos hin]
  rfl

theorem step_put_outside (hout : ¬ ring.writeOffset.toNat < ring.buffer.length) (data : Byte) :
    step ring (.put data) = Exec.fault := by
  simp only [step, ringBufferPut, if_neg hout]

theorem step_get {data : Byte} (hdata : ring.buffer[ring.readOffset.toNat]? = some data) :
    step ring .get =
      ⟨[.got data], .ret { ring with readOffset := ringBufferGetNextRead ring }⟩ := by
  simp only [step, ringBufferGet, hdata]
  rfl

theorem puts_put (is : List Call) (data : Byte) : puts (is ++ [.put data]) = puts is ++ [data] :=
  List.filterMap_append

theorem puts_get (is : List Call) : puts (is ++ [.get]) = puts is :=
  List.filterMap_append.trans (List.append_nil _)

theorem gots_append (es fs : List Event) : gots (es ++ fs) = gots es ++ gots fs := List.map_append

theorem reached_init : Reached buffer size [] [] (ringBufferInit buffer size) where
  tracks := ⟨(Nat.zero_mod _).symm, (Nat.zero_mod _).symm, List.nil_prefix, Nat.zero_le _, by
    intro k _ hk
    cases hk⟩
  size_eq := rfl
  length_eq := rfl

theorem runs_reached (hC : Along step Allowed (ringBufferInit buffer size) is)
    (h : Runs step (ringBufferInit buffer size) is es ring) : Reached buffer size is es ring := by
  refine Runs.history reached_init ?_ hC h
  intro is es s i fs t _ hs hallowed hstep
  cases i with
  | put data =>
    by_cases hin : s.writeOffset.toNat < s.buffer.length
    · rw [step_put hin] at hstep
      cases hstep
      refine ⟨?_, hs.size_eq, ?_⟩
      · have hnone : gots (es ++ []) = gots es := congrArg gots (List.append_nil es)
        rw [puts_put, hnone]
        exact hs.tracks.put hallowed data hin
      · exact List.length_set.trans hs.length_eq
    · rw [step_put_outside hin] at hstep
      cases hstep
  | get =>
    obtain ⟨data, hdata, htracks⟩ := hs.tracks.get hallowed
    rw [step_get hdata] at hstep
    cases hstep
    refine ⟨?_, hs.size_eq, hs.length_eq⟩
    rw [puts_get, gots_append]
    exact htracks

/-- To callers who heed the rules the ring is a queue of `size` bytes. -/
theorem ring_is_queue (hC : Along step Allowed (ringBufferInit buffer size) is)
    (h : Runs step (ringBufferInit buffer size) is es ring) :
    ∃ q : Fifo size.toNat Byte, puts is = gots es ++ q.contents ∧
      (ringBufferIsFull ring = true ↔ q.contents.length = size.toNat) ∧
      (ringBufferIsEmpty ring = true ↔ q.contents = []) := by
  obtain ⟨htracks, rfl, -⟩ := runs_reached hC h
  have hle := htracks.order.length_le
  have hfits := htracks.fits
  obtain ⟨rest, hrest⟩ := htracks.order
  have hlen := congrArg List.length hrest
  rw [List.length_append] at hlen
  refine ⟨⟨rest, by omega⟩, hrest.symm, ?_, ?_⟩
  · rw [htracks.full_iff]
    change _ ↔ rest.length = _
    omega
  · rw [htracks.empty_iff, ← List.length_eq_zero_iff]
    change _ ↔ rest.length = 0
    omega

theorem feed_ne_hang (is : List Call) : (Exec.feed step ring is).outcome ≠ .hang := by
  induction is generalizing ring with
  | nil => simp [Exec.pure_def]
  | cons i is ih =>
    rw [Exec.feed_cons]
    cases i with
    | put data =>
      by_cases hin : ring.writeOffset.toNat < ring.buffer.length
      · rw [step_put hin]
        exact ih
      · rw [step_put_outside hin]
        simp [Exec.fault]
    | get =>
      cases hdata : ring.buffer[ring.readOffset.toNat]? with
      | none => simp [step, ringBufferGet, hdata, Exec.ofOption, Exec.fault]
      | some data =>
        rw [step_get hdata]
        exact ih

theorem slot_inside_iff {n size len : Nat} (h : size < len ∨ n ≤ len) :
    n % (size + 1) < len ↔ size < len ∨ n + 1 ≤ len := by
  have hmod : n % (size + 1) < size + 1 := Nat.mod_lt n (Nat.succ_pos size)
  by_cases hsize : size < len
  · exact iff_of_true (by omega) (.inl hsize)
  · rcases h with h | h
    · exact absurd h hsize
    · rcases Nat.lt_or_ge n (size + 1) with hn | hn
      · rw [Nat.mod_eq_of_lt hn]
        omega
      · omega

theorem Reached.step_defined_iff (h : Reached buffer size is es ring) {i : Call}
    (hallowed : Allowed ring i) (hfit : size.toNat < buffer.length ∨ (puts is).length ≤ buffer.length) :
    (step ring i).outcome ≠ .fault ↔
      size.toNat < buffer.length ∨ (puts (is ++ [i])).length ≤ buffer.length := by
  obtain ⟨htracks, rfl, hlen⟩ := h
  cases i with
  | get =>
    obtain ⟨data, hdata, -⟩ := htracks.get hallowed
    rw [step_get hdata, puts_get]
    exact iff_of_true (by simp) hfit
  | put data =>
    have hwrites : ring.writeOffset.toNat = (puts is).length % (ring.size.toNat + 1) :=
      htracks.writes
    rw [puts_put, List.length_append, List.length_singleton, ← slot_inside_iff hfit, ← hwrites,
      ← hlen]
    by_cases hin : ring.writeOffset.toNat < ring.buffer.length
    · rw [step_put hin]
      exact iff_of_true (by simp) hin
    · rw [step_put_outside hin]
      exact iff_of_false (by simp [Exec.fault]) hin

def allowedTest (ring : Ring) : Call → Bool
  | .put _ => !ringBufferIsFull ring
  | .get => !ringBufferIsEmpty ring

theorem allowed_of_test {i : Call} (h : allowedTest ring i = true) : Allowed ring i := by
  cases i <;> simpa [allowedTest, Allowed] using h

def wrapping : List Call :=
  [.put 0x41#8, .put 0x42#8, .get, .put 0x43#8, .get, .put 0x44#8, .get]

theorem ring_is_queue_wraps :
    ∃ es ring, Runs step (ringBufferInit [0#8, 0#8, 0#8] 2#8) wrapping es ring ∧
      ring.writeOffset = 1#8 ∧ ring.readOffset = 0#8 ∧ gots es = ascii "ABC" ∧
      ∃ q : Fifo 2 Byte, q.contents = ascii "D" ∧ ringBufferIsFull ring = false ∧
        ringBufferIsEmpty ring = false := by
  have hC : Along step Allowed (ringBufferInit [0#8, 0#8, 0#8] 2#8) wrapping :=
    along_of_test (fun _ _ => allowed_of_test) (by decide)
  obtain ⟨ring, hring, hoffsets⟩ := runs_of_ret? step (ringBufferInit [0#8, 0#8, 0#8] 2#8) wrapping
    (fun ring => (ring.writeOffset, ring.readOffset)) (v := (1#8, 0#8)) (by decide)
  obtain ⟨hwrite, hread⟩ := Prod.mk.inj hoffsets
  have hgots : gots (Exec.feed step (ringBufferInit [0#8, 0#8, 0#8] 2#8) wrapping).events =
      ascii "ABC" := by
    decide
  obtain ⟨q, hq, hfull, hempty⟩ := ring_is_queue hC hring
  rw [hgots] at hq
  have hputs : ascii "ABC" ++ ascii "D" = ascii "ABC" ++ q.contents := hq
  have hcontents : q.contents = ascii "D" := (List.append_cancel_left hputs).symm
  refine ⟨_, ring, hring, hwrite, hread, hgots, q, hcontents, ?_, ?_⟩
  · rw [Bool.eq_false_iff, ne_eq, hfull, hcontents]
    decide
  · rw [Bool.eq_false_iff, ne_eq, hempty, hcontents]
    decide

/-- The ring stays in its buffer exactly if the buffer has more than `size` bytes, or no
more bytes are ever put than it has. The buffers that `ADC.c` has commented out were of
`size` bytes, one too short. -/
theorem ring_defined_iff (hC : Along step Allowed (ringBufferInit buffer size) is) :
    (Exec.feed step (ringBufferInit buffer size) is).outcome ≠ .fault ↔
      size.toNat < buffer.length ∨ (puts is).length ≤ buffer.length := by
  induction is using List.reverseRecOn with
  | nil => simp [Exec.pure_def, puts]
  | append_singleton is i ih =>
    have hbefore := ih hC.initial
    rw [Exec.feed_append]
    rcases hfeed : Exec.feed step (ringBufferInit buffer size) is with ⟨es, ring | _ | _⟩
    · have hruns : Runs step (ringBufferInit buffer size) is es ring := hfeed
      have hfit := hbefore.mp (by simp [hfeed])
      have hone : Exec.feed step ring [i] = step ring i := bind_pure (step ring i)
      rw [Exec.ret_bind, hone]
      exact (runs_reached hC.initial hruns).step_defined_iff (hC.last hruns) hfit
    · exact absurd (by rw [hfeed]) (feed_ne_hang is)
    · have hshort : ¬ (size.toNat < buffer.length ∨ (puts is).length ≤ buffer.length) := by
        rw [← hbefore, hfeed]
        simp
      have hmono : (puts is).length ≤ (puts (is ++ [i])).length := by
        rw [puts, puts, List.filterMap_append, List.length_append]
        omega
      rw [Exec.fault_bind]
      exact iff_of_false (by simp) (by omega)

theorem ring_defined_iff_short :
    ¬ (Exec.feed step (ringBufferInit [0#8] 1#8) [.put 0x41#8, .get, .put 0x42#8]).outcome ≠
      .fault := by
  have hC : Along step Allowed (ringBufferInit [0#8] 1#8) [.put 0x41#8, .get, .put 0x42#8] :=
    along_of_test (fun _ _ => allowed_of_test) (by decide)
  rw [ring_defined_iff hC]
  decide

end Runs

end BowerBird.RingBuffer
