import Mathlib.Data.List.Induction

/-!
# Buffers between a producer and a consumer

A double buffer hands on the newest value. A bounded queue hands on every value
in order and refuses what does not fit.
-/

namespace Firmware

set_option autoImplicit false

universe u

variable {α : Type u}

/-- Two slots, of which the selector names the one to read. -/
structure DoubleBuffer (α : Type u) where
  slot1 : α
  slot2 : α
  second : Bool
  deriving Repr, DecidableEq

namespace DoubleBuffer

def read (d : DoubleBuffer α) : α := if d.second then d.slot2 else d.slot1

/-- The writer fills the slot that is not read and then flips the selector. -/
def write (d : DoubleBuffer α) (v : α) : DoubleBuffer α :=
  if d.second then { d with slot1 := v, second := false }
  else { d with slot2 := v, second := true }

@[simp] theorem read_write (d : DoubleBuffer α) (v : α) : (d.write v).read = v := by
  obtain ⟨a, b, _ | _⟩ := d <;> rfl

def writes (d : DoubleBuffer α) (vs : List α) : DoubleBuffer α := vs.foldl write d

theorem writes_concat (d : DoubleBuffer α) (vs : List α) (v : α) :
    d.writes (vs ++ [v]) = (d.writes vs).write v := by
  simp [writes, List.foldl_append]

theorem second_writes (d : DoubleBuffer α) (vs : List α) (h : d.second = false) :
    (d.writes vs).second = decide (vs.length % 2 = 1) := by
  induction vs using List.reverseRecOn with
  | nil => exact h
  | append_singleton vs v ih =>
    rw [writes_concat, write, ih]
    rcases Nat.mod_two_eq_zero_or_one vs.length with hmod | hmod
    · simp [hmod, Nat.add_mod]
    · simp [hmod, Nat.add_mod]

theorem slot1_writes (d : DoubleBuffer α) (vs : List α) (h : d.second = false) :
    (d.writes vs).slot1 = (vs.take (2 * (vs.length / 2))).getLast?.getD d.slot1 := by
  induction vs using List.reverseRecOn with
  | nil => simp [writes]
  | append_singleton vs v ih =>
    rw [writes_concat, write, second_writes d vs h, List.length_append, List.length_singleton]
    rcases Nat.mod_two_eq_zero_or_one vs.length with hmod | hmod
    · have heven : 2 * ((vs.length + 1) / 2) = vs.length := by omega
      have hsame : 2 * (vs.length / 2) = vs.length := by omega
      rw [hsame, List.take_length] at ih
      simp [hmod, heven, ih]
    · have hodd : 2 * ((vs.length + 1) / 2) = vs.length + 1 := by omega
      have hall : (vs ++ [v]).take (vs.length + 1) = vs ++ [v] :=
        List.take_of_length_le (by simp)
      simp [hmod, hodd, hall]

end DoubleBuffer

structure Fifo (cap : Nat) (α : Type u) where
  contents : List α
  bounded : contents.length ≤ cap

namespace Fifo
variable {cap : Nat}

def empty : Fifo cap α := ⟨[], Nat.zero_le _⟩

/-- A push on a full queue stores nothing. -/
def push (q : Fifo cap α) (v : α) : Fifo cap α :=
  if h : q.contents.length < cap then ⟨q.contents ++ [v], by simpa using Nat.succ_le_of_lt h⟩ else q

def pull? (q : Fifo cap α) : Option (α × Fifo cap α) :=
  match q with
  | ⟨[], _⟩ => none
  | ⟨v :: vs, h⟩ => some (v, ⟨vs, Nat.le_of_succ_le h⟩)

theorem contents_push (q : Fifo cap α) (v : α) :
    (q.push v).contents = if q.contents.length < cap then q.contents ++ [v] else q.contents := by
  unfold push
  split <;> simp_all

theorem pull?_of_contents {q : Fifo cap α} {v : α} {vs : List α} (h : q.contents = v :: vs) :
    ∃ r, q.pull? = some (v, r) := by
  obtain ⟨contents, hq⟩ := q
  cases h
  exact ⟨_, rfl⟩

theorem contents_of_pull? {q r : Fifo cap α} {v : α} (h : q.pull? = some (v, r)) :
    q.contents = v :: r.contents := by
  obtain ⟨_ | ⟨w, ws⟩, hq⟩ := q
  · simp [pull?] at h
  · simp only [pull?, Option.some.injEq, Prod.mk.injEq] at h
    obtain ⟨rfl, rfl⟩ := h
    rfl

theorem contents_of_pull?_none {q : Fifo cap α} (h : q.pull? = none) : q.contents = [] := by
  obtain ⟨_ | ⟨v, vs⟩, hq⟩ := q
  · rfl
  · cases h

end Fifo

end Firmware
