import Mathlib.Data.List.Basic
import Mathlib.Order.Monotone.Basic

/-!
# Reading a buffer that is overwritten

A reader goes through a buffer from its start, and the buffer is given new contents now
and then. What is read is a splice of these contents: each entry stands where it stood
in one of them, and the reader never goes back to older ones.
-/

namespace Firmware

set_option autoImplicit false

universe u

variable {α : Type u} {vs : List (List α)} {xs v : List α}

/-- Entry `k` is that of the contents which `f` names, and `f` goes forward only. -/
def Splice (vs : List (List α)) (xs : List α) : Prop :=
  ∃ f : Nat → Nat, Monotone f ∧ ∀ k x, xs[k]? = some x → ∃ v, vs[f k]? = some v ∧ v[k]? = some x

theorem Splice.nil (vs : List (List α)) : Splice vs [] :=
  ⟨id, monotone_id, by simp⟩

theorem Splice.over (h : Splice vs xs) (v : List α) : Splice (vs ++ [v]) xs := by
  obtain ⟨f, hf, hxs⟩ := h
  refine ⟨f, hf, ?_⟩
  intro k x hx
  obtain ⟨w, hw, hwx⟩ := hxs k x hx
  have hlt := (List.getElem?_eq_some_iff.mp hw).1
  exact ⟨w, by rw [List.getElem?_append_left hlt, hw], hwx⟩

theorem Splice.read (h : Splice vs xs) {ys : List α} (hv : vs.getLast? = some v)
    (hys : ys <+: v.drop xs.length) : Splice vs (xs ++ ys) := by
  obtain ⟨f, hf, hxs⟩ := h
  obtain ⟨rest, hrest⟩ := hys
  have hlast : vs[vs.length - 1]? = some v := by rw [← List.getLast?_eq_getElem?, hv]
  refine ⟨fun k => if k < xs.length then min (f k) (vs.length - 1) else vs.length - 1, ?_, ?_⟩
  · intro j k hjk
    have hle := hf hjk
    by_cases hk : k < xs.length
    · have hj : j < xs.length := by omega
      simp only [if_pos hj, if_pos hk]
      omega
    · simp only [if_neg hk]
      split <;> omega
  · intro k x hx
    by_cases hk : k < xs.length
    · rw [List.getElem?_append_left hk] at hx
      obtain ⟨w, hw, hwx⟩ := hxs k x hx
      have hlt := (List.getElem?_eq_some_iff.mp hw).1
      have hmin : min (f k) (vs.length - 1) = f k := Nat.min_eq_left (by omega)
      simp only [if_pos hk, hmin]
      exact ⟨w, hw, hwx⟩
    · have hle : xs.length ≤ k := by omega
      rw [List.getElem?_append_right hle] at hx
      have hlt := (List.getElem?_eq_some_iff.mp hx).1
      have hget : (v.drop xs.length)[k - xs.length]? = some x := by
        rw [← hrest, List.getElem?_append_left hlt, hx]
      rw [List.getElem?_drop, Nat.add_sub_cancel' hle] at hget
      simp only [if_neg hk]
      exact ⟨v, hlast, hget⟩

theorem Splice.eq (h : Splice [v] xs) (hlen : xs.length = v.length) : xs = v := by
  obtain ⟨f, -, hxs⟩ := h
  apply List.ext_getElem?
  intro k
  cases hx : xs[k]? with
  | none =>
    have hle := List.getElem?_eq_none_iff.mp hx
    exact (List.getElem?_eq_none_iff.mpr (by omega)).symm
  | some x =>
    obtain ⟨w, hw, hwx⟩ := hxs k x hx
    have hmem := List.mem_of_getElem? hw
    rw [List.mem_singleton.mp hmem] at hwx
    exact hwx.symm

end Firmware
