import BowerBird.Firmware.Framing
import Mathlib.Algebra.Group.Nat.Even
import Mathlib.Data.List.Induction

/-!
# A magic string found with one counter

A reader without a fallback loses the symbol that breaks a partial match. If the
first symbol of the magic string occurs in it only once, a stream is cut up in
one way into text and copies of the magic string, whole or broken off, and of
directly adjacent copies the reader sees every second one only.
-/

namespace Firmware.Framing

set_option autoImplicit false

universe u

variable {α : Type u} (F : Framing α)

/-- The first symbol of the magic string comes back neither in it nor at a line end. -/
structure Distinct : Prop where
  nonempty : F.magic ≠ []
  head : ∀ a rest, F.magic = a :: rest → a ∉ rest
  noEnd : ∀ b ∈ F.magic, F.isEnd b = false

/-- A stream ends in `n` copies of the magic string, whole or broken off, with
nothing between them, and with no copy directly before them. -/
inductive Copies : List α → Nat → Prop
  | text {w : List α} (h : ∀ b, b <+: F.magic → b <:+ w → b = []) : Copies w 0
  | copy {w b : List α} {n : Nat} (hw : Copies w n) (hb : b <+: F.magic) (hne : b ≠ []) :
      Copies (w ++ b) (n + 1)

theorem exists_copies (w : List α) : ∃ n, F.Copies w n := by
  induction hlen : w.length using Nat.strong_induction_on generalizing w with
  | _ len ih =>
    by_cases h : ∀ b, b <+: F.magic → b <:+ w → b = []
    · exact ⟨0, .text h⟩
    · push Not at h
      obtain ⟨b, hb, ⟨v, rfl⟩, hne⟩ := h
      have hpos : 0 < b.length := List.length_pos_of_ne_nil hne
      rw [List.length_append] at hlen
      obtain ⟨n, hn⟩ := ih v.length (by omega) v rfl
      exact ⟨n + 1, .copy hn hb hne⟩

variable [DecidableEq α]

theorem run_hunting (hne : F.magic ≠ []) {bs : List α} {k : Nat}
    (h : F.run (.hunting 0) bs = .hunting k) : k < F.magic.length ∧ F.magic.take k <:+ bs := by
  have hholds := run_holds F hne bs
  rw [h] at hholds
  exact hholds

section Copy
variable {F} {b : List α}

theorem run_part (hb : b <+: F.magic) (hlt : b.length < F.magic.length) :
    F.run (.hunting 0) b = .hunting b.length := by
  induction b using List.reverseRecOn with
  | nil => rfl
  | append_singleton b c ih =>
    have hc : F.magic[b.length]? = some c := by
      obtain ⟨post, hpost⟩ := hb
      rw [← hpost]
      simp
    rw [List.length_append, List.length_singleton] at hlt ⊢
    have hpart := ih ((List.prefix_append b [c]).trans hb) (by omega)
    have hmore : ¬ F.magic.length ≤ b.length + 1 := by omega
    rw [run_append, hpart]
    simp only [run, step, hc, hmore, if_true, if_false]

/-- A copy that meets a partial match breaks it and is not seen itself. -/
theorem reads_stale (hF : F.Distinct) {k : Nat} (hk : 0 < k) (hb : b <+: F.magic)
    (hne : b ≠ []) : F.Reads (.hunting k) b [] (.hunting 0) := by
  obtain ⟨a, rest, rfl⟩ := List.exists_cons_of_ne_nil hne
  obtain ⟨post, hpost⟩ := hb
  have hmagic : F.magic = a :: (rest ++ post) := hpost.symm
  have honce : a ∉ rest ++ post := hF.head a _ hmagic
  have hlost : F.step (.hunting k) a = (.hunting 0, []) := by
    have hno : F.magic[k]? ≠ some a := by
      obtain ⟨j, rfl⟩ : ∃ j, k = j + 1 := ⟨k - 1, by omega⟩
      rw [hmagic, List.getElem?_cons_succ]
      exact fun h => honce (List.mem_of_getElem? h)
    simp only [step, hno, if_false]
  have hfiller : F.Filler rest := by
    intro c hc heq
    rw [hmagic, List.head?_cons, Option.some.injEq] at heq
    subst heq
    exact honce (List.mem_append_left post hc)
  have hrest := reads_filler F hfiller
  constructor
  · rw [run_cons, hlost]
    exact hrest.1
  · rw [lines_cons, hlost]
    exact hrest.2

/-- The counter is at its start exactly after an even number of adjacent copies. -/
theorem Copies.run_hunting_iff (hF : F.Distinct) {w : List α} {n : Nat} (h : F.Copies w n)
    {k : Nat} (hk : F.run (.hunting 0) w = .hunting k) : k = 0 ↔ Even n := by
  induction h generalizing k with
  | @text w htext =>
    obtain ⟨hlt, hsuffix⟩ := run_hunting F hF.nonempty hk
    have hnone := htext _ (List.take_prefix k F.magic) hsuffix
    rw [List.take_eq_nil_iff] at hnone
    simp only [Even.zero, iff_true]
    exact hnone.resolve_right hF.nonempty
  | @copy w b n hw hb hne ih =>
    have hpos : 0 < b.length := List.length_pos_of_ne_nil hne
    rw [run_append] at hk
    rw [Nat.even_add_one]
    cases hm : F.run (.hunting 0) w with
    | hunting j =>
      rw [hm] at hk
      rw [← ih hm]
      by_cases hj : j = 0
      · subst hj
        -- a whole copy would have opened a line
        have hlt : b.length < F.magic.length := by
          apply Nat.lt_of_le_of_ne hb.length_le
          intro hwhole
          rw [hb.eq_of_length hwhole, (reads_magic F hF.nonempty).1] at hk
          cases hk
        rw [run_part hb hlt] at hk
        cases hk
        omega
      · rw [(reads_stale hF (Nat.pos_of_ne_zero hj) hb hne).1] at hk
        cases hk
        simp [hj]
    | reading line =>
      rw [hm, (reads_data F (fun c hc => hF.noEnd c (hb.subset hc)) line).1] at hk
      cases hk
    | stopped =>
      rw [hm, run_stopped] at hk
      cases hk

/-- From a stream that leaves no line open, the magic string opens one exactly if the
stream ends in an even number of adjacent copies of it. -/
theorem opens_iff (hF : F.Distinct) {w : List α} {k : Nat}
    (hk : F.run (.hunting 0) w = .hunting k) :
    F.lines (.hunting k) F.magic = [] ∧
      (F.run (.hunting k) F.magic = .reading [] ↔ ∃ n, Even n ∧ F.Copies w n) := by
  obtain ⟨n, hn⟩ := F.exists_copies w
  have hparity := hn.run_hunting_iff hF hk
  rcases Nat.eq_zero_or_pos k with rfl | hpos
  · obtain ⟨hrun, hlines⟩ := reads_magic F hF.nonempty
    refine ⟨hlines, iff_of_true hrun ⟨n, hparity.mp rfl, hn⟩⟩
  · obtain ⟨hrun, hlines⟩ := reads_stale hF hpos (List.prefix_refl _) hF.nonempty
    refine ⟨hlines, iff_of_false ?_ ?_⟩
    · rw [hrun]
      intro h
      cases h
    · rintro ⟨m, hm, hcopies⟩
      have hzero := (hcopies.run_hunting_iff hF hk).mpr hm
      omega

end Copy

end Firmware.Framing
