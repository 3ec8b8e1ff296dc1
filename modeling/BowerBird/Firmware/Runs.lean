import BowerBird.Firmware.Exec
import Mathlib.Data.List.Induction

/-!
# Runs of a device

A device takes one input at a time. `Runs` relates the inputs of a run that is
defined so far to what was shown and to the state at its end. The rules carry a
relation between the history and the state from the steps to the runs, for all
runs or for those whose steps meet a condition.
-/

namespace Firmware

set_option autoImplicit false

universe u v w

variable {σ : Type u} {ι : Type w} {ω : Type v} (step : σ → ι → Exec ω σ)

/-- Fed with `is`, the device goes from `s` to `t` and shows `es`. -/
def Runs (s : σ) (is : List ι) (es : List ω) (t : σ) : Prop :=
  Exec.feed step s is = ⟨es, .ret t⟩

/-- Every step of the run meets `C`, a condition on the state before it and its input. -/
def Along (C : σ → ι → Prop) (s : σ) (is : List ι) : Prop :=
  ∀ pre i post, is = pre ++ i :: post → ∀ es t, Runs step s pre es t → C t i

variable {step}

theorem runs_nil {s t : σ} {es : List ω} : Runs step s [] es t ↔ es = [] ∧ t = s := by
  simp [Runs, Exec.pure_def, eq_comm]

theorem Runs.refl (s : σ) : Runs step s [] [] s := rfl

theorem runs_append {s u : σ} {is js : List ι} {es : List ω} :
    Runs step s (is ++ js) es u ↔
      ∃ es₁ t es₂, Runs step s is es₁ t ∧ Runs step t js es₂ u ∧ es = es₁ ++ es₂ := by
  rw [Runs, Exec.feed_append]
  constructor
  · intro h
    rcases hx : Exec.feed step s is with ⟨es₁, t | _ | _⟩
    · rcases hy : Exec.feed step t js with ⟨es₂, o⟩
      rw [hx, Exec.ret_bind, hy] at h
      cases h
      exact ⟨es₁, t, es₂, hx, hy, rfl⟩
    · rw [hx] at h
      cases h
    · rw [hx] at h
      cases h
  · rintro ⟨es₁, t, es₂, h₁, h₂, rfl⟩
    rw [Runs] at h₁ h₂
    rw [h₁, Exec.ret_bind, h₂]

theorem runs_one {s t : σ} {i : ι} {es : List ω} :
    Runs step s [i] es t ↔ step s i = ⟨es, .ret t⟩ := by
  have h : Exec.feed step s [i] = step s i := bind_pure (step s i)
  rw [Runs, h]

theorem runs_concat {s u : σ} {is : List ι} {i : ι} {es : List ω} :
    Runs step s (is ++ [i]) es u ↔
      ∃ es₁ t es₂, Runs step s is es₁ t ∧ step t i = ⟨es₂, .ret u⟩ ∧ es = es₁ ++ es₂ := by
  simp only [runs_append, runs_one]

theorem Runs.concat {s t u : σ} {is : List ι} {i : ι} {es fs : List ω}
    (h : Runs step s is es t) (hi : step t i = ⟨fs, .ret u⟩) :
    Runs step s (is ++ [i]) (es ++ fs) u :=
  runs_concat.mpr ⟨es, t, fs, h, hi, rfl⟩

theorem runs_cons {s t u : σ} {i : ι} {is : List ι} {es fs : List ω} (hi : step s i = ⟨es, .ret t⟩)
    (h : Runs step t is fs u) : Runs step s (i :: is) (es ++ fs) u := by
  rw [← List.singleton_append, runs_append]
  exact ⟨es, t, fs, runs_one.mpr hi, h, rfl⟩

/-- A run that does not come back ends inside one of its steps. -/
theorem feed_stuck {s : σ} {is : List ι} (h : ∀ t, (Exec.feed step s is).outcome ≠ .ret t) :
    ∃ pre i post es t, is = pre ++ i :: post ∧ Runs step s pre es t ∧
      (∀ u, (step t i).outcome ≠ .ret u) ∧
      Exec.feed step s is = ⟨es ++ (step t i).events, (step t i).outcome⟩ := by
  induction is generalizing s with
  | nil => exact absurd rfl (h s)
  | cons i is ih =>
    rcases hi : step s i with ⟨fs, u | _ | _⟩
    · rw [Exec.feed_cons, hi, Exec.ret_bind] at h
      obtain ⟨pre, j, post, es, t, rfl, hpre, hstuck, hfeed⟩ := ih h
      refine ⟨i :: pre, j, post, fs ++ es, t, rfl, runs_cons hi hpre, hstuck, ?_⟩
      rw [Exec.feed_cons, hi, Exec.ret_bind, hfeed, List.append_assoc]
    · refine ⟨[], i, is, [], s, rfl, .refl s, by simp [hi], ?_⟩
      rw [Exec.feed_cons, hi, Exec.hang_bind, List.nil_append]
    · refine ⟨[], i, is, [], s, rfl, .refl s, by simp [hi], ?_⟩
      rw [Exec.feed_cons, hi, Exec.fault_bind, List.nil_append]

theorem runs_of_ret? {κ : Type*} (step : σ → ι → Exec ω σ) (s : σ) (is : List ι) (f : σ → κ)
    {v : κ} (h : (Exec.feed step s is).outcome.ret?.map f = some v) :
    ∃ t, Runs step s is (Exec.feed step s is).events t ∧ f t = v := by
  unfold Runs
  rcases hfeed : Exec.feed step s is with ⟨es, t | _ | _⟩ <;> rw [hfeed] at h
  · exact ⟨t, rfl, Option.some.inj h⟩
  · cases h
  · cases h

section Conditions
variable {C : σ → ι → Prop} {s : σ} {is js : List ι}

theorem along_nil : Along step C s [] := by
  intro pre i post h
  simp at h

theorem Along.initial (h : Along step C s (is ++ js)) : Along step C s is := by
  rintro pre i post rfl
  exact h pre i (post ++ js) (by simp)

theorem Along.last {i : ι} {es : List ω} {t : σ} (h : Along step C s (is ++ [i]))
    (ht : Runs step s is es t) : C t i :=
  h is i [] rfl es t ht

theorem Along.concat {i : ι} (h : Along step C s is)
    (hi : ∀ es t, Runs step s is es t → C t i) : Along step C s (is ++ [i]) := by
  intro pre j post heq
  induction post using List.reverseRecOn with
  | nil =>
    obtain ⟨rfl, hij⟩ := List.append_inj' heq rfl
    cases hij
    exact hi
  | append_singleton post k _ =>
    rw [← List.cons_append, ← List.append_assoc] at heq
    exact h pre j post (List.append_inj' heq rfl).1

theorem along_concat_iff {i : ι} :
    Along step C s (is ++ [i]) ↔ Along step C s is ∧ ∀ es t, Runs step s is es t → C t i :=
  ⟨fun h => ⟨h.initial, fun _ _ => h.last⟩, fun h => h.1.concat h.2⟩

theorem along_congr {D : σ → ι → Prop} (h : ∀ is es t i, Runs step s is es t → (C t i ↔ D t i)) :
    Along step C s is ↔ Along step D s is := by
  unfold Along
  constructor
  · intro hC pre i post heq es t ht
    exact (h pre es t i ht).mp (hC pre i post heq es t ht)
  · intro hD pre i post heq es t ht
    exact (h pre es t i ht).mpr (hD pre i post heq es t ht)

theorem Along.cons {i : ι} (hi : C s i)
    (h : ∀ es t, step s i = ⟨es, .ret t⟩ → Along step C t is) : Along step C s (i :: is) := by
  intro pre j post heq es t ht
  cases pre with
  | nil =>
    obtain ⟨rfl, -⟩ := List.cons.inj heq
    obtain ⟨-, rfl⟩ := runs_nil.mp ht
    exact hi
  | cons k pre =>
    obtain ⟨rfl, hrest⟩ := List.cons.inj heq
    rw [← List.singleton_append] at ht
    obtain ⟨es₁, u, es₂, h₁, h₂, -⟩ := runs_append.mp ht
    exact h es₁ u (runs_one.mp h₁) pre j post hrest es₂ t h₂

theorem Along.rest {es : List ω} {t : σ} (h : Along step C s (is ++ js)) (ht : Runs step s is es t) :
    Along step C t js := by
  rintro pre i post rfl fs u hu
  exact h (is ++ pre) i post (by simp) _ u (runs_append.mpr ⟨es, t, fs, ht, hu, rfl⟩)

/-- A test that is made before every step. -/
def testAlong (step : σ → ι → Exec ω σ) (test : σ → ι → Bool) : σ → List ι → Bool
  | _, [] => true
  | s, i :: is =>
    test s i &&
      match (step s i).outcome with
      | .ret t => testAlong step test t is
      | _ => true

theorem along_of_test {test : σ → ι → Bool} (htest : ∀ t i, test t i = true → C t i)
    (h : testAlong step test s is = true) : Along step C s is := by
  induction is generalizing s with
  | nil => exact along_nil
  | cons i is ih =>
    rw [testAlong, Bool.and_eq_true] at h
    apply Along.cons (htest s i h.1)
    intro es t ht
    have hrest := h.2
    rw [ht] at hrest
    exact ih hrest

theorem Along.mono {D : σ → ι → Prop} (h : Along step C s is) (hCD : ∀ t i, C t i → D t i) :
    Along step D s is :=
  fun pre i post heq es t ht => hCD t i (h pre i post heq es t ht)

theorem along_true : Along step (fun _ _ => True) s is :=
  fun _ _ _ _ _ _ _ => trivial

end Conditions

/-- A relation between the history and the state that every step under the
condition keeps. -/
theorem Runs.history {C : σ → ι → Prop} {H : List ι → List ω → σ → Prop} {s : σ} (h0 : H [] [] s)
    (hstep : ∀ is es t i fs u, Runs step s is es t → H is es t → C t i →
      step t i = ⟨fs, .ret u⟩ → H (is ++ [i]) (es ++ fs) u)
    {is : List ι} {es : List ω} {t : σ} (hC : Along step C s is) (h : Runs step s is es t) :
    H is es t := by
  induction is using List.reverseRecOn generalizing es t with
  | nil =>
    obtain ⟨rfl, rfl⟩ := runs_nil.mp h
    exact h0
  | append_singleton is i ih =>
    obtain ⟨es₁, u, es₂, h₁, h₂, rfl⟩ := runs_concat.mp h
    exact hstep is es₁ u i es₂ t h₁ (ih hC.initial h₁) (hC.last h₁) h₂

/-- A property that holds of every run under the condition, and that shows the
condition of each next step, holds of all prefixes exactly of the runs under it. -/
theorem forall_prefix_iff_along {C : σ → ι → Prop} {s : σ} {G : List ι → Prop}
    (hsound : ∀ is, Along step C s is → G is)
    (hsharp : ∀ is i es t, Along step C s is → Runs step s is es t → G (is ++ [i]) → C t i)
    (is : List ι) : (∀ pre, pre <+: is → G pre) ↔ Along step C s is := by
  constructor
  · intro h
    induction is using List.reverseRecOn with
    | nil => exact along_nil
    | append_singleton is i ih =>
      have hpre := ih fun pre hpre => h pre (hpre.trans (List.prefix_append is [i]))
      exact hpre.concat fun es t ht => hsharp is i es t hpre ht (h _ (List.prefix_refl _))
  · rintro h pre ⟨post, rfl⟩
    exact hsound pre h.initial

/-- A step that always returns on the states of `I`, and stays there, has a run
on every list of inputs. -/
theorem runs_total {P : ω → Prop} {I : σ → Prop} {s : σ} (hs : I s)
    (hstep : ∀ t i, I t → (step t i).Ensures P I) (is : List ι) :
    ∃ es t, Runs step s is es t ∧ (∀ e ∈ es, P e) ∧ I t := by
  induction is using List.reverseRecOn with
  | nil => exact ⟨[], s, .refl s, by simp, hs⟩
  | append_singleton is i ih =>
    obtain ⟨es, t, ht, hes, hI⟩ := ih
    obtain ⟨hfs, u, hu, hIu⟩ := hstep t i hI
    refine ⟨es ++ (step t i).events, u, ht.concat (by rw [← hu]), ?_, hIu⟩
    intro e he
    rcases List.mem_append.mp he with he | he
    · exact hes e he
    · exact hfs e he

/-- Events are in `P` throughout a run exactly if they are in every step of it, the
last one included if it does not return. -/
theorem always_feed_iff {P : ω → Prop} {s : σ} (is : List ι) :
    (Exec.feed step s is).Always P ↔ Along step (fun t i => (step t i).Always P) s is := by
  induction is using List.reverseRecOn with
  | nil => exact iff_of_true (Exec.Always.pure s) along_nil
  | append_singleton is i ih =>
    have hlast : ∀ t, Exec.feed step t [i] = step t i := fun t => bind_pure (step t i)
    rw [Exec.feed_append, Exec.always_bind_iff, along_concat_iff, ih]
    simp only [hlast]
    constructor
    · rintro ⟨his, hi⟩
      exact ⟨his, fun es t ht => hi t (by rw [ht])⟩
    · rintro ⟨his, hi⟩
      refine ⟨his, fun t ht => hi (Exec.feed step s is).events t ?_⟩
      rw [Runs, ← ht]

/-- What an observer who sees the state before each step notes down over a run. -/
def gather {κ : Type*} (step : σ → ι → Exec ω σ) (note : σ → ι → List κ) : σ → List ι → List κ
  | _, [] => []
  | s, i :: is =>
    note s i ++
      match (step s i).outcome with
      | .ret t => gather step note t is
      | _ => []

theorem gather_append {κ : Type*} (note : σ → ι → List κ) {s t : σ} {is : List ι} {es : List ω}
    (h : Runs step s is es t) (js : List ι) :
    gather step note s (is ++ js) = gather step note s is ++ gather step note t js := by
  induction is generalizing s es with
  | nil =>
    obtain ⟨-, rfl⟩ := runs_nil.mp h
    rfl
  | cons i is ih =>
    rw [← List.singleton_append] at h
    obtain ⟨es₁, u, es₂, h₁, h₂, rfl⟩ := runs_append.mp h
    have hu : (step s i).outcome = .ret u := by rw [runs_one.mp h₁]
    simp only [List.cons_append, gather, hu, ih h₂, List.append_assoc]

theorem gather_one {κ : Type*} (note : σ → ι → List κ) (s : σ) (i : ι) :
    gather step note s [i] = note s i := by
  simp only [gather]
  cases (step s i).outcome <;> simp

theorem gather_concat {κ : Type*} (note : σ → ι → List κ) {s t : σ} {is : List ι} {es : List ω}
    (h : Runs step s is es t) (i : ι) :
    gather step note s (is ++ [i]) = gather step note s is ++ note t i := by
  rw [gather_append note h, gather_one]

end Firmware
