import Mathlib.Data.List.Basic

/-!
# Calls that leave a trace

A C call is modelled by the events it causes and by the way it ends: it returns
a value, it never returns, or its behaviour is undefined. A caller goes on only
after a return, so the events of the rest follow those of the call.
-/

namespace Firmware

set_option autoImplicit false

universe u v w

/-- The three ways a call can end. `fault` is undefined behaviour. -/
inductive Outcome (α : Type u) where
  | ret (a : α)
  | hang
  | fault
  deriving Repr, DecidableEq

def Outcome.ret? {α : Type u} : Outcome α → Option α
  | .ret a => some a
  | _ => none

structure Exec (ω : Type v) (α : Type u) where
  events : List ω
  outcome : Outcome α
  deriving Repr, DecidableEq

namespace Exec
variable {ω : Type v} {α β γ : Type u}

protected def bind (x : Exec ω α) (f : α → Exec ω β) : Exec ω β :=
  match x with
  | ⟨es, .ret a⟩ => ⟨es ++ (f a).events, (f a).outcome⟩
  | ⟨es, .hang⟩ => ⟨es, .hang⟩
  | ⟨es, .fault⟩ => ⟨es, .fault⟩

instance : Monad (Exec ω) where
  pure a := ⟨[], .ret a⟩
  bind := Exec.bind

def emit (e : ω) : Exec ω PUnit := ⟨[e], .ret ⟨⟩⟩

def hang : Exec ω α := ⟨[], .hang⟩

def fault : Exec ω α := ⟨[], .fault⟩

/-- A read that leaves its object is undefined. -/
def ofOption : Option α → Exec ω α
  | some a => pure a
  | none => fault

def ofOutcome (o : Outcome α) : Exec ω α := ⟨[], o⟩

/-- A call whose events are some of those of a larger program. -/
def lift {ω' : Type w} (f : ω → ω') (x : Exec ω α) : Exec ω' α := ⟨x.events.map f, x.outcome⟩

theorem pure_def (a : α) : (pure a : Exec ω α) = ⟨[], .ret a⟩ := rfl

@[simp] theorem ret_bind (es : List ω) (a : α) (f : α → Exec ω β) :
    (⟨es, .ret a⟩ : Exec ω α) >>= f = ⟨es ++ (f a).events, (f a).outcome⟩ := rfl

@[simp] theorem hang_bind (es : List ω) (f : α → Exec ω β) :
    (⟨es, .hang⟩ : Exec ω α) >>= f = ⟨es, .hang⟩ := rfl

@[simp] theorem fault_bind (es : List ω) (f : α → Exec ω β) :
    (⟨es, .fault⟩ : Exec ω α) >>= f = ⟨es, .fault⟩ := rfl

@[simp] theorem emit_bind (e : ω) (f : PUnit → Exec ω β) :
    emit e >>= f = ⟨e :: (f ⟨⟩).events, (f ⟨⟩).outcome⟩ := rfl

theorem emit_bind_ret {e : ω} {f : PUnit → Exec ω β} {es : List ω} {b : β}
    (h : emit e >>= f = ⟨es, .ret b⟩) : ∃ fs, es = e :: fs ∧ f ⟨⟩ = ⟨fs, .ret b⟩ := by
  rw [emit_bind] at h
  obtain ⟨hes, hout⟩ := Exec.mk.inj h
  exact ⟨(f ⟨⟩).events, hes.symm, by rw [← hout]⟩

@[simp] theorem ofOption_some (a : α) : (ofOption (some a) : Exec ω α) = pure a := rfl

theorem bind_events_append (es : List ω) (x : Exec ω α) (f : α → Exec ω β) :
    (⟨es ++ x.events, x.outcome⟩ : Exec ω α) >>= f =
      ⟨es ++ (x >>= f).events, (x >>= f).outcome⟩ := by
  obtain ⟨fs, a | _ | _⟩ := x <;> simp

theorem bind_returns {x : Exec ω α} {f : α → Exec ω β} {b : β} :
    (x >>= f).outcome = .ret b ↔ ∃ a, x.outcome = .ret a ∧ (f a).outcome = .ret b := by
  obtain ⟨es, a | _ | _⟩ := x <;> simp

instance : LawfulMonad (Exec ω) := LawfulMonad.mk' _
  (by
    intro α x
    obtain ⟨es, a | _ | _⟩ := x <;> simp [Functor.map, Exec.bind])
  (by
    intro α β a f
    simp [pure_def])
  (by
    intro α β γ x f g
    obtain ⟨es, a | _ | _⟩ := x
    · exact bind_events_append es (f a) g
    · rfl
    · rfl)

/-- The call returns a value in `Q`, and every event on the way is in `P`. -/
def Ensures (x : Exec ω α) (P : ω → Prop) (Q : α → Prop) : Prop :=
  (∀ e ∈ x.events, P e) ∧ ∃ a, x.outcome = .ret a ∧ Q a

section Rules
variable {P : ω → Prop} {Q : α → Prop} {R : β → Prop} {x : Exec ω α} {f : α → Exec ω β}

theorem Ensures.pure {a : α} (h : Q a) : (Pure.pure a : Exec ω α).Ensures P Q :=
  ⟨by simp [pure_def], a, rfl, h⟩

theorem Ensures.emit {e : ω} {Q : PUnit → Prop} (he : P e) (h : Q ⟨⟩) : (Exec.emit e).Ensures P Q :=
  ⟨by simpa [Exec.emit] using he, ⟨⟩, rfl, h⟩

theorem Ensures.bind (hx : x.Ensures P Q) (hf : ∀ a, Q a → (f a).Ensures P R) :
    (x >>= f).Ensures P R := by
  obtain ⟨es, o⟩ := x
  obtain ⟨hes, a, rfl, ha⟩ := hx
  obtain ⟨hfs, b, hb, hR⟩ := hf a ha
  refine ⟨?_, b, hb, hR⟩
  intro e he
  rcases List.mem_append.mp he with he | he
  · exact hes e he
  · exact hfs e he

end Rules

def Always (x : Exec ω α) (P : ω → Prop) : Prop := ∀ e ∈ x.events, P e

/-- The call does not return before an event in `P` has happened. -/
def Inevitably (x : Exec ω α) (P : ω → Prop) : Prop :=
  ∀ a, x.outcome = .ret a → ∃ e ∈ x.events, P e

section Events
variable {P : ω → Prop} {x : Exec ω α} {f : α → Exec ω β}

theorem Always.pure (a : α) : (Pure.pure a : Exec ω α).Always P := by simp [Always, pure_def]

theorem Always.hang : (Exec.hang : Exec ω α).Always P := by simp [Always, Exec.hang]

theorem Always.fault : (Exec.fault : Exec ω α).Always P := by simp [Always, Exec.fault]

theorem Always.emit {e : ω} (he : P e) : (Exec.emit e).Always P := by simpa [Always, Exec.emit]

theorem Always.ofOption (o : Option α) : (Exec.ofOption o : Exec ω α).Always P := by
  cases o with
  | none => exact Always.fault
  | some a => exact Always.pure a

theorem Always.bind (hx : x.Always P) (hf : ∀ a, (f a).Always P) : (x >>= f).Always P := by
  obtain ⟨es, a | _ | _⟩ := x
  · intro e he
    rcases List.mem_append.mp he with he | he
    · exact hx e he
    · exact hf a e he
  · exact hx
  · exact hx

theorem always_bind_iff :
    (x >>= f).Always P ↔ x.Always P ∧ ∀ a, x.outcome = .ret a → (f a).Always P := by
  obtain ⟨es, a | _ | _⟩ := x
  · simp [Always, or_imp, forall_and]
  · simp [Always]
  · simp [Always]

theorem Inevitably.emit {e : ω} (he : P e) : (Exec.emit e).Inevitably P :=
  fun _ _ => ⟨e, List.mem_singleton_self e, he⟩

theorem Inevitably.hang : (Exec.hang : Exec ω α).Inevitably P := by
  intro a h
  cases h

theorem Inevitably.bind_left (hx : x.Inevitably P) : (x >>= f).Inevitably P := by
  obtain ⟨es, a | _ | _⟩ := x
  · intro _ _
    obtain ⟨e, he, hP⟩ := hx a rfl
    exact ⟨e, List.mem_append_left _ he, hP⟩
  · intro _ h
    cases h
  · intro _ h
    cases h

theorem Inevitably.bind_right (hf : ∀ a, (f a).Inevitably P) : (x >>= f).Inevitably P := by
  obtain ⟨es, a | _ | _⟩ := x
  · intro b hb
    obtain ⟨e, he, hP⟩ := hf a b hb
    exact ⟨e, List.mem_append_right _ he, hP⟩
  · intro _ h
    cases h
  · intro _ h
    cases h

end Events

section View
variable {κ : Type w} (view : ω → Option κ)

def seen (x : Exec ω α) : List κ := x.events.filterMap view

/-- Unless `x` is undefined, `y` ends like `x` and shows the same. -/
def Refines (x y : Exec ω α) : Prop :=
  x.outcome ≠ .fault → y.outcome = x.outcome ∧ seen view y = seen view x

theorem Refines.refl (x : Exec ω α) : Refines view x x := fun _ => ⟨rfl, rfl⟩

theorem Refines.emit {e e' : ω} (h : view e' = view e) :
    Refines view (Exec.emit e) (Exec.emit e') :=
  fun _ => ⟨rfl, by simp only [seen, Exec.emit, List.filterMap_cons, h]⟩

theorem Refines.ofOption {o o' : Option α} (h : ∀ a, o = some a → o' = some a) :
    Refines view (Exec.ofOption o) (Exec.ofOption o') := by
  intro hnf
  cases o with
  | none => exact absurd rfl hnf
  | some a => rw [h a rfl]; exact ⟨rfl, rfl⟩

theorem Refines.bind {x y : Exec ω α} {f g : α → Exec ω β}
    (hxy : Refines view x y) (hfg : ∀ a, Refines view (f a) (g a)) :
    Refines view (x >>= f) (y >>= g) := by
  intro hnf
  obtain ⟨es, o⟩ := x
  obtain ⟨es', o'⟩ := y
  have hx : o ≠ .fault := by
    intro h
    subst h
    exact hnf rfl
  obtain ⟨ho, hes⟩ := hxy hx
  simp only at ho
  subst ho
  cases o' with
  | ret a =>
    obtain ⟨hout, hseen⟩ := hfg a hnf
    refine ⟨hout, ?_⟩
    simp only [seen, ret_bind, List.filterMap_append] at hes hseen ⊢
    rw [hes, hseen]
  | hang => exact ⟨rfl, hes⟩
  | fault => exact absurd rfl hx

end View

section Feed
variable {σ : Type u} {ι : Type w} (step : σ → ι → Exec ω σ)

def feed : σ → List ι → Exec ω σ
  | s, [] => pure s
  | s, i :: is => step s i >>= fun t => feed t is

@[simp] theorem feed_nil (s : σ) : feed step s [] = pure s := rfl

@[simp] theorem feed_cons (s : σ) (i : ι) (is : List ι) :
    feed step s (i :: is) = step s i >>= fun t => feed step t is := rfl

theorem feed_append (s : σ) (is js : List ι) :
    feed step s (is ++ js) = feed step s is >>= fun t => feed step t js := by
  induction is generalizing s with
  | nil => simp
  | cons i is ih => simp only [List.cons_append, feed_cons, bind_assoc, ih]

end Feed

end Exec

end Firmware
