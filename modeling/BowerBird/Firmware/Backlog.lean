import BowerBird.Firmware.Runs
import BowerBird.Firmware.Buffers

/-!
# A bounded pipe in a run

A device holds a queue of at most `cap` values. What arrives at a full queue is dropped.
Whether that ever happens in a run can be told from the arrivals and the services alone:
it does not, exactly if no window of the run has more arrivals than it has services and
the queue has room.
-/

namespace Firmware

set_option autoImplicit false

universe u v w x

variable {α : Type x} {σ : Type u} {ι : Type w} {ω : Type v}

inductive Demand (α : Type x) where
  | arrival (a : α)
  | service
  deriving Repr, DecidableEq

def Demand.arrival? : Demand α → Option α
  | .arrival a => some a
  | .service => none

def arrivalsIn (ds : List (Demand α)) : Nat := (ds.filterMap Demand.arrival?).length

def servicesIn (ds : List (Demand α)) : Nat := (ds.filter fun d => d.arrival?.isNone).length

@[simp] theorem arrivalsIn_nil : arrivalsIn ([] : List (Demand α)) = 0 := rfl

@[simp] theorem servicesIn_nil : servicesIn ([] : List (Demand α)) = 0 := rfl

@[simp] theorem arrivalsIn_arrival (a : α) : arrivalsIn [.arrival a] = 1 := rfl

@[simp] theorem servicesIn_arrival (a : α) : servicesIn [.arrival a] = 0 := rfl

@[simp] theorem arrivalsIn_service : arrivalsIn [(.service : Demand α)] = 0 := rfl

@[simp] theorem servicesIn_service : servicesIn [(.service : Demand α)] = 1 := rfl

theorem arrivalsIn_append (ds es : List (Demand α)) :
    arrivalsIn (ds ++ es) = arrivalsIn ds + arrivalsIn es := by
  simp [arrivalsIn, List.filterMap_append]

theorem servicesIn_append (ds es : List (Demand α)) :
    servicesIn (ds ++ es) = servicesIn ds + servicesIn es := by
  simp [servicesIn, List.filter_append]

/-- What a demand does to the queue, and what it takes out. -/
inductive PipeMove (cap : Nat) : Option (Demand α) → List α → List α → List α → Prop where
  | idle (q : List α) : PipeMove cap none q [] q
  | kept {q : List α} (a : α) (h : q.length < cap) :
      PipeMove cap (some (.arrival a)) q [] (q ++ [a])
  | dropped {q : List α} (a : α) (h : ¬ q.length < cap) : PipeMove cap (some (.arrival a)) q [] q
  | empty : PipeMove cap (some .service) [] [] []
  | served (a : α) (q : List α) : PipeMove cap (some .service) (a :: q) [a] q

section Queues
variable {cap : Nat} {q r : Fifo cap α}

theorem pipeMove_push (q : Fifo cap α) (a : α) :
    PipeMove cap (some (.arrival a)) q.contents [] (q.push a).contents := by
  rw [Fifo.contents_push]
  split
  · exact .kept a ‹_›
  · exact .dropped a ‹_›

theorem pipeMove_pull {a : α} (h : q.pull? = some (a, r)) :
    PipeMove cap (some .service) q.contents [a] r.contents := by
  rw [Fifo.contents_of_pull? h]
  exact .served a r.contents

theorem pipeMove_empty (h : q.pull? = none) :
    PipeMove cap (some .service) q.contents [] q.contents := by
  rw [Fifo.contents_of_pull?_none h]
  exact .empty

end Queues

/-- The device has a queue that moves so in every step. -/
structure Pipe (step : σ → ι → Exec ω σ) (demand : σ → ι → Option (Demand α))
    (contents : σ → List α) (taken : ω → Option α) (cap : Nat) : Prop where
  moves : ∀ s i fs t, step s i = ⟨fs, .ret t⟩ →
    PipeMove cap (demand s i) (contents s) (fs.filterMap taken) (contents t)
  arrives : ∀ s i a, demand s i = some (.arrival a) → ∃ fs t, step s i = ⟨fs, .ret t⟩
  bounded : ∀ s, (contents s).length ≤ cap

namespace Pipe
variable {step : σ → ι → Exec ω σ} {demand : σ → ι → Option (Demand α)}
variable {contents : σ → List α} {taken : ω → Option α} {cap : Nat}

def demands (step : σ → ι → Exec ω σ) (demand : σ → ι → Option (Demand α)) (s : σ) (is : List ι) :
    List (Demand α) :=
  gather step (fun s i => (demand s i).toList) s is

def arrived (step : σ → ι → Exec ω σ) (demand : σ → ι → Option (Demand α)) (s : σ) (is : List ι) :
    List α :=
  (demands step demand s is).filterMap Demand.arrival?

/-- Arrivals in a window of the run exceed the services there by at most `cap`. -/
def KeepsUp (step : σ → ι → Exec ω σ) (demand : σ → ι → Option (Demand α)) (cap : Nat) (s₀ : σ)
    (is : List ι) : Prop :=
  ∀ pre mid, pre ++ mid <+: is → ∀ es s fs t, Runs step s₀ pre es s → Runs step s mid fs t →
    arrivalsIn (demands step demand s mid) ≤ servicesIn (demands step demand s mid) + cap

def Room (demand : σ → ι → Option (Demand α)) (contents : σ → List α) (cap : Nat) (s : σ) (i : ι) :
    Prop :=
  ∀ a, demand s i = some (.arrival a) → (contents s).length < cap

def roomTest (demand : σ → ι → Option (Demand α)) (contents : σ → List α) (cap : Nat) (s : σ)
    (i : ι) : Bool :=
  ((demand s i).bind Demand.arrival?).isNone || decide ((contents s).length < cap)

theorem room_of_test {s : σ} {i : ι} (h : roomTest demand contents cap s i = true) :
    Room demand contents cap s i := by
  intro a ha
  simpa [roomTest, ha, Demand.arrival?] using h

/-- What has arrived is what has been taken out and what is still in the queue. -/
def Whole (step : σ → ι → Exec ω σ) (demand : σ → ι → Option (Demand α)) (contents : σ → List α)
    (taken : ω → Option α) (s₀ : σ) (is : List ι) : Prop :=
  ∀ es s, Runs step s₀ is es s → arrived step demand s₀ is = es.filterMap taken ++ contents s

section Moves
variable {d : Option (Demand α)} {q out q' : List α}

theorem move_balance (h : PipeMove cap d q out q')
    (hroom : ∀ a, d = some (.arrival a) → q.length < cap) :
    q ++ (d.bind Demand.arrival?).toList = out ++ q' := by
  cases h with
  | dropped a hfull => exact absurd (hroom a rfl) hfull
  | _ => simp [Demand.arrival?]

theorem move_level_le (h : PipeMove cap d q out q')
    (hroom : ∀ a, d = some (.arrival a) → q.length < cap) :
    q.length + arrivalsIn d.toList ≤ servicesIn d.toList + q'.length := by
  cases h with
  | dropped a hfull => exact absurd (hroom a rfl) hfull
  | served a q => simp [Nat.add_comm]
  | _ => simp

theorem move_level (h : PipeMove cap d q out q')
    (hroom : ∀ a, d = some (.arrival a) → q.length < cap) :
    q.length + arrivalsIn d.toList = servicesIn d.toList + q'.length ∨ q' = [] := by
  cases h with
  | dropped a hfull => exact absurd (hroom a rfl) hfull
  | empty => exact .inr rfl
  | served a q => exact .inl (by simp [Nat.add_comm])
  | _ => exact .inl (by simp)

theorem room_of_arrival {a : α} (h : PipeMove cap (some (.arrival a)) q out q')
    (hlength : q.length + 1 = out.length + q'.length) : q.length < cap := by
  cases h with
  | kept _ hlt => exact hlt
  | dropped => simp at hlength

end Moves

section Runs
variable {s₀ s t : σ} {i : ι} {is mid : List ι} {es fs : List ω}

theorem demands_concat (h : Runs step s₀ is es s) (i : ι) :
    demands step demand s₀ (is ++ [i]) = demands step demand s₀ is ++ (demand s i).toList :=
  gather_concat _ h i

theorem arrived_concat (h : Runs step s₀ is es s) (i : ι) :
    arrived step demand s₀ (is ++ [i]) =
      arrived step demand s₀ is ++ ((demand s i).bind Demand.arrival?).toList := by
  rw [arrived, demands_concat h, List.filterMap_append]
  rcases hd : demand s i with _ | a | _ <;> simp [arrived, Demand.arrival?]

theorem runs_whole (hp : Pipe step demand contents taken cap) (h0 : contents s₀ = [])
    (hC : Along step (Room demand contents cap) s₀ is) :
    Whole step demand contents taken s₀ is := by
  intro es s h
  refine Runs.history (H := fun is es s =>
    arrived step demand s₀ is = es.filterMap taken ++ contents s) ?_ ?_ hC h
  · rw [h0]
    rfl
  · intro is es s i fs t hr hs hroom hstep
    have hbalance := move_balance (hp.moves s i fs t hstep) hroom
    rw [arrived_concat hr, hs, List.filterMap_append, List.append_assoc, hbalance,
      List.append_assoc]

theorem window_level_le (hp : Pipe step demand contents taken cap)
    (hC : Along step (Room demand contents cap) s mid) (h : Runs step s mid fs t) :
    (contents s).length + arrivalsIn (demands step demand s mid) ≤
      servicesIn (demands step demand s mid) + (contents t).length := by
  refine Runs.history (H := fun mid _ t => (contents s).length +
    arrivalsIn (demands step demand s mid) ≤
      servicesIn (demands step demand s mid) + (contents t).length) ?_ ?_ hC h
  · exact Nat.le_of_eq (Nat.add_comm _ _)
  · intro is es u i fs t hr hu hroom hstep
    have hlevel := move_level_le (hp.moves u i fs t hstep) hroom
    rw [demands_concat hr, arrivalsIn_append, servicesIn_append]
    omega

/-- The level is the excess of arrivals over services in some window up to now. -/
theorem exists_window (hp : Pipe step demand contents taken cap) (h0 : contents s₀ = [])
    (hC : Along step (Room demand contents cap) s₀ is) (h : Runs step s₀ is es t) :
    ∃ pre mid es₁ s fs, is = pre ++ mid ∧ Runs step s₀ pre es₁ s ∧ Runs step s mid fs t ∧
      arrivalsIn (demands step demand s mid) =
        servicesIn (demands step demand s mid) + (contents t).length := by
  refine Runs.history (H := fun is _ t => ∃ pre mid es₁ s fs, is = pre ++ mid ∧
    Runs step s₀ pre es₁ s ∧ Runs step s mid fs t ∧
      arrivalsIn (demands step demand s mid) =
        servicesIn (demands step demand s mid) + (contents t).length) ?_ ?_ hC h
  · exact ⟨[], [], [], s₀, [], rfl, .refl s₀, .refl s₀, by rw [h0]; rfl⟩
  · rintro _ es t i gs u hr ⟨pre, mid, es₁, s, fs, rfl, hpre, hmid, hwindow⟩ hroom hstep
    rcases move_level (hp.moves t i gs u hstep) hroom with hlevel | hempty
    · refine ⟨pre, mid ++ [i], es₁, s, fs ++ gs, List.append_assoc _ _ _, hpre, hmid.concat hstep, ?_⟩
      rw [demands_concat hmid, arrivalsIn_append, servicesIn_append]
      omega
    · exact ⟨pre ++ mid ++ [i], [], es ++ gs, u, [], by simp, hr.concat hstep, .refl u, by
        rw [hempty]; rfl⟩

theorem room_iff_keepsUp (hp : Pipe step demand contents taken cap) (h0 : contents s₀ = [])
    (is : List ι) :
    Along step (Room demand contents cap) s₀ is ↔ KeepsUp step demand cap s₀ is := by
  constructor
  · rintro hC pre mid ⟨post, rfl⟩ es s fs t hpre hmid
    have hle := window_level_le hp (hC.initial.rest hpre) hmid
    have hbounded := hp.bounded t
    omega
  · intro hkeeps
    induction is using List.reverseRecOn with
    | nil => exact along_nil
    | append_singleton is i ih =>
      have hC := ih fun pre mid hpre => hkeeps pre mid (hpre.trans (List.prefix_append _ _))
      apply hC.concat
      intro es t ht a ha
      obtain ⟨pre, mid, es₁, s, fs, rfl, hpre, hmid, hwindow⟩ := exists_window hp h0 hC ht
      obtain ⟨gs, u, hstep⟩ := hp.arrives t i a ha
      have hle := hkeeps pre (mid ++ [i]) (by simp) es₁ s (fs ++ gs) u hpre (hmid.concat hstep)
      rw [demands_concat hmid, arrivalsIn_append, servicesIn_append, ha] at hle
      simp only [Option.toList_some, arrivalsIn_arrival, servicesIn_arrival] at hle
      omega

/-- A pipe is whole throughout a run exactly if the services keep up with the arrivals. -/
theorem whole_iff_keepsUp (hp : Pipe step demand contents taken cap) (h0 : contents s₀ = [])
    (is : List ι) :
    (∀ pre, pre <+: is → Whole step demand contents taken s₀ pre) ↔
      KeepsUp step demand cap s₀ is := by
  rw [← room_iff_keepsUp hp h0 is]
  refine forall_prefix_iff_along (fun is hC => runs_whole hp h0 hC) ?_ is
  intro is i es s hC hs hwhole a ha
  obtain ⟨fs, t, hstep⟩ := hp.arrives s i a ha
  have hbefore := congrArg List.length (runs_whole hp h0 hC es s hs)
  have hafter := congrArg List.length (hwhole _ t (hs.concat hstep))
  rw [arrived_concat hs, List.filterMap_append] at hafter
  simp only [ha, Option.bind_some, Demand.arrival?, Option.toList_some, List.length_append,
    List.length_singleton] at hbefore hafter
  exact room_of_arrival (ha ▸ hp.moves s i fs t hstep) (by omega)

end Runs

end Pipe

end Firmware
