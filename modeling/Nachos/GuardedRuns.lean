import Mathlib.Tactic

/-!
# Runs whose steps meet a guard

A transition system is a relation between a state, the label of one step and
the state after it. A guard is a condition on the state before a step and on
the label of that step. `Run` collects the finite runs all of whose steps meet
the guard; the guard that always holds gives the plain runs. Every prefix of
such a run is again one, so a fact about the last state of every run is a fact
about every state that is reached.
-/
namespace Nachos.GuardedRuns

variable {σ α : Type*} {step : σ → α → σ → Prop} {guard : σ → α → Prop}

inductive Run (step : σ → α → σ → Prop) (guard : σ → α → Prop) : σ → List α → σ → Prop
  | nil (s : σ) : Run step guard s [] s
  | cons {s t u : σ} {a : α} {as : List α} :
      guard s a → step s a t → Run step guard t as u → Run step guard s (a :: as) u

/-- What holds at the start and is kept by every guarded step holds at the end. -/
theorem Run.invariant {I : σ → Prop} {s t : σ} {as : List α} (h : Run step guard s as t)
    (hs : I s) (hI : ∀ {s a t}, I s → guard s a → step s a t → I t) : I t := by
  induction h with
  | nil s => exact hs
  | cons hg hst _ ih => exact ih (hI hs hg hst)

theorem Run.mono {guard' : σ → α → Prop} {s t : σ} {as : List α} (h : Run step guard s as t)
    (hg : ∀ s a, guard s a → guard' s a) : Run step guard' s as t := by
  induction h with
  | nil s => exact .nil s
  | cons hgs hst _ ih => exact .cons (hg _ _ hgs) hst ih

/-- A condition on the labels can be made part of the guard. -/
theorem Run.and_label {p : α → Prop} {s t : σ} {as : List α} (h : Run step guard s as t)
    (hp : ∀ a ∈ as, p a) : Run step (fun s a => p a ∧ guard s a) s as t := by
  induction h with
  | nil s => exact .nil s
  | cons hg hst _ ih =>
    exact .cons ⟨hp _ List.mem_cons_self, hg⟩ hst (ih fun a ha => hp a (List.mem_cons_of_mem _ ha))

theorem Run.append {s t u : σ} {as bs : List α} (h : Run step guard s as t)
    (h' : Run step guard t bs u) : Run step guard s (as ++ bs) u := by
  induction h with
  | nil s => exact h'
  | cons hg hst _ ih => exact .cons hg hst (ih h')

theorem Run.of_cons {s u : σ} {a : α} {as : List α} (h : Run step guard s (a :: as) u) :
    ∃ t, step s a t ∧ Run step guard t as u := by
  cases h with
  | cons _ hst hrest => exact ⟨_, hst, hrest⟩

theorem Run.of_append {s u : σ} {as bs : List α} (h : Run step guard s (as ++ bs) u) :
    ∃ t, Run step guard s as t ∧ Run step guard t bs u := by
  induction as generalizing s with
  | nil => exact ⟨s, .nil s, h⟩
  | cons a as ih =>
    cases h with
    | cons hg hst hrest =>
      obtain ⟨t, ht, hu⟩ := ih hrest
      exact ⟨t, .cons hg hst ht, hu⟩

/-- The guard that every step meets. -/
def Free (_ : σ) (_ : α) : Prop := True

/-- Steps of a second system that follow every guarded step make up a run of it. -/
theorem Run.simulation {τ : Type*} {step' : τ → α → τ → Prop} {R : σ → τ → Prop} {s t : σ} {m : τ}
    {as : List α} (h : Run step guard s as t) (hs : R s m)
    (hR : ∀ {s a t m}, R s m → guard s a → step s a t → ∃ m', step' m a m' ∧ R t m') :
    ∃ m', Run step' Free m as m' ∧ R t m' := by
  induction h generalizing m with
  | nil s => exact ⟨m, .nil m, hs⟩
  | cons hg hst _ ih =>
    obtain ⟨m₁, hm₁, hR₁⟩ := hR hs hg hst
    obtain ⟨m', hrun, hm'⟩ := ih hR₁
    exact ⟨m', .cons trivial hm₁ hrun, hm'⟩

/-- Runs of a partial step function can be computed, with a test of each step. -/
def exec (f : σ → α → Option σ) (test : σ → α → Bool) : σ → List α → Option σ
  | s, [] => some s
  | s, a :: as => if test s a then (f s a).bind fun t => exec f test t as else none

theorem run_of_exec {f : σ → α → Option σ} {test : σ → α → Bool} {s t : σ} {as : List α}
    (htest : ∀ s a, test s a = true → guard s a) (h : exec f test s as = some t) :
    Run (fun s a t => f s a = some t) guard s as t := by
  induction as generalizing s with
  | nil =>
    obtain rfl := Option.some.inj h
    exact .nil s
  | cons a as ih =>
    unfold exec at h
    split_ifs at h with hs
    obtain ⟨u, hu, ht⟩ := Option.bind_eq_some_iff.mp h
    exact .cons (htest s a hs) hu (ih ht)

/-- A computed run together with what a test of its last state shows. -/
theorem exists_run_of_exec (f : σ → α → Option σ) (s : σ) (as : List α) (p : σ → Bool)
    (h : (exec f (fun _ _ => true) s as).any p = true) :
    ∃ t, Run (fun s a t => f s a = some t) Free s as t ∧ p t = true := by
  obtain ⟨t, ht, hp⟩ := (Option.any_eq_true _ _).mp h
  exact ⟨t, run_of_exec (fun _ _ _ => trivial) ht, hp⟩

/-- The same for a guard that can be decided. -/
theorem exists_guarded_run_of_exec (f : σ → α → Option σ) (guard : σ → α → Prop)
    [∀ s a, Decidable (guard s a)] (s : σ) (as : List α) (p : σ → Bool)
    (h : (exec f (fun s a => guard s a) s as).any p = true) :
    ∃ t, Run (fun s a t => f s a = some t) guard s as t ∧ p t = true := by
  obtain ⟨t, ht, hp⟩ := (Option.any_eq_true _ _).mp h
  exact ⟨t, run_of_exec (fun _ _ ha => of_decide_eq_true ha) ht, hp⟩

end Nachos.GuardedRuns
