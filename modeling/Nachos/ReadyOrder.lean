import Nachos.KernelThreads

/-!
# The order of the ready list

`ReadyToRun` appends a thread to the ready list and `FindNextToRun` takes the first one off.
Whatever the threads do with semaphores, locks and conditions, nobody gets into the list at another
place.
-/
namespace Nachos.KernelThreads
open GuardedRuns

variable {T S L C : Type*} [DecidableEq T] [DecidableEq S] [DecidableEq L] [DecidableEq C]
  {k k₁ k' : Kernel T S L C} {t : T}

/-- `FindNextToRun` and `Run` of `t`. -/
def Dispatch (k : Kernel T S L C) (t : T) (k' : Kernel T S L C) : Prop :=
  k.currentThread = none ∧ ∃ ts, k.queue .ready = t :: ts ∧ k' = k.run t ts

/-- The moves from one state to another, with the threads that get the processor, in this order. -/
inductive Dispatched (k : Kernel T S L C) : List T → Kernel T S L C → Prop
  | refl : Dispatched k [] k
  | dispatch {ds : List T} {k₁ k' : Kernel T S L C} {t : T} : Dispatched k ds k₁ →
      Dispatch k₁ t k' → Dispatched k (ds ++ [t]) k'
  | other {ds : List T} {k₁ k' : Kernel T S L C} : Dispatched k ds k₁ → Move k₁ k' →
      (∀ t, ¬Dispatch k₁ t k') → Dispatched k ds k'

theorem wake_ready (k : Kernel T S L C) {q : Queue S L C} (hq : q ≠ .ready) :
    k.queue .ready <+: (k.wake q).queue .ready := by
  unfold Kernel.wake
  split
  · exact List.prefix_rfl
  · simp [Kernel.record, Kernel.readyToRun, Kernel.setQueue, hq.symm]

theorem release_ready (k : Kernel T S L C) (t : T) (l : L) :
    k.queue .ready <+: (k.release t l).queue .ready := by
  by_cases h : k.isHeldBy l t = true
  · rw [release_eq h]
    exact wake_ready (k.record _) (by simp)
  · rw [release_eq_record (by simpa using h)]
    exact List.prefix_rfl

/-- Every other move leaves the list, or appends to it. -/
theorem Move.ready (h : Move k k') :
    (∃ t, Dispatch k t k') ∨ k.queue .ready <+: k'.queue .ready := by
  cases h with
  | run hcur hq => exact .inl ⟨_, hcur, _, hq, rfl⟩
  | start | waitReturn | down | finish => exact .inr List.prefix_rfl
  | take => exact .inr (by rw [take_queue])
  | blockP | blockAcquire =>
    exact .inr (by simp [Kernel.block, Kernel.setCont, Kernel.setQueue])
  | v s => exact .inr (wake_ready k (by simp))
  | release l => exact .inr (release_ready k _ l)
  | wait =>
    refine .inr (List.IsPrefix.trans ?_ (release_ready _ _ _))
    simp [Kernel.block, Kernel.setCont, Kernel.setQueue, Kernel.record]
  | @wakeWaiter c => exact .inr (wake_ready { k with
      waitingThreads := Function.update k.waitingThreads c (k.waitingThreads c - 1) } (by simp))
  | yield | fork =>
    exact .inr (by simp [Kernel.yieldReady, Kernel.fork, Kernel.readyToRun, Kernel.setQueue,
      Kernel.setCont])

theorem Dispatched.move {ds : List T} (h : Dispatched k ds k₁) (hm : Move k₁ k') :
    ∃ ds', Dispatched k ds' k' := by
  by_cases hd : ∃ t, Dispatch k₁ t k'
  · obtain ⟨t, ht⟩ := hd
    exact ⟨_, h.dispatch ht⟩
  · exact ⟨_, h.other hm (not_exists.mp hd)⟩

/-- The threads that have had the processor and those that are ready now are those that were ready
at first, followed by others. -/
theorem Dispatched.ready {ds : List T} (h : Dispatched k ds k') :
    k.queue .ready <+: ds ++ k'.queue .ready := by
  induction h with
  | refl => exact List.prefix_rfl
  | dispatch _ hd ih =>
    obtain ⟨-, ts, hq, rfl⟩ := hd
    rw [hq] at ih
    simpa using ih
  | other _ hm hno ih =>
    have happended := hm.ready.resolve_left (not_exists.mpr hno)
    exact ih.trans ((List.prefix_append_right_inj _).mpr happended)

/-- Threads get the processor in the order in which they became ready: in every run, from every
state, those that are ready at first are dispatched before any other thread and in the order of the
list, and the ones that still wait have the others behind them. -/
theorem ready_in_order {as : List (Label T S L C)}
    (h : Run (fun k a k' => Kernel.step k a = some k') Free k as k') :
    ∃ ds, Dispatched k ds k' ∧ k.queue .ready <+: ds ++ k'.queue .ready := by
  obtain ⟨ds, hds⟩ := h.invariant (I := fun k' => ∃ ds, Dispatched k ds k') ⟨[], .refl⟩
    fun hk _ hs => step_invariant (I := fun k' => ∃ ds, Dispatched k ds k')
      (fun ⟨_, h⟩ hm => h.move hm) hk hs
  exact ⟨ds, hds, hds.ready⟩

/-- Two forked threads, and the main thread yields. -/
theorem ready_in_order_forked : ∃ (k k' : Kernel ℕ Empty Empty Empty) (ds : List ℕ),
    Run (fun k a k' => Kernel.step k a = some k') Free k [.yield] k' ∧
    k.queue .ready = [1, 2] ∧ k'.queue .ready = [2, 0] ∧ Dispatched k ds k' ∧
    [1, 2] <+: ds ++ [2, 0] := by
  let k : Kernel ℕ Empty Empty Empty := ((initial 0 nofun nofun).fork 1).fork 2
  obtain ⟨k', hrun, hk'⟩ := exists_run_of_exec Kernel.step k [.yield]
    (fun k' => k'.queue .ready = [2, 0]) (by decide)
  obtain ⟨ds, hds, hready⟩ := ready_in_order hrun
  rw [of_decide_eq_true hk'] at hready
  exact ⟨k, k', ds, hrun, rfl, of_decide_eq_true hk', hds, hready⟩

end Nachos.KernelThreads
