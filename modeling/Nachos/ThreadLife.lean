import Nachos.ThreadQueues

/-!
# The life of a thread

From its `Fork` to its `Finish` a thread is at exactly one place: it runs, it is
ready, or it sleeps on one queue. A finished thread is nowhere; it waits in
`threadToBeDestroyed` for the next thread that comes back from `SWITCH` inside
of `Scheduler::Run`. A thread that starts does not come back there, so a second
thread can finish while the first one still waits.
-/
namespace Nachos.KernelThreads
open GuardedRuns

variable {T S L C : Type*}

/-- The thread runs or is on a queue. -/
def Somewhere (k : Kernel T S L C) (u : T) : Prop :=
  k.currentThread = some u ∨ ∃ q, u ∈ k.queue q

variable [DecidableEq T] [DecidableEq S] [DecidableEq L] [DecidableEq C]

section places
variable {k k' : Kernel T S L C} {t u : T}

theorem Somewhere.wake (h : Somewhere k u) {q : Queue S L C} (hq : q ≠ .ready) :
    Somewhere (k.wake q) u := by
  rcases h with hcur | ⟨q', hu⟩
  · exact Or.inl ((wake_currentThread k q).trans hcur)
  · by_cases hready : q' = .ready
    · subst hready
      exact Or.inr ⟨.ready, (mem_ready_wake k q hq).mpr (Or.inl hu)⟩
    · by_cases hqq : q' = q
      · subst hqq
        cases hlist : k.queue q' with
        | nil => simp [hlist] at hu
        | cons w ts =>
          rw [hlist] at hu
          rcases List.mem_cons.mp hu with rfl | hu
          · exact Or.inr ⟨.ready, (mem_ready_wake k q' hq).mpr (Or.inr (by simp [hlist]))⟩
          · exact Or.inr ⟨q', by simpa [wake_queue k q' hq, hlist] using hu⟩
      · exact Or.inr ⟨q', by rwa [wake_queue_of_ne k q hqq hready]⟩

omit [DecidableEq T] in
theorem Somewhere.setQueue_append (h : Somewhere k u) (q : Queue S L C) (ts : List T) :
    Somewhere (k.setQueue q (k.queue q ++ ts)) u := by
  rcases h with hcur | ⟨q', hu⟩
  · exact Or.inl hcur
  · refine Or.inr ⟨q', ?_⟩
    by_cases hq : q' = q
    · subst hq
      simp [Kernel.setQueue, hu]
    · simpa [Kernel.setQueue, hq] using hu

/-- When the running thread goes onto a queue everybody is still somewhere. -/
theorem Somewhere.enqueue (h : Somewhere k u) (hcur : k.currentThread = some t)
    (q : Queue S L C) : Somewhere { k.setQueue q (k.queue q ++ [t]) with currentThread := none } u := by
  by_cases hut : u = t
  · exact Or.inr ⟨q, by simp [Kernel.setQueue, hut]⟩
  · rcases h.setQueue_append q [t] with hu | hu
    · exact absurd (Option.some.inj (hu.symm.trans hcur)) hut
    · exact Or.inr hu

theorem Somewhere.run (h : Somewhere k u) {ts : List T} (hcur : k.currentThread = none)
    (hq : k.queue .ready = t :: ts) : Somewhere (k.run t ts) u := by
  obtain ⟨q, hu⟩ : ∃ q, u ∈ k.queue q := h.resolve_left (by simp [hcur])
  by_cases hready : q = .ready
  · subst hready
    rw [hq] at hu
    rcases List.mem_cons.mp hu with rfl | hu
    · exact Or.inl run_currentThread
    · exact Or.inr ⟨.ready, by simpa using hu⟩
  · exact Or.inr ⟨q, by simpa [hready] using hu⟩

theorem wake_status_of_ne {q : Queue S L C} (hu : (k.queue q).head? ≠ some u) :
    (k.wake q).status u = k.status u := by
  unfold Kernel.wake
  split
  · rfl
  · rename_i t ts h
    have hne : u ≠ t := by
      rintro rfl
      simp [h] at hu
    simp [Kernel.record, Kernel.readyToRun, Kernel.setQueue, hne]

end places

/-- A forked thread is somewhere until it has finished, and nowhere afterwards. -/
structure LifeInv (k : Kernel T S L C) : Prop where
  somewhere : ∀ u, k.status u ≠ .justCreated → k.cont u ≠ .finished → Somewhere k u
  blocked : ∀ u, k.cont u = .finished → k.status u = .blocked
  finished : ∀ u, .finished u ∈ k.history ↔ k.cont u = .finished

namespace LifeInv
variable {k k' : Kernel T S L C} {t u : T}

omit [DecidableEq T] [DecidableEq S] [DecidableEq L] [DecidableEq C] in
theorem notMem (h : LifeInv k) (hp : Placed k) (hu : k.cont u = .finished) (q : Queue S L C) :
    u ∉ k.queue q := by
  intro hq
  have hfit := hp.fits q u hq
  rw [hu, h.blocked u hu] at hfit
  cases q <;> simp [Fits] at hfit

omit [DecidableEq T] [DecidableEq S] [DecidableEq L] [DecidableEq C] in
theorem not_current (h : LifeInv k) (hp : Placed k) (hu : k.cont u = .finished) :
    k.currentThread ≠ some u := by
  intro hcur
  exact absurd ((h.blocked u hu).symm.trans (hp.current u hcur)) (by decide)

omit [DecidableEq T] [DecidableEq S] [DecidableEq L] [DecidableEq C] in
/-- A change by which nobody finishes, is forked or gets lost. -/
theorem frame (h : LifeInv k) (hfork : ∀ u, k'.status u ≠ .justCreated → k.status u ≠ .justCreated)
    (hcont : ∀ u, k'.cont u = .finished ↔ k.cont u = .finished)
    (hblocked : ∀ u, k.cont u = .finished → k'.status u = k.status u)
    (hhist : ∀ u, .finished u ∈ k'.history ↔ .finished u ∈ k.history)
    (hplace : ∀ u, Somewhere k u → Somewhere k' u) : LifeInv k' := by
  refine ⟨fun u hst hc => ?_, fun u hu => ?_, fun u => ?_⟩
  · exact hplace u (h.somewhere u (hfork u hst) fun hf => hc ((hcont u).mpr hf))
  · have hu := (hcont u).mp hu
    exact (hblocked u hu).trans (h.blocked u hu)
  · rw [hhist, hcont]
    exact h.finished u

theorem wake (h : LifeInv k) (hp : Placed k) {q : Queue S L C} (hq : q ≠ .ready) :
    LifeInv (k.wake q) := by
  have hstatus : ∀ u, u ∉ k.queue q → (k.wake q).status u = k.status u := by
    intro u hu
    refine wake_status_of_ne fun hhead => hu ?_
    exact List.mem_of_mem_head? hhead
  refine h.frame (fun u hst => ?_) (fun u => by rw [wake_cont]) (fun u hu => ?_) (fun u => ?_)
    fun u hu => hu.wake hq
  · by_cases hu : u ∈ k.queue q
    · exact (hp.fits q u hu).ne_justCreated
    · rwa [hstatus u hu] at hst
  · exact hstatus u (h.notMem hp hu q)
  · rcases wake_history k q with hh | ⟨w, hh⟩ <;> simp [hh]

theorem release (h : LifeInv k) (hp : Placed k) (t : T) (l : L) : LifeInv (k.release t l) := by
  have hrec : LifeInv (k.record (.released t l)) :=
    h.frame (fun _ hu => hu) (fun _ => Iff.rfl) (fun _ _ => rfl) (fun _ => by simp [Kernel.record])
      fun _ hu => hu
  have hprec : Placed (k.record (.released t l)) := hp.congr rfl rfl rfl rfl
  cases hheld : k.isHeldBy l t with
  | true =>
    rw [release_eq hheld]
    exact (hrec.wake hprec (q := .lock l) (by simp)).frame (fun _ hu => hu) (fun _ => Iff.rfl)
      (fun _ _ => rfl) (fun _ => Iff.rfl) fun _ hu => hu
  | false =>
    rw [release_eq_record hheld]
    exact hrec

omit [DecidableEq S] [DecidableEq L] [DecidableEq C] in
/-- The running thread, which has not finished, goes on at another point. -/
theorem cont_iff {c : Cont S L C} (ht : k.cont t ≠ .finished) (hc : c ≠ .finished) (u : T) :
    Function.update k.cont t c u = .finished ↔ k.cont u = .finished := by
  by_cases hut : u = t
  · simp [hut, ht, hc]
  · simp [hut]

omit [DecidableEq S] [DecidableEq L] [DecidableEq C] in
theorem setCont (h : LifeInv k) {c : Cont S L C} (ht : k.cont t ≠ .finished)
    (hc : c ≠ .finished) : LifeInv (k.setCont t c) :=
  h.frame (fun _ hu => hu) (cont_iff ht hc) (fun _ _ => rfl) (fun _ => Iff.rfl) fun _ hu => hu

theorem block (h : LifeInv k) (hp : Placed k) (hcur : k.currentThread = some t)
    (ht : k.cont t ≠ .finished) (q : Queue S L C) {c : Cont S L C} (hc : c ≠ .finished) :
    LifeInv (k.block t q c) := by
  refine h.frame (fun u hu => ?_) (cont_iff ht hc) (fun u hu => ?_) (fun _ => Iff.rfl)
    fun u hu => hu.enqueue hcur q
  · by_cases hut : u = t
    · rw [hut, hp.current t hcur]
      decide
    · simpa [Kernel.block, hut] using hu
  · have hut : u ≠ t := fun he => ht (he ▸ hu)
    simp [Kernel.block, hut]

theorem run (h : LifeInv k) (hp : Placed k) {ts : List T} (hcur : k.currentThread = none)
    (hq : k.queue .ready = t :: ts) : LifeInv (k.run t ts) := by
  have ht : t ∈ k.queue .ready := by simp [hq]
  obtain ⟨hist, d, hrun, hhist⟩ := run_eq k t ts
  refine h.frame (fun u hu => ?_) (fun u => by rw [run_cont]) (fun u hu => ?_) (fun u => ?_)
    fun u hu => hu.run hcur hq
  · by_cases hut : u = t
    · rw [hut]
      exact (hp.fits _ t ht).ne_justCreated
    · simpa [hut] using hu
  · have hut : u ≠ t := fun he => h.notMem hp hu .ready (he ▸ ht)
    simp [hut]
  · rw [hrun]
    rcases hhist with rfl | ⟨v, rfl⟩ <;> simp

theorem yieldReady (h : LifeInv k) (hp : Placed k) (hcur : k.currentThread = some t) :
    LifeInv (k.yieldReady t) := by
  refine h.frame (fun u hu => ?_) (fun _ => Iff.rfl) (fun u hu => ?_) (fun _ => Iff.rfl)
    fun u hu => hu.enqueue hcur .ready
  · by_cases hut : u = t
    · rw [hut, hp.current t hcur]
      decide
    · simpa [Kernel.yieldReady, Kernel.readyToRun, hut] using hu
  · have hut : u ≠ t := fun he => h.not_current hp hu (he ▸ hcur)
    simp [Kernel.yieldReady, Kernel.readyToRun, hut]

/-- `Fork` of a thread that was just created. -/
theorem fork (h : LifeInv k) (hu : k.status u = .justCreated) : LifeInv (k.fork u) := by
  have hfin : ∀ w, Function.update k.cont u .root w = .finished ↔ k.cont w = .finished := by
    refine cont_iff (fun hf => ?_) (by simp)
    exact absurd (hu.symm.trans (h.blocked u hf)) (by decide)
  refine ⟨fun w hst hc => ?_, fun w hw => ?_, fun w => ?_⟩
  · by_cases hwu : w = u
    · exact Or.inr ⟨.ready, by simp [Kernel.fork, Kernel.readyToRun, Kernel.setQueue, hwu]⟩
    · have hst : k.status w ≠ .justCreated := by
        simpa [Kernel.fork, Kernel.readyToRun, Kernel.setCont, hwu] using hst
      exact (h.somewhere w hst fun hf => hc ((hfin w).mpr hf)).setQueue_append .ready [u]
  · have hblocked := h.blocked w ((hfin w).mp hw)
    have hwu : w ≠ u := by
      rintro rfl
      exact absurd (hu.symm.trans hblocked) (by decide)
    simpa [Kernel.fork, Kernel.readyToRun, Kernel.setCont, hwu] using hblocked
  · exact (h.finished w).trans (hfin w).symm

omit [DecidableEq S] [DecidableEq L] [DecidableEq C] in
theorem finishBlock (h : LifeInv k) (hcur : k.currentThread = some t) :
    LifeInv (k.finishBlock t) := by
  refine ⟨fun w hst hc => ?_, fun w hw => ?_, fun w => ?_⟩
  · have hwt : w ≠ t := by
      rintro rfl
      exact hc (Function.update_self ..)
    have hst : k.status w ≠ .justCreated := by
      simpa [Kernel.finishBlock, hwt] using hst
    have hc : k.cont w ≠ .finished := by
      simpa [Kernel.finishBlock, Kernel.record, Kernel.setCont, hwt] using hc
    refine Or.inr ((h.somewhere w hst hc).resolve_left fun hw => ?_)
    exact hwt (Option.some.inj (hw.symm.trans hcur))
  · by_cases hwt : w = t
    · simp [Kernel.finishBlock, hwt]
    · have hw : k.cont w = .finished := by
        simpa [Kernel.finishBlock, Kernel.record, Kernel.setCont, hwt] using hw
      simpa [Kernel.finishBlock, hwt] using h.blocked w hw
  · by_cases hwt : w = t
    · simp [Kernel.finishBlock, Kernel.record, Kernel.setCont, hwt]
    · simpa [Kernel.finishBlock, Kernel.record, Kernel.setCont, hwt] using h.finished w

theorem move (h : LifeInv k) (hp : Placed k) (hm : Move k k') : LifeInv k' := by
  cases hm with
  | run hcur hq => exact h.run hp hcur hq
  | start hcur hcont => exact h.setCont (by simp [hcont]) (by simp)
  | waitReturn hcur hcont => exact h.setCont (by simp [hcont]) (by simp)
  | @down t s hcur hcont hv =>
    have ht : k.cont t ≠ .finished := fun hf => h.not_current hp hf hcur
    exact h.frame (fun _ hu => hu) (cont_iff ht (by simp)) (fun _ _ => rfl)
      (fun _ => by simp [Kernel.down, Kernel.record, Kernel.setCont]) fun _ hu => hu
  | blockP hcur hcont hv =>
    exact h.block hp hcur (fun hf => h.not_current hp hf hcur) _ (by simp)
  | @take t l c hcur hin hfree =>
    have ht : k.cont t ≠ .finished := fun hf => h.not_current hp hf hcur
    cases c with
    | none =>
      exact h.frame (fun _ hu => hu) (cont_iff ht (by simp)) (fun _ _ => rfl)
        (fun _ => by simp [Kernel.take, Kernel.record, Kernel.setCont]) fun _ hu => hu
    | some c =>
      exact h.frame (fun _ hu => hu) (cont_iff ht (by simp)) (fun _ _ => rfl)
        (fun _ => by simp [Kernel.take, Kernel.record, Kernel.setCont]) fun _ hu => hu
  | blockAcquire hcur hin hheld htaken =>
    exact h.block hp hcur (fun hf => h.not_current hp hf hcur) _ (by simp)
  | v s =>
    exact (h.wake hp (q := .semaphore s) (by simp)).frame (fun _ hu => hu) (fun _ => Iff.rfl)
      (fun _ _ => rfl) (fun _ => by simp [Kernel.v, Kernel.record]) fun _ hu => hu
  | @release t l hcur => exact h.release hp t l
  | @wait t c l hcur hcont hheld =>
    have hrec : LifeInv (k.record (.waits t c)) := h.frame (fun _ hu => hu) (fun _ => Iff.rfl)
      (fun _ _ => rfl) (fun _ => by simp [Kernel.record]) fun _ hu => hu
    have hprec : Placed (k.record (.waits t c)) := hp.congr rfl rfl rfl rfl
    have hblock := hrec.block hprec hcur (by simp [Kernel.record, hcont]) (.condition c)
      (c := .wait c l) (by simp)
    have hpblock := hprec.block (q := .condition c) hcur (c := .wait c l) ⟨⟨l, rfl⟩, rfl⟩
    refine LifeInv.release ?_ ?_ t l
    · exact hblock.frame (fun _ hu => hu) (fun _ => Iff.rfl) (fun _ _ => rfl) (fun _ => Iff.rfl)
        fun _ hu => hu
    · exact hpblock.congr rfl rfl rfl rfl
  | @wakeWaiter c hw =>
    refine LifeInv.wake ?_ ?_ (by simp)
    · exact h.frame (fun _ hu => hu) (fun _ => Iff.rfl) (fun _ _ => rfl) (fun _ => Iff.rfl)
        fun _ hu => hu
    · exact hp.congr rfl rfl rfl rfl
  | yield hcur => exact h.yieldReady hp hcur
  | fork hu => exact h.fork hu
  | finish hcur hcont => exact h.finishBlock hcur

end LifeInv

section places
variable {k k' : Kernel T S L C} {t u : T}

theorem wake_status_cases (k : Kernel T S L C) (q : Queue S L C) (u : T) :
    (k.wake q).status u = .ready ∨ (k.wake q).status u = k.status u := by
  unfold Kernel.wake
  split
  · exact Or.inr rfl
  · rename_i t ts h
    by_cases hut : u = t
    · exact Or.inl (by simp [Kernel.record, Kernel.readyToRun, hut])
    · exact Or.inr (by simp [Kernel.record, Kernel.readyToRun, Kernel.setQueue, hut])

theorem wake_forked (hu : k.status u ≠ .justCreated) (q : Queue S L C) :
    (k.wake q).status u ≠ .justCreated := by
  rcases wake_status_cases k q u with h | h
  · simp [h]
  · rwa [h]

omit [DecidableEq S] [DecidableEq L] [DecidableEq C] in
theorem update_forked (hu : k.status u ≠ .justCreated) {st : ThreadStatus}
    (hst : st ≠ .justCreated) : Function.update k.status t st u ≠ .justCreated := by
  by_cases hut : u = t
  · rwa [hut, Function.update_self]
  · rwa [Function.update_of_ne hut]

theorem release_forked (hu : k.status u ≠ .justCreated) (t : T) (l : L) :
    (k.release t l).status u ≠ .justCreated := by
  cases hheld : k.isHeldBy l t with
  | true =>
    rw [release_eq hheld]
    exact wake_forked (k := k.record (.released t l)) hu (.lock l)
  | false =>
    rw [release_eq_record hheld]
    exact hu

/-- No thread is ever just created again. -/
theorem Move.forked (hm : Move k k') (hu : k.status u ≠ .justCreated) :
    k'.status u ≠ .justCreated := by
  cases hm with
  | run hcur hq =>
    rw [run_status]
    exact update_forked hu (by decide)
  | start hcur hcont => exact hu
  | waitReturn hcur hcont => exact hu
  | down hcur hcont hv => exact hu
  | blockP hcur hcont hv => exact update_forked hu (by decide)
  | @take t l c hcur hin hfree => cases c <;> exact hu
  | blockAcquire hcur hin hheld htaken => exact update_forked hu (by decide)
  | v s => exact wake_forked hu _
  | release l hcur => exact release_forked hu _ l
  | @wait t c l hcur hcont hheld =>
    exact release_forked (update_forked (k := k) hu (by decide)) t l
  | @wakeWaiter c hw =>
    refine wake_forked ?_ (.condition c)
    exact hu
  | yield hcur => exact update_forked hu (by decide)
  | fork hu' => exact update_forked hu (by decide)
  | finish hcur hcont => exact update_forked hu (by decide)

theorem run_forked {as : List (Label T S L C)} (hrun : Run Step Free k as k')
    (hu : k.status u ≠ .justCreated ∨ .fork u ∈ as) : k'.status u ≠ .justCreated := by
  induction hrun with
  | nil k => exact hu.resolve_right List.not_mem_nil
  | @cons k₁ k₂ k₃ a as _ hstep hrest ih =>
    rcases hu with hu | hu
    · refine ih (Or.inl ?_)
      exact step_invariant (I := fun k => k.status u ≠ .justCreated) (fun h hm => hm.forked h) hu
        hstep
    · rcases List.mem_cons.mp hu with rfl | hu
      · refine ih (Or.inl ?_)
        rcases step_cases hstep with ⟨s, ha, -⟩ | ⟨ha, -, -⟩ | ⟨t, -, -, hcall⟩ |
          ⟨t, c, l, -, -, hcall⟩
        · cases ha
        · cases ha
        · simp only [Kernel.call] at hcall
          split_ifs at hcall
          obtain rfl := Option.some.inj hcall
          simp [Kernel.fork, Kernel.readyToRun]
        · cases hcall
      · exact ih (Or.inr hu)

/-- The one place of a thread, and the status it has there. -/
def AtOnePlace (k : Kernel T S L C) (u : T) : Prop :=
  (k.currentThread = some u ∧ k.status u = .running ∧ ∀ q, u ∉ k.queue q) ∨
  (k.currentThread ≠ some u ∧ ∃ q, (k.queue q).count u = 1 ∧ (∀ q', q' ≠ q → u ∉ k.queue q') ∧
    k.status u = if q = .ready then .ready else .blocked)

theorem Somewhere.atOnePlace (h : Somewhere k u) (hp : Placed k) : AtOnePlace k u := by
  rcases h with hcur | ⟨q, hu⟩
  · exact Or.inl ⟨hcur, hp.current u hcur, hp.current_notMem hcur⟩
  · refine Or.inr ⟨fun hcur => hp.current_notMem hcur q hu, q, ?_, ?_, ?_⟩
    · exact List.count_eq_one_of_mem (hp.nodup q) hu
    · intro q' hne hu'
      exact hne (hp.queue_eq hu' hu)
    · have hfit := hp.fits q u hu
      cases q with
      | ready => exact hfit
      | semaphore s => exact hfit.2
      | lock l => exact hfit.2
      | condition c => exact hfit.2

end places

omit [DecidableEq S] [DecidableEq L] [DecidableEq C] in
theorem initial_lifeInv (main : T) (value : S → ℤ) (currentTh : L → Option T) :
    LifeInv (initial main value currentTh : Kernel T S L C) := by
  have hcont : ∀ u, (initial main value currentTh : Kernel T S L C).cont u ≠ .finished := by
    intro u
    by_cases hu : u = main <;> simp [initial, hu]
  refine ⟨fun u hst _ => Or.inl ?_, fun u hu => absurd hu (hcont u), fun u => ?_⟩
  · by_cases hu : u = main
    · simp [initial, hu]
    · simp [initial, hu] at hst
  · exact ⟨fun hu => absurd hu List.not_mem_nil, fun hu => absurd hu (hcont u)⟩

/-- In every reachable state every thread that was forked, and the main thread, is
at exactly one place until it has finished. -/
theorem thread_at_one_place (main : T) (value : S → ℤ) (currentTh : L → Option T)
    (as : List (Label T S L C)) (k : Kernel T S L C)
    (hrun : Run Step Free (initial main value currentTh) as k) (u : T)
    (hforked : u = main ∨ .fork u ∈ as) (hunfinished : .finished u ∉ k.history) :
    AtOnePlace k u := by
  obtain ⟨hp, -, h⟩ := run_invariant hrun (initial_placed main value currentTh)
    (initial_settled main value currentTh) (initial_lifeInv main value currentTh)
    fun hp hk hm => hk.move hp hm
  have hst : k.status u ≠ .justCreated :=
    run_forked hrun (hforked.imp_left fun hu => by simp [initial, hu])
  exact (h.somewhere u hst fun hf => hunfinished ((h.finished u).mpr hf)).atOnePlace hp

/-- Thread 1 sleeps on a semaphore, thread 2 has finished, main runs again: 1 is
on the queue of the semaphore. -/
theorem thread_at_one_place_sleeper :
    ∃ k : Kernel ℕ Unit Unit Unit,
      Run Step Free (initial 0 (fun _ => 0) fun _ => none)
        [.fork 1, .fork 2, .yield, .p (), .finish] k ∧
      k.currentThread = some 0 ∧ k.queue (.semaphore ()) = [1] ∧ AtOnePlace k 1 := by
  obtain ⟨k, hrun, hk⟩ := exists_run_of_exec Kernel.step
    (initial 0 (fun _ => 0) fun _ => none : Kernel ℕ Unit Unit Unit)
    [.fork 1, .fork 2, .yield, .p (), .finish]
    (fun k => k.currentThread = some 0 ∧ k.queue (.semaphore ()) = [1] ∧
      .finished 1 ∉ k.history) (by decide)
  obtain ⟨hcur, hq, hfin⟩ := of_decide_eq_true hk
  exact ⟨k, hrun, hcur, hq, thread_at_one_place 0 _ _ _ k hrun 1 (Or.inr (by simp)) hfin⟩

section carcass
variable {k k' : Kernel T S L C} {t u : T}

/-- What a move can do to the finished threads: nothing, delete the one that
waits, or let the running thread finish. -/
def CarcassMove (k k' : Kernel T S L C) : Prop :=
  (k'.threadToBeDestroyed = k.threadToBeDestroyed ∧
    ∀ u, k'.history.count (.deleted u) = k.history.count (.deleted u)) ∨
  (∃ u, k.threadToBeDestroyed = some u ∧ k'.threadToBeDestroyed = none ∧
    k'.history = .deleted u :: k.history) ∨
  (∃ t, k.cont t = .user ∧ k' = k.finishBlock t)

theorem count_deleted_wake (k : Kernel T S L C) (q : Queue S L C) (u : T) :
    (k.wake q).history.count (.deleted u) = k.history.count (.deleted u) := by
  rcases wake_history k q with h | ⟨w, h⟩ <;> simp [h]

@[simp] theorem wake_threadToBeDestroyed (k : Kernel T S L C) (q : Queue S L C) :
    (k.wake q).threadToBeDestroyed = k.threadToBeDestroyed := by
  unfold Kernel.wake
  split <;> rfl

theorem carcass_release (k : Kernel T S L C) (t : T) (l : L) :
    (k.release t l).threadToBeDestroyed = k.threadToBeDestroyed ∧
      ∀ u, (k.release t l).history.count (.deleted u) = k.history.count (.deleted u) := by
  cases hheld : k.isHeldBy l t with
  | true => simp [release_eq hheld, count_deleted_wake, Kernel.record]
  | false => simp [release_eq_record hheld, Kernel.record]

theorem Move.carcass (hm : Move k k') : CarcassMove k k' := by
  cases hm with
  | @run t ts hcur hq =>
    unfold CarcassMove Kernel.run Kernel.destroy
    dsimp only
    split_ifs
    · exact Or.inl ⟨rfl, fun u => rfl⟩
    · split
      · exact Or.inl ⟨rfl, fun u => rfl⟩
      · rename_i u hu
        exact Or.inr (Or.inl ⟨u, hu, rfl, rfl⟩)
  | start hcur hcont => exact Or.inl ⟨rfl, fun u => rfl⟩
  | waitReturn hcur hcont => exact Or.inl ⟨rfl, fun u => rfl⟩
  | down hcur hcont hv => exact Or.inl ⟨rfl, fun u => by simp [Kernel.down, Kernel.record, Kernel.setCont]⟩
  | blockP hcur hcont hv => exact Or.inl ⟨rfl, fun u => rfl⟩
  | @take t l c hcur hin hfree =>
    cases c with
    | none => exact Or.inl ⟨rfl, fun u => by simp [Kernel.take, Kernel.record, Kernel.setCont]⟩
    | some c => exact Or.inl ⟨rfl, fun u => by simp [Kernel.take, Kernel.record, Kernel.setCont]⟩
  | blockAcquire hcur hin hheld htaken => exact Or.inl ⟨rfl, fun u => rfl⟩
  | v s =>
    refine Or.inl ⟨wake_threadToBeDestroyed k _, fun u => ?_⟩
    simp [Kernel.v, Kernel.record, count_deleted_wake]
  | @release t l hcur => exact Or.inl (carcass_release k t l)
  | @wait t c l hcur hcont hheld =>
    left
    unfold Kernel.waitBlock
    obtain ⟨hd, hcount⟩ := carcass_release { (k.record (.waits t c)).block t (.condition c) (.wait c l)
      with waitingThreads := Function.update k.waitingThreads c (k.waitingThreads c + 1) } t l
    refine ⟨hd, fun u => (hcount u).trans ?_⟩
    simp [Kernel.block, Kernel.setCont, Kernel.setQueue, Kernel.record]
  | @wakeWaiter c hw =>
    refine Or.inl ⟨?_, fun u => ?_⟩
    · simp [Kernel.wakeWaiter]
    · simp [Kernel.wakeWaiter, count_deleted_wake]
  | yield hcur => exact Or.inl ⟨rfl, fun u => rfl⟩
  | fork hu => exact Or.inl ⟨rfl, fun u => rfl⟩
  | finish hcur hcont => exact Or.inr (Or.inr ⟨_, hcont, rfl⟩)

/-- The finished threads that wait for deletion or were deleted. -/
structure CarcassInv (k : Kernel T S L C) : Prop where
  pending : ∀ u, k.threadToBeDestroyed = some u →
    k.cont u = .finished ∧ k.history.count (.deleted u) = 0
  deleted : ∀ u, k.history.count (.deleted u) ≠ 0 → k.cont u = .finished
  once : ∀ u, k.history.count (.deleted u) ≤ 1

/-- Finished threads stay finished. -/
theorem LifeInv.finished_move (h : LifeInv k) (hp : Placed k) (hm : Move k k')
    (hu : k.cont u = .finished) : k'.cont u = .finished := by
  have hrunning : ∀ {t} (c : Cont S L C), k.currentThread = some t →
      Function.update k.cont t c u = .finished := by
    intro t c hcur
    have hne : u ≠ t := fun he => h.not_current hp hu (he ▸ hcur)
    rwa [Function.update_of_ne hne]
  cases hm with
  | run hcur hq => rwa [run_cont]
  | start hcur hcont => exact hrunning _ hcur
  | waitReturn hcur hcont => exact hrunning _ hcur
  | down hcur hcont hv => exact hrunning _ hcur
  | blockP hcur hcont hv => exact hrunning _ hcur
  | take hcur hin hfree =>
    rw [take_cont]
    exact hrunning _ hcur
  | blockAcquire hcur hin hheld htaken => exact hrunning _ hcur
  | v s => exact (congrFun (wake_cont k _) u).trans hu
  | release l hcur => rwa [release_cont]
  | wait hcur hcont hheld =>
    rw [waitBlock_cont]
    exact hrunning _ hcur
  | wakeWaiter hw => exact (congrFun (wake_cont _ _) u).trans hu
  | yield hcur => exact hu
  | @fork w hw =>
    have hne : u ≠ w := by
      rintro rfl
      exact absurd (hw.symm.trans (h.blocked u hu)) (by decide)
    exact (Function.update_of_ne hne _ _).trans hu
  | finish hcur hcont => exact hrunning _ hcur

theorem CarcassInv.move (h : CarcassInv k) (hl : LifeInv k) (hp : Placed k) (hm : Move k k') :
    CarcassInv k' := by
  have hfin : ∀ u, k.cont u = .finished → k'.cont u = .finished :=
    fun u hu => hl.finished_move hp hm hu
  rcases hm.carcass with ⟨hd, hcount⟩ | ⟨v, hv, hd, hhist⟩ | ⟨t, hcont, rfl⟩
  · refine ⟨fun u hu => ?_, fun u hu => ?_, fun u => ?_⟩
    · rw [hd] at hu
      rw [hcount]
      exact ⟨hfin u (h.pending u hu).1, (h.pending u hu).2⟩
    · rw [hcount] at hu
      exact hfin u (h.deleted u hu)
    · rw [hcount]
      exact h.once u
  · refine ⟨fun u hu => absurd (hd.symm.trans hu) (by simp), fun u hu => ?_, fun u => ?_⟩
    · by_cases huv : u = v
      · exact hfin u (huv ▸ (h.pending v hv).1)
      · rw [hhist, List.count_cons_of_ne (by simpa using Ne.symm huv)] at hu
        exact hfin u (h.deleted u hu)
    · by_cases huv : u = v
      · rw [hhist, huv, List.count_cons_self, (h.pending v hv).2]
      · rw [hhist, List.count_cons_of_ne (by simpa using Ne.symm huv)]
        exact h.once u
  · have hcount : ∀ u, (k.finishBlock t).history.count (.deleted u) =
        k.history.count (.deleted u) := by
      intro u
      simp [Kernel.finishBlock, Kernel.record, Kernel.setCont]
    refine ⟨fun u hu => ?_, fun u hu => ?_, fun u => ?_⟩
    · obtain rfl : t = u := Option.some.inj hu
      refine ⟨Function.update_self .., ?_⟩
      rw [hcount]
      by_contra hne
      exact absurd (hcont.symm.trans (h.deleted t hne)) (by simp)
    · rw [hcount] at hu
      exact hfin u (h.deleted u hu)
    · rw [hcount]
      exact h.once u

/-- Every finished thread was deleted or is the one that waits. -/
def Reclaimed (k : Kernel T S L C) : Prop :=
  ∀ u, k.cont u = .finished → k.history.count (.deleted u) ≠ 0 ∨ k.threadToBeDestroyed = some u

theorem Reclaimed.move (h : Reclaimed k) (hm : Move k k')
    (hfin : ∀ u, k'.cont u = .finished → k.cont u = .finished) : Reclaimed k' := by
  intro u hu
  have hplace := h u (hfin u hu)
  rcases hm.carcass with ⟨hd, hcount⟩ | ⟨v, hv, hd, hhist⟩ | ⟨t, hcont, rfl⟩
  · rwa [hd, hcount]
  · left
    rw [hhist]
    rcases hplace with hdel | hpend
    · rw [List.count_cons]
      omega
    · obtain rfl : v = u := Option.some.inj (hv.symm.trans hpend)
      simp
  · exact absurd (hfin t (Function.update_self ..)) (by simp [hcont])

theorem Reclaimed.quietMoves (h : Reclaimed k) (hm : QuietMoves k k') : Reclaimed k' := by
  induction hm with
  | refl => exact h
  | tail _ hm ih => exact ih.move hm.move hm.finishes

theorem Reclaimed.waking (h : Reclaimed k)
    (hm : Relation.ReflTransGen (fun k k' => Move k k' ∧ k'.cont = k.cont) k k') :
    Reclaimed k' := by
  induction hm with
  | refl => exact h
  | tail _ hm ih => exact ih.move hm.1 fun u hu => by rwa [hm.2] at hu

/-- No thread finishes before all threads that finished earlier have been deleted. -/
def FinishesAlone (k : Kernel T S L C) (a : Label T S L C) : Prop :=
  a = .finish → ∀ u, .finished u ∈ k.history → .deleted u ∈ k.history

theorem Reclaimed.step (h : Reclaimed k) (hl : LifeInv k) {a : Label T S L C}
    (ha : FinishesAlone k a) (hstep : k.step a = some k') : Reclaimed k' := by
  rcases step_quiet_moves hstep with hm | ⟨t, hcur, hcont, hcall⟩
  · exact h.quietMoves hm
  rcases hcall with ⟨rfl, hm⟩ | ⟨c, l, rfl, hheld, hm⟩ | ⟨c, l, rfl, hheld, hw, rfl⟩ |
    ⟨c, l, rfl, hheld, rfl⟩
  · have hblock : Reclaimed (k.finishBlock t) := by
      intro u hu
      by_cases hut : u = t
      · exact Or.inr (by simp [Kernel.finishBlock, hut])
      · have hu : k.cont u = .finished := by
          simpa [Kernel.finishBlock, Kernel.record, Kernel.setCont, hut] using hu
        have hdel := ha rfl u ((hl.finished u).mpr hu)
        have hcount := (List.count_pos_iff.mpr hdel).ne'
        exact Or.inl (by simpa [Kernel.finishBlock, Kernel.record, Kernel.setCont] using hcount)
    exact hblock.quietMoves hm
  · refine (h.move (.wait hcur hcont hheld) fun u hu => ?_).quietMoves hm
    rw [waitBlock_cont] at hu
    by_cases hut : u = t
    · simp [hut] at hu
    · rwa [Function.update_of_ne hut] at hu
  · exact h.waking (.single ⟨.wakeWaiter hw, wake_cont _ _⟩)
  · exact h.waking broadcast_moves

end carcass

section reclaim
variable {main : T} {value : S → ℤ} {currentTh : L → Option T} {as : List (Label T S L C)}
  {k : Kernel T S L C}

theorem initial_carcassInv : CarcassInv (initial main value currentTh : Kernel T S L C) :=
  ⟨fun _ hu => absurd hu (by simp [initial]), fun _ hu => absurd rfl hu, fun _ => Nat.zero_le _⟩

theorem initial_reclaimed : Reclaimed (initial main value currentTh : Kernel T S L C) := by
  intro u hu
  by_cases hmain : u = main <;> simp [initial, hmain] at hu

theorem reclaimed_of_run (hrun : Run Step FinishesAlone (initial main value currentTh) as k) :
    Reclaimed k := by
  have hI := hrun.invariant (I := fun k => Placed k ∧ LifeInv k ∧ Reclaimed k)
    ⟨initial_placed main value currentTh, initial_lifeInv main value currentTh, initial_reclaimed⟩
    fun {k a k'} hk ha hstep => by
      have hboth := step_invariant (I := fun k => Placed k ∧ LifeInv k)
        (fun h hm => ⟨h.1.move hm, h.2.move h.1 hm⟩) ⟨hk.1, hk.2.1⟩ hstep
      exact ⟨hboth.1, hboth.2, hk.2.2.step hk.2.1 ha hstep⟩
  exact hI.2.2

end reclaim

end Nachos.KernelThreads
