import Nachos.ThreadViews

/-!
# Critical sections

A semaphore with the initial value 1 and a lock guard a section in the same way. The
threads in `crit` have called `P` or `Acquire` and not yet `V` or `Release`; one of them
is inside, the others sleep in the call or have been woken and have not tested again.
-/
namespace Nachos.KernelThreads
open GuardedRuns

inductive Mutex (S L : Type*) where
  | semaphore (s : S)
  | lock (l : L)
  deriving DecidableEq, Repr

variable {T S L C : Type*}

namespace Mutex

def enter : Mutex S L → Label T S L C
  | semaphore s => .p s
  | lock l => .acquire l

def leave : Mutex S L → Label T S L C
  | semaphore s => .v s
  | lock l => .release l

/-- The calls that change the value of a semaphore. -/
def Uses : Mutex S L → Label T S L C → Prop
  | semaphore s, .p r => r = s
  | semaphore s, .v r => r = s
  | semaphore s, .handlerV r => r = s
  | _, _ => False

end Mutex

/-- A thread in `P` belongs to `crit`, and at most one thread of `crit` is not in `P`. -/
structure Counted (s : S) (k : Kernel T S L C) (crit : T → Prop) : Prop where
  asks : ∀ t, k.cont t = .p s → crit t
  units : (k.value s = 1 ∧ ∀ t, crit t → k.cont t = .p s) ∨
    (k.value s = 0 ∧ ∃ t, ∀ u, crit u → k.cont u ≠ .p s → u = t)

variable [DecidableEq T] [DecidableEq L]

def Mutex.Guards : Mutex S L → Kernel T S L C → (T → Prop) → Prop
  | .semaphore s, k, crit => Counted s k crit
  | .lock l, k, crit => ∀ t, crit t → Locking l none (view k t)

variable [DecidableEq S] [DecidableEq C]

structure Excluded (m : Mutex S L) (k : Kernel T S L C) (crit : T → Prop) : Prop where
  sound : Sound k
  forked : ∀ t, crit t → k.status t ≠ .justCreated
  guards : m.Guards k crit

section
variable {m : Mutex S L} {s : S} {k k' : Kernel T S L C} {crit crit' : T → Prop} {t u : T}
  {a : Label T S L C}

omit [DecidableEq T] [DecidableEq S] [DecidableEq L] [DecidableEq C] in
theorem Counted.congr (h : Counted s k crit) (hvalue : k'.value s = k.value s)
    (hcont : ∀ u, k'.cont u = .p s ↔ k.cont u = .p s) : Counted s k' crit := by
  constructor
  · exact fun u hu => h.asks u ((hcont u).mp hu)
  · simp only [hvalue, ne_eq, hcont]
    exact h.units

/-- A thread that comes back from its sleep in `P` takes the unit. -/
theorem Counted.resume (h : Counted s k crit) (hr : Resume k k') : Counted s k' crit := by
  rcases hr.semaphore s with ⟨hvalue, hcont⟩ | ⟨w, hw, hpos, hvalue, hcont⟩
  · exact h.congr hvalue hcont
  have hother : ∀ u, u ≠ w → k'.cont u = k.cont u := by
    intro u hu
    rw [hcont, Function.update_of_ne hu]
  constructor
  · intro u hu
    by_cases huw : u = w
    · rw [huw]
      exact h.asks w hw
    · exact h.asks u (hother u huw ▸ hu)
  · rcases h.units with ⟨hone, hasleep⟩ | ⟨hzero, -⟩
    · refine .inr ⟨by rw [hvalue, hone]; rfl, w, fun u hu hne => ?_⟩
      by_contra huw
      exact hne ((hother u huw).trans (hasleep u hu))
    · exact absurd hzero hpos

theorem Counted.resumes (h : Counted s k crit) (hr : Resumes k k') : Counted s k' crit := by
  induction hr with
  | refl => exact h
  | tail _ hr ih => exact ih.resume hr

/-- `P` by a thread that is not in the section. -/
theorem Counted.enter (h : Counted s k crit) (hcur : k.currentThread = some t)
    (hcont : k.cont t = .user) (hself : crit' t) (hrest : ∀ u, u ≠ t → (crit' u ↔ crit u)) :
    Counted s (k.pLoop Kernel.sleep t s) crit' := by
  rcases pLoop_cases Kernel.sleep k t s with ⟨hv, heq⟩ | ⟨hv, heq⟩
  · rw [heq]
    refine Counted.resumes ?_ (sleep_resumes rfl)
    have hblock : (k.block t (.semaphore s) (.p s)).cont = Function.update k.cont t (.p s) := rfl
    constructor
    · intro u hu
      by_cases hut : u = t
      · exact hut ▸ hself
      · rw [hblock, Function.update_of_ne hut] at hu
        exact (hrest u hut).mpr (h.asks u hu)
    · rcases h.units with ⟨hone, -⟩ | ⟨hzero, w, hw⟩
      · exact absurd (hv.symm.trans hone) (by decide)
      · refine .inr ⟨hzero, w, fun u hu hne => ?_⟩
        have hut : u ≠ t := by
          rintro rfl
          exact hne (Function.update_self ..)
        rw [hblock, Function.update_of_ne hut] at hne
        exact hw u ((hrest u hut).mp hu) hne
  · rw [heq]
    have hdown : (k.down t s).cont = Function.update k.cont t .user := rfl
    constructor
    · intro u hu
      by_cases hut : u = t
      · exact hut ▸ hself
      · rw [hdown, Function.update_of_ne hut] at hu
        exact (hrest u hut).mpr (h.asks u hu)
    · rcases h.units with ⟨hone, hasleep⟩ | ⟨hzero, -⟩
      · refine .inr ⟨?_, t, fun u hu hne => ?_⟩
        · show Function.update k.value s (k.value s - 1) s = 0
          rw [Function.update_self, hone]
          rfl
        · by_contra hut
          rw [hdown, Function.update_of_ne hut] at hne
          exact hne (hasleep u ((hrest u hut).mp hu))
      · exact absurd hzero hv

/-- `V` by the thread that is inside. -/
theorem Counted.leave (h : Counted s k crit) (hcont : k.cont t = .user) (hin : crit t)
    (hself : ¬crit' t) (hrest : ∀ u, u ≠ t → (crit' u ↔ crit u)) : Counted s (k.v s) crit' := by
  have hv : (k.v s).cont = k.cont := by simp [Kernel.v, Kernel.record]
  constructor
  · intro u hu
    rw [hv] at hu
    have hut : u ≠ t := by
      rintro rfl
      exact absurd (hu.symm.trans hcont) (by simp)
    exact (hrest u hut).mpr (h.asks u hu)
  · rcases h.units with ⟨-, hasleep⟩ | ⟨hzero, w, hw⟩
    · exact absurd ((hasleep t hin).symm.trans hcont) (by simp)
    · refine .inl ⟨by simp [Kernel.v, Kernel.record, wake_value, hzero], fun u hu => ?_⟩
      rw [hv]
      by_contra hne
      have hut : u ≠ t := fun hut => hself (hut ▸ hu)
      have hwt : t = w := hw t hin (by simp [hcont])
      exact hut ((hw u ((hrest u hut).mp hu) hne).trans hwt.symm)

/-- Any other step. -/
theorem Counted.other (h : Counted s k crit) (hstep : k.step a = some k')
    (ha : ¬(Mutex.semaphore s : Mutex S L).Uses a) (hforked : ∀ t, crit t → k.status t ≠ .justCreated)
    (hcur : ∀ t, k.currentThread = some t → k.cont t ≠ .p s) : Counted s k' crit := by
  obtain ⟨k₁, hown, hrest⟩ := step_own hstep
  refine Counted.resumes (h.congr ?_ fun u => ?_) hrest
  · refine hown.value s ?_ ?_ ?_
    · rintro rfl
      exact ha rfl
    · rintro rfl
      exact ha rfl
    · rintro rfl
      exact ha rfl
  · constructor
    · refine hown.asks u s ?_
      rintro rfl
      exact ha rfl
    · intro hu
      have hview := hown.view u (fun hc => absurd hu (hcur u hc)) (hforked u (h.asks u hu))
      exact (congrArg View.cont hview).trans hu

namespace Excluded

omit [DecidableEq S] in
/-- Two threads are not in the section at the same time. -/
theorem single (h : Excluded m k crit) (ht : crit t) (hu : crit u) (htc : k.cont t = .user)
    (huc : k.cont u = .user) : t = u := by
  cases m with
  | semaphore s =>
    rcases h.guards.units with ⟨-, hasleep⟩ | ⟨-, w, hw⟩
    · exact absurd ((hasleep t ht).symm.trans htc) (by simp)
    · rw [hw t ht (by simp [htc]), hw u hu (by simp [huc])]
  | lock l =>
    have hin : ∀ {w}, crit w → k.cont w = .user → inside w l k.history = true := by
      intro w hw hwc
      rcases h.guards w hw with ⟨-, hin⟩ | hc
      · exact hin
      · exact absurd (hc.symm.trans hwc) (by simp)
    have htl := (h.sound.locks.owner t l (hin ht htc)).2
    have hul := (h.sound.locks.owner u l (hin hu huc)).2
    exact Option.some.inj (htl.symm.trans hul)

theorem enter (h : Excluded m k crit) (hcur : k.currentThread = some t) (hcont : k.cont t = .user)
    (hself : crit' t) (hrest : ∀ u, u ≠ t → (crit' u ↔ crit u)) (hstep : k.step m.enter = some k') :
    Excluded m k' crit' := by
  have hrunning := h.sound.current_forked hcur
  refine ⟨h.sound.step hstep, fun u hu => step_forked hstep ?_, ?_⟩
  · by_cases hut : u = t
    · rwa [hut]
    · exact h.forked u ((hrest u hut).mp hu)
  cases m with
  | semaphore s =>
    obtain rfl : k.pLoop Kernel.sleep t s = k' := by
      simpa [Mutex.enter, Kernel.step, hcur, hcont, Kernel.call] using hstep
    exact Counted.enter h.guards hcur hcont hself hrest
  | lock l =>
    intro u hu
    by_cases hut : u = t
    · obtain rfl : k.acquireLoop Kernel.sleep t l none = k' := by
        simpa [Mutex.enter, Kernel.step, hcur, hcont, Kernel.call] using hstep
      rw [hut]
      exact acquireLoop_locking hcur hrunning (.inl ⟨hcont, rfl⟩)
    · have hcu := (hrest u hut).mp hu
      refine step_view Locking.goes hstep (fun hc => ?_) (h.forked u hcu) (h.guards u hcu)
      exact absurd (Option.some.inj (hc.symm.trans hcur)) hut

theorem leave (h : Excluded m k crit) (hcur : k.currentThread = some t) (hcont : k.cont t = .user)
    (hin : crit t) (hself : ¬crit' t) (hrest : ∀ u, u ≠ t → (crit' u ↔ crit u))
    (hstep : k.step m.leave = some k') : Excluded m k' crit' := by
  have hne : ∀ {u}, crit' u → u ≠ t := by
    rintro u hu rfl
    exact hself hu
  refine ⟨h.sound.step hstep, fun u hu =>
    step_forked hstep (h.forked u ((hrest u (hne hu)).mp hu)), ?_⟩
  cases m with
  | semaphore s =>
    obtain rfl : k.v s = k' := by
      simpa [Mutex.leave, Kernel.step, hcur, hcont, Kernel.call] using hstep
    exact Counted.leave h.guards hcont hin hself hrest
  | lock l =>
    intro u hu
    have hcu := (hrest u (hne hu)).mp hu
    refine step_view Locking.goes hstep (fun hc => ?_) (h.forked u hcu) (h.guards u hcu)
    exact absurd (Option.some.inj (hc.symm.trans hcur)) (hne hu)

/-- Preemption, interrupts, and calls of a thread that is not in the section. -/
theorem other (h : Excluded m k crit) (ha : Passive a ∨ ∃ t, k.currentThread = some t ∧ ¬crit t)
    (huses : ¬m.Uses a) (hstep : k.step a = some k') : Excluded m k' crit := by
  refine ⟨h.sound.step hstep, fun u hu => step_forked hstep (h.forked u hu), ?_⟩
  cases m with
  | semaphore s =>
    refine Counted.other h.guards hstep huses h.forked fun t hcur hp => ?_
    have := h.sound.settled t hcur
    simp [hp, Cont.asleep] at this
  | lock l =>
    intro u hu
    refine step_view Locking.goes hstep (fun hc => ?_) (h.forked u hu) (h.guards u hu)
    rcases ha with ha | ⟨t, hcur, ht⟩
    · exact ha
    · exact absurd (Option.some.inj (hcur.symm.trans hc) ▸ hu) ht

end Excluded

omit [DecidableEq S] in
/-- The section of a new machine is empty. -/
theorem initial_excluded (m : Mutex S L) (main : T) (value : S → ℤ) (currentTh : L → Option T)
    (hvalue : ∀ s, m = .semaphore s → value s = 1) :
    Excluded m (initial main value currentTh : Kernel T S L C) fun _ => False := by
  refine ⟨initial_sound main value currentTh, fun _ h => h.elim, ?_⟩
  cases m with
  | semaphore s =>
    refine ⟨fun t ht => ?_, .inl ⟨hvalue s rfl, fun _ h => h.elim⟩⟩
    simp only [initial] at ht
    split_ifs at ht
  | lock l => exact fun _ h => h.elim

end
end Nachos.KernelThreads
