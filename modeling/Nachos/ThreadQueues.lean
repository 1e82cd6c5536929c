import Nachos.KernelThreads

/-!
# The place of a thread in the kernel

Which queue a thread is on can be read from the point at which it goes on and
from its status, and no queue holds a thread twice. Every move keeps this, so
a thread is never on two queues and the running thread is on none.
-/
namespace Nachos.KernelThreads
open GuardedRuns

/-- What the code and the status of a thread on the queue say. -/
def Fits {S L C : Type*} : Queue S L C → Cont S L C → ThreadStatus → Prop
  | .ready, _, st => st = .ready
  | .semaphore s, c, st => c = .p s ∧ st = .blocked
  | .lock l, c, st => (∃ d, c = .acquire l d) ∧ st = .blocked
  | .condition d, c, st => (∃ l, c = .wait d l) ∧ st = .blocked

theorem Fits.queue_eq {S L C : Type*} {q q' : Queue S L C} {c : Cont S L C} {st : ThreadStatus}
    (h : Fits q c st) (h' : Fits q' c st) : q = q' := by
  cases q <;> cases q' <;> simp only [Fits] at h h' <;> aesop

theorem Fits.ne_running {S L C : Type*} {q : Queue S L C} {c : Cont S L C} {st : ThreadStatus}
    (h : Fits q c st) : st ≠ .running := by
  cases q <;> simp_all [Fits]

theorem Fits.ne_justCreated {S L C : Type*} {q : Queue S L C} {c : Cont S L C}
    {st : ThreadStatus} (h : Fits q c st) : st ≠ .justCreated := by
  cases q <;> simp_all [Fits]

variable {T S L C : Type*}

structure Placed (k : Kernel T S L C) : Prop where
  nodup : ∀ q, (k.queue q).Nodup
  fits : ∀ q, ∀ t ∈ k.queue q, Fits q (k.cont t) (k.status t)
  current : ∀ t, k.currentThread = some t → k.status t = .running

namespace Placed
variable {k k' : Kernel T S L C} {t : T} {ts : List T} {q q' : Queue S L C}

theorem queue_eq (h : Placed k) (hq : t ∈ k.queue q) (hq' : t ∈ k.queue q') : q = q' :=
  (h.fits q t hq).queue_eq (h.fits q' t hq')

theorem current_notMem (h : Placed k) (hcur : k.currentThread = some t) (q : Queue S L C) :
    t ∉ k.queue q :=
  fun hq => (h.fits q t hq).ne_running (h.current t hcur)

theorem justCreated_notMem (h : Placed k) (hst : k.status t = .justCreated)
    (q : Queue S L C) : t ∉ k.queue q :=
  fun hq => (h.fits q t hq).ne_justCreated hst

theorem congr (h : Placed k) (hqueue : k'.queue = k.queue) (hcont : k'.cont = k.cont)
    (hstatus : k'.status = k.status) (hcur : k'.currentThread = k.currentThread) : Placed k' := by
  constructor
  · rw [hqueue]
    exact h.nodup
  · rw [hqueue, hcont, hstatus]
    exact h.fits
  · rw [hcur, hstatus]
    exact h.current

variable [DecidableEq T] [DecidableEq S] [DecidableEq L] [DecidableEq C]

omit [DecidableEq S] [DecidableEq L] [DecidableEq C] in
/-- A thread on no queue can go on anywhere and have any status. -/
theorem reset (h : Placed k) (hnot : ∀ q, t ∉ k.queue q) (c : Cont S L C) (st : ThreadStatus)
    (cur : Option T) (hcur : ∀ u, cur = some u → Function.update k.status t st u = .running) :
    Placed { k with
      cont := Function.update k.cont t c
      status := Function.update k.status t st
      currentThread := cur } := by
  refine ⟨h.nodup, fun q u hu => ?_, hcur⟩
  have hne : u ≠ t := by
    rintro rfl
    exact hnot q hu
  simpa only [Function.update_of_ne hne] using h.fits q u hu

omit [DecidableEq T] in
theorem enqueue (h : Placed k) (hnot : t ∉ k.queue q) (hfit : Fits q (k.cont t) (k.status t)) :
    Placed (k.setQueue q (k.queue q ++ [t])) := by
  refine ⟨fun q' => ?_, fun q' u hu => ?_, h.current⟩
  · by_cases hq : q' = q
    · subst hq
      simpa [Kernel.setQueue, List.nodup_append, h.nodup q'] using fun a ha => by
        rintro rfl
        exact hnot ha
    · simpa [Kernel.setQueue, Function.update_of_ne hq] using h.nodup q'
  · by_cases hq : q' = q
    · subst hq
      simp only [Kernel.setQueue, Function.update_self, List.mem_append, List.mem_singleton] at hu
      rcases hu with hu | rfl
      · exact h.fits q' u hu
      · exact hfit
    · exact h.fits q' u (by simpa [Kernel.setQueue, Function.update_of_ne hq] using hu)

omit [DecidableEq T] in
theorem dequeue (h : Placed k) (hq : k.queue q = t :: ts) :
    Placed (k.setQueue q ts) ∧ ∀ q', t ∉ (k.setQueue q ts).queue q' := by
  have hnodup := List.nodup_cons.mp (hq ▸ h.nodup q)
  refine ⟨⟨fun q' => ?_, fun q' u hu => ?_, h.current⟩, fun q' hmem => ?_⟩
  · by_cases hq' : q' = q
    · subst hq'
      simpa [Kernel.setQueue] using hnodup.2
    · simpa [Kernel.setQueue, Function.update_of_ne hq'] using h.nodup q'
  · by_cases hq' : q' = q
    · subst hq'
      refine h.fits q' u ?_
      rw [hq]
      exact List.mem_cons_of_mem t (by simpa [Kernel.setQueue] using hu)
    · exact h.fits q' u (by simpa [Kernel.setQueue, Function.update_of_ne hq'] using hu)
  · by_cases hq' : q' = q
    · subst hq'
      exact hnodup.1 (by simpa [Kernel.setQueue] using hmem)
    · refine hq' (h.queue_eq ?_ (hq ▸ List.mem_cons_self))
      simpa [Kernel.setQueue, Function.update_of_ne hq'] using hmem

/-- `ReadyToRun` of a thread on no queue. -/
theorem readyToRun (h : Placed k) (hnot : ∀ q, t ∉ k.queue q) (cur : Option T)
    (hcur : ∀ u, cur = some u → k.status u = .running ∧ u ≠ t) :
    Placed { k.readyToRun t with currentThread := cur } := by
  have hk := h.reset hnot (k.cont t) .ready cur fun u hu => by
    rw [Function.update_of_ne (hcur u hu).2]
    exact (hcur u hu).1
  have hk' := hk.enqueue (q := .ready) (hnot .ready) (by simp [Fits])
  exact hk'.congr rfl (Function.update_eq_self t k.cont).symm rfl rfl

theorem wake (h : Placed k) (q : Queue S L C) : Placed (k.wake q) := by
  unfold Kernel.wake
  split
  · exact h
  · rename_i t ts hq
    obtain ⟨hk, hnot⟩ := h.dequeue hq
    have hrun := hk.readyToRun hnot k.currentThread fun u hu =>
      ⟨h.current u hu, fun hut => h.current_notMem hu q (hut ▸ hq ▸ List.mem_cons_self)⟩
    exact hrun.congr rfl rfl rfl rfl

theorem block (h : Placed k) (hcur : k.currentThread = some t) {c : Cont S L C}
    (hfit : Fits q c .blocked) : Placed (k.block t q c) := by
  have hk := h.reset (h.current_notMem hcur) c .blocked none (by simp)
  exact (hk.enqueue (q := q) (h.current_notMem hcur q) (by simpa using hfit)).congr rfl rfl rfl rfl

omit [DecidableEq S] [DecidableEq L] [DecidableEq C] in
theorem setCont (h : Placed k) (hcur : k.currentThread = some t) (c : Cont S L C) :
    Placed (k.setCont t c) := by
  have hrun := h.current t hcur
  have hk := h.reset (h.current_notMem hcur) c .running k.currentThread fun u hu => by
    obtain rfl : u = t := Option.some.inj (hu.symm.trans hcur)
    exact Function.update_self ..
  refine hk.congr rfl rfl ?_ rfl
  rw [← hrun, Function.update_eq_self]
  rfl

theorem run (h : Placed k) (hq : k.queue .ready = t :: ts) : Placed (k.run t ts) := by
  obtain ⟨hk, hnot⟩ := h.dequeue hq
  have hrun := hk.reset hnot (k.cont t) .running (some t) fun u hu => by
    obtain rfl : t = u := Option.some.inj hu
    exact Function.update_self ..
  refine hrun.congr ?_ ?_ ?_ ?_
  · simp [Kernel.setQueue]
  · simp [Kernel.setQueue]
  · simp [Kernel.setQueue]
  · simp

theorem release (h : Placed k) (t : T) (l : L) : Placed (k.release t l) := by
  have hrec : Placed (k.record (.released t l)) := h.congr rfl rfl rfl rfl
  cases hheld : k.isHeldBy l t with
  | true =>
    rw [release_eq hheld]
    exact (hrec.wake (.lock l)).congr rfl rfl rfl rfl
  | false =>
    rw [release_eq_record hheld]
    exact hrec

theorem move (h : Placed k) (hm : Move k k') : Placed k' := by
  cases hm with
  | run hcur hq => exact h.run hq
  | start hcur hcont => exact h.setCont hcur _
  | waitReturn hcur hcont => exact h.setCont hcur _
  | down hcur hcont hv => exact (h.setCont hcur .user).congr rfl rfl rfl rfl
  | blockP hcur hcont hv => exact h.block hcur ⟨rfl, rfl⟩
  | @take t l c hcur hcont hfree =>
    have hk := h.setCont hcur .user
    cases c with
    | none => exact hk.congr rfl rfl rfl rfl
    | some c => exact hk.congr rfl rfl rfl rfl
  | blockAcquire hcur hcont hheld htaken => exact h.block hcur ⟨⟨_, rfl⟩, rfl⟩
  | v s => exact (h.wake (.semaphore s)).congr rfl rfl rfl rfl
  | @release t l hcur => exact h.release t l
  | @wait t c l hcur hcont hheld =>
    have hrec : Placed (k.record (.waits t c)) := h.congr rfl rfl rfl rfl
    have hblock := hrec.block (q := .condition c) (c := .wait c l) hcur ⟨⟨l, rfl⟩, rfl⟩
    refine Placed.release ?_ t l
    exact hblock.congr rfl rfl rfl rfl
  | @wakeWaiter c hw =>
    refine Placed.wake ?_ (.condition c)
    exact h.congr rfl rfl rfl rfl
  | yield hcur => exact h.readyToRun (h.current_notMem hcur) none (by simp)
  | @fork u hu =>
    have hnot := h.justCreated_notMem hu
    have hk := h.reset hnot .root (k.status u) k.currentThread fun w hw => by
      rw [Function.update_eq_self]
      exact h.current w hw
    have hk' := hk.readyToRun hnot k.currentThread fun w hw =>
      ⟨by simpa using h.current w hw, by
        rintro rfl
        exact absurd (hu.symm.trans (h.current w hw)) (by decide)⟩
    exact hk'.congr rfl rfl (by simp [Kernel.fork, Kernel.readyToRun, Kernel.setCont]) rfl
  | finish hcur hcont =>
    exact (h.reset (h.current_notMem hcur) .finished .blocked none (by simp)).congr rfl rfl rfl rfl

end Placed

/-- `w` runs or is ready, and goes on at `c`. -/
def Due (k : Kernel T S L C) (c : Cont S L C) (w : T) : Prop :=
  (w ∈ k.queue .ready ∨ k.currentThread = some w) ∧ k.cont w = c

section due
variable [DecidableEq T] [DecidableEq S] [DecidableEq L] [DecidableEq C]
variable {k : Kernel T S L C} {t u w : T} {c : Cont S L C}

theorem Due.wake (h : Due k c w) {q : Queue S L C} (hq : q ≠ .ready) : Due (k.wake q) c w := by
  refine ⟨?_, by rw [wake_cont]; exact h.2⟩
  rw [mem_ready_wake k q hq, wake_currentThread]
  exact h.1.imp_left Or.inl

/-- The thread that `wake` takes from a queue is due afterwards. -/
theorem due_of_wake {q : Queue S L C} (hq : q ≠ .ready) (hw : (k.queue q).head? = some w)
    (hc : k.cont w = c) : Due (k.wake q) c w :=
  ⟨Or.inl ((mem_ready_wake k q hq).mpr (Or.inr hw)), by rw [wake_cont]; exact hc⟩

omit [DecidableEq S] [DecidableEq L] [DecidableEq C] in
theorem Due.setCont (h : Due k c w) (hne : w ≠ t) (d : Cont S L C) : Due (k.setCont t d) c w :=
  ⟨h.1, by simpa [Kernel.setCont, hne] using h.2⟩

theorem Due.block (h : Due k c w) (hcur : k.currentThread = some t) (hne : w ≠ t)
    {q : Queue S L C} (hq : q ≠ .ready) (d : Cont S L C) : Due (k.block t q d) c w := by
  have hready : w ∈ k.queue .ready :=
    h.1.resolve_right fun hw => hne (Option.some.inj (hw.symm.trans hcur))
  refine ⟨Or.inl ?_, ?_⟩
  · simpa [Kernel.block, Kernel.setQueue, Kernel.setCont, hq.symm] using hready
  · simpa [Kernel.block, Kernel.setQueue, Kernel.setCont, hne] using h.2

omit [DecidableEq S] [DecidableEq L] [DecidableEq C] in
theorem Due.finishBlock (h : Due k c w) (hcur : k.currentThread = some t) (hne : w ≠ t) :
    Due (k.finishBlock t) c w := by
  have hready : w ∈ k.queue .ready :=
    h.1.resolve_right fun hw => hne (Option.some.inj (hw.symm.trans hcur))
  exact ⟨Or.inl hready, by simpa [Kernel.finishBlock, Kernel.setCont, Kernel.record, hne] using h.2⟩

theorem Due.run (h : Due k c w) {ts : List T} (hcur : k.currentThread = none)
    (hq : k.queue .ready = t :: ts) : Due (k.run t ts) c w := by
  refine ⟨?_, by rw [run_cont]; exact h.2⟩
  have hw : w ∈ k.queue .ready := h.1.resolve_right (by simp [hcur])
  rw [hq] at hw
  rcases List.mem_cons.mp hw with rfl | hw
  · exact Or.inr run_currentThread
  · exact Or.inl (by simpa using hw)

theorem Due.yieldReady (h : Due k c w) (hcur : k.currentThread = some t) :
    Due (k.yieldReady t) c w := by
  refine ⟨Or.inl ?_, h.2⟩
  rcases h.1 with hw | hw
  · simp [Kernel.yieldReady, Kernel.readyToRun, Kernel.setQueue, hw]
  · obtain rfl : t = w := Option.some.inj (hcur.symm.trans hw)
    simp [Kernel.yieldReady, Kernel.readyToRun, Kernel.setQueue]

theorem Due.fork (h : Due k c w) (hp : Placed k) (hu : k.status u = .justCreated) :
    Due (k.fork u) c w := by
  have hne : w ≠ u := by
    rintro rfl
    rcases h.1 with hw | hw
    · exact hp.justCreated_notMem hu _ hw
    · exact absurd (hu.symm.trans (hp.current w hw)) (by decide)
  refine ⟨h.1.imp_left fun hw => ?_, ?_⟩
  · simp [Kernel.fork, Kernel.readyToRun, Kernel.setQueue, Kernel.setCont, hw]
  · simpa [Kernel.fork, Kernel.readyToRun, Kernel.setQueue, Kernel.setCont, hne] using h.2

end due

section settled
variable [DecidableEq T] [DecidableEq S] [DecidableEq L] [DecidableEq C]
variable {k k' : Kernel T S L C} {t : T} {ts : List T}

/-- The thread stands inside `SWITCH`, or has not run yet. -/
def Cont.asleep : Cont S L C → Bool
  | .root => true
  | .p _ => true
  | .acquire _ _ => true
  | .wait _ _ => true
  | _ => false

/-- Between two steps the running thread is past its `SWITCH`. -/
def Settled (k : Kernel T S L C) : Prop :=
  ∀ t, k.currentThread = some t → (k.cont t).asleep = false

omit [DecidableEq S] [DecidableEq L] [DecidableEq C] in
theorem settled_setCont (hcur : k.currentThread = some t) {c : Cont S L C}
    (hc : c.asleep = false) : Settled (k.setCont t c) := by
  intro u hu
  obtain rfl : u = t := Option.some.inj (hu.symm.trans hcur)
  simpa [Kernel.setCont] using hc

omit [DecidableEq T] [DecidableEq S] [DecidableEq L] [DecidableEq C] in
theorem Settled.congr (h : Settled k) (hcur : k'.currentThread = k.currentThread)
    (hcont : k'.cont = k.cont) : Settled k' := by
  unfold Settled
  rw [hcur, hcont]
  exact h

theorem settled_pLoop {sleep : Kernel T S L C → Kernel T S L C} {s : S}
    (hsleep : ∀ k', Settled (sleep k')) (hcur : k.currentThread = some t) :
    Settled (k.pLoop sleep t s) := by
  unfold Kernel.pLoop
  split_ifs
  · exact hsleep _
  · exact (settled_setCont hcur rfl).congr rfl rfl

theorem settled_acquireLoop {sleep : Kernel T S L C → Kernel T S L C} {l : L} {c : Option C}
    (hsleep : ∀ k', Settled (sleep k')) (hcur : k.currentThread = some t) :
    Settled (k.acquireLoop sleep t l c) := by
  unfold Kernel.acquireLoop
  split_ifs
  · exact hsleep _
  · have htake : Settled (k.setCont t .user) := settled_setCont hcur rfl
    cases c with
    | none => exact htake.congr rfl rfl
    | some c => exact htake.congr rfl rfl

theorem settled_dispatch (ts : List T) (k : Kernel T S L C) : Settled (Kernel.dispatch ts k) := by
  induction ts generalizing k with
  | nil =>
    intro t ht
    simp [Kernel.dispatch] at ht
  | cons t ts ih =>
    rw [Kernel.dispatch]
    split
    · exact settled_setCont run_currentThread rfl
    · exact settled_pLoop ih run_currentThread
    · exact settled_acquireLoop ih run_currentThread
    · exact settled_setCont run_currentThread rfl
    · rename_i hroot hp hacq hwait
      intro u hu
      obtain rfl : t = u := Option.some.inj (run_currentThread.symm.trans hu)
      cases hc : (k.run t ts).cont t with
      | root => exact absurd hc hroot
      | p s => exact absurd hc (hp s)
      | acquire l c => exact absurd hc (hacq l c)
      | wait c l => exact absurd hc (hwait c l)
      | _ => rfl

theorem settled_sleep (k : Kernel T S L C) : Settled k.sleep := settled_dispatch _ k

theorem Settled.wake (h : Settled k) (q : Queue S L C) : Settled (k.wake q) :=
  h.congr (wake_currentThread k q) (wake_cont k q)

theorem Settled.broadcastLoop (h : Settled k) (c : C) (n : ℕ) :
    Settled (Kernel.broadcastLoop c n k) := by
  induction n generalizing k with
  | zero => exact h
  | succ n ih => exact ih (h.congr (by simp [Kernel.wakeWaiter]) (by simp [Kernel.wakeWaiter]))

theorem Settled.yield (h : Settled k) (t : T) : Settled (k.yield t) := by
  unfold Kernel.yield
  split_ifs
  · exact h
  · exact settled_sleep _

theorem Settled.release (h : Settled k) (t : T) (l : L) : Settled (k.release t l) := by
  cases hheld : k.isHeldBy l t with
  | true =>
    rw [release_eq hheld]
    exact h.congr (by simp [Kernel.record]) (by simp [Kernel.record])
  | false =>
    rw [release_eq_record hheld]
    exact h

theorem Settled.call (h : Settled k) (hp : Placed k) {a : Label T S L C} (hcur : k.currentThread = some t)
    (hk : k.call t a = some k') : Settled k' := by
  cases a with
  | p s =>
    obtain rfl := Option.some.inj hk
    exact settled_pLoop settled_sleep hcur
  | v s =>
    obtain rfl := Option.some.inj hk
    exact (h.wake (.semaphore s)).congr rfl rfl
  | acquire l =>
    obtain rfl := Option.some.inj hk
    exact settled_acquireLoop settled_sleep hcur
  | release l =>
    obtain rfl := Option.some.inj hk
    exact h.release t l
  | wait c l =>
    obtain rfl := Option.some.inj hk
    unfold Kernel.wait
    split_ifs
    · exact settled_sleep _
    · exact h
  | signal c l =>
    obtain rfl := Option.some.inj hk
    unfold Kernel.signal
    split_ifs
    · exact h.broadcastLoop c 1
    · exact h
    · exact h
  | broadcast c l =>
    obtain rfl := Option.some.inj hk
    unfold Kernel.broadcast
    split_ifs
    · exact h.broadcastLoop c _
    · exact h
  | yield =>
    obtain rfl := Option.some.inj hk
    exact h.yield t
  | fork u =>
    simp only [Kernel.call] at hk
    split_ifs at hk with hu
    obtain rfl := Option.some.inj hk
    intro w hw
    have hwu : w ≠ u := by
      rintro rfl
      exact absurd (hu.symm.trans (hp.current w hw)) (by decide)
    simpa [Kernel.fork, Kernel.readyToRun, Kernel.setQueue, Kernel.setCont, hwu] using h w hw
  | finish =>
    obtain rfl := Option.some.inj hk
    exact settled_sleep _
  | handlerV s => cases hk
  | idleReturn => cases hk

theorem Settled.callWoken (h : Settled k) {a : Label T S L C} {c : C} {l : L}
    (hcur : k.currentThread = some t) (hk : k.callWoken t c l a = some k') : Settled k' := by
  cases a with
  | acquire m =>
    simp only [Kernel.callWoken] at hk
    split_ifs at hk
    obtain rfl := Option.some.inj hk
    exact settled_acquireLoop settled_sleep hcur
  | yield =>
    obtain rfl := Option.some.inj hk
    exact h.yield t
  | _ => cases hk

theorem Settled.step (h : Settled k) (hp : Placed k) {a : Label T S L C}
    (hk : k.step a = some k') : Settled k' := by
  rcases step_cases hk with ⟨s, -, rfl⟩ | ⟨-, -, rfl⟩ | ⟨t, hcur, -, hk⟩ | ⟨t, c, l, hcur, -, hk⟩
  · exact (h.wake (.semaphore s)).congr rfl rfl
  · exact settled_sleep k
  · exact h.call hp hcur hk
  · exact h.callWoken hcur hk

end settled

section runs
variable [DecidableEq T] [DecidableEq S] [DecidableEq L] [DecidableEq C]

def Step (k : Kernel T S L C) (a : Label T S L C) (k' : Kernel T S L C) : Prop :=
  k.step a = some k'

omit [DecidableEq S] [DecidableEq L] [DecidableEq C] in
theorem initial_placed (main : T) (value : S → ℤ) (currentTh : L → Option T) :
    Placed (initial main value currentTh : Kernel T S L C) := by
  refine ⟨fun q => List.nodup_nil, fun q t ht => absurd ht List.not_mem_nil, fun t ht => ?_⟩
  obtain rfl : main = t := Option.some.inj ht
  simp [initial]

omit [DecidableEq S] [DecidableEq L] [DecidableEq C] in
theorem initial_settled (main : T) (value : S → ℤ) (currentTh : L → Option T) :
    Settled (initial main value currentTh : Kernel T S L C) := by
  intro t ht
  obtain rfl : main = t := Option.some.inj ht
  simp [initial, Cont.asleep]

/-- In a reachable state the queues are in order, the running thread is past
its `SWITCH`, and whatever the moves keep holds. -/
theorem run_invariant {I : Kernel T S L C → Prop} {k k' : Kernel T S L C}
    {as : List (Label T S L C)} (hrun : Run Step Free k as k') (hp : Placed k) (hs : Settled k)
    (hk : I k) (hI : ∀ {k k'}, Placed k → I k → Move k k' → I k') :
    Placed k' ∧ Settled k' ∧ I k' := by
  refine hrun.invariant (I := fun k => Placed k ∧ Settled k ∧ I k) ⟨hp, hs, hk⟩ ?_
  rintro k a k' ⟨hp, hs, hk⟩ - hstep
  have hboth : Placed k' ∧ I k' := step_invariant (I := fun k => Placed k ∧ I k)
    (fun h hm => ⟨h.1.move hm, hI h.1 h.2 hm⟩) ⟨hp, hk⟩ hstep
  exact ⟨hboth.1, hs.step hp hstep, hboth.2⟩

end runs
end Nachos.KernelThreads
