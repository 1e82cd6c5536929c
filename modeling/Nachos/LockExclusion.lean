import Nachos.ThreadQueues

/-!
# Mutual exclusion by `Lock`

`Release` never clears the owner field and a woken thread has to test the lock
again, so a newcomer may take it first. What links the flag, the owner, the
wait queue and the ready list is: a thread that is inside is the owner of a
taken lock, and a free lock with waiters has woken one of them, which has not
run since.
-/
namespace Nachos.KernelThreads
open GuardedRuns

variable {T S L C : Type*} [DecidableEq T] [DecidableEq L]

/-- `t` is between a returned `Acquire` of `l` and its next `Release`. -/
def inside (t : T) (l : L) : List (Event T S L C) → Bool
  | [] => false
  | .acquired u m :: h => if u = t ∧ m = l then true else inside t l h
  | .released u m :: h => if u = t ∧ m = l then false else inside t l h
  | _ :: h => inside t l h

def lastAcquirer (l : L) : List (Event T S L C) → Option T
  | [] => none
  | .acquired u m :: h => if m = l then some u else lastAcquirer l h
  | _ :: h => lastAcquirer l h

/-- `w` is on its way back to the test of `Acquire`: it has been taken from the
wait queue of `l` and has not run, or it is being dispatched. -/
def Woken (k : Kernel T S L C) (l : L) (w : T) : Prop :=
  (w ∈ k.queue .ready ∨ k.currentThread = some w) ∧ ∃ c, k.cont w = .acquire l c

structure LockInv (k : Kernel T S L C) : Prop where
  owner : ∀ t l, inside t l k.history = true → k.lockTaken l = true ∧ k.currentTh l = some t
  never : ∀ l, lastAcquirer l k.history = none → k.lockTaken l = false ∧ k.queue (.lock l) = []
  last : ∀ l t, lastAcquirer l k.history = some t → k.currentTh l = some t
  woken : ∀ l, k.lockTaken l = false → k.queue (.lock l) ≠ [] → ∃ w, Woken k l w

namespace LockInv
variable {k k' : Kernel T S L C} {t : T}

/-- A change that leaves the locks alone and loses no woken thread. -/
theorem frame (h : LockInv k)
    (hin : ∀ t l, inside t l k'.history = true →
      inside t l k.history = true)
    (hlast : ∀ l, lastAcquirer l k'.history = lastAcquirer l k.history)
    (htaken : k'.lockTaken = k.lockTaken) (hth : k'.currentTh = k.currentTh)
    (hq : ∀ l, k'.queue (.lock l) = k.queue (.lock l))
    (hw : ∀ l w, Woken k l w → Woken k' l w) : LockInv k' := by
  constructor
  · intro t l hi
    rw [htaken, hth]
    exact h.owner t l (hin t l hi)
  · intro l
    rw [hlast, htaken, hq]
    exact h.never l
  · intro l t
    rw [hlast, hth]
    exact h.last l t
  · intro l
    rw [htaken, hq]
    intro hfree hne
    obtain ⟨w, hk⟩ := h.woken l hfree hne
    exact ⟨w, hw l w hk⟩

end LockInv

section moves
variable [DecidableEq S] [DecidableEq C] {k k' : Kernel T S L C} {t w : T} {l m : L}

@[simp] theorem inside_wake (k : Kernel T S L C) (q : Queue S L C) :
    inside t l (k.wake q).history = inside t l k.history := by
  rcases wake_history k q with h | ⟨u, h⟩ <;> simp [h, inside]

@[simp] theorem lastAcquirer_wake (k : Kernel T S L C) (q : Queue S L C) :
    lastAcquirer l (k.wake q).history = lastAcquirer l k.history := by
  rcases wake_history k q with h | ⟨u, h⟩ <;> simp [h, lastAcquirer]

omit [DecidableEq T] [DecidableEq S] [DecidableEq L] [DecidableEq C] in
theorem woken_iff_due : Woken k l w ↔ ∃ c, Due k (.acquire l c) w := exists_and_left.symm

theorem Woken.wake (h : Woken k l w) {q : Queue S L C} (hq : q ≠ .ready) :
    Woken (k.wake q) l w := by
  obtain ⟨c, hdue⟩ := woken_iff_due.mp h
  exact woken_iff_due.mpr ⟨c, hdue.wake hq⟩

omit [DecidableEq T] [DecidableEq S] [DecidableEq L] [DecidableEq C] in
theorem ne_of_acquire {c : Option C} (h : Due k (.acquire l c) w)
    (hcont : ∀ c, k.cont t ≠ .acquire l c) : w ≠ t := by
  rintro rfl
  exact hcont c h.2

/-- A thread that leaves the processor to sleep elsewhere was not on its way
to the test. -/
theorem Woken.block (h : Woken k l w) (hcur : k.currentThread = some t)
    (hcont : ∀ c, k.cont t ≠ .acquire l c) {q : Queue S L C} (hq : q ≠ .ready)
    (c : Cont S L C) : Woken (k.block t q c) l w := by
  obtain ⟨d, hdue⟩ := woken_iff_due.mp h
  exact woken_iff_due.mpr ⟨d, hdue.block hcur (ne_of_acquire hdue hcont) hq c⟩

omit [DecidableEq S] [DecidableEq L] [DecidableEq C] in
theorem Woken.setCont (h : Woken k l w) (hcont : ∀ c, k.cont t ≠ .acquire l c)
    (c : Cont S L C) : Woken (k.setCont t c) l w := by
  obtain ⟨d, hdue⟩ := woken_iff_due.mp h
  exact woken_iff_due.mpr ⟨d, hdue.setCont (ne_of_acquire hdue hcont) c⟩

theorem LockInv.wake (h : LockInv k) {q : Queue S L C} (hready : q ≠ .ready)
    (hlock : ∀ l, q ≠ .lock l) : LockInv (k.wake q) :=
  h.frame (fun t l => by simp) (fun l => by simp) (by simp) (by simp)
    (fun l => wake_queue_of_ne k q (hlock l).symm (by simp)) fun l w hw => hw.wake hready

theorem LockInv.release (h : LockInv k) (hp : Placed k) (t : T) (l : L) :
    LockInv (k.release t l) := by
  cases hheld : k.isHeldBy l t with
  | false =>
    rw [release_eq_record hheld]
    refine h.frame (fun u m hi => ?_) (fun m => rfl) rfl rfl (fun m => rfl) fun m w hw => hw
    simp only [Kernel.record, inside] at hi
    split_ifs at hi
    exact hi
  | true =>
    have howner : k.currentTh l = some t := by simpa [Kernel.isHeldBy] using hheld
    rw [release_eq hheld]
    constructor
    · intro u m hi
      simp only [inside_wake, Kernel.record, inside] at hi
      split_ifs at hi with heq
      obtain ⟨htaken, hth⟩ := h.owner u m hi
      have hm : m ≠ l := by
        rintro rfl
        exact heq ⟨Option.some.inj (howner.symm.trans hth), rfl⟩
      simp [Function.update_of_ne hm, Kernel.record, htaken, hth]
    · intro m hm
      simp only [lastAcquirer_wake, Kernel.record, lastAcquirer] at hm
      obtain ⟨htaken, hq⟩ := h.never m hm
      by_cases hml : m = l
      · subst hml
        refine ⟨Function.update_self .., ?_⟩
        rw [wake_queue _ _ (by simp)]
        simp [Kernel.record, hq]
      · refine ⟨by simp [Function.update_of_ne hml, htaken], ?_⟩
        rw [wake_queue_of_ne _ _ (by simpa using hml) (by simp)]
        exact hq
    · intro m u hu
      simp only [lastAcquirer_wake, Kernel.record, lastAcquirer] at hu
      simpa [Kernel.record] using h.last m u hu
    · intro m hfree hne
      by_cases hml : m = l
      · subst hml
        rw [wake_queue _ _ (by simp)] at hne
        cases hq : k.queue (.lock m) with
        | nil => simp [Kernel.record, hq] at hne
        | cons w ts =>
          have hw : w ∈ k.queue (.lock m) := by simp [hq]
          refine ⟨w, Or.inl ?_, by simpa [Kernel.record] using (hp.fits _ w hw).1⟩
          rw [mem_ready_wake _ _ (by simp)]
          exact Or.inr (by simp [Kernel.record, hq])
      · rw [wake_queue_of_ne _ _ (by simpa using hml) (by simp)] at hne
        obtain ⟨w, hw⟩ := h.woken m (by simpa [Function.update_of_ne hml] using hfree) hne
        have hw' : Woken (k.record (.released t l)) m w := hw
        exact ⟨w, hw'.wake (by simp)⟩

omit [DecidableEq T] [DecidableEq S] [DecidableEq L] [DecidableEq C] in
theorem InAcquire.cont_ne {c : Option C} (h : InAcquire k t l c) (hm : m ≠ l) (d : Option C) :
    k.cont t ≠ .acquire m d := by
  rcases h with ⟨h, -⟩ | ⟨e, h, -⟩ | h <;> simp [h, hm.symm]

omit [DecidableEq S] [DecidableEq C] in
theorem LockInv.take (h : LockInv k) {c : Option C} (hin : InAcquire k t l c)
    (hfree : k.isHeldBy l t = true ∨ k.lockTaken l = false) : LockInv (k.take t l c) := by
  have hcore : LockInv (k.take t l none) := by
    constructor
    · intro u m hi
      simp only [Kernel.take, Kernel.record, inside] at hi
      split_ifs at hi with heq
      · obtain ⟨rfl, rfl⟩ := heq
        simp [Kernel.take, Kernel.record, Kernel.setCont]
      · obtain ⟨htaken, hth⟩ := h.owner u m hi
        have hm : m ≠ l := by
          rintro rfl
          rcases hfree with hheld | hfree
          · have howner : k.currentTh m = some t := by simpa [Kernel.isHeldBy] using hheld
            exact heq ⟨Option.some.inj (howner.symm.trans hth), rfl⟩
          · exact absurd (htaken.symm.trans hfree) (by decide)
        simp [Kernel.take, Kernel.record, Kernel.setCont, hm, htaken, hth]
    · intro m hlast
      simp only [Kernel.take, Kernel.record, lastAcquirer] at hlast
      split_ifs at hlast with hm
      obtain ⟨htaken, hq⟩ := h.never m hlast
      exact ⟨by simp [Kernel.take, Kernel.record, Kernel.setCont, Ne.symm hm, htaken], hq⟩
    · intro m u hlast
      simp only [Kernel.take, Kernel.record, lastAcquirer] at hlast
      split_ifs at hlast with hm
      · obtain rfl := Option.some.inj hlast
        simp [Kernel.take, Kernel.record, Kernel.setCont, hm]
      · simpa [Kernel.take, Kernel.record, Kernel.setCont, Ne.symm hm] using h.last m u hlast
    · intro m htaken hne
      have hm : m ≠ l := by
        rintro rfl
        simp [Kernel.take, Kernel.record, Kernel.setCont] at htaken
      obtain ⟨w, hw⟩ := h.woken m (by
        simpa [Kernel.take, Kernel.record, Kernel.setCont, hm] using htaken) hne
      have hw' : Woken (k.setCont t .user) m w := hw.setCont (hin.cont_ne hm) .user
      exact ⟨w, hw'⟩
  cases c with
  | none => exact hcore
  | some c =>
    exact hcore.frame (fun u m hi => hi) (fun m => rfl) rfl rfl (fun m => rfl) fun m w hw => hw

theorem LockInv.blockAcquire (h : LockInv k) {c : Option C} (hcur : k.currentThread = some t)
    (hin : InAcquire k t l c) (htaken : k.lockTaken l = true) :
    LockInv (k.block t (.lock l) (.acquire l c)) := by
  have hqueue : ∀ m, m ≠ l →
      (k.block t (.lock l) (.acquire l c)).queue (.lock m) = k.queue (.lock m) := by
    intro m hm
    simp [Kernel.block, Kernel.setCont, Kernel.setQueue, hm]
  refine ⟨h.owner, fun m hlast => ?_, h.last, fun m hfree hne => ?_⟩
  · have hm : m ≠ l := by
      rintro rfl
      exact absurd (htaken.symm.trans (h.never m hlast).1) (by decide)
    rw [hqueue m hm]
    exact h.never m hlast
  · have hm : m ≠ l := by
      rintro rfl
      exact absurd (htaken.symm.trans hfree) (by decide)
    rw [hqueue m hm] at hne
    obtain ⟨w, hw⟩ := h.woken m hfree hne
    exact ⟨w, hw.block hcur (hin.cont_ne hm) (by simp) _⟩

theorem LockInv.run (h : LockInv k) {ts : List T} (hcur : k.currentThread = none)
    (hq : k.queue .ready = t :: ts) : LockInv (k.run t ts) := by
  obtain ⟨hist, d, hrun, hhist⟩ := run_eq k t ts
  rw [hrun]
  refine h.frame (fun u m hi => ?_) (fun m => ?_) rfl rfl (fun m => ?_) ?_
  · rcases hhist with rfl | ⟨v, rfl⟩
    · exact hi
    · exact hi
  · rcases hhist with rfl | ⟨v, rfl⟩ <;> rfl
  · simp
  · rintro m w ⟨hplace, hcont⟩
    have hw : w ∈ k.queue .ready := hplace.resolve_right (by simp [hcur])
    rw [hq] at hw
    rcases List.mem_cons.mp hw with rfl | hw
    · exact ⟨Or.inr rfl, hcont⟩
    · exact ⟨Or.inl (by simpa using hw), hcont⟩

theorem LockInv.blockElsewhere (h : LockInv k) (hcur : k.currentThread = some t)
    (hcont : ∀ m c, k.cont t ≠ .acquire m c) {q : Queue S L C} (hready : q ≠ .ready)
    (hlock : ∀ m, q ≠ .lock m) (c : Cont S L C) : LockInv (k.block t q c) :=
  h.frame (fun u m hi => hi) (fun m => rfl) rfl rfl
    (fun m => by simp [Kernel.block, Kernel.setCont, Kernel.setQueue, (hlock m).symm])
    fun m w hw => hw.block hcur (hcont m) hready c

theorem LockInv.move (h : LockInv k) (hp : Placed k) (hm : Move k k') : LockInv k' := by
  cases hm with
  | run hcur hq => exact h.run hcur hq
  | start hcur hcont =>
    exact h.frame (fun u m hi => hi) (fun m => rfl) rfl rfl (fun m => rfl)
      fun m w hw => hw.setCont (by simp [hcont]) _
  | waitReturn hcur hcont =>
    exact h.frame (fun u m hi => hi) (fun m => rfl) rfl rfl (fun m => rfl)
      fun m w hw => hw.setCont (by simp [hcont]) _
  | @down t s hcur hcont hv =>
    refine h.frame (fun u m hi => hi) (fun m => rfl) rfl rfl (fun m => rfl) fun m w hw => ?_
    have hw' : Woken (k.setCont t .user) m w :=
      hw.setCont (by rcases hcont with hcont | hcont <;> simp [hcont]) _
    exact hw'
  | blockP hcur hcont hv =>
    exact h.blockElsewhere hcur (by rcases hcont with hcont | hcont <;> simp [hcont])
      (by simp) (by simp) _
  | take hcur hin hfree => exact h.take hin hfree
  | blockAcquire hcur hin hheld htaken => exact h.blockAcquire hcur hin htaken
  | v s =>
    have hk := h.wake (q := .semaphore s) (by simp) (by simp)
    exact hk.frame (fun u m hi => hi) (fun m => rfl) rfl rfl (fun m => rfl) fun m w hw => hw
  | @release t l hcur => exact h.release hp t l
  | @wait t c l hcur hcont hheld =>
    have hrec : LockInv (k.record (.waits t c)) :=
      h.frame (fun u m hi => hi) (fun m => rfl) rfl rfl (fun m => rfl) fun m w hw => hw
    have hblock := hrec.blockElsewhere (q := .condition c) hcur (by simp [Kernel.record, hcont])
      (by simp) (by simp) (.wait c l)
    have hprec : Placed (k.record (.waits t c)) := hp.congr rfl rfl rfl rfl
    have hpblock := hprec.block
      (q := .condition c) hcur (c := .wait c l) ⟨⟨l, rfl⟩, rfl⟩
    refine LockInv.release ?_ ?_ t l
    · exact hblock.frame (fun u m hi => hi) (fun m => rfl) rfl rfl (fun m => rfl) fun m w hw => hw
    · exact hpblock.congr rfl rfl rfl rfl
  | @wakeWaiter c hw =>
    refine LockInv.wake ?_ (by simp) (by simp)
    exact h.frame (fun u m hi => hi) (fun m => rfl) rfl rfl (fun m => rfl) fun m w hw => hw
  | @yield t hcur =>
    refine h.frame (fun u m hi => hi) (fun m => rfl) rfl rfl (fun m => ?_) ?_
    · simp [Kernel.yieldReady, Kernel.readyToRun, Kernel.setQueue]
    · rintro m w ⟨hplace, hcont⟩
      refine ⟨Or.inl ?_, hcont⟩
      rcases hplace with hw | hw
      · simp [Kernel.yieldReady, Kernel.readyToRun, Kernel.setQueue, hw]
      · obtain rfl : t = w := Option.some.inj (hcur.symm.trans hw)
        simp [Kernel.yieldReady, Kernel.readyToRun, Kernel.setQueue]
  | @fork u hu =>
    refine h.frame (fun u m hi => hi) (fun m => rfl) rfl rfl (fun m => ?_) ?_
    · simp [Kernel.fork, Kernel.readyToRun, Kernel.setQueue, Kernel.setCont]
    · rintro m w ⟨hplace, c, hc⟩
      have hne : w ≠ u := by
        rintro rfl
        rcases hplace with hw | hw
        · exact hp.justCreated_notMem hu _ hw
        · exact absurd (hu.symm.trans (hp.current w hw)) (by decide)
      refine ⟨hplace.imp_left fun hw => ?_, c, ?_⟩
      · simp [Kernel.fork, Kernel.readyToRun, Kernel.setQueue, Kernel.setCont, hw]
      · simpa [Kernel.fork, Kernel.readyToRun, Kernel.setQueue, Kernel.setCont, hne] using hc
  | @finish t hcur hcont =>
    refine h.frame (fun u m hi => hi) (fun m => rfl) rfl rfl (fun m => rfl) ?_
    rintro m w ⟨hplace, c, hc⟩
    have hne : w ≠ t := by
      rintro rfl
      simp [hcont] at hc
    have hready : w ∈ k.queue .ready := hplace.resolve_right fun hw =>
      hne (Option.some.inj (hw.symm.trans hcur))
    refine ⟨Or.inl hready, c, ?_⟩
    simpa [Kernel.finishBlock, Kernel.setCont, Kernel.record, hne] using hc

omit [DecidableEq S] [DecidableEq C] in
theorem initial_lockInv (main : T) (value : S → ℤ) (currentTh : L → Option T) :
    LockInv (initial main value currentTh : Kernel T S L C) :=
  ⟨fun _ _ hi => absurd hi (by simp [initial, inside]), fun _ _ => ⟨rfl, rfl⟩,
    fun _ _ hl => absurd hl (by simp [initial, lastAcquirer]), fun _ _ hne => absurd rfl hne⟩

/-- A release by a thread that was not the last to acquire the lock. The owner
field may name that thread when nobody ever acquired the lock; then the wait
queue is empty and the lock free already. -/
theorem LockInv.release_other (h : LockInv k) (hlast : lastAcquirer l k.history ≠ some t) :
    k.release t l = k.record (.released t l) := by
  cases hheld : k.isHeldBy l t with
  | false => exact release_eq_record hheld
  | true =>
    have howner : k.currentTh l = some t := by simpa [Kernel.isHeldBy] using hheld
    cases hl : lastAcquirer l k.history with
    | some u => exact absurd (hl.trans ((h.last l u hl).symm.trans howner)) hlast
    | none =>
      obtain ⟨htaken, hq⟩ := h.never l hl
      have hwake : (k.record (.released t l)).wake (.lock l) = k.record (.released t l) := by
        simp [Kernel.wake, Kernel.record, hq]
      rw [release_eq hheld, hwake, ← htaken, Function.update_eq_self]
      rfl

theorem LockInv.acquire_inside (h : LockInv k) (hin : inside t l k.history = true)
    (c : Option C) : k.acquireLoop Kernel.sleep t l c = k.take t l c := by
  simp [Kernel.acquireLoop, Kernel.isHeldBy, (h.owner t l hin).2]

/-- In every reachable state: two threads are never inside one lock, a thread
inside does not wait for it, a release by anyone but the last acquirer leaves
the kernel as it is, and a free lock with waiters has a thread that left its
queue and will test it again. -/
theorem lock_exclusion (main : T) (value : S → ℤ) (currentTh : L → Option T)
    (as : List (Label T S L C)) (k : Kernel T S L C)
    (hrun : Run Step Free (initial main value currentTh) as k) :
    (∀ l t u, inside t l k.history = true → inside u l k.history = true → t = u) ∧
    (∀ l t, inside t l k.history = true →
      k.acquireLoop Kernel.sleep t l none = k.take t l none) ∧
    (∀ l t, lastAcquirer l k.history ≠ some t → k.release t l = k.record (.released t l)) ∧
    (∀ l, k.lockTaken l = false → k.queue (.lock l) ≠ [] →
      ∃ w, w ∈ k.queue .ready ∧ w ∉ k.queue (.lock l) ∧ ∃ c, k.cont w = .acquire l c) := by
  obtain ⟨hp, hs, h⟩ := run_invariant hrun (initial_placed main value currentTh)
    (initial_settled main value currentTh) (initial_lockInv main value currentTh)
    fun hp hk hm => hk.move hp hm
  refine ⟨fun l t u ht hu => ?_, fun l t hin => h.acquire_inside hin none,
    fun l t hlast => h.release_other hlast, fun l hfree hne => ?_⟩
  · exact Option.some.inj ((h.owner t l ht).2.symm.trans (h.owner u l hu).2)
  · obtain ⟨w, hplace, c, hc⟩ := h.woken l hfree hne
    have hready : w ∈ k.queue .ready := hplace.resolve_right fun hcur => by
      simpa [hc, Cont.asleep] using hs w hcur
    exact ⟨w, hready, fun hq => by simpa using hp.queue_eq hready hq, c, hc⟩

end moves

/-- Threads 1 and 2 queue up behind thread 0, which then releases the lock:
the lock is free, 2 still waits and 1 is on its way to the test. -/
theorem lock_exclusion_two_waiters :
    ∃ k : Kernel ℕ Unit Unit Unit,
      Run Step Free (initial 0 (fun _ => 0) fun _ => some 2)
        [.fork 1, .fork 2, .acquire (), .yield, .acquire (), .acquire (), .release ()] k ∧
      k.lockTaken () = false ∧ k.queue (.lock ()) = [2] ∧
      ∃ w, w ∈ k.queue .ready ∧ w ∉ k.queue (.lock ()) ∧ ∃ c, k.cont w = .acquire () c := by
  obtain ⟨k, hrun, hk⟩ := exists_run_of_exec Kernel.step
    (initial 0 (fun _ => 0) fun _ => some 2 : Kernel ℕ Unit Unit Unit)
    [.fork 1, .fork 2, .acquire (), .yield, .acquire (), .acquire (), .release ()]
    (fun k => k.lockTaken () = false ∧ k.queue (.lock ()) = [2]) (by decide)
  obtain ⟨hfree, hq⟩ := of_decide_eq_true hk
  refine ⟨k, hrun, hfree, hq, ?_⟩
  exact (lock_exclusion 0 _ _ _ k hrun).2.2.2 () hfree (by simp [hq])

end Nachos.KernelThreads
