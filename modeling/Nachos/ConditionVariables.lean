import Nachos.LockExclusion
import Nachos.ThreadLife

/-!
# Condition variables and the owner of a lock

`Condition::Wait` queues the caller, gives the lock back and sleeps while
interrupts are off, so a waiter is on the queue from the moment its wait begins
until `Signal` or `Broadcast` takes it off. The history shows in which phase of a
wait a thread is; the queue and the point at which the thread goes on show the
same.

The three calls test the owner field of the lock first. `Release` does not clear
this field and the constructor does not set it, so the test also passes for the
last owner after its release.
-/
namespace Nachos.KernelThreads
open GuardedRuns

inductive WaitPhase where
  | outside
  | waiting
  | removed
  deriving DecidableEq, Repr

variable {T S L C : Type*}

/-- How far the last `Wait` of `t` for `c` has got: not begun or returned, on the
queue, taken from the queue. -/
def waitPhase [DecidableEq T] [DecidableEq C] (t : T) (c : C) : List (Event T S L C) → WaitPhase
  | [] => .outside
  | .waits u d :: h =>
    if u = t ∧ d = c then
      if waitPhase t c h = .outside then .waiting else waitPhase t c h
    else waitPhase t c h
  | .wakes u (.condition d) :: h =>
    if u = t ∧ d = c then
      if waitPhase t c h = .waiting then .removed else waitPhase t c h
    else waitPhase t c h
  | .waited u d :: h => if u = t ∧ d = c then .outside else waitPhase t c h
  | _ :: h => waitPhase t c h

/-- The condition in whose `Wait` the thread is. -/
def Cont.waitsFor : Cont S L C → Option C
  | .wait c _ => some c
  | .woken c _ => some c
  | .acquire _ c => c
  | _ => none

variable [DecidableEq T] [DecidableEq S] [DecidableEq L] [DecidableEq C]

structure ConditionInv (k : Kernel T S L C) : Prop where
  count : ∀ c, k.waitingThreads c = (k.queue (.condition c)).length
  phase : ∀ t c, waitPhase t c k.history =
    if (k.cont t).waitsFor = some c then
      if t ∈ k.queue (.condition c) then .waiting else .removed
    else .outside
  created : ∀ t, k.status t = .justCreated → (k.cont t).waitsFor = none

section moves
variable {k k' : Kernel T S L C} {t : T}

omit [DecidableEq S] [DecidableEq L] in
/-- A change that has nothing to do with conditions. -/
theorem ConditionInv.frame (h : ConditionInv k) (hcount : k'.waitingThreads = k.waitingThreads)
    (hq : ∀ c, k'.queue (.condition c) = k.queue (.condition c))
    (hcont : ∀ u, (k'.cont u).waitsFor = (k.cont u).waitsFor)
    (hhist : ∀ u c, waitPhase u c k'.history = waitPhase u c k.history)
    (hstatus : ∀ u, k'.status u = .justCreated → k.status u = .justCreated) : ConditionInv k' := by
  refine ⟨fun c => ?_, fun u c => ?_, fun u hu => ?_⟩
  · rw [hcount, hq]
    exact h.count c
  · rw [hhist, hcont, hq]
    exact h.phase u c
  · rw [hcont]
    exact h.created u (hstatus u hu)

theorem Move.created (hm : Move k k') (u : T) (hu : k'.status u = .justCreated) :
    k.status u = .justCreated := by
  by_contra hne
  exact hm.forked hne hu

omit [DecidableEq S] [DecidableEq L] [DecidableEq C] in
theorem waitsFor_update {c : Cont S L C} (hc : c.waitsFor = (k.cont t).waitsFor) (u : T) :
    (Function.update k.cont t c u).waitsFor = (k.cont u).waitsFor := by
  by_cases hut : u = t
  · rw [hut, Function.update_self, hc]
  · rw [Function.update_of_ne hut]

theorem waitPhase_wake {q : Queue S L C} (hq : ∀ c, q ≠ .condition c) (u : T) (c : C) :
    waitPhase u c (k.wake q).history = waitPhase u c k.history := by
  rcases wake_history k q with h | ⟨w, h⟩
  · rw [h]
  · rw [h]
    cases q with
    | condition d => exact absurd rfl (hq d)
    | _ => rfl

theorem waitPhase_release (l : L) (u : T) (c : C) :
    waitPhase u c (k.release t l).history = waitPhase u c k.history := by
  cases hheld : k.isHeldBy l t with
  | true =>
    rw [release_eq hheld]
    exact waitPhase_wake (k := k.record (.released t l)) (by simp) u c
  | false =>
    rw [release_eq_record hheld]
    rfl

theorem release_waitingThreads (l : L) : (k.release t l).waitingThreads = k.waitingThreads := by
  cases hheld : k.isHeldBy l t with
  | true => simp [release_eq hheld, Kernel.record]
  | false => simp [release_eq_record hheld, Kernel.record]

omit [DecidableEq T] [DecidableEq S] [DecidableEq L] [DecidableEq C] in
theorem InAcquire.waitsFor {l : L} {c : Option C} (h : InAcquire k t l c) :
    (k.cont t).waitsFor = c := by
  rcases h with ⟨h, rfl⟩ | ⟨d, h, rfl⟩ | h <;> rw [h] <;> rfl

omit [DecidableEq S] in
/-- The end of `Acquire` is also the end of the `Wait` that called it. -/
theorem ConditionInv.take (h : ConditionInv k) (hp : Placed k) {l : L} {c : Option C}
    (hcur : k.currentThread = some t) (hin : InAcquire k t l c) : ConditionInv (k.take t l c) := by
  have hwaits := hin.waitsFor
  have hnot : ∀ d, t ∉ k.queue (.condition d) := fun d => hp.current_notMem hcur _
  have hphase : ∀ u d, waitPhase u d (k.take t l c).history =
      if u = t ∧ c = some d then .outside else waitPhase u d k.history := by
    intro u d
    cases c with
    | none => simp [Kernel.take, Kernel.record, Kernel.setCont, waitPhase]
    | some c =>
      simp [Kernel.take, Kernel.record, Kernel.setCont, waitPhase, eq_comm]
  refine ⟨fun d => ?_, fun u d => ?_, fun u hu => ?_⟩
  · rw [take_queue]
    have hw : (k.take t l c).waitingThreads = k.waitingThreads := by cases c <;> rfl
    rw [hw]
    exact h.count d
  · rw [hphase, take_cont, take_queue, h.phase u d]
    by_cases hut : u = t
    · subst hut
      have huser : (Cont.user : Cont S L C).waitsFor = none := rfl
      rw [Function.update_self, huser, hwaits]
      simp only [true_and, reduceCtorEq, if_false]
      split_ifs <;> simp_all
    · simp [hut]
  · have hst : k.status u = .justCreated := by cases c <;> exact hu
    have hut : u ≠ t := by
      rintro rfl
      exact absurd (hst.symm.trans (hp.current u hcur)) (by decide)
    rw [take_cont, Function.update_of_ne hut]
    exact h.created u hst

/-- `Wait` puts the caller, which was in no wait, on the queue. -/
theorem ConditionInv.waitBlock (h : ConditionInv k) (hp : Placed k) {c : C} {l : L}
    (hcur : k.currentThread = some t) (hcont : k.cont t = .user) (hheld : k.isHeldBy l t = true) :
    ConditionInv (k.waitBlock t c l) := by
  have hqueue : ∀ d, (k.waitBlock t c l).queue (.condition d) =
      if d = c then k.queue (.condition c) ++ [t] else k.queue (.condition d) := by
    intro d
    refine release_condition.trans ?_
    by_cases hd : d = c
    · subst hd
      simp [Kernel.block, Kernel.setCont, Kernel.setQueue, Kernel.record]
    · simp [Kernel.block, Kernel.setCont, Kernel.setQueue, Kernel.record, hd]
  have hphase : ∀ u d, waitPhase u d (k.waitBlock t c l).history =
      if u = t ∧ d = c then .waiting else waitPhase u d k.history := by
    intro u d
    have hout : waitPhase t c k.history = .outside := by
      rw [h.phase, hcont, if_neg (by simp [Cont.waitsFor])]
    refine (waitPhase_release l u d).trans ?_
    by_cases hud : u = t ∧ d = c
    · obtain ⟨rfl, rfl⟩ := hud
      simp [Kernel.block, Kernel.setCont, Kernel.setQueue, Kernel.record, waitPhase, hout]
    · have hud' : ¬(t = u ∧ c = d) := fun he => hud ⟨he.1.symm, he.2.symm⟩
      simp only [Kernel.block, Kernel.setCont, Kernel.setQueue, Kernel.record, waitPhase,
        if_neg hud', if_neg hud]
  refine ⟨fun d => ?_, fun u d => ?_, fun u hu => ?_⟩
  · have hw : (k.waitBlock t c l).waitingThreads =
        Function.update k.waitingThreads c (k.waitingThreads c + 1) := release_waitingThreads l
    rw [hqueue, hw]
    by_cases hd : d = c
    · subst hd
      simp [h.count d]
    · simpa [hd] using h.count d
  · rw [hphase, hqueue, waitBlock_cont, h.phase u d]
    by_cases hut : u = t
    · subst hut
      rw [Function.update_self, hcont]
      by_cases hd : d = c
      · subst hd
        simp [Cont.waitsFor]
      · simp [Cont.waitsFor, hd, Ne.symm hd]
    · rw [Function.update_of_ne hut]
      by_cases hd : d = c
      · subst hd
        simp [hut]
      · simp [hut, hd]
  · have hst := (Move.wait hcur hcont hheld).created u hu
    have hut : u ≠ t := by
      rintro rfl
      exact absurd (hst.symm.trans (hp.current u hcur)) (by decide)
    rw [waitBlock_cont, Function.update_of_ne hut]
    exact h.created u hst

/-- `Signal` takes the first waiter off the queue. -/
theorem ConditionInv.wakeWaiter (h : ConditionInv k) (hp : Placed k) {c : C}
    (hw : 0 < k.waitingThreads c) : ConditionInv (k.wakeWaiter c) := by
  have hcount := h.count c
  obtain ⟨w, ws, hq⟩ : ∃ w ws, k.queue (.condition c) = w :: ws := by
    refine List.exists_cons_of_ne_nil fun hnil => ?_
    rw [hnil] at hcount
    simp [hcount] at hw
  have hmem : w ∈ k.queue (.condition c) := by simp [hq]
  have hnodup := hp.nodup (.condition c)
  rw [hq, List.nodup_cons] at hnodup
  obtain ⟨l, hcont⟩ := (hp.fits _ w hmem).1
  have hqueue : ∀ d, (k.wakeWaiter c).queue (.condition d) =
      if d = c then ws else k.queue (.condition d) := by
    intro d
    by_cases hd : d = c
    · subst hd
      rw [if_pos rfl]
      exact (wake_queue _ _ (by simp)).trans (by simp [hq])
    · rw [if_neg hd]
      exact wake_queue_of_ne _ _ (by simpa using hd) (by simp)
  have hcontEq : (k.wakeWaiter c).cont = k.cont := wake_cont _ _
  have hphase : ∀ u d, waitPhase u d (k.wakeWaiter c).history =
      if u = w ∧ d = c then .removed else waitPhase u d k.history := by
    intro u d
    have hwait : waitPhase w c k.history = .waiting := by
      rw [h.phase, hcont]
      exact (if_pos rfl).trans (if_pos hmem)
    have hhist : (k.wakeWaiter c).history = .wakes w (.condition c) :: k.history := by
      simp [Kernel.wakeWaiter, Kernel.wake, hq, Kernel.record, Kernel.readyToRun, Kernel.setQueue]
    rw [hhist]
    by_cases hud : u = w ∧ d = c
    · obtain ⟨rfl, rfl⟩ := hud
      simp [waitPhase, hwait]
    · have hud' : ¬(w = u ∧ c = d) := fun he => hud ⟨he.1.symm, he.2.symm⟩
      simp only [waitPhase, if_neg hud', if_neg hud]
  refine ⟨fun d => ?_, fun u d => ?_, fun u hu => ?_⟩
  · rw [hqueue]
    by_cases hd : d = c
    · subst hd
      simp [Kernel.wakeWaiter, hcount, hq]
    · simpa [Kernel.wakeWaiter, hd] using h.count d
  · rw [hphase, hqueue, hcontEq, h.phase u d]
    by_cases hd : d = c
    · subst hd
      by_cases huw : u = w
      · subst huw
        simp [hcont, Cont.waitsFor, hnodup.1]
      · simp [huw, hq]
    · simp [hd]
  · rw [hcontEq]
    exact h.created u ((Move.wakeWaiter hw).created u hu)

theorem ConditionInv.fork (h : ConditionInv k) {u : T} (hu : k.status u = .justCreated) :
    ConditionInv (k.fork u) := by
  have hnone := h.created u hu
  refine h.frame rfl (fun c => ?_) (waitsFor_update hnone.symm) (fun _ _ => rfl) fun w hw => ?_
  · simp [Kernel.fork, Kernel.readyToRun, Kernel.setQueue, Kernel.setCont]
  · exact (Move.fork hu).created w hw

theorem ConditionInv.move (h : ConditionInv k) (hp : Placed k) (hm : Move k k') :
    ConditionInv k' := by
  have hstatus := hm.created
  cases hm with
  | @run t ts hcur hq =>
    obtain ⟨hist, d, hrun, hhist⟩ := run_eq k t ts
    refine h.frame ?_ (fun c => by simp) (fun u => by rw [run_cont]) (fun u c => ?_) hstatus
    · rw [hrun]
    · rw [hrun]
      rcases hhist with rfl | ⟨v, rfl⟩ <;> rfl
  | start hcur hcont =>
    exact h.frame rfl (fun _ => rfl) (waitsFor_update (by rw [hcont]; rfl)) (fun _ _ => rfl) hstatus
  | waitReturn hcur hcont =>
    exact h.frame rfl (fun _ => rfl) (waitsFor_update (by rw [hcont]; rfl)) (fun _ _ => rfl) hstatus
  | down hcur hcont hv =>
    refine h.frame rfl (fun _ => rfl) (waitsFor_update ?_) (fun _ _ => rfl) hstatus
    rcases hcont with hcont | hcont <;> simp [hcont, Cont.waitsFor]
  | @blockP t s hcur hcont hv =>
    have hwaits : (Cont.p s : Cont S L C).waitsFor = (k.cont t).waitsFor := by
      rcases hcont with hcont | hcont <;> simp [hcont, Cont.waitsFor]
    exact h.frame rfl (fun _ => block_condition (by simp)) (waitsFor_update hwaits)
      (fun _ _ => rfl) hstatus
  | take hcur hin hfree => exact h.take hp hcur hin
  | blockAcquire hcur hin hheld htaken =>
    exact h.frame rfl (fun _ => block_condition (by simp)) (waitsFor_update hin.waitsFor.symm)
      (fun _ _ => rfl) hstatus
  | v s =>
    exact h.frame (wake_waitingThreads k _) (fun _ => wake_queue_of_ne _ _ (by simp) (by simp))
      (fun u => by rw [Kernel.v, Kernel.record, wake_cont])
      (fun u c => waitPhase_wake (by simp) u c)
      hstatus
  | release l hcur =>
    exact h.frame (release_waitingThreads l) (fun _ => release_condition)
      (fun u => by rw [release_cont]) (fun u c => waitPhase_release l u c) hstatus
  | wait hcur hcont hheld => exact h.waitBlock hp hcur hcont hheld
  | wakeWaiter hw => exact h.wakeWaiter hp hw
  | yield hcur =>
    refine h.frame rfl (fun c => ?_) (fun _ => rfl) (fun _ _ => rfl) hstatus
    simp [Kernel.yieldReady, Kernel.readyToRun, Kernel.setQueue]
  | fork hu => exact h.fork hu
  | finish hcur hcont =>
    exact h.frame rfl (fun _ => rfl) (waitsFor_update (by rw [hcont]; rfl)) (fun _ _ => rfl) hstatus

end moves

section returns
variable {lockOf : C → L} {k k' : Kernel T S L C} {t : T}

/-- The condition and the lock of the `Wait` in which the thread is. -/
def Cont.waitsWith : Cont S L C → Option (C × L)
  | .wait c l => some (c, l)
  | .woken c l => some (c, l)
  | .acquire l (some c) => some (c, l)
  | _ => none

omit [DecidableEq S] [DecidableEq L] [DecidableEq C] in
theorem waitsWith_update {d : Cont S L C} {u : T} {p : C × L}
    (hd : d.waitsWith = some p → (k.cont t).waitsWith = some p)
    (hu : (Function.update k.cont t d u).waitsWith = some p) : (k.cont u).waitsWith = some p := by
  by_cases hut : u = t
  · rw [hut, Function.update_self] at hu
    rw [hut]
    exact hd hu
  · rwa [Function.update_of_ne hut] at hu

omit [DecidableEq T] [DecidableEq S] [DecidableEq L] [DecidableEq C] in
theorem InAcquire.waitsWith {l : L} {c : C} (h : InAcquire k t l (some c)) :
    (k.cont t).waitsWith = some (c, l) := by
  rcases h with ⟨-, hc⟩ | ⟨d, h, hc⟩ | h
  · cases hc
  · obtain rfl := Option.some.inj hc
    rw [h]
    rfl
  · rw [h]
    rfl

/-- A thread that is in a `Wait` after a move was in it before, or begins it. -/
theorem Move.waitsWith (hm : Move k k') {u : T} {c : C} {l : L}
    (hu : (k'.cont u).waitsWith = some (c, l)) :
    (k.cont u).waitsWith = some (c, l) ∨ k'.cont u = .wait c l := by
  cases hm with
  | run hcur hq => exact Or.inl (by rwa [run_cont] at hu)
  | start hcur hcont => exact Or.inl (waitsWith_update (fun h => by cases h) hu)
  | @waitReturn t d m hcur hcont =>
    exact Or.inl (waitsWith_update (d := .woken d m) (fun h => by rw [hcont]; exact h) hu)
  | down hcur hcont hv => exact Or.inl (waitsWith_update (d := .user) (fun h => by cases h) hu)
  | @blockP t s hcur hcont hv =>
    exact Or.inl (waitsWith_update (k := k) (d := .p s) (fun h => by cases h) hu)
  | take hcur hin hfree =>
    rw [take_cont] at hu
    exact Or.inl (waitsWith_update (fun h => by cases h) hu)
  | @blockAcquire t m d hcur hin hheld htaken =>
    refine Or.inl (waitsWith_update (k := k) (d := .acquire m d) (fun h => ?_) hu)
    cases d with
    | none => cases h
    | some d => rwa [hin.waitsWith]
  | v s => exact Or.inl (by rwa [Kernel.v, Kernel.record, wake_cont] at hu)
  | release m hcur => exact Or.inl (by rwa [release_cont] at hu)
  | @wait t d m hcur hcont hheld =>
    rw [waitBlock_cont] at hu ⊢
    by_cases hut : u = t
    · rw [hut, Function.update_self] at hu ⊢
      obtain ⟨rfl, rfl⟩ : d = c ∧ m = l := by simpa [Cont.waitsWith] using hu
      exact Or.inr rfl
    · rw [Function.update_of_ne hut] at hu
      exact Or.inl hu
  | wakeWaiter hw => exact Or.inl (by rwa [Kernel.wakeWaiter, wake_cont] at hu)
  | yield hcur => exact Or.inl hu
  | @fork w hw => exact Or.inl (waitsWith_update (k := k) (d := .root) (fun h => by cases h) hu)
  | finish hcur hcont => exact Or.inl (waitsWith_update (d := .finished) (fun h => by cases h) hu)

/-- Only the end of `Wait` puts its return into the history, right after the
return of the `Acquire` in it. -/
theorem Move.waited (hm : Move k k') :
    (∃ es, k'.history = es ++ k.history ∧ ∀ t c, .waited t c ∉ es) ∨
    (∃ t l c, k.currentThread = some t ∧ InAcquire k t l (some c) ∧
      k'.history = .waited t c :: .acquired t l :: k.history) := by
  have hwake : ∀ (k : Kernel T S L C) q, ∃ es, (k.wake q).history = es ++ k.history ∧
      ∀ t c, .waited t c ∉ es := by
    intro k q
    rcases wake_history k q with h | ⟨u, h⟩
    · exact ⟨[], h, by simp⟩
    · exact ⟨[.wakes u q], h, by simp⟩
  have hrelease : ∀ (k : Kernel T S L C) t l, ∃ es, (k.release t l).history = es ++ k.history ∧
      ∀ t c, .waited t c ∉ es := by
    intro k t l
    cases hheld : k.isHeldBy l t with
    | true =>
      obtain ⟨es, hes, hnot⟩ := hwake (k.record (.released t l)) (.lock l)
      refine ⟨es ++ [.released t l], ?_, by simpa using hnot⟩
      rw [release_eq hheld, hes, List.append_assoc]
      rfl
    | false =>
      rw [release_eq_record hheld]
      exact ⟨[.released t l], rfl, by simp⟩
  cases hm with
  | @run t ts hcur hq =>
    obtain ⟨hist, d, hrun, rfl | ⟨v, rfl⟩⟩ := run_eq k t ts
    · exact Or.inl ⟨[], by rw [hrun]; rfl, by simp⟩
    · exact Or.inl ⟨[.deleted v], by rw [hrun]; rfl, by simp⟩
  | start hcur hcont => exact Or.inl ⟨[], rfl, by simp⟩
  | waitReturn hcur hcont => exact Or.inl ⟨[], rfl, by simp⟩
  | @down t s hcur hcont hv => exact Or.inl ⟨[.downed t s], rfl, by simp⟩
  | blockP hcur hcont hv => exact Or.inl ⟨[], rfl, by simp⟩
  | @take t l c hcur hin hfree =>
    cases c with
    | none => exact Or.inl ⟨[.acquired t l], rfl, by simp⟩
    | some c => exact Or.inr ⟨t, l, c, hcur, hin, rfl⟩
  | blockAcquire hcur hin hheld htaken => exact Or.inl ⟨[], rfl, by simp⟩
  | v s =>
    obtain ⟨es, hes, hnot⟩ := hwake k (.semaphore s)
    refine Or.inl ⟨.upped s :: es, ?_, by simpa using hnot⟩
    simp [Kernel.v, Kernel.record, hes]
  | @release t l hcur => exact Or.inl (hrelease k t l)
  | @wait t c l hcur hcont hheld =>
    obtain ⟨es, hes, hnot⟩ := hrelease { (k.record (.waits t c)).block t (.condition c) (.wait c l)
      with waitingThreads := Function.update k.waitingThreads c (k.waitingThreads c + 1) } t l
    refine Or.inl ⟨es ++ [.waits t c], ?_, by simpa using hnot⟩
    rw [List.append_assoc]
    exact hes
  | @wakeWaiter c hw => exact Or.inl (hwake _ (.condition c))
  | yield hcur => exact Or.inl ⟨[], rfl, by simp⟩
  | fork hu => exact Or.inl ⟨[], rfl, by simp⟩
  | @finish t hcur hcont => exact Or.inl ⟨[.finished t], rfl, by simp⟩

/-- Which lock belongs to a wait, and what preceded every return from one. -/
structure ReturnInv (lockOf : C → L) (k : Kernel T S L C) : Prop where
  lock : ∀ t c l, (k.cont t).waitsWith = some (c, l) → l = lockOf c
  log : ∀ t c h, .waited t c :: h <:+ k.history →
    waitPhase t c h = .removed ∧ inside t (lockOf c) h = true

theorem suffix_of_append {α : Type*} {e : α} {h es hist : List α} (hs : e :: h <:+ es ++ hist)
    (hnot : e ∉ es) : e :: h <:+ hist := by
  induction es with
  | nil => exact hs
  | cons a es ih =>
    rw [List.mem_cons, not_or] at hnot
    rcases List.suffix_cons_iff.mp hs with heq | hs
    · exact absurd (List.cons.inj heq).1 hnot.1
    · exact ih hs hnot.2

/-- A move that begins no wait with a lock that is not the one of the condition. -/
def Locked (lockOf : C → L) (k k' : Kernel T S L C) : Prop :=
  Move k k' ∧ ∀ u c l, k'.cont u = .wait c l → k.cont u = .wait c l ∨ l = lockOf c

theorem ReturnInv.move (h : ReturnInv lockOf k) (hc : ConditionInv k) (hp : Placed k)
    (hm : Locked lockOf k k') : ReturnInv lockOf k' := by
  refine ⟨fun u c l hu => ?_, fun u c hist hs => ?_⟩
  · rcases hm.1.waitsWith hu with hu | hu
    · exact h.lock u c l hu
    · rcases hm.2 u c l hu with hu | hl
      · exact h.lock u c l (by rw [hu]; rfl)
      · exact hl
  · rcases hm.1.waited with ⟨es, hes, hnot⟩ | ⟨t, l, d, hcur, hin, hhist⟩
    · rw [hes] at hs
      exact h.log u c hist (suffix_of_append hs (hnot u c))
    · rw [hhist] at hs
      rcases List.suffix_cons_iff.mp hs with heq | hs
      · obtain ⟨he, rfl⟩ := List.cons.inj heq
        obtain ⟨rfl, rfl⟩ : u = t ∧ c = d := by simpa using he
        obtain rfl := h.lock u c l hin.waitsWith
        have hphase := hc.phase u c
        rw [hin.waitsFor, if_pos rfl, if_neg (hp.current_notMem hcur _)] at hphase
        exact ⟨hphase, by simp [inside]⟩
      · have hs : .waited u c :: hist <:+ [.acquired t l] ++ k.history := hs
        exact h.log u c hist (suffix_of_append hs (by simp))

end returns

/-- The running thread is inside of the lock. -/
def RunsInside (k : Kernel T S L C) (l : L) : Prop :=
  ∀ t, k.currentThread = some t → inside t l k.history = true

/-- Calls on a condition are made with its lock by a thread that holds it. -/
def HoldsLock (lockOf : C → L) (k : Kernel T S L C) : Label T S L C → Prop
  | .wait c l => l = lockOf c ∧ RunsInside k l
  | .signal c l => l = lockOf c ∧ RunsInside k l
  | .broadcast c l => l = lockOf c ∧ RunsInside k l
  | _ => True

instance (k : Kernel T S L C) (l : L) : Decidable (RunsInside k l) :=
  match h : k.currentThread with
  | none => .isTrue fun t ht => absurd (h.symm.trans ht) (by simp)
  | some t => decidable_of_iff (inside t l k.history = true)
    ⟨fun hin u hu => by rwa [← Option.some.inj (h.symm.trans hu)], fun hin => hin t h⟩

instance (lockOf : C → L) (k : Kernel T S L C) : (a : Label T S L C) →
    Decidable (HoldsLock lockOf k a)
  | .wait _ _ => inferInstanceAs (Decidable (_ ∧ _))
  | .signal _ _ => inferInstanceAs (Decidable (_ ∧ _))
  | .broadcast _ _ => inferInstanceAs (Decidable (_ ∧ _))
  | .p _ => .isTrue trivial
  | .v _ => .isTrue trivial
  | .acquire _ => .isTrue trivial
  | .release _ => .isTrue trivial
  | .yield => .isTrue trivial
  | .fork _ => .isTrue trivial
  | .finish => .isTrue trivial
  | .handlerV _ => .isTrue trivial
  | .idleReturn => .isTrue trivial

/-- The queue of `c` after a call. -/
def conditionQueue (k : Kernel T S L C) (c : C) : Label T S L C → List T
  | .wait d _ =>
    if d = c then k.queue (.condition c) ++ k.currentThread.toList else k.queue (.condition c)
  | .signal d _ => if d = c then (k.queue (.condition c)).tail else k.queue (.condition c)
  | .broadcast d _ => if d = c then [] else k.queue (.condition c)
  | _ => k.queue (.condition c)

omit [DecidableEq T] [DecidableEq S] [DecidableEq L] in
theorem conditionQueue_eq {k : Kernel T S L C} {c : C} {a : Label T S L C}
    (ha : ∀ l, a ≠ .wait c l ∧ a ≠ .signal c l ∧ a ≠ .broadcast c l) :
    conditionQueue k c a = k.queue (.condition c) := by
  cases a with
  | wait d l => exact if_neg fun hd => (ha l).1 (by rw [hd])
  | signal d l => exact if_neg fun hd => (ha l).2.1 (by rw [hd])
  | broadcast d l => exact if_neg fun hd => (ha l).2.2 (by rw [hd])
  | _ => rfl

section contract
variable {lockOf : C → L} {k k' : Kernel T S L C} {t : T} {a : Label T S L C}

theorem step_locked (ha : HoldsLock lockOf k a) (hstep : k.step a = some k') :
    Relation.ReflTransGen (Locked lockOf) k k' := by
  have hquiet : ∀ {k k' : Kernel T S L C}, QuietMoves k k' →
      Relation.ReflTransGen (Locked lockOf) k k' := fun hm =>
    Relation.ReflTransGen.mono (fun _ _ hm => ⟨hm.move, fun u c l hu => Or.inl (hm.waits u c l hu)⟩)
      _ _ hm
  have hsame : ∀ {k k' : Kernel T S L C}, Move k k' → k'.cont = k.cont → Locked lockOf k k' :=
    fun hm hcont => ⟨hm, fun u c l hu => Or.inl (by rwa [hcont] at hu)⟩
  rcases step_quiet_moves hstep with hm | ⟨t, hcur, hcont, hcall⟩
  · exact hquiet hm
  rcases hcall with ⟨rfl, hm⟩ | ⟨c, l, rfl, hheld, hm⟩ | ⟨c, l, rfl, hheld, hw, rfl⟩ |
    ⟨c, l, rfl, hheld, rfl⟩
  · refine .head ⟨.finish hcur hcont, fun u c l hu => ?_⟩ (hquiet hm)
    by_cases hut : u = t
    · simp [Kernel.finishBlock, Kernel.setCont, Kernel.record, hut] at hu
    · exact Or.inl (by simpa [Kernel.finishBlock, Kernel.setCont, Kernel.record, hut] using hu)
  · refine .head ⟨.wait hcur hcont hheld, fun u d m hu => ?_⟩ (hquiet hm)
    rw [waitBlock_cont] at hu
    by_cases hut : u = t
    · rw [hut, Function.update_self] at hu
      obtain ⟨rfl, rfl⟩ : c = d ∧ l = m := by simpa using hu
      exact Or.inr ha.1
    · rw [Function.update_of_ne hut] at hu
      exact Or.inl hu
  · exact .single (hsame (.wakeWaiter hw) (wake_cont _ _))
  · exact Relation.ReflTransGen.mono (fun _ _ hm => hsame hm.1 hm.2) _ _ broadcast_moves

theorem QuietMoves.conditions (hm : QuietMoves k k') (c : C) :
    k'.queue (.condition c) = k.queue (.condition c) := by
  induction hm with
  | refl => rfl
  | tail _ hm ih => exact (hm.conditions c).trans ih

theorem wake_queue_cons {q : Queue S L C} (hq : q ≠ .ready) {w : T} {ws : List T}
    (h : k.queue q = w :: ws) : (k.wake q).queue =
      Function.update (Function.update k.queue q ws) .ready (k.queue .ready ++ [w]) := by
  simp [Kernel.wake, h, Kernel.record, Kernel.readyToRun, Kernel.setQueue, hq.symm]

theorem broadcastLoop_queue {c : C} {ws : List T} (h : k.queue (.condition c) = ws) :
    (Kernel.broadcastLoop c ws.length k).queue =
      Function.update (Function.update k.queue (.condition c) []) .ready
        (k.queue .ready ++ ws) := by
  induction ws generalizing k with
  | nil =>
    have hself : Function.update k.queue (.condition c) [] = k.queue := by
      rw [← h, Function.update_eq_self]
    rw [hself, List.append_nil, Function.update_eq_self]
    rfl
  | cons w ws ih =>
    have hqueue : (k.wakeWaiter c).queue = Function.update
        (Function.update k.queue (.condition c) ws) .ready (k.queue .ready ++ [w]) :=
      wake_queue_cons (by simp) h
    have hws : (k.wakeWaiter c).queue (.condition c) = ws := by simp [hqueue]
    rw [List.length_cons, Kernel.broadcastLoop, ih hws, hqueue]
    funext q
    by_cases hready : q = .ready
    · simp [hready]
    · by_cases hq : q = .condition c <;> simp [hready, hq]

omit [DecidableEq S] [DecidableEq C] in
theorem LockInv.isHeldBy (h : LockInv k) {l : L} (hin : inside t l k.history = true) :
    k.isHeldBy l t = true := by
  simp [Kernel.isHeldBy, (h.owner t l hin).2]

theorem waitBlock_currentThread {c : C} {l : L} : (k.waitBlock t c l).currentThread = none := by
  rw [Kernel.waitBlock, release_currentThread]
  rfl

theorem waitBlock_queue {c d : C} {l : L} : (k.waitBlock t c l).queue (.condition d) =
    if c = d then k.queue (.condition d) ++ [t] else k.queue (.condition d) := by
  rw [Kernel.waitBlock, release_condition]
  by_cases hd : c = d
  · simp [Kernel.block, Kernel.setQueue, Kernel.setCont, Kernel.record, hd]
  · simp [Kernel.block, Kernel.setQueue, Kernel.setCont, Kernel.record, hd, Ne.symm hd]

/-- `Signal` by a thread inside of the lock. -/
theorem ConditionInv.signal (hc : ConditionInv k) {c : C} {l : L} (hheld : k.isHeldBy l t = true) :
    k.signal t c l = if k.queue (.condition c) = [] then k else k.wakeWaiter c := by
  have hcount : k.waitingThreads c > 0 ↔ k.queue (.condition c) ≠ [] := by
    rw [hc.count c, ← List.length_pos_iff_ne_nil]
    exact Int.natCast_pos
  by_cases hq : k.queue (.condition c) = [] <;> simp [Kernel.signal, hheld, hcount, hq]

theorem ConditionInv.signal_queue (hc : ConditionInv k) {c : C} {l : L}
    (hheld : k.isHeldBy l t = true) (d : C) : (k.signal t c l).queue (.condition d) =
      if c = d then (k.queue (.condition d)).tail else k.queue (.condition d) := by
  rw [hc.signal hheld]
  cases hq : k.queue (.condition c) with
  | nil =>
    by_cases hd : c = d
    · simp [← hd, hq]
    · simp [hd]
  | cons w ws =>
    have hqueue : (k.wakeWaiter c).queue = Function.update
        (Function.update k.queue (.condition c) ws) .ready (k.queue .ready ++ [w]) :=
      wake_queue_cons (by simp) hq
    by_cases hd : c = d
    · simp [hqueue, ← hd, hq]
    · simp [hqueue, hd, Ne.symm hd]

theorem ConditionInv.broadcast_queue (hc : ConditionInv k) {c : C} {l : L}
    (hheld : k.isHeldBy l t = true) : (k.broadcast t c l).queue =
      Function.update (Function.update k.queue (.condition c) []) .ready
        (k.queue .ready ++ k.queue (.condition c)) := by
  rw [Kernel.broadcast, if_pos hheld, hc.count c, Int.toNat_natCast]
  exact broadcastLoop_queue rfl

theorem signal_queue_of_ne {c d : C} {l : L} (hd : c ≠ d) :
    (k.signal t c l).queue (.condition d) = k.queue (.condition d) := by
  unfold Kernel.signal
  split_ifs
  · exact wake_queue_of_ne _ _ (by simpa using hd.symm) (by simp)
  · rfl
  · rfl

theorem broadcast_queue_of_ne {c d : C} {l : L} (hd : c ≠ d) :
    (k.broadcast t c l).queue (.condition d) = k.queue (.condition d) := by
  have hloop : ∀ n (k : Kernel T S L C),
      (Kernel.broadcastLoop c n k).queue (.condition d) = k.queue (.condition d) := by
    intro n
    induction n with
    | zero => exact fun k => rfl
    | succ n ih =>
      intro k
      rw [Kernel.broadcastLoop, ih]
      exact wake_queue_of_ne _ _ (by simpa using hd.symm) (by simp)
  unfold Kernel.broadcast
  split_ifs
  · exact hloop _ k
  · rfl

theorem wait_queue_of_ne {c d : C} {l : L} (hd : c ≠ d) :
    (k.wait t c l).queue (.condition d) = k.queue (.condition d) := by
  unfold Kernel.wait
  split_ifs
  · rw [(sleep_moves waitBlock_currentThread).conditions, waitBlock_queue, if_neg hd]
  · rfl

/-- A step changes the queue of `c` as `conditionQueue` says, if a call on `c`
comes from a thread inside of the lock it names. -/
theorem step_conditionQueue (hc : ConditionInv k) (hl : LockInv k) (c : C)
    (ha : ∀ l, a = .wait c l ∨ a = .signal c l ∨ a = .broadcast c l → RunsInside k l)
    (hstep : k.step a = some k') : k'.queue (.condition c) = conditionQueue k c a := by
  rcases step_cases hstep with ⟨s, rfl, rfl⟩ | ⟨rfl, hcur, rfl⟩ | ⟨t, hcur, hcont, h⟩ |
    ⟨t, d, l, hcur, hcont, h⟩
  · exact (v_quiet k s).conditions c
  · exact (sleep_moves hcur).conditions c
  · cases a with
    | wait d l =>
      obtain rfl := Option.some.inj h
      by_cases hd : d = c
      · have hheld := hl.isHeldBy (ha l (by simp [hd]) t hcur)
        rw [Kernel.wait, if_pos hheld, (sleep_moves waitBlock_currentThread).conditions,
          waitBlock_queue]
        simp [conditionQueue, hcur]
      · rw [wait_queue_of_ne hd, conditionQueue, if_neg hd]
    | signal d l =>
      obtain rfl := Option.some.inj h
      by_cases hd : d = c
      · exact hc.signal_queue (hl.isHeldBy (ha l (by simp [hd]) t hcur)) c
      · rw [signal_queue_of_ne hd, conditionQueue, if_neg hd]
    | broadcast d l =>
      obtain rfl := Option.some.inj h
      by_cases hd : d = c
      · rw [hc.broadcast_queue (hl.isHeldBy (ha l (by simp [hd]) t hcur))]
        simp [conditionQueue, hd]
      · rw [broadcast_queue_of_ne hd, conditionQueue, if_neg hd]
    | _ =>
      rcases call_moves hcur hcont h with hm | ⟨-, hm⟩ | ⟨_, _, h', -⟩ | ⟨_, _, h', -⟩ |
        ⟨_, _, h', -⟩
      · exact hm.conditions c
      · exact hm.conditions c
      · cases h'
      · cases h'
      · cases h'
  · rw [(callWoken_moves hcur hcont h).conditions]
    cases a with
    | wait e m => cases h
    | signal e m => cases h
    | broadcast e m => cases h
    | _ => rfl

omit [DecidableEq S] [DecidableEq C] in
theorem HoldsLock.runsInside (ha : HoldsLock lockOf k a) {c : C} {l : L}
    (hl : a = .wait c l ∨ a = .signal c l ∨ a = .broadcast c l) : RunsInside k l := by
  rcases hl with rfl | rfl | rfl <;> exact ha.2

end contract

section results
variable {lockOf : C → L}

omit [DecidableEq S] [DecidableEq L] in
theorem initial_conditionInv (main : T) (value : S → ℤ) (currentTh : L → Option T) :
    ConditionInv (initial main value currentTh : Kernel T S L C) := by
  have hcont : ∀ t, ((initial main value currentTh : Kernel T S L C).cont t).waitsFor = none := by
    intro t
    by_cases ht : t = main <;> simp [initial, ht, Cont.waitsFor]
  refine ⟨fun c => rfl, fun t c => ?_, fun t _ => hcont t⟩
  rw [hcont t]
  rfl

omit [DecidableEq S] in
theorem initial_returnInv (main : T) (value : S → ℤ) (currentTh : L → Option T) :
    ReturnInv lockOf (initial main value currentTh : Kernel T S L C) := by
  refine ⟨fun t c l ht => ?_, fun t c h hs => absurd hs (by simp [initial])⟩
  by_cases hm : t = main <;> simp [initial, hm, Cont.waitsWith] at ht

/-- The three invariants along a run in which the conditions are used with their
locks held. -/
theorem run_contract (main : T) (value : S → ℤ) (currentTh : L → Option T)
    {as : List (Label T S L C)} {k : Kernel T S L C}
    (hrun : Run Step (HoldsLock lockOf) (initial main value currentTh) as k) :
    ConditionInv k ∧ LockInv k ∧ ReturnInv lockOf k := by
  have hinv := hrun.invariant
    (I := fun k => Placed k ∧ ConditionInv k ∧ LockInv k ∧ ReturnInv lockOf k)
    ⟨initial_placed main value currentTh, initial_conditionInv main value currentTh,
      initial_lockInv main value currentTh, initial_returnInv main value currentTh⟩ ?_
  · exact hinv.2
  · intro k a k' hk ha hstep
    have hm := step_locked ha hstep
    clear hstep
    induction hm with
    | refl => exact hk
    | tail _ hm ih =>
      obtain ⟨hp, hc, hl, hr⟩ := ih
      exact ⟨hp.move hm.1, hc.move hp hm.1, hl.move hp hm.1, hr.move hc hp hm⟩

/-- In every state of a run in which `Wait`, `Signal` and `Broadcast` are called
with the lock of the condition held: the counter is the length of the queue; a
call changes the queue as `conditionQueue` says; `Signal` moves the first waiter
to the ready list or does nothing, `Broadcast` moves all of them in order; and
a thread that returned from `Wait` had been taken from the queue since it called
and was inside of the lock again. -/
theorem condition_contract (main : T) (value : S → ℤ) (currentTh : L → Option T)
    (as : List (Label T S L C)) (k : Kernel T S L C)
    (hrun : Run Step (HoldsLock lockOf) (initial main value currentTh) as k) :
    (∀ c, k.waitingThreads c = (k.queue (.condition c)).length) ∧
    (∀ a k', HoldsLock lockOf k a → Step k a k' →
      ∀ c, k'.queue (.condition c) = conditionQueue k c a) ∧
    (∀ t c, inside t (lockOf c) k.history = true →
      (k.queue (.condition c) = [] → k.signal t c (lockOf c) = k) ∧
      (∀ w ws, k.queue (.condition c) = w :: ws → (k.signal t c (lockOf c)).queue =
        Function.update (Function.update k.queue (.condition c) ws) .ready
          (k.queue .ready ++ [w])) ∧
      (k.broadcast t c (lockOf c)).queue =
        Function.update (Function.update k.queue (.condition c) []) .ready
          (k.queue .ready ++ k.queue (.condition c))) ∧
    (∀ t c h, .waited t c :: h <:+ k.history →
      waitPhase t c h = .removed ∧ inside t (lockOf c) h = true) := by
  obtain ⟨hc, hl, hr⟩ := run_contract main value currentTh hrun
  refine ⟨hc.count, fun a k' ha hstep c => step_conditionQueue hc hl c (fun _ => ha.runsInside) hstep,
    fun t c hin => ?_, hr.log⟩
  have hheld := hl.isHeldBy hin
  refine ⟨fun hq => ?_, fun w ws hq => ?_, hc.broadcast_queue hheld⟩
  · rw [hc.signal hheld, if_pos hq]
  · rw [hc.signal hheld, if_neg (by simp [hq])]
    exact wake_queue_cons (by simp) hq

end results

/-- Threads 1 and 2 wait, thread 0 signals once and thread 1 returns from `Wait`:
2 still waits and would be the one that the next `Signal` moves. -/
theorem condition_contract_two_waiters :
    ∃ k : Kernel ℕ Unit Unit Unit,
      Run Step (HoldsLock id) (initial 0 (fun _ => 0) fun _ => none)
        [.fork 1, .fork 2, .yield, .acquire (), .wait () (), .acquire (), .wait () (),
          .acquire (), .signal () (), .release (), .yield, .acquire ()] k ∧
      k.queue (.condition ()) = [2] ∧ k.waitingThreads () = 1 ∧
      (k.signal 1 () ()).queue (.condition ()) = [] ∧
      (∀ h, k.history = .waited 1 () :: h → waitPhase 1 () h = .removed) := by
  obtain ⟨k, hrun, hk⟩ := exists_guarded_run_of_exec Kernel.step (HoldsLock id)
    (initial 0 (fun _ => 0) fun _ => none : Kernel ℕ Unit Unit Unit)
    [.fork 1, .fork 2, .yield, .acquire (), .wait () (), .acquire (), .wait () (),
      .acquire (), .signal () (), .release (), .yield, .acquire ()]
    (fun k => k.queue (.condition ()) = [2] ∧ inside 1 () k.history = true) (by decide)
  obtain ⟨hq, hin⟩ := of_decide_eq_true hk
  obtain ⟨hcount, -, hcalls, hlog⟩ := condition_contract 0 _ _ _ k hrun
  refine ⟨k, hrun, hq, by simp [hcount, hq], ?_, fun h hh => (hlog 1 () h ?_).1⟩
  · have hqueue := (hcalls 1 () hin).2.1 2 [] hq
    simp only [id] at hqueue
    simp [hqueue]
  · rw [hh]

section owner
variable {storage : L → Option T} {k k' : Kernel T S L C}

/-- A move leaves the owner fields and the last acquirers alone, or takes a lock. -/
theorem Move.owner (hm : Move k k') :
    (k'.currentTh = k.currentTh ∧
      ∀ l, lastAcquirer l k'.history = lastAcquirer l k.history) ∨
    ∃ t l, k'.currentTh = Function.update k.currentTh l (some t) ∧
      ∀ m, lastAcquirer m k'.history = if l = m then some t else lastAcquirer m k.history := by
  have hrelease : ∀ (k : Kernel T S L C) t l, (k.release t l).currentTh = k.currentTh ∧
      ∀ m, lastAcquirer m (k.release t l).history = lastAcquirer m k.history := by
    intro k t l
    cases hheld : k.isHeldBy l t with
    | true =>
      rw [release_eq hheld]
      exact ⟨by simp [Kernel.record], fun m => by simp [Kernel.record, lastAcquirer]⟩
    | false =>
      rw [release_eq_record hheld]
      exact ⟨rfl, fun m => rfl⟩
  cases hm with
  | @run t ts hcur hq =>
    obtain ⟨hist, d, hrun, rfl | ⟨v, rfl⟩⟩ := run_eq k t ts
    · exact Or.inl ⟨by rw [hrun], fun l => by rw [hrun]⟩
    · exact Or.inl ⟨by rw [hrun], fun l => by rw [hrun]; rfl⟩
  | @take t l c hcur hin hfree =>
    refine Or.inr ⟨t, l, ?_, fun m => ?_⟩
    · cases c <;> rfl
    · cases c <;> rfl
  | v s =>
    exact Or.inl ⟨by simp [Kernel.v, Kernel.record],
      fun l => by simp [Kernel.v, Kernel.record, lastAcquirer]⟩
  | @release t l hcur => exact Or.inl (hrelease k t l)
  | @wait t c l hcur hcont hheld => exact Or.inl (hrelease _ t l)
  | @wakeWaiter c hw =>
    exact Or.inl ⟨by simp [Kernel.wakeWaiter], fun l => by simp [Kernel.wakeWaiter]⟩
  | _ => exact Or.inl ⟨rfl, fun l => rfl⟩

/-- The owner field names the last thread that took the lock, or what the storage
of a newly constructed lock held. -/
theorem run_owner (main : T) (value : S → ℤ) {as : List (Label T S L C)}
    (hrun : Run Step Free (initial main value storage) as k) (l : L) :
    k.currentTh l = (lastAcquirer l k.history).or (storage l) := by
  refine (run_invariant (I := fun k => ∀ l, k.currentTh l =
    (lastAcquirer l k.history).or (storage l)) hrun (initial_placed main value storage)
    (initial_settled main value storage) (fun l => rfl) ?_).2.2 l
  intro k k' hp h hm l
  rcases hm.owner with ⟨hth, hlast⟩ | ⟨t, m, hth, hlast⟩
  · rw [hth, hlast, h l]
  · rw [hth, hlast]
    by_cases hl : m = l
    · simp [hl]
    · simp [hl, Ne.symm hl, h l]

/-- The owner field of `l` names `t`, which is not inside: it has released the
lock and nobody took it since, or the lock was never taken. -/
def StaleOwner (storage : L → Option T) (t : T) (l : L) (h : List (Event T S L C)) : Prop :=
  inside t l h = false ∧ (lastAcquirer l h).or (storage l) = some t

/-- In every reachable state a thread that the owner field does not name by
mistake is reported as the owner exactly when it is inside of the lock, and when
it is not inside its calls on conditions change nothing. -/
theorem owner_reported (main : T) (value : S → ℤ) (storage : L → Option T)
    (as : List (Label T S L C)) (k : Kernel T S L C)
    (hrun : Run Step Free (initial main value storage) as k) (t : T) (l : L)
    (hstale : ¬ StaleOwner storage t l k.history) :
    (k.isHeldBy l t = true ↔ inside t l k.history = true) ∧
    (inside t l k.history = false → ∀ c,
      k.wait t c l = k ∧ k.signal t c l = k ∧ k.broadcast t c l = k) := by
  obtain ⟨-, -, hl⟩ := run_invariant hrun (initial_placed main value storage)
    (initial_settled main value storage) (initial_lockInv main value storage)
    fun hp hk hm => hk.move hp hm
  have hheld : inside t l k.history = false → k.isHeldBy l t = false := by
    intro hout
    rw [Kernel.isHeldBy, run_owner main value hrun l]
    exact decide_eq_false fun h => hstale ⟨hout, h⟩
  refine ⟨⟨fun h => ?_, hl.isHeldBy⟩, fun hout c => ?_⟩
  · by_contra hout
    rw [hheld (by simpa using hout)] at h
    exact absurd h (by simp)
  · simp [Kernel.wait, Kernel.signal, Kernel.broadcast, hheld hout]

end owner

/-- Thread 1 took the lock last and waits in the ready list; thread 0, which had
released it before, is not taken for the owner. -/
theorem owner_reported_next_owner :
    ∃ k : Kernel ℕ Unit Unit Unit,
      Run Step Free (initial 0 (fun _ => 0) fun _ => some 0)
        [.fork 1, .acquire (), .release (), .yield, .acquire (), .yield] k ∧
      k.isHeldBy () 0 = false ∧ k.isHeldBy () 1 = true ∧ k.wait 0 () () = k := by
  obtain ⟨k, hrun, hk⟩ := exists_run_of_exec Kernel.step
    (initial 0 (fun _ => 0) fun _ => some 0 : Kernel ℕ Unit Unit Unit)
    [.fork 1, .acquire (), .release (), .yield, .acquire (), .yield]
    (fun k => inside 0 () k.history = false ∧ inside 1 () k.history = true ∧
      lastAcquirer () k.history = some 1) (by decide)
  obtain ⟨hout, hin, hlast⟩ := of_decide_eq_true hk
  have h0 := owner_reported 0 _ _ _ k hrun 0 () fun hs => by simp [StaleOwner, hlast] at hs
  have h1 := owner_reported 0 _ _ _ k hrun 1 () fun hs => by simp [StaleOwner, hin] at hs
  refine ⟨k, hrun, ?_, h1.1.mpr hin, (h0.2 hout ()).1⟩
  rw [← Bool.not_eq_true, h0.1, hout]
  exact Bool.false_ne_true

/-- Thread 0 takes the lock and releases it. It is still reported as the owner,
and `Wait` queues it and puts it to sleep. -/
theorem released_owner_reported :
    ∃ k : Kernel ℕ Unit Unit Unit,
      Run Step Free (initial 0 (fun _ => 0) fun _ => none) [.acquire (), .release ()] k ∧
      inside 0 () k.history = false ∧ k.isHeldBy () 0 = true ∧
      (k.wait 0 () ()).queue (.condition ()) = [0] ∧ (k.wait 0 () ()).currentThread = none := by
  obtain ⟨k, hrun, hk⟩ := exists_run_of_exec Kernel.step
    (initial 0 (fun _ => 0) fun _ => none : Kernel ℕ Unit Unit Unit) [.acquire (), .release ()]
    (fun k => inside 0 () k.history = false ∧ k.isHeldBy () 0 = true ∧
      (k.wait 0 () ()).queue (.condition ()) = [0] ∧ (k.wait 0 () ()).currentThread = none)
    (by decide)
  exact ⟨k, hrun, of_decide_eq_true hk⟩

end Nachos.KernelThreads
