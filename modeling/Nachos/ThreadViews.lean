import Nachos.ConditionVariables

/-!
# What a thread sees of the calls of others

A component that is built from the locks, conditions and semaphores of the
kernel shares the kernel with threads that do something else. The view of a
thread is the point where it goes on and the locks it is inside of. A call of
another thread leaves the view as it is, up to the way on from a sleep, which
the thread makes when it is dispatched.
-/
namespace Nachos.KernelThreads
open GuardedRuns

@[ext] structure View (S L C : Type*) where
  cont : Cont S L C
  inside : L → Bool

/-- The way on from a sleep. -/
inductive View.Goes {S L C : Type*} [DecidableEq L] : View S L C → View S L C → Prop
  | start {f : L → Bool} : Goes ⟨.root, f⟩ ⟨.user, f⟩
  | waitReturn {c : C} {l : L} {f : L → Bool} : Goes ⟨.wait c l, f⟩ ⟨.woken c l, f⟩
  | down {s : S} {f : L → Bool} : Goes ⟨.p s, f⟩ ⟨.user, f⟩
  | take {l : L} {c : Option C} {f : L → Bool} :
      Goes ⟨.acquire l c, f⟩ ⟨.user, Function.update f l true⟩

variable {T S L C : Type*} [DecidableEq T] [DecidableEq L]

omit [DecidableEq T] in
theorem View.Goes.ne_user {v v' : View S L C} (h : v.Goes v') : v.cont ≠ .user := by
  cases h <;> simp

def view (k : Kernel T S L C) (t : T) : View S L C := ⟨k.cont t, fun l => inside t l k.history⟩

section views
variable {k k' : Kernel T S L C} {t u : T}

theorem view_congr (hcont : k'.cont u = k.cont u)
    (hin : ∀ l, inside u l k'.history = inside u l k.history) : view k' u = view k u :=
  View.ext hcont (funext hin)

theorem view_update {c : Cont S L C} (hu : u ≠ t) (hcont : k'.cont = Function.update k.cont t c)
    (hin : ∀ l, inside u l k'.history = inside u l k.history) : view k' u = view k u :=
  view_congr (by rw [hcont, Function.update_of_ne hu]) hin

variable [DecidableEq S] [DecidableEq C]

omit [DecidableEq S] [DecidableEq C] in
theorem take_inside {l m : L} {c : Option C} : inside u m (k.take t l c).history =
    if t = u ∧ l = m then true else inside u m k.history := by
  cases c <;> rfl

theorem release_inside {l m : L} : inside u m (k.release t l).history =
    if t = u ∧ l = m then false else inside u m k.history := by
  cases hheld : k.isHeldBy l t with
  | true =>
    rw [release_eq hheld]
    simp [Kernel.record, inside]
  | false =>
    rw [release_eq_record hheld]
    simp [Kernel.record, inside]

/-- The moves of others. -/
theorem Move.view_eq (hm : Move k k') (hu : k.currentThread ≠ some u)
    (hforked : k.status u ≠ .justCreated) : view k' u = view k u := by
  have hne : ∀ {t}, k.currentThread = some t → u ≠ t := by
    intro t hcur hut
    exact hu (hut ▸ hcur)
  cases hm with
  | @run t ts hcur hq =>
    obtain ⟨h, d, hrun, rfl | ⟨v, rfl⟩⟩ := run_eq k t ts
    · rw [hrun]
      rfl
    · rw [hrun]
      rfl
  | start hcur hcont => exact view_update (hne hcur) rfl fun l => rfl
  | waitReturn hcur hcont => exact view_update (hne hcur) rfl fun l => rfl
  | down hcur hcont hv => exact view_update (hne hcur) rfl fun l => rfl
  | blockP hcur hcont hv => exact view_update (hne hcur) rfl fun l => rfl
  | take hcur hin hfree =>
    refine view_update (hne hcur) take_cont fun l => ?_
    rw [take_inside, if_neg fun h => hne hcur h.1.symm]
  | blockAcquire hcur hin hheld htaken => exact view_update (hne hcur) rfl fun l => rfl
  | v s =>
    exact view_congr (by simp [Kernel.v, Kernel.record])
      fun l => by simp [Kernel.v, Kernel.record, inside]
  | release m hcur =>
    refine view_congr (by rw [release_cont]) fun l => ?_
    rw [release_inside, if_neg fun h => hne hcur h.1.symm]
  | wait hcur hcont hheld =>
    refine view_update (hne hcur) waitBlock_cont fun l => ?_
    rw [Kernel.waitBlock, release_inside, if_neg fun h => hne hcur h.1.symm]
    rfl
  | wakeWaiter hw =>
    exact view_congr (by simp [Kernel.wakeWaiter]) fun l => by simp [Kernel.wakeWaiter]
  | yield hcur => rfl
  | @fork w hw =>
    refine view_update (c := .root) (fun huw => hforked (huw ▸ hw)) rfl fun l => rfl
  | finish hcur hcont => exact view_update (hne hcur) rfl fun l => rfl

theorem Resume.view (h : Resume k k') (hforked : k.status u ≠ .justCreated) :
    view k' u = view k u ∨ View.Goes (view k u) (view k' u) := by
  by_cases hu : k.currentThread = some u
  · have hself : ∀ {t}, k.currentThread = some t → u = t := fun h => Option.some.inj (hu.symm.trans h)
    have hbefore : ∀ {c}, k.cont u = c →
        KernelThreads.view k u = ⟨c, fun l => inside u l k.history⟩ := fun h => View.ext h rfl
    cases h with
    | run hcur hq => exact absurd (hu.symm.trans hcur) (by simp)
    | start hcur hcont =>
      obtain rfl := hself hcur
      rw [hbefore hcont]
      have hafter : KernelThreads.view (k.setCont u .user) u = ⟨.user, fun l => inside u l k.history⟩ :=
        View.ext (Function.update_self _ _ _) rfl
      rw [hafter]
      exact Or.inr .start
    | @waitReturn t c l hcur hcont =>
      obtain rfl := hself hcur
      rw [hbefore hcont]
      have hafter : KernelThreads.view (k.setCont u (.woken c l)) u =
          ⟨.woken c l, fun l => inside u l k.history⟩ := View.ext (Function.update_self _ _ _) rfl
      rw [hafter]
      exact Or.inr .waitReturn
    | @down t s hcur hcont hv =>
      obtain rfl := hself hcur
      rw [hbefore hcont]
      have hafter : KernelThreads.view (k.down u s) u = ⟨.user, fun l => inside u l k.history⟩ :=
        View.ext (Function.update_self _ _ _) rfl
      rw [hafter]
      exact Or.inr .down
    | blockP hcur hcont hv =>
      obtain rfl := hself hcur
      exact Or.inl (View.ext ((Function.update_self _ _ _).trans hcont.symm) rfl)
    | @take t l c hcur hcont hfree =>
      obtain rfl := hself hcur
      rw [hbefore hcont]
      have hafter : KernelThreads.view (k.take u l c) u =
          ⟨.user, Function.update (fun l => inside u l k.history) l true⟩ := by
        refine View.ext ?_ (funext fun m => ?_)
        · exact (congrFun take_cont u).trans (Function.update_self _ _ _)
        · refine take_inside.trans ?_
          by_cases hm : m = l
          · simp [hm]
          · simp [hm, Ne.symm hm]
      rw [hafter]
      exact Or.inr .take
    | blockAcquire hcur hcont hheld htaken =>
      obtain rfl := hself hcur
      exact Or.inl (View.ext ((Function.update_self _ _ _).trans hcont.symm) rfl)
  · exact Or.inl (h.quiet.move.view_eq hu hforked)

/-- Only a thread that comes back from a sleep in `P` changes a value. -/
theorem Resume.semaphore (h : Resume k k') (s : S) :
    (k'.value s = k.value s ∧ ∀ u, k'.cont u = .p s ↔ k.cont u = .p s) ∨
    ∃ t, k.cont t = .p s ∧ k.value s ≠ 0 ∧ k'.value s = k.value s - 1 ∧
      k'.cont = Function.update k.cont t .user := by
  have hupdate : ∀ {t : T} {c d : Cont S L C}, k.cont t = c → (c = .p s ↔ d = .p s) → ∀ u,
      Function.update k.cont t d u = .p s ↔ k.cont u = .p s := by
    intro t c d hc hd u
    by_cases hut : u = t
    · rw [hut, Function.update_self, hc, hd]
    · rw [Function.update_of_ne hut]
  cases h with
  | @run t ts hcur hq =>
    obtain ⟨h, d, hrun, -⟩ := run_eq k t ts
    rw [hrun]
    exact Or.inl ⟨rfl, fun u => Iff.rfl⟩
  | start hcur hcont => exact Or.inl ⟨rfl, hupdate hcont (by simp)⟩
  | waitReturn hcur hcont => exact Or.inl ⟨rfl, hupdate hcont (by simp)⟩
  | @down t r hcur hcont hv =>
    by_cases hr : r = s
    · subst hr
      exact Or.inr ⟨t, hcont, hv, by simp [Kernel.down, Kernel.setCont, Kernel.record], rfl⟩
    · refine Or.inl ⟨?_, hupdate hcont (by simpa using hr)⟩
      simp [Kernel.down, Kernel.setCont, Kernel.record, Ne.symm hr]
  | blockP hcur hcont hv => exact Or.inl ⟨rfl, hupdate hcont Iff.rfl⟩
  | @take t l c hcur hcont hfree =>
    refine Or.inl ⟨by cases c <;> rfl, ?_⟩
    rw [take_cont]
    exact hupdate hcont (by simp)
  | blockAcquire hcur hcont hheld htaken => exact Or.inl ⟨rfl, hupdate hcont Iff.rfl⟩

theorem Resumes.forked (h : Resumes k k') (hu : k.status u ≠ .justCreated) :
    k'.status u ≠ .justCreated := by
  induction h with
  | refl => exact hu
  | tail _ h ih => exact h.quiet.move.forked ih

/-- What is kept on the way on from a sleep is kept while others are dispatched. -/
theorem Resumes.view {P : View S L C → Prop} (hP : ∀ {v v'}, P v → View.Goes v v' → P v')
    (h : Resumes k k') (hforked : k.status u ≠ .justCreated) (hu : P (view k u)) :
    P (KernelThreads.view k' u) := by
  induction h with
  | refl => exact hu
  | tail hk h ih =>
    rcases h.view (Resumes.forked hk hforked) with heq | hgoes
    · rwa [heq]
    · exact hP ih hgoes

/-- In `Acquire` of `l`, or back from it. -/
def Locking (l : L) (c : Option C) (v : View S L C) : Prop :=
  (v.cont = .user ∧ v.inside l = true) ∨ v.cont = .acquire l c

omit [DecidableEq S] [DecidableEq C] in
theorem Locking.goes {l : L} {c : Option C} {v v' : View S L C} (h : Locking l c v)
    (hg : View.Goes v v') : Locking l c v' := by
  rcases h with ⟨h, hin⟩ | h
  · exact absurd h hg.ne_user
  · cases hg with
    | take =>
      obtain ⟨rfl, rfl⟩ := Cont.acquire.inj h
      exact Or.inl ⟨rfl, Function.update_self _ _ _⟩
    | _ => cases h

theorem acquireLoop_locking {l : L} {c : Option C} (hcur : k.currentThread = some t)
    (hforked : k.status t ≠ .justCreated) (hin : InAcquire k t l c) :
    Locking l c (KernelThreads.view (k.acquireLoop Kernel.sleep t l c) t) := by
  rcases acquireLoop_cases Kernel.sleep k t l c with ⟨hheld, htaken, heq⟩ | ⟨hfree, heq⟩
  · rw [heq]
    have hm := Move.blockAcquire hcur hin hheld htaken
    refine (sleep_resumes rfl).view Locking.goes (hm.forked hforked) ?_
    exact Or.inr (Function.update_self _ _ _)
  · rw [heq]
    refine Or.inl ⟨(congrFun take_cont t).trans (Function.update_self _ _ _), ?_⟩
    exact take_inside.trans (by simp)

end views

/-- Steps that are no call of the running thread. -/
def Passive : Label T S L C → Prop
  | .yield => True
  | .handlerV _ => True
  | .idleReturn => True
  | _ => False

/-- What a step changes before the processor is given away. -/
structure Own (a : Label T S L C) (k k₁ : Kernel T S L C) : Prop where
  view : ∀ u, (k.currentThread = some u → Passive a) → k.status u ≠ .justCreated →
    view k₁ u = view k u
  forked : ∀ u, k.status u ≠ .justCreated → k₁.status u ≠ .justCreated
  value : ∀ s, a ≠ .p s → a ≠ .v s → a ≠ .handlerV s → k₁.value s = k.value s
  asks : ∀ u s, a ≠ .p s → k₁.cont u = .p s → k.cont u = .p s

section own
variable [DecidableEq S] [DecidableEq C] {k k' : Kernel T S L C} {t u : T} {a : Label T S L C}

omit [DecidableEq S] [DecidableEq C] in
theorem Own.refl (a : Label T S L C) (k : Kernel T S L C) : Own a k k :=
  ⟨fun _ _ _ => rfl, fun _ hu => hu, fun _ _ _ _ => rfl, fun _ _ _ hu => hu⟩

theorem Move.own (hm : Move k k') (ha : ¬ Passive a) {c : Cont S L C}
    (hcont : k'.cont = Function.update k.cont t c) (hc : ∀ s, a ≠ .p s → c ≠ .p s)
    (hvalue : ∀ s, a ≠ .p s → a ≠ .v s → a ≠ .handlerV s → k'.value s = k.value s) :
    Own a k k' := by
  refine ⟨fun _ hu hforked => hm.view_eq (fun hcur => ha (hu hcur)) hforked,
    fun _ hu => hm.forked hu, hvalue, fun u s has hu => ?_⟩
  rw [hcont] at hu
  by_cases hut : u = t
  · rw [hut, Function.update_self] at hu
    exact absurd hu (hc s has)
  · rwa [Function.update_of_ne hut] at hu

theorem release_value {l : L} : (k.release t l).value = k.value := by
  cases h : k.isHeldBy l t with
  | true => simp [release_eq h, Kernel.record, wake_value]
  | false => simp [release_eq_record h, Kernel.record]

theorem v_own {s : S} (ha : a = .v s ∨ a = .handlerV s) : Own a k (k.v s) := by
  refine ⟨fun u hu hforked => view_congr ?_ fun l => ?_, fun u hu => (Move.v s).forked hu,
    fun s' hp hv hh => ?_, fun u s' _ hu => by simpa [Kernel.v, Kernel.record] using hu⟩
  · simp [Kernel.v, Kernel.record]
  · simp [Kernel.v, Kernel.record, inside]
  · have hs : s' ≠ s := by
      rintro rfl
      exact ha.elim hv hh
    simp [Kernel.v, Kernel.record, wake_value, hs]

theorem wakeWaiter_own (c : C) : Own a k (k.wakeWaiter c) := by
  refine ⟨fun u hu hforked => view_congr ?_ fun l => ?_, fun u hu => ?_, fun s _ _ _ => ?_,
    fun u s _ hu => by simpa [Kernel.wakeWaiter] using hu⟩
  · simp [Kernel.wakeWaiter]
  · simp [Kernel.wakeWaiter]
  · refine wake_forked ?_ (.condition c)
    exact hu
  · rw [Kernel.wakeWaiter, wake_value]

theorem broadcastLoop_own (c : C) (n : ℕ) : ∀ k : Kernel T S L C,
    Own a k (Kernel.broadcastLoop c n k) := by
  induction n with
  | zero => exact fun k => Own.refl a k
  | succ n ih =>
    intro k
    have hwake : Own a k (k.wakeWaiter c) := wakeWaiter_own c
    have hrest := ih (k.wakeWaiter c)
    have hcur : (k.wakeWaiter c).currentThread = k.currentThread := by simp [Kernel.wakeWaiter]
    refine ⟨fun u hu hforked => ?_, fun u hu => hrest.forked u (hwake.forked u hu),
      fun s hp hv hh => (hrest.value s hp hv hh).trans (hwake.value s hp hv hh),
      fun u s has hu => hwake.asks u s has (hrest.asks u s has hu)⟩
    exact (hrest.view u (by rwa [hcur]) (hwake.forked u hforked)).trans (hwake.view u hu hforked)

theorem yield_own (hcur : k.currentThread = some t) :
    ∃ k₁, Own .yield k k₁ ∧ Resumes k₁ (k.yield t) := by
  unfold Kernel.yield
  split_ifs
  · exact ⟨k, Own.refl _ k, .refl⟩
  · exact ⟨k.yieldReady t, ⟨fun _ _ _ => rfl, fun _ hu => (Move.yield hcur).forked hu,
      fun _ _ _ _ => rfl, fun _ _ _ hu => hu⟩, sleep_resumes rfl⟩

theorem acquireLoop_own {l : L} {c : Option C} (hcur : k.currentThread = some t)
    (hin : InAcquire k t l c) :
    ∃ k₁, Own (.acquire l) k k₁ ∧ Resumes k₁ (k.acquireLoop Kernel.sleep t l c) := by
  rcases acquireLoop_cases Kernel.sleep k t l c with ⟨hheld, htaken, heq⟩ | ⟨hfree, heq⟩
  · rw [heq]
    exact ⟨_, (Move.blockAcquire hcur hin hheld htaken).own id rfl (by simp) fun _ _ _ _ => rfl,
      sleep_resumes rfl⟩
  · rw [heq]
    refine ⟨_, (Move.take hcur hin hfree).own id take_cont (by simp) fun _ _ _ _ => ?_, .refl⟩
    cases c <;> rfl

theorem call_own (hcur : k.currentThread = some t) (hcont : k.cont t = .user)
    (h : k.call t a = some k') : ∃ k₁, Own a k k₁ ∧ Resumes k₁ k' := by
  cases a with
  | p s =>
    obtain rfl := Option.some.inj h
    rcases pLoop_cases Kernel.sleep k t s with ⟨hv, heq⟩ | ⟨hv, heq⟩
    · rw [heq]
      exact ⟨_, (Move.blockP hcur (Or.inl hcont) hv).own id rfl (fun _ has h => has (by simpa using h))
        fun _ _ _ _ => rfl, sleep_resumes rfl⟩
    · rw [heq]
      refine ⟨_, (Move.down hcur (Or.inl hcont) hv).own id rfl (by simp) fun s' hp _ _ => ?_, .refl⟩
      have hs : s' ≠ s := fun hs => hp (by rw [hs])
      simp [Kernel.down, Kernel.setCont, Kernel.record, hs]
  | v s =>
    obtain rfl := Option.some.inj h
    exact ⟨_, v_own (Or.inl rfl), .refl⟩
  | acquire l =>
    obtain rfl := Option.some.inj h
    exact acquireLoop_own hcur (Or.inl ⟨hcont, rfl⟩)
  | release l =>
    obtain rfl := Option.some.inj h
    have hself : (k.release t l).cont = Function.update k.cont t .user := by
      rw [release_cont, ← hcont, Function.update_eq_self]
    exact ⟨_, (Move.release l hcur).own id hself (by simp) fun _ _ _ _ => by rw [release_value],
      .refl⟩
  | wait c l =>
    obtain rfl := Option.some.inj h
    unfold Kernel.wait
    split_ifs with hheld
    · refine ⟨_, (Move.wait hcur hcont hheld).own id waitBlock_cont (by simp) fun _ _ _ _ => ?_,
        sleep_resumes waitBlock_currentThread⟩
      rw [Kernel.waitBlock, release_value]
      rfl
    · exact ⟨k, Own.refl _ k, .refl⟩
  | signal c l =>
    obtain rfl := Option.some.inj h
    unfold Kernel.signal
    split_ifs
    · exact ⟨_, wakeWaiter_own c, .refl⟩
    · exact ⟨k, Own.refl _ k, .refl⟩
    · exact ⟨k, Own.refl _ k, .refl⟩
  | broadcast c l =>
    obtain rfl := Option.some.inj h
    unfold Kernel.broadcast
    split_ifs
    · exact ⟨_, broadcastLoop_own c _ k, .refl⟩
    · exact ⟨k, Own.refl _ k, .refl⟩
  | yield =>
    obtain rfl := Option.some.inj h
    exact yield_own hcur
  | fork w =>
    simp only [Kernel.call] at h
    split_ifs at h with hw
    obtain rfl := Option.some.inj h
    exact ⟨_, (Move.fork hw).own id rfl (by simp) fun _ _ _ _ => rfl, .refl⟩
  | finish =>
    obtain rfl := Option.some.inj h
    exact ⟨_, (Move.finish hcur hcont).own id rfl (by simp) fun _ _ _ _ => rfl,
      sleep_resumes rfl⟩
  | handlerV s => cases h
  | idleReturn => cases h

theorem step_own (h : k.step a = some k') : ∃ k₁, Own a k k₁ ∧ Resumes k₁ k' := by
  rcases step_cases h with ⟨s, rfl, rfl⟩ | ⟨rfl, hcur, rfl⟩ | ⟨t, hcur, hcont, h⟩ |
    ⟨t, c, l, hcur, hcont, h⟩
  · exact ⟨_, v_own (Or.inr rfl), .refl⟩
  · exact ⟨k, Own.refl _ k, sleep_resumes hcur⟩
  · exact call_own hcur hcont h
  · cases a with
    | acquire m =>
      simp only [Kernel.callWoken] at h
      split_ifs at h with hm
      obtain rfl := hm
      obtain rfl := Option.some.inj h
      exact acquireLoop_own hcur (Or.inr (Or.inl ⟨c, hcont, rfl⟩))
    | yield =>
      obtain rfl := Option.some.inj h
      exact yield_own hcur
    | _ => cases h

/-- What is kept on the way on from a sleep is kept for every thread by every
step that is not a call of its own. -/
theorem step_view {P : View S L C → Prop} (hP : ∀ {v v'}, P v → View.Goes v v' → P v')
    (h : k.step a = some k') (hu : k.currentThread = some u → Passive a)
    (hforked : k.status u ≠ .justCreated) (hview : P (view k u)) : P (view k' u) := by
  obtain ⟨k₁, hown, hrest⟩ := step_own h
  refine hrest.view hP (hown.forked u hforked) ?_
  rwa [hown.view u hu hforked]

theorem step_forked (h : k.step a = some k') (hu : k.status u ≠ .justCreated) :
    k'.status u ≠ .justCreated := by
  obtain ⟨k₁, hown, hrest⟩ := step_own h
  exact hrest.forked (hown.forked u hu)

/-- What holds in every reachable state of the kernel. -/
structure Sound (k : Kernel T S L C) : Prop where
  placed : Placed k
  settled : Settled k
  locks : LockInv k
  conditions : ConditionInv k

omit [DecidableEq S] in
theorem Sound.current_forked (h : Sound k) (hcur : k.currentThread = some t) :
    k.status t ≠ .justCreated := by
  rw [h.placed.current t hcur]
  decide

theorem Sound.step (h : Sound k) (hstep : k.step a = some k') : Sound k' := by
  have hinv : Placed k' ∧ LockInv k' ∧ ConditionInv k' := step_invariant
    (I := fun k => Placed k ∧ LockInv k ∧ ConditionInv k)
    (fun hk hm => ⟨hk.1.move hm, hk.2.1.move hk.1 hm, hk.2.2.move hk.1 hm⟩)
    ⟨h.placed, h.locks, h.conditions⟩ hstep
  exact ⟨hinv.1, h.settled.step h.placed hstep, hinv.2.1, hinv.2.2⟩

omit [DecidableEq S] in
theorem initial_sound (main : T) (value : S → ℤ) (currentTh : L → Option T) :
    Sound (initial main value currentTh : Kernel T S L C) :=
  ⟨initial_placed main value currentTh, initial_settled main value currentTh,
    initial_lockInv main value currentTh, initial_conditionInv main value currentTh⟩

end own
end Nachos.KernelThreads
