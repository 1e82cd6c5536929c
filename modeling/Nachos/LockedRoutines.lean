import Nachos.GuardedRuns

/-!
# Routines under locks

A routine takes and releases locks, waits for conditions and changes the data that the
locks are for. Threads call one routine after the other, and the routines of several
threads are interleaved command by command. A lock is a flag and an owner field:
`acquire` passes when the flag is clear or the field names the caller, and `release`
clears the flag, if the field names the caller, but not the field.

`Meets` follows one lock through the code of a routine: it says of every way through the
code whether the lock is held when the routine returns, stops or starts another turn of
its loop. What every routine meets on its own holds for all threads along every run.
-/
namespace Nachos.LockedRoutines
open GuardedRuns

/-- `act` goes on with the data as they were before the change. -/
inductive Code (L C S R A B : Type) where
  | ret (a : A)
  | stop (b : B)
  | acquire (l : L) (k : Code L C S R A B)
  | release (l : L) (k : Code L C S R A B)
  | wait (c : C) (l : L) (k : Code L C S R A B)
  | broadcast (c : C) (l : L) (k : Code L C S R A B)
  | act (f : S → S) (k : S → Code L C S R A B)
  | loop (r : R)

/-- The code of every call, and of one turn of every loop. -/
structure Program (Q L C S R A B : Type) where
  entry : Q → Code L C S R A B
  turn : R → Code L C S R A B

inductive Activity (L C S R A B : Type) where
  | idle
  | runs (k : Code L C S R A B)
  | sleeps (c : C) (k : Code L C S R A B)

def Activity.isIdle {L C S R A B : Type} : Activity L C S R A B → Bool
  | .idle => true
  | _ => false

structure State (T L C S R A B : Type) where
  data : S
  lockTaken : L → Bool
  currentTh : L → Option T
  thread : T → Activity L C S R A B

inductive Label (T Q : Type) where
  | call (t : T) (q : Q)
  | next (t : T)

variable {T Q L C S R A B : Type} [DecidableEq T] [DecidableEq L]

namespace State

def goOn (s : State T L C S R A B) (t : T) (k : Code L C S R A B) : State T L C S R A B :=
  { s with thread := Function.update s.thread t (.runs k) }

def take (s : State T L C S R A B) (t : T) (l : L) : State T L C S R A B :=
  { s with
    lockTaken := Function.update s.lockTaken l true
    currentTh := Function.update s.currentTh l (some t) }

def free (s : State T L C S R A B) (t : T) (l : L) : State T L C S R A B :=
  { s with
    lockTaken := if s.currentTh l = some t then Function.update s.lockTaken l false
      else s.lockTaken }

def wakeAll [DecidableEq C] (s : State T L C S R A B) (c : C) : State T L C S R A B :=
  { s with thread := fun u =>
      match s.thread u with
      | .sleeps d k => if d = c then .runs k else .sleeps d k
      | a => a }

/-- The next command of a thread; `none` if it waits, or has stopped for good. -/
def next [DecidableEq C] (p : Program Q L C S R A B) (s : State T L C S R A B) (t : T) :
    Option (State T L C S R A B) :=
  match s.thread t with
  | .runs (.ret _) => some { s with thread := Function.update s.thread t .idle }
  | .runs (.acquire l k) =>
    if s.lockTaken l = true ∧ s.currentTh l ≠ some t then none else some ((s.take t l).goOn t k)
  | .runs (.release l k) => some ((s.free t l).goOn t k)
  | .runs (.wait c l k) =>
    if s.currentTh l = some t then
      some { s.free t l with thread := Function.update s.thread t (.sleeps c (.acquire l k)) }
    else some (s.goOn t k)
  | .runs (.broadcast c l k) =>
    some ((if s.currentTh l = some t then s.wakeAll c else s).goOn t k)
  | .runs (.act f k) => some { s.goOn t (k s.data) with data := f s.data }
  | .runs (.loop r) => some (s.goOn t (p.turn r))
  | _ => none

def call (p : Program Q L C S R A B) (s : State T L C S R A B) (t : T) (q : Q) :
    Option (State T L C S R A B) :=
  match s.thread t with
  | .idle => some (s.goOn t (p.entry q))
  | _ => none

def step [DecidableEq C] (p : Program Q L C S R A B) (s : State T L C S R A B) :
    Label T Q → Option (State T L C S R A B)
  | .call t q => s.call p t q
  | .next t => s.next p t

/-- The thread has taken the lock and not released it. -/
def holds (s : State T L C S R A B) (l : L) (t : T) : Bool :=
  s.lockTaken l && decide (s.currentTh l = some t)

end State

def Step [DecidableEq C] (p : Program Q L C S R A B) (s : State T L C S R A B) (a : Label T Q)
    (s' : State T L C S R A B) : Prop :=
  s.step p a = some s'

/-- What is asked of the code: an invariant of the data, and whether one lock may be held at a
return and before a turn of a loop. -/
structure Spec (L S R B : Type) where
  lock : L
  data : S → Prop
  returns : Bool → Prop
  stops : B → Prop
  turns : R → Bool → Prop

variable {σ : Spec L S R B} {p : Program Q L C S R A B} {s s' : State T L C S R A B}
  {t u : T} {l l' : L} {k : Code L C S R A B}

def Meets (σ : Spec L S R B) : Code L C S R A B → Bool → Prop
  | .ret _, held => σ.returns held
  | .stop b, _ => σ.stops b
  | .acquire l k, held => Meets σ k (held || decide (l = σ.lock))
  | .release l k, held => Meets σ k (held && !decide (l = σ.lock))
  | .wait _ l k, held => Meets σ k held ∧ Meets σ k (held || decide (l = σ.lock))
  | .broadcast _ _ k, held => Meets σ k held
  | .act f k, held => ∀ s, σ.data s → σ.data (f s) ∧ Meets σ (k s) held
  | .loop r, held => σ.turns r held

def Activity.Meets (σ : Spec L S R B) : Activity L C S R A B → Bool → Prop
  | .idle, held => σ.returns held
  | .runs k, held => LockedRoutines.Meets σ k held
  | .sleeps _ k, held => LockedRoutines.Meets σ k held

structure Kept (σ : Spec L S R B) (s : State T L C S R A B) : Prop where
  data : σ.data s.data
  owned : s.lockTaken σ.lock = true → ∃ t, s.currentTh σ.lock = some t
  threads : ∀ t, (s.thread t).Meets σ (s.holds σ.lock t)

section holds

theorem holds_take_self : (s.take t l).holds σ.lock t =
    (s.holds σ.lock t || decide (l = σ.lock)) := by
  by_cases h : l = σ.lock
  · subst h
    simp [State.holds, State.take]
  · simp [State.holds, State.take, Function.update_of_ne (Ne.symm h), h]

/-- A lock that another thread holds cannot be taken. -/
theorem holds_take_of_ne (hpass : ¬(s.lockTaken l = true ∧ s.currentTh l ≠ some t)) (hu : u ≠ t) :
    (s.take t l).holds σ.lock u = s.holds σ.lock u := by
  by_cases h : l = σ.lock
  · subst h
    have hnot : s.holds σ.lock u = false := by
      by_contra hheld
      simp only [State.holds, Bool.not_eq_false, Bool.and_eq_true, decide_eq_true_eq] at hheld
      refine hpass ⟨hheld.1, ?_⟩
      rw [hheld.2]
      simpa using hu
    rw [hnot]
    simpa [State.holds, State.take] using Ne.symm hu
  · simp [State.holds, State.take, Function.update_of_ne (Ne.symm h)]

theorem holds_free_self : (s.free t l).holds σ.lock t =
    (s.holds σ.lock t && !decide (l = σ.lock)) := by
  by_cases howner : s.currentTh l = some t
  · by_cases h : l = σ.lock
    · subst h
      simp [State.holds, State.free, howner]
    · simp [State.holds, State.free, howner, Function.update_of_ne (Ne.symm h), h]
  · by_cases h : l = σ.lock
    · subst h
      simp [State.holds, State.free, howner]
    · simp [State.holds, State.free, howner, h]

theorem holds_free_of_ne (hu : u ≠ t) : (s.free t l).holds σ.lock u = s.holds σ.lock u := by
  by_cases howner : s.currentTh l = some t
  · by_cases h : l = σ.lock
    · subst h
      have hne : ¬t = u := Ne.symm hu
      simp [State.holds, State.free, howner, hne]
    · simp [State.holds, State.free, howner, Function.update_of_ne (Ne.symm h)]
  · simp [State.holds, State.free, howner]

end holds

/-- A change by thread `t` alone. -/
theorem Kept.update (h : Kept σ s) {a : Activity L C S R A B} (hdata : σ.data s'.data)
    (howned : s'.lockTaken σ.lock = true → ∃ t, s'.currentTh σ.lock = some t)
    (hthread : s'.thread = Function.update s.thread t a)
    (hself : a.Meets σ (s'.holds σ.lock t))
    (hrest : ∀ u, u ≠ t → s'.holds σ.lock u = s.holds σ.lock u) : Kept σ s' := by
  refine ⟨hdata, howned, fun u => ?_⟩
  rw [hthread]
  by_cases hu : u = t
  · subst hu
    rw [Function.update_self]
    exact hself
  · rw [Function.update_of_ne hu, hrest u hu]
    exact h.threads u

theorem owned_take (h : Kept σ s) :
    (s.take t l).lockTaken σ.lock = true → ∃ u, (s.take t l).currentTh σ.lock = some u := by
  intro htaken
  by_cases hl : σ.lock = l
  · exact ⟨t, by simp [State.take, hl]⟩
  · simp only [State.take, Function.update_of_ne hl] at htaken ⊢
    exact h.owned htaken

theorem owned_free (h : Kept σ s) :
    (s.free t l).lockTaken σ.lock = true → ∃ u, (s.free t l).currentTh σ.lock = some u := by
  intro htaken
  refine h.owned ?_
  by_cases howner : s.currentTh l = some t
  · by_cases hl : σ.lock = l
    · simp [State.free, howner, hl] at htaken
    · simpa [State.free, howner, Function.update_of_ne hl] using htaken
  · simpa [State.free, howner] using htaken

theorem Kept.wakeAll [DecidableEq C] (h : Kept σ s) (c : C) : Kept σ (s.wakeAll c) := by
  refine ⟨h.data, h.owned, fun u => ?_⟩
  have hu := h.threads u
  show Activity.Meets σ (match s.thread u with
    | .sleeps d k => if d = c then .runs k else .sleeps d k
    | a => a) (s.holds σ.lock u)
  cases ht : s.thread u with
  | idle =>
    rw [ht] at hu
    exact hu
  | runs k =>
    rw [ht] at hu
    exact hu
  | sleeps d k =>
    rw [ht] at hu
    show Activity.Meets σ (if d = c then .runs k else .sleeps d k) _
    split_ifs
    · exact hu
    · exact hu

/-- What the code of calls and of loops has to meet. -/
structure Spec.Sound (σ : Spec L S R B) (p : Program Q L C S R A B) (calls : Q → Prop) : Prop where
  entry : ∀ q held, calls q → σ.returns held → Meets σ (p.entry q) held
  turn : ∀ r held, σ.turns r held → Meets σ (p.turn r) held

variable {calls : Q → Prop}

/-- One command of a thread. -/
theorem Kept.next [DecidableEq C] (hp : σ.Sound p calls) (h : Kept σ s)
    (hstep : s.next p t = some s') : Kept σ s' := by
  have ht := h.threads t
  rw [State.next] at hstep
  split at hstep
  · rename_i a hcode
    obtain rfl := Option.some.inj hstep
    rw [hcode] at ht
    exact h.update h.data h.owned rfl ht fun _ _ => rfl
  · rename_i l k hcode
    split_ifs at hstep with hpass
    obtain rfl := Option.some.inj hstep
    rw [hcode] at ht
    refine h.update h.data (owned_take h) rfl ?_ fun u hu => holds_take_of_ne hpass hu
    show Meets σ k ((s.take t l).holds σ.lock t)
    rw [holds_take_self]
    exact ht
  · rename_i l k hcode
    obtain rfl := Option.some.inj hstep
    rw [hcode] at ht
    refine h.update h.data (owned_free h) rfl ?_ fun u hu => holds_free_of_ne hu
    show Meets σ k ((s.free t l).holds σ.lock t)
    rw [holds_free_self]
    exact ht
  · rename_i c l k hcode
    rw [hcode] at ht
    split_ifs at hstep with howner
    · -- It sleeps before the `acquire` at the end of the wait.
      obtain rfl := Option.some.inj hstep
      refine h.update h.data (owned_free h) rfl ?_ fun u hu => holds_free_of_ne hu
      show Meets σ k ((s.free t l).holds σ.lock t || decide (l = σ.lock))
      have hheld : ((s.free t l).holds σ.lock t || decide (l = σ.lock)) =
          (s.holds σ.lock t || decide (l = σ.lock)) := by
        rw [holds_free_self]
        cases decide (l = σ.lock) <;> simp
      rw [hheld]
      exact ht.2
    · obtain rfl := Option.some.inj hstep
      exact h.update h.data h.owned rfl ht.1 fun _ _ => rfl
  · rename_i c l k hcode
    obtain rfl := Option.some.inj hstep
    rw [hcode] at ht
    split_ifs
    · exact (h.wakeAll c).update h.data h.owned rfl ht fun _ _ => rfl
    · exact h.update h.data h.owned rfl ht fun _ _ => rfl
  · rename_i f k hcode
    obtain rfl := Option.some.inj hstep
    rw [hcode] at ht
    obtain ⟨hdata, hmeets⟩ := ht s.data h.data
    exact h.update hdata h.owned rfl hmeets fun _ _ => rfl
  · rename_i r hcode
    obtain rfl := Option.some.inj hstep
    rw [hcode] at ht
    exact h.update h.data h.owned rfl (hp.turn r _ ht) fun _ _ => rfl
  · cases hstep

theorem Kept.call (hp : σ.Sound p calls) (h : Kept σ s) {q : Q} (hq : calls q)
    (hstep : s.call p t q = some s') : Kept σ s' := by
  have ht := h.threads t
  rw [State.call] at hstep
  split at hstep
  · rename_i hidle
    obtain rfl := Option.some.inj hstep
    rw [hidle] at ht
    exact h.update h.data h.owned rfl (hp.entry q _ hq ht) fun _ _ => rfl
  · cases hstep

/-- The guard of a run: only these calls are made. -/
def Only (calls : Q → Prop) (_ : State T L C S R A B) : Label T Q → Prop
  | .call _ q => calls q
  | .next _ => True

instance [DecidablePred calls] (s : State T L C S R A B) (a : Label T Q) :
    Decidable (Only calls s a) :=
  match a with
  | .call _ q => inferInstanceAs (Decidable (calls q))
  | .next _ => isTrue trivial

/-- What every routine meets on its own holds along every run. -/
theorem Kept.run [DecidableEq C] (hp : σ.Sound p calls) (h : Kept σ s) {as : List (Label T Q)}
    (hrun : Run (Step p) (Only calls) s as s') : Kept σ s' := by
  refine hrun.invariant h fun {s a s'} hs hguard hstep => ?_
  cases a with
  | call t q => exact hs.call hp hguard hstep
  | next t => exact hs.next hp hstep

/-! ### A thread alone -/

/-- How far a routine comes on its own. -/
inductive End (L C S R A B : Type) where
  | returned (a : A)
  | stopped (b : B)
  | turns (r : R)
  | sleeps (c : C) (k : Code L C S R A B)

def End.activity : End L C S R A B → Activity L C S R A B
  | .returned _ => .idle
  | .stopped b => .runs (.stop b)
  | .turns r => .runs (.loop r)
  | .sleeps c k => .sleeps c k

namespace Code

/-- The routine without other threads; `owns` says which owner fields name the caller. -/
def perform (owns : L → Bool) : Code L C S R A B → S → End L C S R A B × S
  | .ret a, s => (.returned a, s)
  | .stop b, s => (.stopped b, s)
  | .acquire l k, s => perform (Function.update owns l true) k s
  | .release _ k, s => perform owns k s
  | .wait c l k, s => if owns l then (.sleeps c (.acquire l k), s) else perform owns k s
  | .broadcast _ _ k, s => perform owns k s
  | .act f k, s => perform owns (k s) (f s)
  | .loop r, s => (.turns r, s)

/-- The locks that it acquires on this way. -/
def acquires (owns : L → Bool) : Code L C S R A B → S → List L
  | .ret _, _ => []
  | .stop _, _ => []
  | .acquire l k, s => l :: acquires (Function.update owns l true) k s
  | .release _ k, s => acquires owns k s
  | .wait _ l k, s => if owns l then [] else acquires owns k s
  | .broadcast _ _ k, s => acquires owns k s
  | .act f k, s => acquires owns (k s) (f s)
  | .loop _, _ => []

end Code

/-- Some commands of thread `t`, with no other thread in between. -/
def Reaches [DecidableEq C] (p : Program Q L C S R A B) (t : T) :
    State T L C S R A B → State T L C S R A B → Prop :=
  Relation.ReflTransGen fun s s' => s.next p t = some s'

theorem lockTaken_free (h : (s.free t l).lockTaken l' = true) : s.lockTaken l' = true := by
  by_cases howner : s.currentTh l = some t
  · by_cases hl : l' = l
    · simp [State.free, howner, hl] at h
    · simpa [State.free, howner, Function.update_of_ne hl] using h
  · simpa [State.free, howner] using h

/-- A thread that finds the locks free, or its own, gets as far as `perform` says. -/
theorem reaches_perform [DecidableEq C] (hcode : s.thread t = .runs k)
    (hlocks : ∀ l ∈ k.acquires (fun l => decide (s.currentTh l = some t)) s.data,
      s.lockTaken l = true → s.currentTh l = some t) :
    ∃ s', Reaches p t s s' ∧
      s'.data = (k.perform (fun l => decide (s.currentTh l = some t)) s.data).2 ∧
      s'.thread t = (k.perform (fun l => decide (s.currentTh l = some t)) s.data).1.activity := by
  -- The invariant is `hlocks`: the thread may take every lock that it has still to acquire.
  induction k generalizing s with
  | ret a =>
    have hstep : s.next p t = some { s with thread := Function.update s.thread t .idle } := by
      rw [State.next, hcode]
    exact ⟨_, .single hstep, rfl, Function.update_self ..⟩
  | stop b => exact ⟨s, .refl, rfl, hcode⟩
  | loop r => exact ⟨s, .refl, rfl, hcode⟩
  | acquire l k ih =>
    have hpass : ¬(s.lockTaken l = true ∧ s.currentTh l ≠ some t) := fun h =>
      h.2 (hlocks l List.mem_cons_self h.1)
    have hstep : s.next p t = some ((s.take t l).goOn t k) := by
      rw [State.next, hcode]
      exact if_neg hpass
    have howns : (fun m => decide (((s.take t l).goOn t k).currentTh m = some t)) =
        Function.update (fun m => decide (s.currentTh m = some t)) l true := by
      funext m
      by_cases hm : m = l
      · simp [State.take, State.goOn, hm]
      · simp [State.take, State.goOn, Function.update_of_ne hm]
    obtain ⟨s', hreach, hdata, hthread⟩ := ih (s := (s.take t l).goOn t k)
      (Function.update_self ..) fun m hm htaken => by
        rw [howns] at hm
        by_cases hml : m = l
        · simp [State.take, State.goOn, hml]
        · simp only [State.take, State.goOn, Function.update_of_ne hml] at htaken ⊢
          exact hlocks m (List.mem_cons_of_mem _ hm) htaken
    rw [howns] at hdata hthread
    exact ⟨s', .head hstep hreach, hdata, hthread⟩
  | release l k ih =>
    have hstep : s.next p t = some ((s.free t l).goOn t k) := by
      rw [State.next, hcode]
    obtain ⟨s', hreach, hdata, hthread⟩ := ih (s := (s.free t l).goOn t k)
      (Function.update_self ..) fun m hm htaken => hlocks m hm (lockTaken_free htaken)
    exact ⟨s', .head hstep hreach, hdata, hthread⟩
  | wait c l k ih =>
    by_cases howner : s.currentTh l = some t
    · have hstep : s.next p t = some { s.free t l with
          thread := Function.update s.thread t (.sleeps c (.acquire l k)) } := by
        rw [State.next, hcode]
        exact if_pos howner
      refine ⟨_, .single hstep, ?_, ?_⟩
      · simp [Code.perform, howner, State.free]
      · simp [Code.perform, howner, End.activity]
    · have hstep : s.next p t = some (s.goOn t k) := by
        rw [State.next, hcode]
        exact if_neg howner
      have howns : ¬decide (s.currentTh l = some t) = true := by simpa using howner
      rw [Code.acquires, if_neg howns] at hlocks
      rw [Code.perform, if_neg howns]
      obtain ⟨s', hreach, hdata, hthread⟩ := ih (s := s.goOn t k) (Function.update_self ..) hlocks
      exact ⟨s', .head hstep hreach, hdata, hthread⟩
  | broadcast c l k ih =>
    let woken := if s.currentTh l = some t then (s.wakeAll c).thread else s.thread
    have hstep : s.next p t = some { s with thread := Function.update woken t (.runs k) } := by
      rw [State.next, hcode]
      by_cases howner : s.currentTh l = some t
      · simp [woken, howner, State.goOn, State.wakeAll]
      · simp [woken, howner, State.goOn]
    obtain ⟨s', hreach, hdata, hthread⟩ := ih
      (s := { s with thread := Function.update woken t (.runs k) }) (Function.update_self ..) hlocks
    exact ⟨s', .head hstep hreach, hdata, hthread⟩
  | act f k ih =>
    have hstep : s.next p t = some { s.goOn t (k s.data) with data := f s.data } := by
      rw [State.next, hcode]
    obtain ⟨s', hreach, hdata, hthread⟩ := ih s.data
      (s := { s.goOn t (k s.data) with data := f s.data }) (Function.update_self ..) hlocks
    exact ⟨s', .head hstep hreach, hdata, hthread⟩

end Nachos.LockedRoutines
