import Nachos.CriticalSections

/-!
# The shared counter of `threads/threadtest.cc`

`ThreadTest` with `HW1_SEMAPHORES` or `HW1_LOCKS`: every thread adds one to
`SharedVariable` five times, with a `Yield` between the read and the write, sets its flag
in `ThreadPool`, waits for the flags of the others and prints the variable. Each access to
a shared variable is a step of its own, so that the timer can switch threads everywhere.
-/
namespace Nachos.SharedCounter
open GuardedRuns KernelThreads

/-- The next statement of a thread. -/
inductive Point where
  | notForked
  /-- the loop of `ThreadTest` that forks the other threads -/
  | fork (i : ℕ)
  | enter (num : ℕ)
  | read (num : ℕ)
  | yieldInside (num : ℕ)
  | write (num : ℕ)
  | leave (num : ℕ)
  | yieldOutside (num : ℕ)
  /-- `ThreadPool[which]=1` -/
  | flag
  /-- the test of `ThreadPool[i]` in `Wait` -/
  | wait (i : ℕ)
  | yieldWait
  | enterFinal
  | readFinal
  | leaveFinal
  | returned
  deriving DecidableEq, Repr

inductive Line where
  | sees (which : ℕ) (val : ℤ)
  | final (which : ℕ) (val : ℤ)
  deriving DecidableEq, Repr

/-- `failed` is an access behind the end of `ThreadPool`. -/
structure State (S L C : Type) where
  kernel : Kernel ℕ S L C
  point : ℕ → Point
  val : ℕ → ℤ
  sharedVariable : ℤ
  threadPool : ℕ → ℤ
  output : List Line
  failed : Bool

inductive Action (S : Type) where
  | goOn
  | timer
  | interrupt (s : S)
  | idleReturn
  deriving DecidableEq, Repr

variable {S L C : Type} [DecidableEq S] [DecidableEq L] [DecidableEq C]

abbrev poolSize : ℕ := 512

namespace State
variable (mutex : Mutex S L) (testnum : ℕ) (σ : State S L C)

def goto (t : ℕ) (p : Point) : State S L C := { σ with point := Function.update σ.point t p }

/-- A call of the kernel by `t`, which is then at `p`. -/
def call (t : ℕ) (p : Point) (a : Label ℕ S L C) : Option (State S L C) :=
  (σ.kernel.step a).map fun k => { σ.goto t p with kernel := k }

def exec (t : ℕ) : Point → Option (State S L C)
  | .notForked => none
  | .fork i =>
    if i < testnum then (σ.goto i (.enter 0)).call t (.fork (i + 1)) (.fork i)
    else some (σ.goto t (.enter 0))
  | .enter num =>
    if num < 5 then σ.call t (.read num) mutex.enter else some (σ.goto t .flag)
  | .read num => some { σ.goto t (.yieldInside num) with
      val := Function.update σ.val t σ.sharedVariable
      output := .sees t σ.sharedVariable :: σ.output }
  | .yieldInside num => σ.call t (.write num) .yield
  | .write num => some { σ.goto t (.leave num) with sharedVariable := σ.val t + 1 }
  | .leave num => σ.call t (.yieldOutside num) mutex.leave
  | .yieldOutside num => σ.call t (.enter (num + 1)) .yield
  | .flag =>
    if t < poolSize then
      some { σ.goto t (.wait 0) with threadPool := Function.update σ.threadPool t 1 }
    else some { σ with failed := true }
  | .wait i =>
    if i < testnum then
      if i < poolSize then
        some (σ.goto t (if σ.threadPool i = 0 then .yieldWait else .wait (i + 1)))
      else some { σ with failed := true }
    else some (σ.goto t .enterFinal)
  | .yieldWait => σ.call t (.wait 0) .yield
  | .enterFinal => σ.call t .readFinal mutex.enter
  | .readFinal => some { σ.goto t .leaveFinal with
      val := Function.update σ.val t σ.sharedVariable
      output := .final t σ.sharedVariable :: σ.output }
  | .leaveFinal => σ.call t .returned mutex.leave
  | .returned => σ.call t .returned .finish

/-- A switch by the timer can come before any statement, and handlers of other devices use
other semaphores. -/
def step : Action S → Option (State S L C)
  | .goOn =>
    if σ.failed then none
    else
      match σ.kernel.currentThread with
      | none => none
      | some t => if σ.kernel.cont t = .user then σ.exec mutex testnum t (σ.point t) else none
  | .timer => (σ.kernel.step .yield).map fun k => { σ with kernel := k }
  | .interrupt s =>
    if mutex = .semaphore s then none
    else (σ.kernel.step (.handlerV s)).map fun k => { σ with kernel := k }
  | .idleReturn => (σ.kernel.step .idleReturn).map fun k => { σ with kernel := k }

end State

/-- The main thread is at the start of `ThreadTest`; the semaphore has the initial value 1. -/
def start (currentTh : L → Option ℕ) (val : ℕ → ℤ) : State S L C where
  kernel := initial 0 (fun _ => 1) currentTh
  point t := if t = 0 then .fork 1 else .notForked
  val := val
  sharedVariable := 0
  threadPool _ := 0
  output := []
  failed := false

def Step (mutex : Mutex S L) (testnum : ℕ) (σ : State S L C) (a : Action S)
    (σ' : State S L C) : Prop :=
  σ.step mutex testnum a = some σ'

namespace Point

/-- Between the call of `P` or `Acquire` and that of `V` or `Release`. -/
def Inside : Point → Prop
  | read _ => True
  | yieldInside _ => True
  | write _ => True
  | leave _ => True
  | readFinal => True
  | leaveFinal => True
  | _ => False

/-- The thread has read the variable and not yet written it. -/
def Pending : Point → Prop
  | yieldInside _ => True
  | write _ => True
  | _ => False

/-- How often the thread has added one. -/
def added : Point → ℕ
  | notForked => 0
  | fork _ => 0
  | enter num => num
  | read num => num
  | yieldInside num => num
  | write num => num
  | leave num => num + 1
  | yieldOutside num => num + 1
  | _ => 5

/-- The flags that the thread has seen set since it last yielded. -/
def seen (testnum : ℕ) : Point → ℕ
  | wait i => i
  | enterFinal => testnum
  | readFinal => testnum
  | leaveFinal => testnum
  | returned => testnum
  | _ => 0

/-- The bounds of the loop. -/
def Valid : Point → Prop
  | enter num => num ≤ 5
  | read num => num < 5
  | yieldInside num => num < 5
  | write num => num < 5
  | leave num => num < 5
  | yieldOutside num => num < 5
  | _ => True

/-- The ways through the program on which nothing is added. -/
inductive Next : Point → Point → Prop
  | start (i : ℕ) : Next (fork i) (enter 0)
  | enter {num : ℕ} : num < 5 → Next (enter num) (read num)
  | read (num : ℕ) : Next (read num) (yieldInside num)
  | yieldInside (num : ℕ) : Next (yieldInside num) (write num)
  | leave (num : ℕ) : Next (leave num) (yieldOutside num)
  | yieldOutside (num : ℕ) : Next (yieldOutside num) (enter (num + 1))
  | loopEnd {num : ℕ} : ¬num < 5 → Next (enter num) flag
  | flag : Next flag (wait 0)
  | notSet (i : ℕ) : Next (wait i) yieldWait
  | set (i : ℕ) : Next (wait i) (wait (i + 1))
  | allSet (i : ℕ) : Next (wait i) enterFinal
  | yieldWait : Next yieldWait (wait 0)
  | enterFinal : Next enterFinal readFinal
  | readFinal : Next readFinal leaveFinal
  | leaveFinal : Next leaveFinal returned
  | returned : Next returned returned

theorem Next.valid {q p : Point} (h : Next q p) (hq : q.Valid) : p.Valid := by
  cases h with
  | start i => exact Nat.zero_le 5
  | enter hnum => exact hnum
  | loopEnd hnum => trivial
  | _ => exact hq

theorem Next.added_eq {q p : Point} (h : Next q p) (hq : q.Valid) : p.added = q.added := by
  cases h with
  | loopEnd hnum => exact le_antisymm (not_lt.mp hnum) hq
  | _ => rfl

theorem Next.ne_fork {q p : Point} (h : Next q p) (i : ℕ) : p ≠ fork i := by
  cases h <;> simp

theorem Next.ne_notForked {q p : Point} (h : Next q p) : q ≠ notForked := by
  cases h <;> simp

theorem Pending.inside {p : Point} (h : p.Pending) : p.Inside := by
  cases p <;> trivial

end Point

section
variable {mutex : Mutex S L} {n : ℕ} {σ σ' : State S L C} {k k' : Kernel ℕ S L C}
  {point : ℕ → Point} {t : ℕ} {p : Point} {a : Label ℕ S L C}

/-- The part of the invariant that is about the kernel. -/
structure Threads (mutex : Mutex S L) (k : Kernel ℕ S L C) (point : ℕ → Point) : Prop where
  excluded : Excluded mutex k fun t => (point t).Inside
  runs : ∀ t, (point t).Pending → k.cont t = .user

namespace Threads

omit [DecidableEq S] in
theorem single (h : Threads mutex k point) (ht : (point t).Inside) (hcont : k.cont t = .user)
    {u : ℕ} (hu : (point u).Pending) : u = t :=
  h.excluded.single hu.inside ht (h.runs u hu) hcont

omit [DecidableEq S] in
theorem update_inside (h : Threads mutex k point) (hp : p.Inside ↔ (point t).Inside) :
    Excluded mutex k fun u => (Function.update point t p u).Inside := by
  have heq : (fun u => (Function.update point t p u).Inside) = fun u => (point u).Inside := by
    funext u
    by_cases hut : u = t
    · rw [hut, Function.update_self]
      exact propext hp
    · rw [Function.update_of_ne hut]
  rw [heq]
  exact h.excluded

omit [DecidableEq S] in
/-- A statement without a call of the kernel. -/
theorem goto (h : Threads mutex k point) (hcont : p.Pending → k.cont t = .user)
    (hp : p.Inside ↔ (point t).Inside) : Threads mutex k (Function.update point t p) := by
  refine ⟨h.update_inside hp, fun u hu => ?_⟩
  by_cases hut : u = t
  · rw [hut, Function.update_self] at hu
    rw [hut]
    exact hcont hu
  · rw [Function.update_of_ne hut] at hu
    exact h.runs u hu

/-- The others go on as before after a call of `t`. -/
theorem runs_step (h : Threads mutex k point) (hstep : k.step a = some k')
    (ha : ∀ u, (point u).Pending → k.currentThread = some u → Passive a) {u : ℕ}
    (hu : (point u).Pending) : k'.cont u = .user :=
  step_view (P := fun v => v.cont = .user) (fun hv hg => absurd hv hg.ne_user) hstep (ha u hu)
    (h.excluded.forked u hu.inside) (h.runs u hu)

/-- A step of the kernel that is no call of the program. -/
theorem passive (h : Threads mutex k point) (ha : Passive a) (huses : ¬mutex.Uses a)
    (hstep : k.step a = some k') : Threads mutex k' point :=
  ⟨h.excluded.other (.inl ha) huses hstep, fun _ hu => h.runs_step hstep (fun _ _ _ => ha) hu⟩

theorem yield (h : Threads mutex k point) (hcont : k.cont t = .user)
    (hp : p.Inside ↔ (point t).Inside) (hstep : k.step .yield = some k') :
    Threads mutex k' (Function.update point t p) := by
  have hpassive : Passive (.yield : Label ℕ S L C) := trivial
  refine (h.goto (fun _ => hcont) hp).passive hpassive ?_ hstep
  cases mutex <;> exact id

/-- The calls `Fork` and `Finish`, outside of the section. -/
theorem call (h : Threads mutex k point) (hcur : k.currentThread = some t)
    (hout : ¬(point t).Inside) (hp : ¬p.Inside) (huses : ¬mutex.Uses a)
    (hstep : k.step a = some k') : Threads mutex k' (Function.update point t p) := by
  have h' := h.goto (fun hpend => absurd hpend.inside hp) (iff_of_false hp hout)
  have hself : ¬(Function.update point t p t).Inside := by rwa [Function.update_self]
  refine ⟨h'.excluded.other (.inr ⟨t, hcur, hself⟩) huses hstep, fun u hu =>
    h'.runs_step hstep (fun w hw hcw => ?_) hu⟩
  obtain rfl := Option.some.inj (hcur.symm.trans hcw)
  exact absurd hw.inside hself

omit [DecidableEq S] [DecidableEq L] [DecidableEq C] in
theorem update_others (u : ℕ) (hut : u ≠ t) :
    (Function.update point t p u).Inside ↔ (point u).Inside := by
  rw [Function.update_of_ne hut]

/-- The thread that calls the mutex is pending neither before nor after. -/
theorem runs_call (h : Threads mutex k point) (hcur : k.currentThread = some t)
    (hout : ¬(point t).Pending) (hp : ¬p.Pending) (hstep : k.step a = some k') (u : ℕ)
    (hu : (Function.update point t p u).Pending) : k'.cont u = .user := by
  by_cases hut : u = t
  · rw [hut, Function.update_self] at hu
    exact absurd hu hp
  · rw [Function.update_of_ne hut] at hu
    refine h.runs_step hstep (fun w hw hcw => ?_) hu
    obtain rfl := Option.some.inj (hcur.symm.trans hcw)
    exact absurd hw hout

theorem enter (h : Threads mutex k point) (hcur : k.currentThread = some t)
    (hcont : k.cont t = .user) (hout : ¬(point t).Inside) (hin : p.Inside) (hp : ¬p.Pending)
    (hstep : k.step mutex.enter = some k') : Threads mutex k' (Function.update point t p) := by
  refine ⟨h.excluded.enter hcur hcont ?_ update_others hstep,
    h.runs_call hcur (mt Point.Pending.inside hout) hp hstep⟩
  rwa [Function.update_self]

theorem leave (h : Threads mutex k point) (hcur : k.currentThread = some t)
    (hcont : k.cont t = .user) (hin : (point t).Inside) (hpend : ¬(point t).Pending)
    (hp : ¬p.Inside) (hstep : k.step mutex.leave = some k') : Threads mutex k' (Function.update point t p) := by
  refine ⟨h.excluded.leave hcur hcont hin ?_ update_others hstep,
    h.runs_call hcur hpend (mt Point.Pending.inside hp) hstep⟩
  rwa [Function.update_self]

end Threads

/-- The part of the invariant that is about the variables of the program. -/
structure Data (n : ℕ) (σ : State S L C) : Prop where
  forks : ∀ t i, σ.point t = .fork i → t = 0 ∧ 0 < i ∧ ∀ j, i ≤ j → σ.point j = .notForked
  threads : ∀ t, σ.point t ≠ .notForked → t < n
  valid : ∀ t, (σ.point t).Valid
  sum : σ.sharedVariable = ((∑ t ∈ Finset.range n, (σ.point t).added : ℕ) : ℤ)
  pending : ∀ t, (σ.point t).Pending → σ.val t = σ.sharedVariable
  flags : ∀ t, σ.threadPool t ≠ 0 → (σ.point t).added = 5
  seen : ∀ t, ∀ j < (σ.point t).seen n, σ.threadPool j ≠ 0
  finals : ∀ which (v : ℤ), .final which v ∈ σ.output → v = 5 * n
  running : σ.failed = false

namespace Data

omit [DecidableEq S] [DecidableEq L] [DecidableEq C]

/-- A thread goes on to `p`, and the variable is then `v`. -/
theorem move (h : Data n σ) {v : ℤ} (hactive : σ.point t ≠ .notForked)
    (hfork : ∀ i, p ≠ .fork i) (hvalid : p.Valid)
    (hadded : v + (σ.point t).added = σ.sharedVariable + p.added)
    (hpending : p.Pending → σ.val t = v) (hothers : ∀ u, u ≠ t → (σ.point u).Pending → σ.val u = v)
    (hflag : σ.threadPool t ≠ 0 → p.added = 5) (hseen : ∀ j < p.seen n, σ.threadPool j ≠ 0) :
    Data n { σ.goto t p with sharedVariable := v } := by
  have htn : t < n := h.threads t hactive
  have hself : (σ.goto t p).point t = p := Function.update_self ..
  have hother : ∀ u, u ≠ t → (σ.goto t p).point u = σ.point u := fun u hu =>
    Function.update_of_ne hu _ _
  constructor
  · intro u i hu
    by_cases hut : u = t
    · rw [hut] at hu
      exact absurd (hself.symm.trans hu) (hfork i)
    · obtain ⟨hzero, hpos, hrest⟩ := h.forks u i ((hother u hut).symm.trans hu)
      refine ⟨hzero, hpos, fun j hj => ?_⟩
      have hjt : j ≠ t := by
        rintro rfl
        exact hactive (hrest j hj)
      exact (hother j hjt).trans (hrest j hj)
  · intro u hu
    by_cases hut : u = t
    · exact hut ▸ htn
    · exact h.threads u fun hn => hu ((hother u hut).trans hn)
  · intro u
    show ((σ.goto t p).point u).Valid
    by_cases hut : u = t
    · rwa [hut, hself]
    · rw [hother u hut]
      exact h.valid u
  · show v = ((∑ u ∈ Finset.range n, ((σ.goto t p).point u).added : ℕ) : ℤ)
    have hmem : t ∈ Finset.range n := Finset.mem_range.mpr htn
    have hrest : ∑ u ∈ (Finset.range n).erase t, ((σ.goto t p).point u).added =
        ∑ u ∈ (Finset.range n).erase t, (σ.point u).added :=
      Finset.sum_congr rfl fun u hu => by rw [hother u (Finset.ne_of_mem_erase hu)]
    have hsum := h.sum
    rw [← Finset.add_sum_erase _ _ hmem, Nat.cast_add] at hsum
    rw [← Finset.add_sum_erase _ _ hmem, hrest, hself, Nat.cast_add]
    linarith
  · intro u hu
    by_cases hut : u = t
    · rw [hut] at hu ⊢
      exact hpending (hself ▸ hu)
    · exact hothers u hut (hother u hut ▸ hu)
  · intro u hu
    show ((σ.goto t p).point u).added = 5
    by_cases hut : u = t
    · rw [hut, hself]
      exact hflag (hut ▸ hu)
    · rw [hother u hut]
      exact h.flags u hu
  · intro u
    show ∀ j < ((σ.goto t p).point u).seen n, _
    by_cases hut : u = t
    · rwa [hut, hself]
    · rw [hother u hut]
      exact h.seen u
  · exact h.finals
  · exact h.running

theorem next (h : Data n σ) (hnext : (σ.point t).Next p)
    (hpending : p.Pending → σ.val t = σ.sharedVariable)
    (hseen : ∀ j < p.seen n, σ.threadPool j ≠ 0) : Data n (σ.goto t p) := by
  have hadded := hnext.added_eq (h.valid t)
  refine h.move hnext.ne_notForked hnext.ne_fork (hnext.valid (h.valid t)) ?_ hpending
    (fun u _ hu => h.pending u hu) (fun ht => ?_) hseen
  · rw [hadded]
  · rw [hadded]
    exact h.flags t ht

/-- `ts[i]->Fork(SimpleThread, i)` -/
theorem fork (h : Data n σ) {i : ℕ} (ht : σ.point t = .fork i) (hi : i < n) :
    Data n ((σ.goto i (.enter 0)).goto t (.fork (i + 1))) := by
  obtain ⟨hzero, hpos, hrest⟩ := h.forks t i ht
  have hti : t ≠ i := by omega
  have hpoint : ∀ u, ((σ.goto i (.enter 0)).goto t (.fork (i + 1))).point u =
      if u = t then .fork (i + 1) else if u = i then .enter 0 else σ.point u := by
    intro u
    simp only [State.goto, Function.update_apply]
  have hadd : ∀ u, (((σ.goto i (.enter 0)).goto t (.fork (i + 1))).point u).added =
      (σ.point u).added := by
    intro u
    rw [hpoint]
    split_ifs with hut hui
    · rw [hut, ht]
      rfl
    · rw [hui, hrest i le_rfl]
      rfl
    · rfl
  constructor
  · intro u j hu
    rw [hpoint] at hu
    split_ifs at hu with hut hui
    · obtain rfl := Point.fork.inj hu
      refine ⟨hut ▸ hzero, Nat.succ_pos i, fun l hl => ?_⟩
      rw [hpoint, if_neg (by omega), if_neg (by omega)]
      exact hrest l (by omega)
    · obtain ⟨hu0, -⟩ := h.forks u j hu
      exact absurd (hu0.trans hzero.symm) hut
  · intro u hu
    rw [hpoint] at hu
    split_ifs at hu with hut hui
    · exact hut ▸ h.threads t (by simp [ht])
    · exact hui ▸ hi
    · exact h.threads u hu
  · intro u
    rw [hpoint]
    split_ifs
    · trivial
    · exact Nat.zero_le 5
    · exact h.valid u
  · rw [Finset.sum_congr rfl fun u _ => hadd u]
    exact h.sum
  · intro u hu
    rw [hpoint] at hu
    split_ifs at hu
    · exact hu.elim
    · exact hu.elim
    · exact h.pending u hu
  · intro u hu
    rw [hadd]
    exact h.flags u hu
  · intro u
    rw [hpoint]
    split_ifs
    · exact fun j hj => absurd hj (Nat.not_lt_zero j)
    · exact fun j hj => absurd hj (Nat.not_lt_zero j)
    · exact h.seen u
  · exact h.finals
  · exact h.running

/-- `val = SharedVariable` and a line of output. -/
theorem print (h : Data n σ) (t : ℕ) (line : Line)
    (hline : ∀ which (v : ℤ), line = .final which v → v = 5 * n) :
    Data n { σ with
      val := Function.update σ.val t σ.sharedVariable
      output := line :: σ.output } := by
  refine ⟨h.forks, h.threads, h.valid, h.sum, fun u hu => ?_, h.flags, h.seen, fun which v hv => ?_,
    h.running⟩
  · by_cases hut : u = t
    · rw [hut]
      exact Function.update_self ..
    · exact (Function.update_of_ne hut _ _).trans (h.pending u hu)
  · rcases List.mem_cons.mp hv with hv | hv
    · exact hline which v hv.symm
    · exact h.finals which v hv

/-- `SharedVariable = val+1`, by the one thread that has read it. -/
theorem write (h : Data n σ) {num : ℕ} (ht : σ.point t = .write num)
    (hsingle : ∀ u, (σ.point u).Pending → u = t) :
    Data n { σ.goto t (.leave num) with sharedVariable := σ.val t + 1 } := by
  have hval : σ.val t = σ.sharedVariable := h.pending t (by rw [ht]; trivial)
  have hnum : num < 5 := by
    have := h.valid t
    rwa [ht] at this
  refine h.move (by simp [ht]) (by simp) hnum ?_ (fun hp => hp.elim)
    (fun u hut hu => absurd (hsingle u hu) hut) (fun hpool => ?_)
    fun j hj => absurd hj (Nat.not_lt_zero j)
  · rw [ht, hval]
    simp only [Point.added]
    push_cast
    ring
  · have hfive := h.flags t hpool
    rw [ht] at hfive
    simp only [Point.added] at hfive
    omega

/-- `ThreadPool[which]=1` -/
theorem flag (h : Data n σ) (ht : σ.point t = .flag) :
    Data n { σ with threadPool := Function.update σ.threadPool t 1 } := by
  refine ⟨h.forks, h.threads, h.valid, h.sum, h.pending, fun u hu => ?_, fun u j hj => ?_, h.finals,
    h.running⟩
  · by_cases hut : u = t
    · rw [hut]
      exact congrArg Point.added ht
    · refine h.flags u fun hzero => hu ?_
      exact (Function.update_of_ne hut _ _).trans hzero
  · by_cases hjt : j = t
    · show Function.update σ.threadPool t 1 j ≠ 0
      rw [hjt, Function.update_self]
      decide
    · exact (Function.update_of_ne hjt _ _).trans_ne (h.seen u j hj)

/-- Behind the barrier all threads have added one five times. -/
theorem sum_of_seen (h : Data n σ) (hseen : (σ.point t).seen n = n) : σ.sharedVariable = 5 * n := by
  have hall : ∀ u ∈ Finset.range n, (σ.point u).added = 5 := by
    intro u hu
    exact h.flags u (h.seen t u (hseen.symm ▸ Finset.mem_range.mp hu))
  rw [h.sum, Finset.sum_congr rfl hall, Finset.sum_const, Finset.card_range, smul_eq_mul]
  push_cast
  ring

theorem kernel (h : Data n σ) (k : Kernel ℕ S L C) : Data n { σ with kernel := k } :=
  ⟨h.forks, h.threads, h.valid, h.sum, h.pending, h.flags, h.seen, h.finals, h.running⟩

end Data

structure Inv (mutex : Mutex S L) (n : ℕ) (σ : State S L C) : Prop where
  threads : Threads mutex σ.kernel σ.point
  data : Data n σ

theorem call_eq (h : σ.call t p a = some σ') :
    ∃ k', σ.kernel.step a = some k' ∧ σ' = { σ.goto t p with kernel := k' } := by
  obtain ⟨k', hk, rfl⟩ := Option.map_eq_some_iff.mp h
  exact ⟨k', hk, rfl⟩

omit [DecidableEq S] in
theorem Inv.next (h : Inv mutex n σ) (hcont : σ.kernel.cont t = .user) (hnext : (σ.point t).Next p)
    (hp : p.Inside ↔ (σ.point t).Inside) (hpending : ¬p.Pending)
    (hseen : ∀ j < p.seen n, σ.threadPool j ≠ 0) : Inv mutex n (σ.goto t p) :=
  ⟨h.threads.goto (fun _ => hcont) hp, h.data.next hnext (fun hp => absurd hp hpending) hseen⟩

omit [DecidableEq S] in
/-- A call of the kernel. -/
theorem Inv.call (h : Inv mutex n σ) (hthreads : Threads mutex k' (Function.update σ.point t p))
    (hnext : (σ.point t).Next p) (hpending : p.Pending → (σ.point t).Pending)
    (hseen : ∀ j < p.seen n, σ.threadPool j ≠ 0) : Inv mutex n { σ.goto t p with kernel := k' } :=
  ⟨hthreads, (h.data.next hnext (fun hp => h.data.pending t (hpending hp)) hseen).kernel k'⟩

omit [DecidableEq S] [DecidableEq L] [DecidableEq C] in
theorem seen_of_zero (hp : p.seen n = 0) : ∀ j < p.seen n, σ.threadPool j ≠ 0 := fun j hj =>
  absurd (hp ▸ hj) (Nat.not_lt_zero j)

theorem Inv.exec (h : Inv mutex n σ) (hn : n ≤ poolSize) (hcur : σ.kernel.currentThread = some t)
    (hcont : σ.kernel.cont t = .user) (hstep : σ.exec mutex n t (σ.point t) = some σ') :
    Inv mutex n σ' := by
  have hseen := h.data.seen t
  cases hp : σ.point t with
  | notForked =>
    rw [hp] at hstep
    cases hstep
  | fork i =>
    rw [hp, State.exec] at hstep
    split_ifs at hstep with hi
    · obtain ⟨hzero, hpos, hrest⟩ := h.data.forks t i hp
      obtain ⟨k', hk, rfl⟩ := call_eq hstep
      have hti : t ≠ i := by omega
      have hforked := h.threads.goto (t := i) (p := .enter 0) (fun hpend => hpend.elim)
        (by rw [hrest i le_rfl]; exact Iff.rfl)
      refine ⟨hforked.call hcur ?_ id ?_ hk, (h.data.fork hp hi).kernel k'⟩
      · rw [Function.update_of_ne hti, hp]
        exact id
      · cases mutex <;> exact id
    · obtain rfl := Option.some.inj hstep
      exact h.next hcont (hp ▸ .start i) (by rw [hp]; exact Iff.rfl) id (seen_of_zero rfl)
  | enter num =>
    rw [hp, State.exec] at hstep
    split_ifs at hstep with hnum
    · obtain ⟨k', hk, rfl⟩ := call_eq hstep
      have hthreads := h.threads.enter (p := .read num) hcur hcont (by rw [hp]; exact id) trivial id
        hk
      exact h.call hthreads (hp ▸ .enter hnum) (fun hpend => hpend.elim) (seen_of_zero rfl)
    · obtain rfl := Option.some.inj hstep
      exact h.next hcont (hp ▸ .loopEnd hnum) (by rw [hp]; exact Iff.rfl) id (seen_of_zero rfl)
  | read num =>
    rw [hp] at hstep
    obtain rfl := Option.some.inj hstep
    have hprint := h.data.print t (.sees t σ.sharedVariable) (by simp)
    exact ⟨h.threads.goto (fun _ => hcont) (by rw [hp]; exact Iff.rfl), hprint.next
      (hp ▸ Point.Next.read num) (fun _ => Function.update_self ..) (seen_of_zero rfl)⟩
  | yieldInside num =>
    rw [hp] at hstep
    obtain ⟨k', hk, rfl⟩ := call_eq hstep
    have hthreads := h.threads.yield (p := .write num) hcont (by rw [hp]; exact Iff.rfl) hk
    exact h.call hthreads (hp ▸ .yieldInside num) (fun _ => by rw [hp]; trivial) (seen_of_zero rfl)
  | write num =>
    rw [hp] at hstep
    obtain rfl := Option.some.inj hstep
    refine ⟨h.threads.goto (fun _ => hcont) (by rw [hp]; exact Iff.rfl),
      h.data.write hp fun u hu => ?_⟩
    exact h.threads.single (by rw [hp]; trivial) hcont hu
  | leave num =>
    rw [hp] at hstep
    obtain ⟨k', hk, rfl⟩ := call_eq hstep
    have hthreads := h.threads.leave (p := .yieldOutside num) hcur hcont (by rw [hp]; trivial)
      (by rw [hp]; exact id) id hk
    exact h.call hthreads (hp ▸ .leave num) (fun hpend => hpend.elim) (seen_of_zero rfl)
  | yieldOutside num =>
    rw [hp] at hstep
    obtain ⟨k', hk, rfl⟩ := call_eq hstep
    have hthreads := h.threads.yield (p := .enter (num + 1)) hcont (by rw [hp]; exact Iff.rfl) hk
    exact h.call hthreads (hp ▸ .yieldOutside num) (fun hpend => hpend.elim) (seen_of_zero rfl)
  | flag =>
    have htn : t < poolSize := (h.data.threads t (by simp [hp])).trans_le hn
    rw [hp, State.exec, if_pos htn] at hstep
    obtain rfl := Option.some.inj hstep
    exact ⟨h.threads.goto (fun _ => hcont) (by rw [hp]; exact Iff.rfl), (h.data.flag hp).next
      (hp ▸ Point.Next.flag) (fun hpend => hpend.elim) (seen_of_zero rfl)⟩
  | wait i =>
    rw [hp] at hseen hstep
    rw [State.exec] at hstep
    split_ifs at hstep with hi hpool hzero
    · obtain rfl := Option.some.inj hstep
      exact h.next hcont (hp ▸ .notSet i) (by rw [hp]; exact Iff.rfl) id (seen_of_zero rfl)
    · obtain rfl := Option.some.inj hstep
      refine h.next hcont (hp ▸ .set i) (by rw [hp]; exact Iff.rfl) id fun j hj => ?_
      rcases Nat.lt_succ_iff_lt_or_eq.mp hj with hlt | rfl
      · exact hseen j hlt
      · exact hzero
    · exact absurd (hi.trans_le hn) hpool
    · obtain rfl := Option.some.inj hstep
      refine h.next hcont (hp ▸ .allSet i) (by rw [hp]; exact Iff.rfl) id fun j hj => ?_
      exact hseen j (lt_of_lt_of_le hj (not_lt.mp hi))
  | yieldWait =>
    rw [hp] at hstep
    obtain ⟨k', hk, rfl⟩ := call_eq hstep
    have hthreads := h.threads.yield (p := .wait 0) hcont (by rw [hp]; exact Iff.rfl) hk
    exact h.call hthreads (hp ▸ .yieldWait) (fun hpend => hpend.elim) (seen_of_zero rfl)
  | enterFinal =>
    rw [hp] at hseen hstep
    obtain ⟨k', hk, rfl⟩ := call_eq hstep
    have hthreads := h.threads.enter (p := .readFinal) hcur hcont (by rw [hp]; exact id) trivial id
      hk
    exact h.call hthreads (hp ▸ .enterFinal) (fun hpend => hpend.elim) hseen
  | readFinal =>
    have hfinal : σ.sharedVariable = 5 * n := h.data.sum_of_seen (t := t) (by rw [hp]; rfl)
    rw [hp] at hseen hstep
    obtain rfl := Option.some.inj hstep
    have hprint := h.data.print t (.final t σ.sharedVariable) fun which v hv => by
      rw [← (Line.final.inj hv).2, hfinal]
    exact ⟨h.threads.goto (fun _ => hcont) (by rw [hp]; exact Iff.rfl), hprint.next
      (hp ▸ Point.Next.readFinal) (fun hpend => hpend.elim) hseen⟩
  | leaveFinal =>
    rw [hp] at hseen hstep
    obtain ⟨k', hk, rfl⟩ := call_eq hstep
    have hthreads := h.threads.leave (p := .returned) hcur hcont (by rw [hp]; trivial)
      (by rw [hp]; exact id) id hk
    exact h.call hthreads (hp ▸ .leaveFinal) (fun hpend => hpend.elim) hseen
  | returned =>
    rw [hp] at hseen hstep
    obtain ⟨k', hk, rfl⟩ := call_eq hstep
    have hthreads := h.threads.call (p := .returned) hcur (by rw [hp]; exact id) id
      (by cases mutex <;> exact id) hk
    exact h.call hthreads (hp ▸ .returned) (fun hpend => hpend.elim) hseen

theorem Inv.step {b : Action S} (h : Inv mutex n σ) (hn : n ≤ poolSize)
    (hstep : Step mutex n σ b σ') : Inv mutex n σ' := by
  have hpassive : ∀ (a : Label ℕ S L C) {k'}, Passive a → ¬mutex.Uses a →
      σ.kernel.step a = some k' → Inv mutex n { σ with kernel := k' } :=
    fun _ _ ha huses hk => ⟨h.threads.passive ha huses hk, h.data.kernel _⟩
  cases b with
  | goOn =>
    simp only [Step, State.step, h.data.running, Bool.false_eq_true, if_false] at hstep
    cases hcur : σ.kernel.currentThread with
    | none => simp [hcur] at hstep
    | some t =>
      simp only [hcur] at hstep
      split_ifs at hstep with hcont
      exact h.exec hn hcur hcont hstep
  | timer =>
    obtain ⟨k', hk, rfl⟩ := Option.map_eq_some_iff.mp hstep
    exact hpassive .yield trivial (by cases mutex <;> exact id) hk
  | interrupt s =>
    simp only [Step, State.step] at hstep
    split_ifs at hstep with hs
    obtain ⟨k', hk, rfl⟩ := Option.map_eq_some_iff.mp hstep
    refine hpassive (.handlerV s) trivial ?_ hk
    cases mutex with
    | semaphore r =>
      intro hr
      exact hs (congrArg Mutex.semaphore (Eq.symm hr))
    | lock l => exact id
  | idleReturn =>
    obtain ⟨k', hk, rfl⟩ := Option.map_eq_some_iff.mp hstep
    exact hpassive .idleReturn trivial (by cases mutex <;> exact id) hk

omit [DecidableEq S] in
theorem start_inv (mutex : Mutex S L) (hn : 0 < n) (currentTh : L → Option ℕ) (val : ℕ → ℤ) :
    Inv mutex n (start currentTh val : State S L C) := by
  have hzero : (start currentTh val : State S L C).point 0 = .fork 1 := rfl
  have hother : ∀ t, t ≠ 0 → (start currentTh val : State S L C).point t = .notForked :=
    fun t ht => if_neg ht
  have hcases : ∀ {P : Point → Prop}, P (.fork 1) → P .notForked →
      ∀ t, P ((start currentTh val : State S L C).point t) := by
    intro P hmain hrest t
    by_cases ht : t = 0
    · rw [ht, hzero]
      exact hmain
    · rw [hother t ht]
      exact hrest
  have hinside : (fun t => ((start currentTh val : State S L C).point t).Inside) = fun _ => False :=
    funext (hcases (P := fun p => p.Inside = False) rfl rfl)
  refine ⟨⟨hinside ▸ initial_excluded mutex 0 _ currentTh fun _ _ => rfl, fun t ht => ?_⟩,
    fun t i ht => ?_, fun t ht => ?_, hcases trivial trivial, ?_, fun t ht => ?_, fun t ht => ?_,
    fun t => ?_, fun which v hv => absurd hv List.not_mem_nil, rfl⟩
  · exact absurd ht (hcases (P := fun p => ¬p.Pending) id id t)
  · by_cases h0 : t = 0
    · rw [h0, hzero] at ht
      obtain rfl := Point.fork.inj ht
      exact ⟨h0, Nat.one_pos, fun j hj => hother j (by omega)⟩
    · rw [hother t h0] at ht
      cases ht
  · by_cases h0 : t = 0
    · rwa [h0]
    · exact absurd (hother t h0) ht
  · rw [Finset.sum_eq_zero fun t _ => hcases (P := fun p => p.added = 0) rfl rfl t]
    rfl
  · exact absurd ht (hcases (P := fun p => ¬p.Pending) id id t)
  · exact absurd rfl ht
  · exact seen_of_zero (hcases (P := fun p => p.seen n = 0) rfl rfl t)

/-- In every run of `n` threads nothing behind the end of `ThreadPool` is used, and all the final
values that are printed are `5 * n`. -/
theorem final_values (mutex : Mutex S L) (n : ℕ) (hpos : 1 ≤ n) (hn : n ≤ poolSize)
    (currentTh : L → Option ℕ) (val : ℕ → ℤ) (as : List (Action S)) (σ : State S L C)
    (hrun : Run (Step mutex n) Free (start currentTh val) as σ) :
    σ.failed = false ∧ ∀ which v, .final which v ∈ σ.output → v = 5 * (n : ℤ) := by
  have h := hrun.invariant (start_inv mutex hpos currentTh val) fun h _ hstep => h.step hn hstep
  exact ⟨h.data.running, h.data.finals⟩

end

/-- Two threads with the lock, without switches by the timer: both print 10. -/
theorem final_values_two : ∃ σ : State Unit Unit Unit,
    Run (Step (.lock ()) 2) Free (start (fun _ => none) fun _ => 0) (List.replicate 85 .goOn) σ ∧
      σ.output.take 2 = [.final 0 10, .final 1 10] ∧
      ∀ which v, .final which v ∈ σ.output → v = 5 * 2 := by
  obtain ⟨σ, hrun, hprinted⟩ := exists_run_of_exec (State.step (.lock ()) 2)
    (start (fun _ => none) fun _ => 0 : State Unit Unit Unit) (List.replicate 85 .goOn)
    (fun σ => σ.output.take 2 = [.final 0 10, .final 1 10]) (by decide +kernel)
  refine ⟨σ, hrun, of_decide_eq_true hprinted, ?_⟩
  exact (final_values (.lock ()) 2 (by decide) (by decide) _ _ _ σ hrun).2

end Nachos.SharedCounter
