import Nachos.GuardedRuns

/-!
# Kernel threads and their synchronisation objects

The thread system of `threads/`: the ready list of the scheduler, the wait
queues of semaphores, locks and condition variables, and the thread that has
the processor. Interrupts are off inside every one of these operations, so the
body of an operation is one step, up to the point where the caller sleeps. A
thread that slept goes on, still with interrupts off, when it is dispatched:
`Cont` says at which point, and `dispatch` runs that code. A switch at the end
of an operation is a `yield` step of its own, so that it can take place after
any step.

`SWITCH` to a thread that never ran enters `ThreadRoot` and does not pass
through the end of `Scheduler::Run`, which is where a finished thread is
deleted. The history keeps what has been called and what has returned; no
operation reads it.
-/
namespace Nachos.KernelThreads

inductive ThreadStatus where
  | justCreated
  | running
  | ready
  | blocked
  deriving DecidableEq, Repr

/-- The `List` objects of the kernel that hold threads. -/
inductive Queue (S L C : Type*) where
  | ready
  | semaphore (s : S)
  | lock (l : L)
  | condition (c : C)
  deriving DecidableEq, Repr

/-- Where a thread goes on when it next has the processor. An `acquire` at the
end of `Condition::Wait` carries the condition. -/
inductive Cont (S L C : Type*) where
  | root
  | user
  | p (s : S)
  | acquire (l : L) (c : Option C)
  | wait (c : C) (l : L)
  | woken (c : C) (l : L)
  | finished
  deriving DecidableEq, Repr

inductive Event (T S L C : Type*) where
  | downed (t : T) (s : S)
  | upped (s : S)
  | acquired (t : T) (l : L)
  | released (t : T) (l : L)
  | waits (t : T) (c : C)
  | wakes (t : T) (q : Queue S L C)
  | waited (t : T) (c : C)
  | finished (t : T)
  | deleted (t : T)
  deriving DecidableEq, Repr

structure Kernel (T S L C : Type*) where
  currentThread : Option T
  queue : Queue S L C → List T
  status : T → ThreadStatus
  cont : T → Cont S L C
  value : S → ℤ
  currentTh : L → Option T
  lockTaken : L → Bool
  waitingThreads : C → ℤ
  threadToBeDestroyed : Option T
  history : List (Event T S L C)

section operations
variable {T S L C : Type*} [DecidableEq T] [DecidableEq S] [DecidableEq L] [DecidableEq C]

namespace Kernel

def record (k : Kernel T S L C) (e : Event T S L C) : Kernel T S L C :=
  { k with history := e :: k.history }

def setQueue (k : Kernel T S L C) (q : Queue S L C) (ts : List T) : Kernel T S L C :=
  { k with queue := Function.update k.queue q ts }

def setCont (k : Kernel T S L C) (t : T) (c : Cont S L C) : Kernel T S L C :=
  { k with cont := Function.update k.cont t c }

def readyToRun (k : Kernel T S L C) (t : T) : Kernel T S L C :=
  { k.setQueue .ready (k.queue .ready ++ [t]) with status := Function.update k.status t .ready }

/-- `queue->Remove()`, and `ReadyToRun` of the thread unless the queue is empty. -/
def wake (k : Kernel T S L C) (q : Queue S L C) : Kernel T S L C :=
  match k.queue q with
  | [] => k
  | t :: ts => ((k.setQueue q ts).readyToRun t).record (.wakes t q)

/-- `queue->Append(currentThread)` and the start of `Sleep`; the processor is
free until the next thread is dispatched. -/
def block (k : Kernel T S L C) (t : T) (q : Queue S L C) (c : Cont S L C) : Kernel T S L C :=
  { (k.setQueue q (k.queue q ++ [t])).setCont t c with
    currentThread := none
    status := Function.update k.status t .blocked }

/-- The end of `Scheduler::Run`, in the thread that comes back from `SWITCH`. -/
def destroy (k : Kernel T S L C) : Kernel T S L C :=
  match k.threadToBeDestroyed with
  | none => k
  | some t => { k with threadToBeDestroyed := none, history := .deleted t :: k.history }

/-- `Scheduler::Run` of the thread that was first on the ready list. -/
def run (k : Kernel T S L C) (t : T) (ts : List T) : Kernel T S L C :=
  let k := { k.setQueue .ready ts with
    currentThread := some t
    status := Function.update k.status t .running }
  if k.cont t = .root then k else k.destroy

/-- `value--`, and the return of `P`. -/
def down (k : Kernel T S L C) (t : T) (s : S) : Kernel T S L C :=
  ({ k with value := Function.update k.value s (k.value s - 1) }.setCont t .user).record
    (.downed t s)

/-- The loop of `Semaphore::P`; `sleep` is what follows the `Append`. -/
def pLoop (sleep : Kernel T S L C → Kernel T S L C) (k : Kernel T S L C) (t : T) (s : S) :
    Kernel T S L C :=
  if k.value s = 0 then sleep (k.block t (.semaphore s) (.p s)) else k.down t s

def isHeldBy (k : Kernel T S L C) (l : L) (t : T) : Bool := k.currentTh l = some t

/-- `lockTaken = true; currentTh = currentThread`, and the return of the call. -/
def take (k : Kernel T S L C) (t : T) (l : L) (c : Option C) : Kernel T S L C :=
  let k := ({ k with
    lockTaken := Function.update k.lockTaken l true
    currentTh := Function.update k.currentTh l (some t) }.setCont t .user).record (.acquired t l)
  match c with
  | none => k
  | some c => k.record (.waited t c)

/-- The loop of `Lock::Acquire`. -/
def acquireLoop (sleep : Kernel T S L C → Kernel T S L C) (k : Kernel T S L C) (t : T) (l : L)
    (c : Option C) : Kernel T S L C :=
  if !k.isHeldBy l t && k.lockTaken l then sleep (k.block t (.lock l) (.acquire l c))
  else k.take t l c

/-- `FindNextToRun` and `Run`, with the code the next thread then runs before
it enables interrupts. With nobody ready the machine is in `Interrupt::Idle`. -/
def dispatch : List T → Kernel T S L C → Kernel T S L C
  | [], k => { k.setQueue .ready [] with currentThread := none }
  | t :: ts, k =>
    let k := k.run t ts
    match k.cont t with
    | .root => k.setCont t .user
    | .p s => k.pLoop (dispatch ts) t s
    | .acquire l c => k.acquireLoop (dispatch ts) t l c
    | .wait c l => k.setCont t (.woken c l)
    | _ => k

def sleep (k : Kernel T S L C) : Kernel T S L C := dispatch (k.queue .ready) k

def v (k : Kernel T S L C) (s : S) : Kernel T S L C :=
  let k := k.wake (.semaphore s)
  { k with value := Function.update k.value s (k.value s + 1) }.record (.upped s)

def release (k : Kernel T S L C) (t : T) (l : L) : Kernel T S L C :=
  let k := k.record (.released t l)
  if k.isHeldBy l t then
    let k := k.wake (.lock l)
    { k with lockTaken := Function.update k.lockTaken l false }
  else k

/-- `Condition::Wait` up to the switch in `Sleep`. -/
def waitBlock (k : Kernel T S L C) (t : T) (c : C) (l : L) : Kernel T S L C :=
  let k := (k.record (.waits t c)).block t (.condition c) (.wait c l)
  let k := { k with waitingThreads := Function.update k.waitingThreads c (k.waitingThreads c + 1) }
  k.release t l

def wait (k : Kernel T S L C) (t : T) (c : C) (l : L) : Kernel T S L C :=
  if k.isHeldBy l t then (k.waitBlock t c l).sleep else k

/-- The body that `Signal` and the loop of `Broadcast` share. -/
def wakeWaiter (k : Kernel T S L C) (c : C) : Kernel T S L C :=
  let k := { k with waitingThreads := Function.update k.waitingThreads c (k.waitingThreads c - 1) }
  k.wake (.condition c)

def signal (k : Kernel T S L C) (t : T) (c : C) (l : L) : Kernel T S L C :=
  if k.isHeldBy l t then if k.waitingThreads c > 0 then k.wakeWaiter c else k else k

/-- `while (waiting_threads > 0)`, whose body takes one from the counter. -/
def broadcastLoop (c : C) : ℕ → Kernel T S L C → Kernel T S L C
  | 0, k => k
  | n + 1, k => broadcastLoop c n (k.wakeWaiter c)

def broadcast (k : Kernel T S L C) (t : T) (c : C) (l : L) : Kernel T S L C :=
  if k.isHeldBy l t then broadcastLoop c (k.waitingThreads c).toNat k else k

def yieldReady (k : Kernel T S L C) (t : T) : Kernel T S L C :=
  { k.readyToRun t with currentThread := none }

/-- `Thread::Yield`: nothing happens when nobody else is ready. -/
def yield (k : Kernel T S L C) (t : T) : Kernel T S L C :=
  if k.queue .ready = [] then k else (k.yieldReady t).sleep

def fork (k : Kernel T S L C) (u : T) : Kernel T S L C := (k.setCont u .root).readyToRun u

/-- `Thread::Finish` up to the switch in `Sleep`. -/
def finishBlock (k : Kernel T S L C) (t : T) : Kernel T S L C :=
  { (k.setCont t .finished).record (.finished t) with
    threadToBeDestroyed := some t
    currentThread := none
    status := Function.update k.status t .blocked }

def finish (k : Kernel T S L C) (t : T) : Kernel T S L C := (k.finishBlock t).sleep

end Kernel

inductive Label (T S L C : Type*) where
  | p (s : S)
  | v (s : S)
  | acquire (l : L)
  | release (l : L)
  | wait (c : C) (l : L)
  | signal (c : C) (l : L)
  | broadcast (c : C) (l : L)
  | yield
  | fork (u : T)
  | finish
  | handlerV (s : S)
  | idleReturn
  deriving DecidableEq, Repr

namespace Kernel

/-- The calls of a thread that runs its own code with interrupts on. -/
def call (k : Kernel T S L C) (t : T) : Label T S L C → Option (Kernel T S L C)
  | .p s => some (k.pLoop sleep t s)
  | .v s => some (k.v s)
  | .acquire l => some (k.acquireLoop sleep t l none)
  | .release l => some (k.release t l)
  | .wait c l => some (k.wait t c l)
  | .signal c l => some (k.signal t c l)
  | .broadcast c l => some (k.broadcast t c l)
  | .yield => some (k.yield t)
  | .fork u => if k.status u = .justCreated then some (k.fork u) else none
  | .finish => some (k.finish t)
  | .handlerV _ => none
  | .idleReturn => none

/-- A woken waiter can only be preempted or go on to the `Acquire` at the end
of `Condition::Wait`. -/
def callWoken (k : Kernel T S L C) (t : T) (c : C) (l : L) :
    Label T S L C → Option (Kernel T S L C)
  | .acquire m => if m = l then some (k.acquireLoop sleep t l (some c)) else none
  | .yield => some (k.yield t)
  | _ => none

/-- One step of the machine. Interrupt handlers call `V` while a thread runs
or while the machine idles; `Idle` then returns to the loop of `Sleep`. -/
def step (k : Kernel T S L C) (a : Label T S L C) : Option (Kernel T S L C) :=
  match a, k.currentThread with
  | .handlerV s, _ => some (k.v s)
  | .idleReturn, none => some k.sleep
  | a, some t =>
    match k.cont t with
    | .user => k.call t a
    | .woken c l => k.callWoken t c l a
    | _ => none
  | _, none => none

end Kernel

/-- `main` runs, no other thread is forked, the locks and conditions are newly
constructed and the owner fields hold whatever the storage held. -/
def initial (main : T) (value : S → ℤ) (currentTh : L → Option T) : Kernel T S L C where
  currentThread := some main
  queue := fun _ => []
  status := fun t => if t = main then .running else .justCreated
  cont := fun t => if t = main then .user else .root
  value := value
  currentTh := currentTh
  lockTaken := fun _ => false
  waitingThreads := fun _ => 0
  threadToBeDestroyed := none
  history := []

/-! ### The moves a step is made of -/

/-- `t` is at the test of `Acquire`, called by itself or by `Condition::Wait`. -/
def InAcquire (k : Kernel T S L C) (t : T) (l : L) (c : Option C) : Prop :=
  (k.cont t = .user ∧ c = none) ∨ (∃ d, k.cont t = .woken d l ∧ c = some d) ∨
    k.cont t = .acquire l c

/-- A change of the kernel after which every queue is in order again. A step
is a sequence of moves: one of the caller, and those of the threads that are
dispatched and sleep again. -/
inductive Move : Kernel T S L C → Kernel T S L C → Prop
  | run {k : Kernel T S L C} {t : T} {ts : List T} : k.currentThread = none →
      k.queue .ready = t :: ts → Move k (k.run t ts)
  | start {k : Kernel T S L C} {t : T} : k.currentThread = some t → k.cont t = .root →
      Move k (k.setCont t .user)
  | waitReturn {k : Kernel T S L C} {t : T} {c : C} {l : L} : k.currentThread = some t →
      k.cont t = .wait c l → Move k (k.setCont t (.woken c l))
  | down {k : Kernel T S L C} {t : T} {s : S} : k.currentThread = some t →
      k.cont t = .user ∨ k.cont t = .p s → k.value s ≠ 0 → Move k (k.down t s)
  | blockP {k : Kernel T S L C} {t : T} {s : S} : k.currentThread = some t →
      k.cont t = .user ∨ k.cont t = .p s → k.value s = 0 →
      Move k (k.block t (.semaphore s) (.p s))
  | take {k : Kernel T S L C} {t : T} {l : L} {c : Option C} : k.currentThread = some t →
      InAcquire k t l c → k.isHeldBy l t = true ∨ k.lockTaken l = false → Move k (k.take t l c)
  | blockAcquire {k : Kernel T S L C} {t : T} {l : L} {c : Option C} :
      k.currentThread = some t → InAcquire k t l c → k.isHeldBy l t = false →
      k.lockTaken l = true → Move k (k.block t (.lock l) (.acquire l c))
  | v {k : Kernel T S L C} (s : S) : Move k (k.v s)
  | release {k : Kernel T S L C} {t : T} (l : L) : k.currentThread = some t →
      Move k (k.release t l)
  | wait {k : Kernel T S L C} {t : T} {c : C} {l : L} : k.currentThread = some t →
      k.cont t = .user → k.isHeldBy l t = true → Move k (k.waitBlock t c l)
  | wakeWaiter {k : Kernel T S L C} {c : C} : 0 < k.waitingThreads c → Move k (k.wakeWaiter c)
  | yield {k : Kernel T S L C} {t : T} : k.currentThread = some t → Move k (k.yieldReady t)
  | fork {k : Kernel T S L C} {u : T} : k.status u = .justCreated → Move k (k.fork u)
  | finish {k : Kernel T S L C} {t : T} : k.currentThread = some t → k.cont t = .user →
      Move k (k.finishBlock t)

/-- A move by which no thread finishes, starts to wait for a condition or is woken
from one. -/
structure Quiet (k k' : Kernel T S L C) : Prop where
  move : Move k k'
  finishes : ∀ u, k'.cont u = .finished → k.cont u = .finished
  waits : ∀ u c l, k'.cont u = .wait c l → k.cont u = .wait c l
  conditions : ∀ c, k'.queue (.condition c) = k.queue (.condition c)

/-- The moves of `Sleep`: a ready thread runs, and goes on from where it slept. -/
inductive Resume : Kernel T S L C → Kernel T S L C → Prop
  | run {k : Kernel T S L C} {t : T} {ts : List T} : k.currentThread = none →
      k.queue .ready = t :: ts → Resume k (k.run t ts)
  | start {k : Kernel T S L C} {t : T} : k.currentThread = some t → k.cont t = .root →
      Resume k (k.setCont t .user)
  | waitReturn {k : Kernel T S L C} {t : T} {c : C} {l : L} : k.currentThread = some t →
      k.cont t = .wait c l → Resume k (k.setCont t (.woken c l))
  | down {k : Kernel T S L C} {t : T} {s : S} : k.currentThread = some t →
      k.cont t = .p s → k.value s ≠ 0 → Resume k (k.down t s)
  | blockP {k : Kernel T S L C} {t : T} {s : S} : k.currentThread = some t →
      k.cont t = .p s → k.value s = 0 → Resume k (k.block t (.semaphore s) (.p s))
  | take {k : Kernel T S L C} {t : T} {l : L} {c : Option C} : k.currentThread = some t →
      k.cont t = .acquire l c → k.isHeldBy l t = true ∨ k.lockTaken l = false →
      Resume k (k.take t l c)
  | blockAcquire {k : Kernel T S L C} {t : T} {l : L} {c : Option C} :
      k.currentThread = some t → k.cont t = .acquire l c → k.isHeldBy l t = false →
      k.lockTaken l = true → Resume k (k.block t (.lock l) (.acquire l c))

abbrev Resumes : Kernel T S L C → Kernel T S L C → Prop := Relation.ReflTransGen Resume

abbrev Moves : Kernel T S L C → Kernel T S L C → Prop := Relation.ReflTransGen Move

abbrev QuietMoves : Kernel T S L C → Kernel T S L C → Prop := Relation.ReflTransGen Quiet

section moves
variable {k k' : Kernel T S L C} {t : T} {ts : List T}

/-- Apart from the deletion of a finished thread, `Run` is the switch. -/
theorem run_eq (k : Kernel T S L C) (t : T) (ts : List T) : ∃ h d, k.run t ts = { k with
    queue := Function.update k.queue .ready ts
    currentThread := some t
    status := Function.update k.status t .running
    threadToBeDestroyed := d
    history := h } ∧ (h = k.history ∨ ∃ u, h = .deleted u :: k.history) := by
  unfold Kernel.run Kernel.destroy
  dsimp only
  split_ifs
  · exact ⟨_, _, rfl, Or.inl rfl⟩
  · split
    · exact ⟨_, _, rfl, Or.inl rfl⟩
    · exact ⟨_, _, rfl, Or.inr ⟨_, rfl⟩⟩

@[simp] theorem run_currentThread : (k.run t ts).currentThread = some t := by
  obtain ⟨h, d, hrun, -⟩ := run_eq k t ts
  rw [hrun]

@[simp] theorem run_cont : (k.run t ts).cont = k.cont := by
  obtain ⟨h, d, hrun, -⟩ := run_eq k t ts
  rw [hrun]

@[simp] theorem run_queue : (k.run t ts).queue = Function.update k.queue .ready ts := by
  obtain ⟨h, d, hrun, -⟩ := run_eq k t ts
  rw [hrun]

@[simp] theorem run_status : (k.run t ts).status = Function.update k.status t .running := by
  obtain ⟨h, d, hrun, -⟩ := run_eq k t ts
  rw [hrun]

theorem QuietMoves.moves (h : QuietMoves k k') : Moves k k' := by
  have hle : (Quiet : Kernel T S L C → Kernel T S L C → Prop) ≤ Move := fun _ _ hm => hm.move
  exact Relation.ReflTransGen.mono hle _ _ h

theorem Move.quiet (hm : Move k k') (hcont : k'.cont = k.cont)
    (hcond : ∀ c, k'.queue (.condition c) = k.queue (.condition c)) : Quiet k k' :=
  ⟨hm, fun u hu => by rwa [hcont] at hu, fun u c l hu => by rwa [hcont] at hu, hcond⟩

theorem Move.quiet_update (hm : Move k k') {c : Cont S L C}
    (hcont : k'.cont = Function.update k.cont t c) (hfin : c ≠ .finished)
    (hwait : ∀ d l, c ≠ .wait d l)
    (hcond : ∀ c, k'.queue (.condition c) = k.queue (.condition c)) : Quiet k k' := by
  have hcases : ∀ u, k'.cont u = c ∨ k'.cont u = k.cont u := by
    intro u
    rw [hcont]
    by_cases hut : u = t
    · exact Or.inl (by rw [hut, Function.update_self])
    · exact Or.inr (Function.update_of_ne hut _ _)
  refine ⟨hm, fun u hu => ?_, fun u d l hu => ?_, hcond⟩
  · rcases hcases u with h | h
    · exact absurd (h.symm.trans hu) hfin
    · exact h.symm.trans hu
  · rcases hcases u with h | h
    · exact absurd (h.symm.trans hu) (hwait d l)
    · exact h.symm.trans hu

theorem block_condition {q : Queue S L C} {c : Cont S L C} {d : C} (hq : q ≠ .condition d) :
    (k.block t q c).queue (.condition d) = k.queue (.condition d) := by
  simp [Kernel.block, Kernel.setCont, Kernel.setQueue, hq.symm]

omit [DecidableEq S] [DecidableEq C] in
theorem take_cont {l : L} {c : Option C} :
    (k.take t l c).cont = Function.update k.cont t .user := by
  cases c <;> rfl

omit [DecidableEq S] [DecidableEq C] in
theorem take_queue {l : L} {c : Option C} : (k.take t l c).queue = k.queue := by
  cases c <;> rfl

theorem pLoop_cases (sleep : Kernel T S L C → Kernel T S L C) (k : Kernel T S L C) (t : T) (s : S) :
    (k.value s = 0 ∧ k.pLoop sleep t s = sleep (k.block t (.semaphore s) (.p s))) ∨
    (k.value s ≠ 0 ∧ k.pLoop sleep t s = k.down t s) := by
  unfold Kernel.pLoop
  split_ifs with hv
  · exact Or.inl ⟨hv, rfl⟩
  · exact Or.inr ⟨hv, rfl⟩

theorem acquireLoop_cases (sleep : Kernel T S L C → Kernel T S L C) (k : Kernel T S L C) (t : T)
    (l : L) (c : Option C) :
    (k.isHeldBy l t = false ∧ k.lockTaken l = true ∧
      k.acquireLoop sleep t l c = sleep (k.block t (.lock l) (.acquire l c))) ∨
    ((k.isHeldBy l t = true ∨ k.lockTaken l = false) ∧
      k.acquireLoop sleep t l c = k.take t l c) := by
  unfold Kernel.acquireLoop
  split_ifs with hv
  · simp only [Bool.and_eq_true, Bool.not_eq_true'] at hv
    exact Or.inl ⟨hv.1, hv.2, rfl⟩
  · refine Or.inr ⟨?_, rfl⟩
    cases hheld : k.isHeldBy l t with
    | true => exact Or.inl rfl
    | false => exact Or.inr (by simpa [hheld] using hv)

theorem blockP_quiet {s : S} (hcur : k.currentThread = some t)
    (hcont : k.cont t = .user ∨ k.cont t = .p s) (hv : k.value s = 0) :
    Quiet k (k.block t (.semaphore s) (.p s)) :=
  (Move.blockP hcur hcont hv).quiet_update rfl (by simp) (by simp) fun _ => block_condition (by simp)

theorem down_quiet {s : S} (hcur : k.currentThread = some t)
    (hcont : k.cont t = .user ∨ k.cont t = .p s) (hv : k.value s ≠ 0) : Quiet k (k.down t s) :=
  (Move.down hcur hcont hv).quiet_update rfl (by simp) (by simp) fun _ => rfl

theorem blockAcquire_quiet {l : L} {c : Option C} (hcur : k.currentThread = some t)
    (hcont : InAcquire k t l c) (hheld : k.isHeldBy l t = false) (htaken : k.lockTaken l = true) :
    Quiet k (k.block t (.lock l) (.acquire l c)) :=
  (Move.blockAcquire hcur hcont hheld htaken).quiet_update rfl (by simp) (by simp)
    fun _ => block_condition (by simp)

theorem take_quiet {l : L} {c : Option C} (hcur : k.currentThread = some t)
    (hcont : InAcquire k t l c) (hfree : k.isHeldBy l t = true ∨ k.lockTaken l = false) :
    Quiet k (k.take t l c) :=
  (Move.take hcur hcont hfree).quiet_update take_cont (by simp) (by simp)
    fun _ => by rw [take_queue]

theorem Resume.quiet (h : Resume k k') : Quiet k k' := by
  cases h with
  | run hcur hq => exact (Move.run hcur hq).quiet run_cont fun c => by simp
  | start hcur h => exact (Move.start hcur h).quiet_update rfl (by simp) (by simp) fun c => rfl
  | waitReturn hcur h =>
    exact (Move.waitReturn hcur h).quiet_update rfl (by simp) (by simp) fun c => rfl
  | down hcur h hv => exact down_quiet hcur (Or.inr h) hv
  | blockP hcur h hv => exact blockP_quiet hcur (Or.inr h) hv
  | take hcur h hfree => exact take_quiet hcur (Or.inr (Or.inr h)) hfree
  | blockAcquire hcur h hheld htaken =>
    exact blockAcquire_quiet hcur (Or.inr (Or.inr h)) hheld htaken

theorem dispatch_nil (hcur : k.currentThread = none) (hq : k.queue .ready = []) :
    Kernel.dispatch [] k = k := by
  have hqueue : Function.update k.queue .ready [] = k.queue := by
    rw [← hq, Function.update_eq_self]
  simp only [Kernel.dispatch, Kernel.setQueue, hqueue, ← hcur]

theorem dispatch_resumes (hcur : k.currentThread = none) (hq : k.queue .ready = ts) :
    Resumes k (Kernel.dispatch ts k) := by
  induction ts generalizing k with
  | nil => rw [dispatch_nil hcur hq]
  | cons t ts ih =>
    refine .head (.run hcur hq) ?_
    have hready : (k.run t ts).queue .ready = ts := by rw [run_queue, Function.update_self]
    rw [Kernel.dispatch]
    split
    · rename_i h
      exact .single (.start run_currentThread h)
    · rename_i s h
      rcases pLoop_cases (Kernel.dispatch ts) (k.run t ts) t s with ⟨hv, heq⟩ | ⟨hv, heq⟩
      · rw [heq]
        exact .head (.blockP run_currentThread h hv) (ih rfl hready)
      · rw [heq]
        exact .single (.down run_currentThread h hv)
    · rename_i l c h
      rcases acquireLoop_cases (Kernel.dispatch ts) (k.run t ts) t l c with
        ⟨hheld, htaken, heq⟩ | ⟨hfree, heq⟩
      · rw [heq]
        exact .head (.blockAcquire run_currentThread h hheld htaken) (ih rfl hready)
      · rw [heq]
        exact .single (.take run_currentThread h hfree)
    · rename_i c l h
      exact .single (.waitReturn run_currentThread h)
    · exact .refl

theorem sleep_resumes (hcur : k.currentThread = none) : Resumes k k.sleep :=
  dispatch_resumes hcur rfl

theorem sleep_moves (hcur : k.currentThread = none) : QuietMoves k k.sleep :=
  Relation.ReflTransGen.mono (fun _ _ h => h.quiet) _ _ (sleep_resumes hcur)

theorem pLoop_moves {s : S} (hcur : k.currentThread = some t) (hcont : k.cont t = .user) :
    QuietMoves k (k.pLoop Kernel.sleep t s) := by
  rcases pLoop_cases Kernel.sleep k t s with ⟨hv, heq⟩ | ⟨hv, heq⟩
  · rw [heq]
    exact .head (blockP_quiet hcur (Or.inl hcont) hv) (sleep_moves rfl)
  · rw [heq]
    exact .single (down_quiet hcur (Or.inl hcont) hv)

theorem acquireLoop_moves {l : L} {c : Option C} (hcur : k.currentThread = some t)
    (hcont : InAcquire k t l c) : QuietMoves k (k.acquireLoop Kernel.sleep t l c) := by
  rcases acquireLoop_cases Kernel.sleep k t l c with ⟨hheld, htaken, heq⟩ | ⟨hfree, heq⟩
  · rw [heq]
    exact .head (blockAcquire_quiet hcur hcont hheld htaken) (sleep_moves rfl)
  · rw [heq]
    exact .single (take_quiet hcur hcont hfree)

section wake
variable (k : Kernel T S L C) (q : Queue S L C)

@[simp] theorem wake_currentThread : (k.wake q).currentThread = k.currentThread := by
  unfold Kernel.wake
  split <;> rfl

@[simp] theorem wake_cont : (k.wake q).cont = k.cont := by
  unfold Kernel.wake
  split <;> rfl

@[simp] theorem wake_currentTh : (k.wake q).currentTh = k.currentTh := by
  unfold Kernel.wake
  split <;> rfl

@[simp] theorem wake_lockTaken : (k.wake q).lockTaken = k.lockTaken := by
  unfold Kernel.wake
  split <;> rfl

@[simp] theorem wake_value : (k.wake q).value = k.value := by
  unfold Kernel.wake
  split <;> rfl

@[simp] theorem wake_waitingThreads : (k.wake q).waitingThreads = k.waitingThreads := by
  unfold Kernel.wake
  split <;> rfl

theorem wake_queue (hq : q ≠ .ready) : (k.wake q).queue q = (k.queue q).tail := by
  unfold Kernel.wake
  split
  · rename_i h
    rw [h]
    rfl
  · rename_i t ts h
    simp [Kernel.record, Kernel.readyToRun, Kernel.setQueue, hq, h]

theorem wake_queue_of_ne {q' : Queue S L C} (hq : q' ≠ q) (hready : q' ≠ .ready) :
    (k.wake q).queue q' = k.queue q' := by
  unfold Kernel.wake
  split
  · rfl
  · simp [Kernel.record, Kernel.readyToRun, Kernel.setQueue, hq, hready]

theorem mem_ready_wake {w : T} (hq : q ≠ .ready) :
    w ∈ (k.wake q).queue .ready ↔ w ∈ k.queue .ready ∨ (k.queue q).head? = some w := by
  unfold Kernel.wake
  split
  · rename_i h
    simp [h]
  · rename_i t ts h
    simp [Kernel.record, Kernel.readyToRun, Kernel.setQueue, h, hq.symm, eq_comm]

/-- Waking a thread is all that `wake` puts into the history. -/
theorem wake_history : (k.wake q).history = k.history ∨
    ∃ t, (k.wake q).history = .wakes t q :: k.history := by
  unfold Kernel.wake
  split
  · exact Or.inl rfl
  · exact Or.inr ⟨_, rfl⟩

end wake

theorem release_eq {l : L} (h : k.isHeldBy l t = true) :
    k.release t l = { (k.record (.released t l)).wake (.lock l) with
      lockTaken := Function.update k.lockTaken l false } := by
  have h' : (k.record (.released t l)).isHeldBy l t = true := h
  simp only [Kernel.release, h', if_true, wake_lockTaken]
  rfl

theorem release_eq_record {l : L} (h : k.isHeldBy l t = false) :
    k.release t l = k.record (.released t l) := by
  have h' : (k.record (.released t l)).isHeldBy l t = false := h
  simp only [Kernel.release, h', Bool.false_eq_true, if_false]

/-- `Broadcast` is a sequence of moves that leave every thread where it goes on. -/
theorem broadcastLoop_moves {c : C} {n : ℕ} (hn : k.waitingThreads c = n) :
    Relation.ReflTransGen (fun k k' => Move k k' ∧ k'.cont = k.cont) k
      (Kernel.broadcastLoop c n k) := by
  induction n generalizing k with
  | zero => exact .refl
  | succ n ih =>
    exact .head ⟨.wakeWaiter (by omega), wake_cont _ _⟩ (ih (by simp [Kernel.wakeWaiter, hn]))

theorem broadcast_moves {c : C} : Relation.ReflTransGen (fun k k' => Move k k' ∧ k'.cont = k.cont) k
    (Kernel.broadcastLoop c (k.waitingThreads c).toNat k) := by
  by_cases hw : 0 ≤ k.waitingThreads c
  · exact broadcastLoop_moves (Int.toNat_of_nonneg hw).symm
  · rw [Int.toNat_of_nonpos (by omega)]
    exact .refl

theorem yield_moves (hcur : k.currentThread = some t) : QuietMoves k (k.yield t) := by
  unfold Kernel.yield
  split_ifs
  · exact .refl
  · have hyield := (Move.yield hcur).quiet rfl fun c => by
      simp [Kernel.yieldReady, Kernel.readyToRun, Kernel.setQueue]
    exact .head hyield (sleep_moves rfl)

theorem release_currentThread {l : L} : (k.release t l).currentThread = k.currentThread := by
  cases h : k.isHeldBy l t with
  | true => simp [release_eq h, Kernel.record]
  | false => simp [release_eq_record h, Kernel.record]

theorem release_cont {l : L} : (k.release t l).cont = k.cont := by
  cases h : k.isHeldBy l t with
  | true => simp [release_eq h, Kernel.record]
  | false => simp [release_eq_record h, Kernel.record]

theorem release_condition {l : L} {c : C} :
    (k.release t l).queue (.condition c) = k.queue (.condition c) := by
  cases h : k.isHeldBy l t with
  | true =>
    rw [release_eq h]
    exact wake_queue_of_ne _ _ (by simp) (by simp)
  | false => rw [release_eq_record h, Kernel.record]

theorem waitBlock_cont {c : C} {l : L} :
    (k.waitBlock t c l).cont = Function.update k.cont t (.wait c l) := release_cont

theorem v_quiet (k : Kernel T S L C) (s : S) : Quiet k (k.v s) :=
  (Move.v s).quiet (wake_cont _ _) fun _ => wake_queue_of_ne _ _ (by simp) (by simp)

/-- The calls after which a thread has finished, waits for a condition or has been
woken from one: what they do before the processor is given away. -/
def Marked (k k' : Kernel T S L C) (t : T) (a : Label T S L C) : Prop :=
  (a = .finish ∧ QuietMoves (k.finishBlock t) k') ∨
  (∃ c l, a = .wait c l ∧ k.isHeldBy l t = true ∧ QuietMoves (k.waitBlock t c l) k') ∨
  (∃ c l, a = .signal c l ∧ k.isHeldBy l t = true ∧ 0 < k.waitingThreads c ∧
    k' = k.wakeWaiter c) ∨
  (∃ c l, a = .broadcast c l ∧ k.isHeldBy l t = true ∧
    k' = Kernel.broadcastLoop c (k.waitingThreads c).toNat k)

theorem call_moves {a : Label T S L C} (hcur : k.currentThread = some t)
    (hcont : k.cont t = .user) (h : k.call t a = some k') : QuietMoves k k' ∨ Marked k k' t a := by
  cases a with
  | p s =>
    obtain rfl := Option.some.inj h
    exact Or.inl (pLoop_moves hcur hcont)
  | v s =>
    obtain rfl := Option.some.inj h
    exact Or.inl (.single (v_quiet k s))
  | acquire l =>
    obtain rfl := Option.some.inj h
    exact Or.inl (acquireLoop_moves hcur (Or.inl ⟨hcont, rfl⟩))
  | release l =>
    obtain rfl := Option.some.inj h
    exact Or.inl (.single ((Move.release l hcur).quiet release_cont fun c => release_condition))
  | wait c l =>
    obtain rfl := Option.some.inj h
    unfold Kernel.wait
    split_ifs with hheld
    · exact Or.inr (Or.inr (Or.inl ⟨c, l, rfl, hheld, sleep_moves release_currentThread⟩))
    · exact Or.inl .refl
  | signal c l =>
    obtain rfl := Option.some.inj h
    unfold Kernel.signal
    split_ifs with hheld hw
    · exact Or.inr (Or.inr (Or.inr (Or.inl ⟨c, l, rfl, hheld, hw, rfl⟩)))
    · exact Or.inl .refl
    · exact Or.inl .refl
  | broadcast c l =>
    obtain rfl := Option.some.inj h
    unfold Kernel.broadcast
    split_ifs with hheld
    · exact Or.inr (Or.inr (Or.inr (Or.inr ⟨c, l, rfl, hheld, rfl⟩)))
    · exact Or.inl .refl
  | yield =>
    obtain rfl := Option.some.inj h
    exact Or.inl (yield_moves hcur)
  | fork u =>
    simp only [Kernel.call] at h
    split_ifs at h with hu
    obtain rfl := Option.some.inj h
    exact Or.inl (.single ((Move.fork hu).quiet_update rfl (by simp) (by simp) fun c => by
      simp [Kernel.fork, Kernel.readyToRun, Kernel.setQueue, Kernel.setCont]))
  | finish =>
    obtain rfl := Option.some.inj h
    exact Or.inr (Or.inl ⟨rfl, sleep_moves rfl⟩)
  | handlerV s => cases h
  | idleReturn => cases h

theorem callWoken_moves {a : Label T S L C} {c : C} {l : L} (hcur : k.currentThread = some t)
    (hcont : k.cont t = .woken c l) (h : k.callWoken t c l a = some k') : QuietMoves k k' := by
  cases a with
  | acquire m =>
    simp only [Kernel.callWoken] at h
    split_ifs at h with hm
    obtain rfl := Option.some.inj h
    exact acquireLoop_moves hcur (Or.inr (Or.inl ⟨c, hcont, rfl⟩))
  | yield =>
    obtain rfl := Option.some.inj h
    exact yield_moves hcur
  | _ => cases h

/-- What one step of the machine can do. -/
theorem step_cases {a : Label T S L C} (h : k.step a = some k') :
    (∃ s, a = .handlerV s ∧ k' = k.v s) ∨
    (a = .idleReturn ∧ k.currentThread = none ∧ k' = k.sleep) ∨
    (∃ t, k.currentThread = some t ∧ k.cont t = .user ∧ k.call t a = some k') ∨
    (∃ t c l, k.currentThread = some t ∧ k.cont t = .woken c l ∧
      k.callWoken t c l a = some k') := by
  unfold Kernel.step at h
  split at h
  · rename_i s
    exact Or.inl ⟨s, rfl, (Option.some.inj h).symm⟩
  · rename_i hcur
    exact Or.inr (Or.inl ⟨rfl, hcur, (Option.some.inj h).symm⟩)
  · rename_i t _ hcur
    split at h
    · rename_i hcont
      exact Or.inr (Or.inr (Or.inl ⟨t, hcur, hcont, h⟩))
    · rename_i c l hcont
      exact Or.inr (Or.inr (Or.inr ⟨t, c, l, hcur, hcont, h⟩))
    · cases h
  · cases h

theorem step_quiet_moves {a : Label T S L C} (h : k.step a = some k') : QuietMoves k k' ∨
    ∃ t, k.currentThread = some t ∧ k.cont t = .user ∧ Marked k k' t a := by
  rcases step_cases h with ⟨s, -, rfl⟩ | ⟨-, hcur, rfl⟩ | ⟨t, hcur, hcont, h⟩ |
    ⟨t, c, l, hcur, hcont, h⟩
  · exact Or.inl (.single (v_quiet k s))
  · exact Or.inl (sleep_moves hcur)
  · rcases call_moves hcur hcont h with h | h
    · exact Or.inl h
    · exact Or.inr ⟨t, hcur, hcont, h⟩
  · exact Or.inl (callWoken_moves hcur hcont h)

theorem step_moves {a : Label T S L C} (h : k.step a = some k') : Moves k k' := by
  rcases step_quiet_moves h with h | ⟨t, hcur, hcont, h⟩
  · exact h.moves
  rcases h with ⟨-, h⟩ | ⟨c, l, -, hheld, h⟩ | ⟨c, l, -, -, hw, rfl⟩ | ⟨c, l, -, -, rfl⟩
  · exact .head (.finish hcur hcont) h.moves
  · exact .head (.wait hcur hcont hheld) h.moves
  · exact .single (.wakeWaiter hw)
  · exact Relation.ReflTransGen.mono (fun _ _ hm => hm.1) _ _ broadcast_moves

/-- What every move keeps, every step keeps. -/
theorem step_invariant {I : Kernel T S L C → Prop} (hI : ∀ {k k'}, I k → Move k k' → I k')
    {a : Label T S L C} (hk : I k) (h : k.step a = some k') : I k' := by
  have hm := step_moves h
  clear h
  induction hm with
  | refl => exact hk
  | tail _ hm ih => exact hI ih hm

end moves

end operations

end Nachos.KernelThreads
