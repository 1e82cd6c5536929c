import Nachos.ProcessManager

/-!
# Processes inside the process manager

`Exec`, `Join` and `Exit` of many processes, interleaved at the lock
operations of `ProcessManager`. Every routine takes `pm_lock`; `ClearPID`,
`Broadcast` and `Join` then take the lock of one id as well, and `Join` keeps
that one over its loop. A lock is its owner: by what is shown of `Lock`, a
thread passes `Acquire` exactly when the lock is free or its own, and a
`Release` by another thread does nothing. Which waiting thread gets a lock is
left open.

The locks and conditions of an id are objects on the heap. They are made by
`AddProcess`, both under the same number here, and deleted by `ClearPID`. A
step through a pointer that is `NULL`, or to an object that is deleted, cannot
be taken.
-/
namespace Nachos.ProcessThreads
open GuardedRuns

inductive LockName where
  | pm
  | pcb (lock : ℕ)
  deriving DecidableEq, Repr

/-- Who called `ClearPID` or `GetJoins`: `Exec` without memory, `Exit`, or
`Join` with the process it was meant for and the value it will return. -/
inductive Caller (P : Type*) where
  | exec
  | exit
  | join (target : Option P) (value : ℤ)
  deriving DecidableEq, Repr

/-- The routines that take the lock of an id inside `pm_lock`. -/
inductive Nested (P : Type*) where
  | clear (pid : ℤ) (k : Caller P)
  | broadcast (pid : ℤ)
  | join (pid : ℤ) (target : Option P)
  deriving DecidableEq, Repr

def Nested.pid {P : Type*} : Nested P → ℤ
  | .clear pid _ => pid
  | .broadcast pid => pid
  | .join pid _ => pid

/-- The routines by what follows their `pm_lock->Acquire()`. A turn of the
loop of `ProcessManager::Join` is one of them. -/
inductive Routine (P : Type*) where
  | add (child : P) (memory : Bool)
  | nested (n : Nested P)
  | getJoins (pid : ℤ) (k : Caller P)
  | loop (pid : ℤ) (target : Option P)
  | decrement (pid : ℤ) (target : Option P)
  | getStatus (pid : ℤ) (target : Option P)
  deriving DecidableEq, Repr

/-- Where a process stands. `enter` is at `pm_lock->Acquire()` and `inside`
after it; `lock` is at `locks[pid]->Acquire()` and `locked` after it. -/
inductive Pc (P : Type*) where
  | absent
  | starting
  | user
  | finished
  | enter (r : Routine P)
  | inside (r : Routine P)
  | lock (n : Nested P)
  | locked (n : Nested P)
  | clearEnd (pid : ℤ) (k : Caller P)
  | broadcastUnlock (pid : ℤ)
  | broadcastEnd (pid : ℤ)
  | joinsRead (pid : ℤ) (k : Caller P)
  | joinLeave (pid : ℤ) (target : Option P)
  | joinWait (pid : ℤ) (target : Option P)
  | asleep (pid : ℤ) (target : Option P) (condition lock : ℕ)
  | woken (pid : ℤ) (target : Option P) (lock : ℕ)
  | statusRead (pid : ℤ) (target : Option P)
  deriving DecidableEq, Repr

/-- `exitArg`, `parent` and `returned` are history: what a process passed to
`ExitProcess`, to whom `Exec` returned its id, and what `Join` returned. -/
structure State (P : Type*) where
  table : ProcessTable P
  locks : ℤ → Option ℕ
  conditions : ℤ → Option ℕ
  owner : LockName → Option P
  fresh : ℕ
  pid : P → ℤ
  status : P → ℤ
  pc : P → Pc P
  exitArg : P → Option ℤ
  parent : P → Option P
  returned : List (P × Option P × ℤ)

inductive Label (P : Type*) where
  | exec (caller child : P) (memory : Bool)
  | join (caller : P) (id : ℤ) (target : Option P)
  | exit (caller : P) (status : ℤ)
  | next (p : P)
  deriving DecidableEq, Repr

/-- `if (status < 0) status = 0;` -/
def exitStatus (status : ℤ) : ℤ := if status < 0 then 0 else status

variable {P : Type*} [DecidableEq P]

namespace State

def goto (s : State P) (p : P) (c : Pc P) : State P := { s with pc := Function.update s.pc p c }

def acquire (s : State P) (p : P) (l : LockName) (c : Pc P) : Option (State P) :=
  if s.owner l = none ∨ s.owner l = some p then
    some { s.goto p c with owner := Function.update s.owner l (some p) }
  else none

def release (s : State P) (p : P) (l : LockName) : State P :=
  if s.owner l = some p then { s with owner := Function.update s.owner l none } else s

/-- `pm_lock->Release()` and what comes next. -/
def leave (s : State P) (p : P) (c : Pc P) : State P := (s.release p .pm).goto p c

/-- The end of a system call. -/
def finish (s : State P) (p : P) : Caller P → State P
  | .exec => s.goto p .user
  | .exit => s.goto p .finished
  | .join target value =>
    { s.goto p .user with returned := (p, target, value) :: s.returned }

/-- What the caller does with the count that `GetJoins` returned. Both callers
pass the id of the current process to `ClearPID`. -/
def afterJoins (s : State P) (p : P) (k : Caller P) (joins : ℤ) : State P :=
  if joins = 0 then s.goto p (.enter (.nested (.clear (s.pid p) k))) else s.finish p k

/-- `AddProcess`; the thread of the child is forked if there is memory. -/
def addProcess (s : State P) (p c : P) (memory : Bool) : State P :=
  let s := { s with
    table := s.table.addProcess c (s.pid c)
    conditions := Function.update s.conditions (s.pid c) (some s.fresh)
    locks := Function.update s.locks (s.pid c) (some s.fresh)
    fresh := s.fresh + 1 }
  if memory then
    { s.leave p .user with parent := Function.update s.parent c (some p) }
  else s.leave p (.enter (.nested (.clear (s.pid c) .exec)))

/-- The routine found no such process. -/
def unknown (s : State P) (p : P) : Nested P → State P
  | .clear _ k => (s.release p .pm).finish p k
  | .broadcast pid => s.leave p (.enter (.getJoins pid .exit))
  | .join pid target => s.leave p (.enter (.decrement pid target))

/-- The first piece of a routine, under `pm_lock`. -/
def body (s : State P) (p : P) : Routine P → Option (State P)
  | .add c memory => some (s.addProcess p c memory)
  | .nested n =>
    (s.table.known n.pid).map fun marked => if marked then s.goto p (.lock n) else s.unknown p n
  | .getJoins pid k =>
    (s.table.known pid).map fun marked =>
      if marked then s.leave p (.joinsRead pid k) else (s.release p .pm).afterJoins p k (-1)
  | .loop pid target =>
    (s.table.pcbs pid).bind fun q =>
      if s.status q > -1 then
        (s.locks pid).map fun g => (s.release p (.pcb g)).goto p (.joinLeave pid target)
      else some (s.leave p (.joinWait pid target))
  | .decrement pid target =>
    (s.table.decrementJoins pid).map fun table =>
      { s with table := table }.leave p (.enter (.getStatus pid target))
  | .getStatus pid target =>
    (s.table.known pid).map fun marked =>
      if marked then s.leave p (.statusRead pid target)
      else s.leave p (.enter (.getJoins pid (.join target (-1))))

/-- `Broadcast`: every thread asleep on the condition goes back to its lock. -/
def wakeAll (s : State P) (condition : ℕ) : State P :=
  { s with pc := fun p =>
      match s.pc p with
      | .asleep pid target c g => if c = condition then .woken pid target g else s.pc p
      | c => c }

/-- The second piece, under both locks. -/
def nestedBody (s : State P) (p : P) : Nested P → Option (State P)
  | .clear pid k =>
    (s.locks pid).map fun g =>
      { s with
        table := s.table.dropPCB pid
        conditions := Function.update s.conditions pid none }.release p (.pcb g)
        |>.goto p (.clearEnd pid k)
  | .broadcast pid =>
    (s.conditions pid).map fun c => (s.wakeAll c).goto p (.broadcastUnlock pid)
  | .join pid target =>
    some ({ s with table := s.table.countJoin pid }.leave p (.enter (.loop pid target)))

/-- The next step of a process in kernel code. -/
def next (s : State P) (p : P) : Option (State P) :=
  match s.pc p with
  | .starting => if (s.parent p).isSome then some (s.goto p .user) else none
  | .enter r => s.acquire p .pm (.inside r)
  | .inside r => s.body p r
  | .lock n => (s.locks n.pid).bind fun g => s.acquire p (.pcb g) (.locked n)
  | .locked n => s.nestedBody p n
  | .clearEnd pid k =>
    (s.table.clearID pid).map fun table =>
      ({ s with table := table, locks := Function.update s.locks pid none }.release p .pm).finish p k
  | .broadcastUnlock pid =>
    (s.locks pid).map fun g => (s.release p (.pcb g)).goto p (.broadcastEnd pid)
  | .broadcastEnd pid => some (s.leave p (.enter (.getJoins pid .exit)))
  | .joinsRead pid k => some (s.afterJoins p k (s.table.joins pid))
  | .joinLeave pid target => some (s.leave p (.enter (.decrement pid target)))
  | .joinWait pid target =>
    (s.conditions pid).bind fun c => (s.locks pid).map fun g =>
      if s.owner (.pcb g) = some p then (s.release p (.pcb g)).goto p (.asleep pid target c g)
      else s.goto p (.enter (.loop pid target))
  | .woken pid target g =>
    if s.locks pid = some g then s.acquire p (.pcb g) (.enter (.loop pid target)) else none
  | .statusRead pid target =>
    (s.table.pcbs pid).map fun q =>
      s.goto p (.enter (.getJoins pid (.join target (s.status q))))
  | _ => none

/-- `GetPID` in the `AddrSpace` constructor, up to the call of `AddProcess`. -/
def exec (s : State P) (p c : P) (memory : Bool) : State P :=
  let r := s.table.getPID
  { ((s.goto c .starting).goto p (.enter (.add c memory))) with
    table := r.2
    pid := Function.update s.pid c r.1
    status := Function.update s.status c (-1) }

def exit (s : State P) (p : P) (status : ℤ) : State P :=
  { s.goto p (.enter (.nested (.broadcast (s.pid p)))) with
    status := Function.update s.status p (exitStatus status)
    exitArg := Function.update s.exitArg p (some status) }

end State

/-- A process runs its own code until it makes a system call. A `Join` that
names its target passes the id that `Exec` returned for that child. -/
def step (s : State P) : Label P → Option (State P)
  | .exec p c memory =>
    if s.pc p = .user ∧ s.pc c = .absent then some (s.exec p c memory) else none
  | .join p id target =>
    if s.pc p = .user ∧ ∀ c ∈ target, s.parent c = some p ∧ s.pid c = id then
      some (s.goto p (.enter (.nested (.join id target))))
    else none
  | .exit p status => if s.pc p = .user then some (s.exit p status) else none
  | .next p => s.next p

def Step (s : State P) (l : Label P) (t : State P) : Prop := step s l = some t

/-- The manager when `root` has just been started; no other process exists. -/
def initial (storage : ℕ → Word) (maxProcess : ℕ) (joins : ℤ → ℤ) (pid : P → ℤ) (root : P) :
    State P :=
  let r := (ProcessTable.create storage maxProcess (fun _ => none) joins).getPID
  { table := r.2.addProcess root r.1
    locks := Function.update (fun _ => none) r.1 (some 0)
    conditions := Function.update (fun _ => none) r.1 (some 0)
    owner := fun _ => none
    fresh := 1
    pid := Function.update pid root r.1
    status := fun _ => -1
    pc := fun p => if p = root then .user else .absent
    exitArg := fun _ => none
    parent := fun _ => none
    returned := [] }

end Nachos.ProcessThreads
