import Nachos.KernelThreads
import Nachos.CodeContexts

/-!
# The interrupt level

The code of `threads/synch.cc`, `threads/thread.cc` and `machine/interrupt.cc` at the grain at
which the level of interrupts changes. Every thread has the code that it still has to run and
the local variables `oldLevel` of the calls it is in, the innermost first. A call puts the body
of the routine in front of the code, and a mark after it that keeps the level at the call.
Turning interrupts on puts the code of `OneTick` in front. The handlers and `Idle` run on the
stack of the current thread.

Which interrupt is due is a choice of the step, so the clock and the list of pending interrupts
do not appear. A handler calls `V` and `YieldOnReturn`; what else it does with its device has no
part in the level. A thread that has no code left runs code of its own: it makes any call, sets
the level, executes a user instruction or finishes.
-/
namespace Nachos.InterruptLevels
open GuardedRuns CodeContexts
open KernelThreads (Queue ThreadStatus)

/-- `IntStatus` -/
inductive Level where
  | off
  | on
  deriving DecidableEq, Repr

/-- The routines that give the level back. -/
inductive Op (T S L C : Type*) where
  | p (s : S)
  | v (s : S)
  | acquire (l : L)
  | release (l : L)
  | wait (c : C) (l : L)
  | signal (c : C) (l : L)
  | broadcast (c : C) (l : L)
  | fork (u : T)
  | yield
  deriving DecidableEq, Repr

/-- The threads and the synchronisation objects. -/
structure Objects (T S L C : Type*) where
  status : T → ThreadStatus
  queue : Queue S L C → List T
  value : S → ℤ
  lockTaken : L → Bool
  currentTh : L → Option T
  waitingThreads : C → ℤ

/-- Statements that only change the objects. `wake` is `queue->Remove()` and the `ReadyToRun` of
the thread unless the queue is empty. -/
inductive Action (T S L C : Type*) where
  | append (q : Queue S L C)
  | wake (q : Queue S L C)
  | readyToRun (u : T)
  | down (s : S)
  | up (s : S)
  | take (l : L)
  | free (l : L)
  | addWaiter (c : C)
  | removeWaiter (c : C)
  deriving DecidableEq, Repr

/-- Conditions before a block: the loops of `P`, `Acquire` and `Broadcast`, the test of `Signal`,
and the test that the lock is held, before the rest of a routine. -/
inductive Test (T S L C : Type*) where
  | noUnit (s : S)
  | taken (l : L)
  | held (l : L) (op : Op T S L C)
  | anyWaiter (c : C)
  | moreWaiters (c : C)
  deriving DecidableEq, Repr

/-- `save` is `oldLevel = SetLevel(IntOff)` and `restore` is `SetLevel(oldLevel)`. -/
inductive Instr (T S L C : Type*) where
  | save
  | restore
  | setLevel (now : Level)
  | changeLevel (now : Level)
  | call (op : Op T S L C)
  | ret (op : Op T S L C) (before : Level)
  | act (a : Action T S L C)
  | test (b : Test T S L C)
  | stackAllocate (u : T)
  | switch
  | sleep
  | findNext
  | idle
  | scan
  | beginHandler
  | endHandler
  | yieldOnReturn
  | clearYield
  | yieldIfAsked
  deriving DecidableEq, Repr

/-- What a handler does. -/
inductive HandlerOp (S : Type*) where
  | v (s : S)
  | yieldOnReturn
  deriving DecidableEq, Repr

/-- The assertions about the level. -/
inductive Assertion where
  | setLevel
  | checkIfDue
  | sleep
  | yieldOnReturn
  deriving DecidableEq, Repr

section code
variable {T S L C : Type*}

/-- Code between `oldLevel = SetLevel(IntOff)` and `SetLevel(oldLevel)`. -/
def uninterrupted (l : List (Instr T S L C)) : List (Instr T S L C) := .save :: (l ++ [.restore])

/-- The routines. -/
def body : Op T S L C → List (Instr T S L C)
  | .p s => uninterrupted [.test (.noUnit s), .act (.down s)]
  | .v s => uninterrupted [.act (.wake (.semaphore s)), .act (.up s)]
  | .acquire l => uninterrupted [.test (.taken l), .act (.take l)]
  | .release l => [.test (.held l (.release l))]
  | .wait c l => [.test (.held l (.wait c l))]
  | .signal c l => [.test (.held l (.signal c l))]
  | .broadcast c l => [.test (.held l (.broadcast c l))]
  | .fork u => .stackAllocate u :: uninterrupted [.act (.readyToRun u)]
  | .yield => uninterrupted [.switch]

/-- What follows `if (!isHeldByCurrentThread()) return;` -/
def heldBody : Op T S L C → List (Instr T S L C)
  | .release l => uninterrupted [.act (.wake (.lock l)), .act (.free l)]
  | .wait c l => uninterrupted [.act (.append (.condition c)), .act (.addWaiter c),
      .call (.release l), .sleep] ++ [.call (.acquire l)]
  | .signal c _ => [.test (.anyWaiter c)]
  | .broadcast c _ => uninterrupted [.test (.moreWaiters c)]
  | _ => []

/-- The block of a condition; a loop ends with its condition. -/
def block : Test T S L C → List (Instr T S L C)
  | .noUnit s => [.act (.append (.semaphore s)), .sleep, .test (.noUnit s)]
  | .taken l => [.act (.append (.lock l)), .sleep, .test (.taken l)]
  | .held _ op => heldBody op
  | .anyWaiter c => uninterrupted [.act (.removeWaiter c), .act (.wake (.condition c))]
  | .moreWaiters c => [.act (.removeWaiter c), .act (.wake (.condition c)), .test (.moreWaiters c)]

/-- `Interrupt::OneTick` -/
def oneTick : List (Instr T S L C) := [.changeLevel .off, .scan, .changeLevel .on, .yieldIfAsked]

/-- `Thread::Finish` -/
def finish : List (Instr T S L C) := [.setLevel .off, .sleep]

/-- `ThreadRoot` up to the forked procedure. -/
def threadRoot : List (Instr T S L C) := [.setLevel .on]

def HandlerOp.instr : HandlerOp S → Instr T S L C
  | .v s => .call (.v s)
  | .yieldOnReturn => .yieldOnReturn

/-- The handler as `CheckIfDue` calls it. -/
def handle (h : List (HandlerOp S)) : List (Instr T S L C) :=
  .beginHandler :: (h.map HandlerOp.instr ++ [.endHandler])

end code

/-- A return of a routine, with the level at the call and at the return. -/
structure Return (T S L C : Type*) where
  thread : T
  op : Op T S L C
  before : Level
  after : Level
  deriving DecidableEq, Repr

structure Machine (T S L C : Type*) where
  level : Level
  inHandler : Bool
  askedYield : Bool
  currentThread : T
  objects : Objects T S L C
  code : T → List (Instr T S L C)
  saved : T → List Level
  returns : List (Return T S L C)
  halted : Bool
  failed : Option Assertion

inductive Label (T S L C : Type*) where
  | invoke (op : Op T S L C)
  | setLevel (now : Level)
  | tick
  | finish
  | go
  | due (handler : Option (List (HandlerOp S)))

section machine
variable {T S L C : Type*} [DecidableEq T] [DecidableEq S] [DecidableEq L] [DecidableEq C]

namespace Objects
variable (o : Objects T S L C)

def setStatus (t : T) (status : ThreadStatus) : Objects T S L C :=
  { o with status := Function.update o.status t status }

def setQueue (q : Queue S L C) (ts : List T) : Objects T S L C :=
  { o with queue := Function.update o.queue q ts }

def readyToRun (u : T) : Objects T S L C :=
  (o.setStatus u .ready).setQueue .ready (o.queue .ready ++ [u])

def act (t : T) : Action T S L C → Objects T S L C
  | .append q => o.setQueue q (o.queue q ++ [t])
  | .wake q =>
    match o.queue q with
    | [] => o
    | u :: us => (o.setQueue q us).readyToRun u
  | .readyToRun u => o.readyToRun u
  | .down s => { o with value := Function.update o.value s (o.value s - 1) }
  | .up s => { o with value := Function.update o.value s (o.value s + 1) }
  | .take l => { o with
      lockTaken := Function.update o.lockTaken l true
      currentTh := Function.update o.currentTh l (some t) }
  | .free l => { o with lockTaken := Function.update o.lockTaken l false }
  | .addWaiter c =>
    { o with waitingThreads := Function.update o.waitingThreads c (o.waitingThreads c + 1) }
  | .removeWaiter c =>
    { o with waitingThreads := Function.update o.waitingThreads c (o.waitingThreads c - 1) }

def holds (t : T) : Test T S L C → Bool
  | .noUnit s => o.value s = 0
  | .taken l => o.currentTh l ≠ some t && o.lockTaken l
  | .held l _ => o.currentTh l = some t
  | .anyWaiter c => o.waitingThreads c > 0
  | .moreWaiters c => o.waitingThreads c > 0

end Objects

namespace Machine
variable (m : Machine T S L C)

def goto (t : T) (code : List (Instr T S L C)) : Machine T S L C :=
  { m with code := Function.update m.code t code }

def fail (a : Assertion) : Machine T S L C := { m with failed := some a }

/-- `Interrupt::SetLevel`, with the code after it. -/
def setLevel (t : T) (now : Level) (rest : List (Instr T S L C)) : Machine T S L C :=
  if now = .on ∧ m.inHandler = true then m.fail .setLevel
  else
    { m.goto t (if now = .on ∧ m.level = .off then oneTick ++ rest else rest) with level := now }

/-- `Scheduler::Run` of the first ready thread. -/
def run (o : Objects T S L C) (u : T) : Machine T S L C :=
  { m with objects := o.setStatus u .running, currentThread := u }

/-- The next instruction of the current thread. -/
def exec (t : T) (rest : List (Instr T S L C)) : Instr T S L C → Option (Machine T S L C)
  | .save => some { m.setLevel t .off rest with
      saved := Function.update m.saved t (m.level :: m.saved t) }
  | .restore =>
    match m.saved t with
    | [] => none
    | oldLevel :: saved =>
      some { m.setLevel t oldLevel rest with saved := Function.update m.saved t saved }
  | .setLevel now => some (m.setLevel t now rest)
  | .changeLevel now => some ({ m with level := now }.goto t rest)
  | .call op => some (m.goto t (body op ++ .ret op m.level :: rest))
  | .ret op before =>
    some ({ m with returns := ⟨t, op, before, m.level⟩ :: m.returns }.goto t rest)
  | .act a => some ({ m with objects := m.objects.act t a }.goto t rest)
  | .test b => some (m.goto t (if m.objects.holds t b then block b ++ rest else rest))
  | .stackAllocate u =>
    if m.objects.status u = .justCreated then
      some ({ m.goto u threadRoot with saved := Function.update m.saved u [] }.goto t rest)
    else none
  | .switch =>
    match m.objects.queue .ready with
    | [] => some (m.goto t rest)
    | u :: us => some ((m.goto t rest).run ((m.objects.setQueue .ready us).readyToRun t) u)
  | .sleep =>
    if m.level = .off then
      some ({ m with objects := m.objects.setStatus t .blocked }.goto t (.findNext :: rest))
    else some (m.fail .sleep)
  | .findNext =>
    match m.objects.queue .ready with
    | [] => some (m.goto t (.idle :: .findNext :: rest))
    | u :: us => some ((m.goto t rest).run (m.objects.setQueue .ready us) u)
  | .idle => none
  | .scan => none
  | .beginHandler => some ({ m with inHandler := true }.goto t rest)
  | .endHandler => some ({ m with inHandler := false }.goto t rest)
  | .yieldOnReturn =>
    if m.inHandler then some ({ m with askedYield := true }.goto t rest)
    else some (m.fail .yieldOnReturn)
  | .clearYield => some ({ m with askedYield := false }.goto t rest)
  | .yieldIfAsked =>
    some ({ m with askedYield := false }.goto t (if m.askedYield then .call .yield :: rest else rest))

/-- `CheckIfDue(FALSE)` in a loop, or `Idle` with its `CheckIfDue(TRUE)`, which halts the machine
when nothing is pending. -/
def checkIfDue (t : T) (handler : Option (List (HandlerOp S))) : Option (Machine T S L C) :=
  match m.code t with
  | .scan :: rest =>
    if m.level = .off then
      match handler with
      | none => some (m.goto t rest)
      | some h => some (m.goto t (handle h ++ .scan :: rest))
    else some (m.fail .checkIfDue)
  | .idle :: rest =>
    if m.level = .off then
      match handler with
      | none => some { m with halted := true }
      | some h => some (m.goto t (handle h ++ .scan :: .clearYield :: rest))
    else some (m.fail .checkIfDue)
  | _ => none

/-- Code that the current thread runs of its own. -/
def own (t : T) (code : List (Instr T S L C)) : Option (Machine T S L C) :=
  if m.code t = [] then some (m.goto t code) else none

def step (a : Label T S L C) : Option (Machine T S L C) :=
  if m.halted || m.failed.isSome then none
  else
    match a with
    | .invoke op => m.own m.currentThread [.call op]
    | .setLevel now => m.own m.currentThread [.setLevel now]
    | .tick => m.own m.currentThread oneTick
    | .finish => m.own m.currentThread finish
    | .go =>
      match m.code m.currentThread with
      | [] => none
      | i :: rest => m.exec m.currentThread rest i
    | .due handler => m.checkIfDue m.currentThread handler

end Machine

def Step (m : Machine T S L C) (a : Label T S L C) (m' : Machine T S L C) : Prop :=
  m.step a = some m'

/-- `Initialize` up to `interrupt->Enable()`. -/
def start (main : T) (value : S → ℤ) (currentTh : L → Option T) : Machine T S L C where
  level := .off
  inHandler := false
  askedYield := false
  currentThread := main
  objects :=
    { status := fun t => if t = main then .running else .justCreated
      queue := fun _ => []
      value := value
      lockTaken := fun _ => false
      currentTh := currentTh
      waitingThreads := fun _ => 0 }
  code := fun t => if t = main then [.setLevel .on] else []
  saved := fun _ => []
  returns := []
  halted := false
  failed := none

end machine

/-! ### What code needs of the level -/

/-- What the code of a thread sees when it runs. -/
structure Context where
  level : Level
  inHandler : Bool
  saved : List Level

/-- Interrupts are off and no handler runs. -/
def Context.Quiet (x : Context) : Prop := x.level = .off ∧ x.inHandler = false

section levels
variable {T S L C : Type*}

/-- `V` is what handlers call, and interrupts are off there. Everything else is called outside
of handlers. -/
def MayCall (op : Op T S L C) (x : Context) : Prop :=
  x.inHandler = true → x.level = .off ∧ ∃ s, op = .v s

/-- The loops that sleep begin with interrupts off. -/
def MayTest (b : Test T S L C) (x : Context) : Prop :=
  x.inHandler = false ∧
    match b with
    | .noUnit _ => x.level = .off
    | .taken _ => x.level = .off
    | _ => True

def rules : Rules (Instr T S L C) Context where
  pre
    | .save, _ => True
    | .restore, x => ∃ oldLevel saved, x.saved = oldLevel :: saved ∧
        (x.inHandler = true → oldLevel = .off)
    | .setLevel now, x => now = .on → x.inHandler = false
    | .changeLevel _, x => x.inHandler = false
    | .call op, x => MayCall op x
    | .ret _ before, x => before = x.level
    | .act _, _ => True
    | .test b, x => MayTest b x
    | .stackAllocate _, x => x.inHandler = false
    | .switch, x => x.Quiet
    | .sleep, x => x.Quiet
    | .findNext, x => x.Quiet
    | .idle, x => x.Quiet
    | .scan, x => x.Quiet
    | .beginHandler, x => x.Quiet
    | .endHandler, x => x.inHandler = true
    | .yieldOnReturn, x => x.inHandler = true
    | .clearYield, _ => True
    | .yieldIfAsked, x => x.inHandler = false
  post
    | .save, x => { x with level := .off, saved := x.level :: x.saved }
    | .restore, x => { x with level := x.saved.headD .off, saved := x.saved.tail }
    | .setLevel now, x => { x with level := now }
    | .changeLevel now, x => { x with level := now }
    | .beginHandler, x => { x with inHandler := true }
    | .endHandler, x => { x with inHandler := false }
    | _, x => x

/-- The code runs to its end, outside of handlers. -/
def Fine (code : List (Instr T S L C)) (x : Context) : Prop :=
  ∃ y, y.inHandler = false ∧ rules.Accepts code x y

variable {x : Context} {l : List (Instr T S L C)}

theorem accepts_uninterrupted (h : x.inHandler = true → x.level = .off)
    (hl : rules.Accepts l { x with level := .off, saved := x.level :: x.saved }
      { x with level := .off, saved := x.level :: x.saved }) :
    rules.Accepts (uninterrupted l) x x :=
  ⟨trivial, hl.append ⟨⟨x.level, x.saved, rfl, h⟩, rfl⟩⟩

theorem accepts_oneTick (h : x.inHandler = false) :
    (rules (T := T) (S := S) (L := L) (C := C)).Accepts oneTick x { x with level := .on } :=
  ⟨h, ⟨rfl, h⟩, h, h, rfl⟩

theorem accepts_body {op : Op T S L C} (h : MayCall op x) : rules.Accepts (body op) x x := by
  have hoff : x.inHandler = true → x.level = .off := fun hin => (h hin).1
  have hin : (∀ s, op ≠ .v s) → x.inHandler = false := by
    intro hop
    by_contra hin
    obtain ⟨-, s, hs⟩ := h (by simpa using hin)
    exact hop s hs
  cases op with
  | v s => exact accepts_uninterrupted hoff ⟨trivial, trivial, rfl⟩
  | p s => exact accepts_uninterrupted hoff ⟨⟨hin nofun, rfl⟩, trivial, rfl⟩
  | acquire l => exact accepts_uninterrupted hoff ⟨⟨hin nofun, rfl⟩, trivial, rfl⟩
  | release l => exact ⟨⟨hin nofun, trivial⟩, rfl⟩
  | wait c l => exact ⟨⟨hin nofun, trivial⟩, rfl⟩
  | signal c l => exact ⟨⟨hin nofun, trivial⟩, rfl⟩
  | broadcast c l => exact ⟨⟨hin nofun, trivial⟩, rfl⟩
  | fork u => exact ⟨hin nofun, accepts_uninterrupted hoff ⟨trivial, rfl⟩⟩
  | yield => exact accepts_uninterrupted hoff ⟨⟨rfl, hin nofun⟩, rfl⟩

/-- A routine gives the level back. -/
theorem accepts_call {op : Op T S L C} (h : MayCall op x) :
    rules.Accepts (body op ++ [.ret op x.level]) x x := (accepts_body h).append ⟨rfl, rfl⟩

theorem mayCall (x : Context) (h : x.inHandler = false) (op : Op T S L C) : MayCall op x :=
  fun hin => absurd (h.symm.trans hin) nofun

theorem accepts_heldBody (h : x.inHandler = false) (op : Op T S L C) :
    rules.Accepts (heldBody op) x x := by
  have hoff : x.inHandler = true → x.level = .off := fun hin => absurd (h.symm.trans hin) nofun
  cases op with
  | release l => exact accepts_uninterrupted hoff ⟨trivial, trivial, rfl⟩
  | wait c l =>
    -- the `Release` runs with interrupts off, the `Acquire` at the level of the call
    have hrelease := mayCall ⟨.off, x.inHandler, x.level :: x.saved⟩ h (.release l : Op T S L C)
    refine Rules.Accepts.append (accepts_uninterrupted hoff ?_) ⟨mayCall x h (.acquire l), rfl⟩
    exact ⟨trivial, trivial, hrelease, ⟨rfl, h⟩, rfl⟩
  | signal c l => exact ⟨⟨h, trivial⟩, rfl⟩
  | broadcast c l => exact accepts_uninterrupted hoff ⟨⟨h, trivial⟩, rfl⟩
  | _ => rfl

theorem accepts_block {b : Test T S L C} (h : MayTest b x) : rules.Accepts (block b) x x := by
  obtain ⟨hin, hlevel⟩ := h
  have hoff : x.inHandler = true → x.level = .off := fun h => absurd (hin.symm.trans h) nofun
  cases b with
  | noUnit s => exact ⟨trivial, ⟨hlevel, hin⟩, ⟨hin, hlevel⟩, rfl⟩
  | taken l => exact ⟨trivial, ⟨hlevel, hin⟩, ⟨hin, hlevel⟩, rfl⟩
  | held l op => exact accepts_heldBody hin op
  | anyWaiter c => exact accepts_uninterrupted hoff ⟨trivial, trivial, rfl⟩
  | moreWaiters c => exact ⟨trivial, trivial, ⟨hin, trivial⟩, rfl⟩

/-- A handler runs with interrupts off from its begin to its end. -/
theorem accepts_handle (h : x.Quiet) (handler : List (HandlerOp S)) :
    (rules (T := T) (L := L) (C := C)).Accepts (handle handler) x x := by
  have hops : (rules (T := T) (L := L) (C := C)).Accepts (handler.map HandlerOp.instr)
      { x with inHandler := true } { x with inHandler := true } := by
    apply Rules.accepts_of_forall
    intro i hi
    obtain ⟨op, -, rfl⟩ := List.mem_map.mp hi
    cases op with
    | v s => exact ⟨fun _ => ⟨h.1, s, rfl⟩, rfl⟩
    | yieldOnReturn => exact ⟨rfl, rfl⟩
  have hend : { x with inHandler := false } = x := by
    obtain ⟨level, inHandler, saved⟩ := x
    obtain rfl : inHandler = false := h.2
    rfl
  exact ⟨h, hops.append ⟨rfl, hend⟩⟩

end levels

/-! ### Every state of every run -/

/-- What thread `t` sees when it is the current thread. -/
def Machine.context {T S L C : Type*} (m : Machine T S L C) (t : T) : Context :=
  ⟨m.level, m.inHandler, m.saved t⟩

/-- A thread that is not current is in a routine that gave up the processor, with interrupts
off. -/
structure Inv {T S L C : Type*} (m : Machine T S L C) : Prop where
  current : Fine (m.code m.currentThread) (m.context m.currentThread)
  others : ∀ t, t ≠ m.currentThread → Fine (m.code t) ⟨.off, false, m.saved t⟩
  forked : m.objects.status m.currentThread ≠ .justCreated
  handler : m.inHandler = true → m.level = .off
  returns : ∀ r ∈ m.returns, r.after = r.before
  running : m.failed = none

section invariant
variable {T S L C : Type*} [DecidableEq T]
variable {m m' : Machine T S L C} {t u : T} {i : Instr T S L C} {rest : List (Instr T S L C)}

theorem goto_self {code : List (Instr T S L C)} : (m.goto t code).code t = code :=
  Function.update_self _ _ _

theorem goto_of_ne {code : List (Instr T S L C)} (h : u ≠ t) : (m.goto t code).code u = m.code u :=
  Function.update_of_ne h _ _

omit [DecidableEq T] in
/-- A step in which the current thread goes on. -/
theorem Inv.stays (h : Inv m) (hcur : m'.currentThread = m.currentThread)
    (hcode : ∀ u, u ≠ m.currentThread → m'.code u = m.code u)
    (hsaved : ∀ u, u ≠ m.currentThread → m'.saved u = m.saved u)
    (hforked : m'.objects.status m.currentThread ≠ .justCreated)
    (hhandler : m'.inHandler = true → m'.level = .off)
    (hreturns : ∀ r ∈ m'.returns, r.after = r.before) (hrunning : m'.failed = none)
    (hfine : Fine (m'.code m.currentThread) (m'.context m.currentThread)) : Inv m' := by
  refine ⟨hcur ▸ hfine, fun u hu => ?_, hcur ▸ hforked, hhandler, hreturns, hrunning⟩
  rw [hcur] at hu
  rw [hcode u hu, hsaved u hu]
  exact h.others u hu

/-- The current thread goes on at `code`, in a machine in which something was changed. -/
theorem Inv.goes (h : Inv m) {m₁ : Machine T S L C} {code : List (Instr T S L C)}
    (hcur : m₁.currentThread = m.currentThread) (hcode : m₁.code = m.code)
    (hsaved : m₁.saved = m.saved)
    (hforked : m₁.objects.status m.currentThread ≠ .justCreated)
    (hhandler : m₁.inHandler = true → m₁.level = .off)
    (hreturns : ∀ r ∈ m₁.returns, r.after = r.before) (hrunning : m₁.failed = none)
    (hfine : Fine code (m₁.context m.currentThread)) : Inv (m₁.goto m.currentThread code) := by
  refine h.stays hcur (fun u hu => ?_) (fun u _ => congrFun hsaved u) hforked hhandler hreturns
    hrunning ?_
  · rw [goto_of_ne hu, hcode]
  · rw [goto_self]
    exact hfine

/-- The current thread gives up the processor. -/
theorem Inv.switches (h : Inv m) (ht : m.currentThread = t) (hquiet : (m.context t).Quiet)
    (hrest : Fine rest (m.context t)) (o : Objects T S L C) (u : T) :
    Inv ((m.goto t rest).run o u) := by
  subst ht
  have hfine : ∀ v, Fine ((m.goto m.currentThread rest).code v) ⟨.off, false, m.saved v⟩ := by
    intro v
    have hcontext : m.context m.currentThread = ⟨.off, false, m.saved m.currentThread⟩ := by
      rw [Machine.context, show m.level = .off from hquiet.1, show m.inHandler = false from hquiet.2]
    by_cases hv : v = m.currentThread
    · rw [hv, goto_self, ← hcontext]
      exact hrest
    · rw [goto_of_ne hv]
      exact h.others v hv
  refine ⟨?_, fun v _ => hfine v, ?_, h.handler, h.returns, h.running⟩
  · have hcontext : (⟨m.level, m.inHandler, m.saved u⟩ : Context) = ⟨.off, false, m.saved u⟩ := by
      rw [show m.level = .off from hquiet.1, show m.inHandler = false from hquiet.2]
    change Fine ((m.goto m.currentThread rest).code u) ⟨m.level, m.inHandler, m.saved u⟩
    rw [hcontext]
    exact hfine u
  · simp [Machine.run, Objects.setStatus]

/-- `SetLevel` outside of handlers, or to off. -/
theorem setLevel_eq {now : Level} (h : now = .on → m.inHandler = false) :
    m.setLevel t now rest =
      { m.goto t (if now = .on ∧ m.level = .off then oneTick ++ rest else rest) with
        level := now } := by
  refine if_neg fun hon => ?_
  exact absurd ((h hon.1).symm.trans hon.2) nofun

/-- `SetLevel` and a change of the variables `oldLevel`. -/
theorem Inv.setLevel (h : Inv m) (now : Level) (hnow : now = .on → m.inHandler = false)
    (saved : List Level) (hrest : Fine rest ⟨now, m.inHandler, saved⟩) :
    Inv { m.setLevel m.currentThread now rest with
      saved := Function.update m.saved m.currentThread saved } := by
  rw [setLevel_eq hnow]
  refine h.stays rfl (fun u hu => goto_of_ne hu) (fun u hu => Function.update_of_ne hu _ _) h.forked
    (fun hin => ?_) h.returns h.running ?_
  · cases now with
    | off => rfl
    | on => exact absurd ((hnow rfl).symm.trans hin) nofun
  · have hcontext : (⟨now, m.inHandler, Function.update m.saved m.currentThread saved m.currentThread⟩ :
        Context) = ⟨now, m.inHandler, saved⟩ := by rw [Function.update_self]
    change Fine ((m.goto m.currentThread _).code m.currentThread) ⟨now, m.inHandler,
      Function.update m.saved m.currentThread saved m.currentThread⟩
    rw [goto_self, hcontext]
    split_ifs with hon
    · obtain ⟨y, hy, hacc⟩ := hrest
      obtain ⟨rfl, -⟩ := hon
      exact ⟨y, hy, (accepts_oneTick (x := ⟨.on, m.inHandler, saved⟩) (hnow rfl)).append hacc⟩
    · exact hrest

/-- A new thread begins with interrupts off and turns them on. -/
theorem Inv.stackAllocate (h : Inv m) (hu : m.objects.status u = .justCreated)
    (hm' : m' = { m.goto u threadRoot with saved := Function.update m.saved u [] }) :
    Inv m' ∧ m'.context m.currentThread = m.context m.currentThread := by
  have hne : m.currentThread ≠ u := fun heq => h.forked (heq ▸ hu)
  subst hm'
  have hcontext : Machine.context { m.goto u threadRoot with saved := Function.update m.saved u [] }
      m.currentThread = m.context m.currentThread :=
    congrArg (Context.mk m.level m.inHandler) (Function.update_of_ne hne _ _)
  refine ⟨⟨?_, fun v hv => ?_, h.forked, h.handler, h.returns, h.running⟩, hcontext⟩
  · change Fine ((m.goto u threadRoot).code m.currentThread) (Machine.context _ m.currentThread)
    rw [goto_of_ne hne, hcontext]
    exact h.current
  · change Fine ((m.goto u threadRoot).code v) ⟨.off, false, Function.update m.saved u [] v⟩
    by_cases hvu : v = u
    · rw [hvu, goto_self, Function.update_self]
      exact ⟨⟨.on, false, []⟩, rfl, fun _ => rfl, rfl⟩
    · rw [goto_of_ne hvu, Function.update_of_ne hvu]
      exact h.others v hv

/-- `CheckIfDue` -/
theorem Inv.checkIfDue {handler : Option (List (HandlerOp S))} (h : Inv m)
    (hdue : m.checkIfDue m.currentThread handler = some m') : Inv m' := by
  have hfine := h.current
  unfold Machine.checkIfDue at hdue
  split at hdue
  case h_1 rest hcode =>
    rw [hcode] at hfine
    obtain ⟨y, hy, hpre, hacc⟩ := id hfine
    rw [if_pos (show m.level = .off from hpre.1)] at hdue
    cases handler with
    | none =>
      obtain rfl := Option.some.inj hdue
      exact h.goes rfl rfl rfl h.forked h.handler h.returns h.running ⟨y, hy, hacc⟩
    | some ops =>
      obtain rfl := Option.some.inj hdue
      exact h.goes rfl rfl rfl h.forked h.handler h.returns h.running
        ⟨y, hy, (accepts_handle hpre ops).append ⟨hpre, hacc⟩⟩
  case h_2 rest hcode =>
    rw [hcode] at hfine
    obtain ⟨y, hy, hpre, hacc⟩ := id hfine
    rw [if_pos (show m.level = .off from hpre.1)] at hdue
    cases handler with
    | none =>
      obtain rfl := Option.some.inj hdue
      exact ⟨h.current, h.others, h.forked, h.handler, h.returns, h.running⟩
    | some ops =>
      obtain rfl := Option.some.inj hdue
      exact h.goes rfl rfl rfl h.forked h.handler h.returns h.running
        ⟨y, hy, (accepts_handle hpre ops).append ⟨hpre, trivial, hacc⟩⟩
  case h_3 => cases hdue

/-- A thread at the end of its code is outside of handlers, so it may run any code that is
accepted there. -/
theorem Inv.own {code : List (Instr T S L C)} (h : Inv m)
    (hcode : ∀ x : Context, x.inHandler = false → Fine code x)
    (hown : m.own m.currentThread code = some m') : Inv m' := by
  unfold Machine.own at hown
  split_ifs at hown with hnil
  obtain rfl := Option.some.inj hown
  have hfine := h.current
  rw [hnil] at hfine
  obtain ⟨y, hy, rfl⟩ := hfine
  exact h.goes rfl rfl rfl h.forked h.handler h.returns h.running (hcode _ hy)

theorem Inv.start (main : T) (value : S → ℤ) (currentTh : L → Option T) :
    Inv (start main value currentTh : Machine T S L C) := by
  refine ⟨⟨⟨.on, false, []⟩, rfl, ?_⟩, fun t ht => ⟨⟨.off, false, []⟩, rfl, ?_⟩, ?_, nofun, nofun,
    rfl⟩
  · simp only [InterruptLevels.start, if_true]
    exact ⟨fun _ => rfl, rfl⟩
  · simp only [InterruptLevels.start] at ht ⊢
    rw [if_neg ht]
    rfl
  · simp [InterruptLevels.start]

variable [DecidableEq S] [DecidableEq L] [DecidableEq C]

theorem act_forked (o : Objects T S L C) (a : Action T S L C) (h : o.status u ≠ .justCreated) :
    (o.act t a).status u ≠ .justCreated := by
  have hready : ∀ (o : Objects T S L C) w, o.status u ≠ .justCreated →
      (o.readyToRun w).status u ≠ .justCreated := by
    intro o w ho
    by_cases huw : u = w
    · simp [Objects.readyToRun, Objects.setStatus, Objects.setQueue, huw]
    · simpa [Objects.readyToRun, Objects.setStatus, Objects.setQueue, huw] using ho
  cases a with
  | wake q =>
    unfold Objects.act
    dsimp only
    split
    · exact h
    · exact hready _ _ h
  | readyToRun w => exact hready o w h
  | _ => exact h

/-- The next instruction of the current thread. -/
theorem Inv.exec (h : Inv m) (hcode : m.code m.currentThread = i :: rest)
    (hexec : m.exec m.currentThread rest i = some m') : Inv m' := by
  have hfine := h.current
  rw [hcode] at hfine
  obtain ⟨y, hy, hpre, hacc⟩ := id hfine
  cases i with
  | save =>
    obtain rfl := Option.some.inj hexec
    exact h.setLevel .off nofun _ ⟨y, hy, hacc⟩
  | restore =>
    obtain ⟨oldLevel, saved, hsaved, hoff⟩ := hpre
    have hsaved : m.saved m.currentThread = oldLevel :: saved := hsaved
    simp only [Machine.exec, hsaved] at hexec
    obtain rfl := Option.some.inj hexec
    simp only [rules, Machine.context, hsaved] at hacc hoff
    refine h.setLevel oldLevel (fun hon => ?_) saved ⟨y, hy, hacc⟩
    by_contra hin
    exact absurd (hon.symm.trans (hoff (by simpa using hin))) nofun
  | setLevel now =>
    obtain rfl := Option.some.inj hexec
    have hinv := h.setLevel now hpre (m.saved m.currentThread) ⟨y, hy, hacc⟩
    rw [Function.update_eq_self, setLevel_eq hpre] at hinv
    rw [setLevel_eq hpre]
    exact hinv
  | changeLevel now =>
    obtain rfl := Option.some.inj hexec
    exact h.goes rfl rfl rfl h.forked (fun hin => absurd (hpre.symm.trans hin) nofun) h.returns
      h.running ⟨y, hy, hacc⟩
  | call op =>
    obtain rfl := Option.some.inj hexec
    rw [List.append_cons]
    exact h.goes rfl rfl rfl h.forked h.handler h.returns h.running
      ⟨y, hy, (accepts_call hpre).append hacc⟩
  | ret op before =>
    obtain rfl := Option.some.inj hexec
    refine h.goes rfl rfl rfl h.forked h.handler (fun r hr => ?_) h.running ⟨y, hy, hacc⟩
    rcases List.mem_cons.mp hr with rfl | hr
    · exact Eq.symm hpre
    · exact h.returns r hr
  | act a =>
    obtain rfl := Option.some.inj hexec
    exact h.goes rfl rfl rfl (act_forked _ a h.forked) h.handler h.returns h.running ⟨y, hy, hacc⟩
  | test b =>
    obtain rfl := Option.some.inj hexec
    refine h.goes rfl rfl rfl h.forked h.handler h.returns h.running ?_
    split_ifs
    · exact ⟨y, hy, (accepts_block hpre).append hacc⟩
    · exact ⟨y, hy, hacc⟩
  | stackAllocate u =>
    simp only [Machine.exec] at hexec
    split_ifs at hexec with hu
    obtain rfl := Option.some.inj hexec
    obtain ⟨hinv, hcontext⟩ := h.stackAllocate hu rfl
    refine hinv.goes rfl rfl rfl h.forked h.handler h.returns h.running ⟨y, hy, ?_⟩
    exact hcontext ▸ hacc
  | switch =>
    simp only [Machine.exec] at hexec
    split at hexec
    · obtain rfl := Option.some.inj hexec
      exact h.goes rfl rfl rfl h.forked h.handler h.returns h.running ⟨y, hy, hacc⟩
    · exact Option.some.inj hexec ▸ h.switches rfl hpre ⟨y, hy, hacc⟩ _ _
  | sleep =>
    simp only [Machine.exec] at hexec
    rw [if_pos (show m.level = .off from hpre.1)] at hexec
    obtain rfl := Option.some.inj hexec
    refine h.goes rfl rfl rfl ?_ h.handler h.returns h.running ⟨y, hy, hpre, hacc⟩
    simp [Objects.setStatus]
  | findNext =>
    simp only [Machine.exec] at hexec
    split at hexec
    · obtain rfl := Option.some.inj hexec
      exact h.goes rfl rfl rfl h.forked h.handler h.returns h.running ⟨y, hy, hpre, hpre, hacc⟩
    · exact Option.some.inj hexec ▸ h.switches rfl hpre ⟨y, hy, hacc⟩ _ _
  | idle => cases hexec
  | scan => cases hexec
  | beginHandler =>
    obtain rfl := Option.some.inj hexec
    exact h.goes rfl rfl rfl h.forked (fun _ => hpre.1) h.returns h.running ⟨y, hy, hacc⟩
  | endHandler =>
    obtain rfl := Option.some.inj hexec
    exact h.goes rfl rfl rfl h.forked nofun h.returns h.running ⟨y, hy, hacc⟩
  | yieldOnReturn =>
    simp only [Machine.exec] at hexec
    rw [if_pos (show m.inHandler = true from hpre)] at hexec
    obtain rfl := Option.some.inj hexec
    exact h.goes rfl rfl rfl h.forked h.handler h.returns h.running ⟨y, hy, hacc⟩
  | clearYield =>
    obtain rfl := Option.some.inj hexec
    exact h.goes rfl rfl rfl h.forked h.handler h.returns h.running ⟨y, hy, hacc⟩
  | yieldIfAsked =>
    obtain rfl := Option.some.inj hexec
    refine h.goes rfl rfl rfl h.forked h.handler h.returns h.running ?_
    split_ifs
    · exact ⟨y, hy, mayCall _ hpre .yield, hacc⟩
    · exact ⟨y, hy, hacc⟩

theorem Inv.step {a : Label T S L C} (h : Inv m) (hstep : Step m a m') : Inv m' := by
  unfold Step Machine.step at hstep
  split_ifs at hstep
  cases a with
  | invoke op =>
    refine h.own (fun x hx => ?_) hstep
    exact ⟨x, hx, mayCall x hx op, rfl⟩
  | setLevel now =>
    refine h.own (fun x hx => ?_) hstep
    exact ⟨{ x with level := now }, hx, fun _ => hx, rfl⟩
  | tick =>
    refine h.own (fun x hx => ?_) hstep
    exact ⟨{ x with level := .on }, hx, accepts_oneTick hx⟩
  | finish =>
    refine h.own (fun x hx => ?_) hstep
    exact ⟨{ x with level := .off }, hx, nofun, ⟨rfl, hx⟩, rfl⟩
  | go =>
    dsimp only at hstep
    split at hstep
    case h_1 => cases hstep
    case h_2 i rest hcode => exact h.exec hcode hstep
  | due handler => exact h.checkIfDue hstep

/-- The routines return with the level of the call, interrupts are off in handlers, and no
assertion about the level fails. -/
theorem levels_restored (main : T) (value : S → ℤ) (currentTh : L → Option T)
    (as : List (Label T S L C)) (m : Machine T S L C)
    (hrun : Run Step Free (start main value currentTh) as m) :
    (∀ r ∈ m.returns, r.after = r.before) ∧ (m.inHandler = true → m.level = .off) ∧
      m.failed = none := by
  have hinv : Inv m := hrun.invariant (Inv.start main value currentTh) fun h _ hstep => h.step hstep
  exact ⟨hinv.returns, hinv.handler, hinv.running⟩

end invariant

/-- A tick in which no interrupt is due. -/
def quietTick : List (Label ℕ Unit Unit Unit) := [.go, .due none, .go, .go]

/-- Main forks thread 1 and sleeps in `P`. In the first tick of thread 1 a handler calls `V` and
asks for a switch, and main returns from `P` while thread 1 is in `Yield`. -/
def sampleRun : List (Label ℕ Unit Unit Unit) :=
  [.go] ++ quietTick ++ [.invoke (.fork 1)] ++ List.replicate 5 .go ++ quietTick ++ [.go] ++
    [.invoke (.p ())] ++ List.replicate 8 .go ++ [.due (some [.v (), .yieldOnReturn])] ++
    List.replicate 9 .go ++ [.due none] ++ List.replicate 8 .go ++ quietTick ++ [.go]

theorem levels_restored_sample : ∃ m : Machine ℕ Unit Unit Unit,
    Run Step Free (start 0 (fun _ => 0) fun _ => none) sampleRun m ∧
    m.returns.map (fun r => (r.thread, r.op, r.before)) =
      [(0, .p (), .on), (1, .v (), .off), (0, .fork 1, .on)] ∧
    (∀ r ∈ m.returns, r.after = r.before) ∧ (m.inHandler = true → m.level = .off) ∧
      m.failed = none := by
  obtain ⟨m, hrun, hm⟩ := exists_run_of_exec Machine.step
    (start 0 (fun _ => 0) fun _ => none : Machine ℕ Unit Unit Unit) sampleRun
    (fun m => m.returns.map (fun r => (r.thread, r.op, r.before)) =
      [(0, .p (), .on), (1, .v (), .off), (0, .fork 1, .on)]) (by decide +kernel)
  exact ⟨m, hrun, of_decide_eq_true hm, levels_restored 0 _ _ _ m hrun⟩

end Nachos.InterruptLevels
