import Nachos.GuardedRuns
import Nachos.MipsMachine

/-!
# The user contexts of threads

There is one simulated processor, and `Scheduler::Run` moves it from thread to thread: it
saves the registers of a thread that has an address space and restores those of the next
one, unless that one runs for the first time and enters `ThreadRoot`. `Multiplexed` is
this system. `Private` is what it is meant to be: every thread has a processor of its own,
and a switch does nothing to it. Any thread that can run may be the next one.

An exception other than a system call or a page fault stops the simulator. What the
kernel does to main memory and to page tables is left open.
-/
namespace Nachos.UserContexts
open GuardedRuns Machine ByteMemory

/-- The registers, and the page table that the processor uses. -/
structure Processor (A : Type) where
  registers : Reg → Word
  pageTable : Option A
  pageTableSize : ℕ

/-- What `Thread::Fork` is given to run. -/
inductive Procedure where
  | forkbridge (func : Word)
  | execdummy
  | kernel
  deriving DecidableEq, Repr

/-- Where a thread is. `root` has not run yet, `begun` is in `ThreadRoot`, before the first
statement of its procedure. -/
inductive Phase where
  | created
  | root (p : Procedure)
  | begun (p : Procedure)
  | kernel
  | handler (which : ExceptionType)
  | user
  | finished
  deriving DecidableEq, Repr

namespace Phase

/-- The thread has begun to run its user program. -/
def Live : Phase → Prop
  | handler _ => True
  | user => True
  | _ => False

def Running : Phase → Prop
  | begun _ => True
  | kernel => True
  | handler _ => True
  | user => True
  | _ => False

/-- What `SWITCH` to the thread makes of it. -/
def switchedTo : Phase → Phase
  | root p => begun p
  | ph => ph

instance : DecidablePred Live
  | created => .isFalse id
  | root _ => .isFalse id
  | begun _ => .isFalse id
  | kernel => .isFalse id
  | handler _ => .isTrue trivial
  | user => .isTrue trivial
  | finished => .isFalse id

instance : DecidablePred Running
  | created => .isFalse id
  | root _ => .isFalse id
  | begun _ => .isTrue trivial
  | kernel => .isTrue trivial
  | handler _ => .isTrue trivial
  | user => .isTrue trivial
  | finished => .isFalse id

end Phase

/-- What both systems have in common. -/
structure System (T A : Type) where
  currentThread : T
  phase : T → Phase
  space : T → Option A
  mainMemory : Memory
  pageTables : A → PageTable

inductive Label (T A : Type) where
  | instruction
  /-- `machine->WriteRegister(2, value)` -/
  | result (value : Word)
  /-- the end of `ExceptionHandler` -/
  | handlerReturn
  /-- `CheckIfDue` finds an interrupt -/
  | interrupt
  | run (next : T)
  | finish (next : T)
  | fork (t : T) (space : Option A) (p : Procedure)
  /-- the first statements of the procedure of a thread -/
  | enter
  | startProcess (a : A)
  | store (mainMemory : Memory) (pageTables : A → PageTable)

variable {T A : Type} [DecidableEq T] [DecidableEq A]

/-- `DelayedLoad(0, 0)` -/
def Processor.delayedLoad (p : Processor A) : Option (Processor A) :=
  (State.delayedLoad ⟨p.registers, fun _ => 0, []⟩ 0 0).map fun m =>
    { p with registers := m.registers }

/-- `IncrementCounters` -/
def Processor.incrementCounters (p : Processor A) : Processor A :=
  let r := Function.update p.registers prevPCReg (p.registers pcReg)
  let r := Function.update r pcReg (r nextPCReg)
  { p with registers := Function.update r nextPCReg (r nextPCReg + 4#32) }

/-- `InitRegisters` and `RestoreState`. -/
def Processor.initial (numPages : A → ℕ) (a : A) : Processor A :=
  ⟨initRegisters (numPages a), some a, numPages a⟩

abbrev retAddrReg : Reg := 31

/-- The assignments of `forkbridge` after that. -/
def Processor.startAt (p : Processor A) (func : Word) : Processor A :=
  let r := Function.update p.registers pcReg func
  let r := Function.update r nextPCReg (func + 4#32)
  { p with registers := Function.update r retAddrReg (r retAddrReg + 8#32) }

namespace System

def setPhase (c : System T A) (t : T) (ph : Phase) : System T A :=
  { c with phase := Function.update c.phase t ph }

abbrev currentPhase (c : System T A) : Phase := c.phase c.currentThread

/-- `OneInstruction` on a processor. -/
def instruction (c : System T A) (p : Processor A) : Option (System T A × Processor A) :=
  p.pageTable.bind fun a =>
  let table := c.pageTables a
  let leave (m : State) (ph : Phase) : System T A × Processor A :=
    ({ c.setPhase c.currentThread ph with
        mainMemory := m.mainMemory
        pageTables := Function.update c.pageTables a (m.pageTable ++ table.drop p.pageTableSize) },
      { p with registers := m.registers })
  match State.oneInstruction ⟨p.registers, c.mainMemory, table.take p.pageTableSize⟩ with
  | .done m => some (leave m .user)
  | .raised .syscall m => some (leave m (.handler .syscall))
  | .raised .pageFault m => some (leave m (.handler .pageFault))
  | .raised _ _ => none
  | .failed => none

/-- The steps of the current thread on its processor. -/
def act (numPages : A → ℕ) (c : System T A) (p : Processor A) :
    Label T A → Option (System T A × Processor A)
  | .instruction => if c.currentPhase = .user then c.instruction p else none
  | .result value =>
    if c.currentPhase = .handler .syscall then
      some (c, { p with registers := Function.update p.registers 2 value })
    else none
  | .handlerReturn =>
    match c.currentPhase with
    | .handler .syscall => some (c.setPhase c.currentThread .user, p.incrementCounters)
    | .handler .pageFault => some (c.setPhase c.currentThread .user, p)
    | _ => none
  | .enter =>
    match c.currentPhase, c.space c.currentThread with
    | .begun (.forkbridge func), some a =>
      some (c.setPhase c.currentThread .user, (Processor.initial numPages a).startAt func)
    | .begun .execdummy, some a =>
      some (c.setPhase c.currentThread .user, Processor.initial numPages a)
    | .begun .kernel, _ => some (c.setPhase c.currentThread .kernel, p)
    | _, _ => none
  | .startProcess a =>
    if c.currentPhase = .kernel ∧ c.space c.currentThread = none then
      some ({ c.setPhase c.currentThread .user with
        space := Function.update c.space c.currentThread (some a) }, Processor.initial numPages a)
    else none
  | .fork t space proc =>
    if c.currentPhase.Running ∧ c.phase t = .created then
      some ({ c.setPhase t (.root proc) with space := Function.update c.space t space }, p)
    else none
  | .store mainMemory pageTables =>
    some ({ c with mainMemory := mainMemory, pageTables := pageTables }, p)
  | _ => none

/-- The switch in `Scheduler::Run`. -/
def switch (c : System T A) (next : T) : Option (System T A) :=
  if (c.phase next).switchedTo.Running then
    some { c.setPhase next (c.phase next).switchedTo with currentThread := next }
  else none

end System

structure Multiplexed (T A : Type) where
  system : System T A
  cpu : Processor A
  userRegisters : T → Reg → Word

namespace Multiplexed
variable (numPages : A → ℕ) (s : Multiplexed T A)

/-- `SaveUserState` -/
def save : T → Reg → Word :=
  if (s.system.space s.system.currentThread).isSome then
    Function.update s.userRegisters s.system.currentThread s.cpu.registers
  else s.userRegisters

/-- The end of `Scheduler::Run` in a thread that comes back from `SWITCH`. -/
def restore (userRegisters : T → Reg → Word) (next : T) : Processor A :=
  match s.system.phase next, s.system.space next with
  | .root _, _ => s.cpu
  | _, some a => ⟨userRegisters next, some a, numPages a⟩
  | _, none => s.cpu

/-- `Scheduler::Run` -/
def run (next : T) : Option (Multiplexed T A) :=
  (s.system.switch next).map fun c => ⟨c, s.restore numPages s.save next, s.save⟩

def step : Label T A → Option (Multiplexed T A)
  | .interrupt => s.cpu.delayedLoad.map fun p => { s with cpu := p }
  | .run next => if s.system.currentPhase.Running then s.run numPages next else none
  | .finish next =>
    if s.system.currentPhase.Running then
      let c := s.system.setPhase s.system.currentThread .finished
      Multiplexed.run numPages { s with system := c } next
    else none
  | l => (s.system.act numPages s.cpu l).map fun r => ⟨r.1, r.2, s.userRegisters⟩

end Multiplexed

structure Private (T A : Type) where
  system : System T A
  cpu : T → Processor A

namespace Private
variable (numPages : A → ℕ) (s : Private T A)

def step : Label T A → Option (Private T A)
  | .interrupt =>
    if s.system.currentPhase.Live then
      (s.cpu s.system.currentThread).delayedLoad.map fun p =>
        { s with cpu := Function.update s.cpu s.system.currentThread p }
    else some s
  | .run next =>
    if s.system.currentPhase.Running then (s.system.switch next).map fun c => ⟨c, s.cpu⟩ else none
  | .finish next =>
    if s.system.currentPhase.Running then
      ((s.system.setPhase s.system.currentThread .finished).switch next).map fun c => ⟨c, s.cpu⟩
    else none
  | l => (s.system.act numPages (s.cpu s.system.currentThread) l).map fun r =>
    ⟨r.1, Function.update s.cpu s.system.currentThread r.2⟩

end Private

def Step (numPages : A → ℕ) (s : Multiplexed T A) (l : Label T A) (t : Multiplexed T A) : Prop :=
  s.step numPages l = some t

def PrivateStep (numPages : A → ℕ) (s : Private T A) (l : Label T A) (t : Private T A) : Prop :=
  s.step numPages l = some t

section act
variable {numPages : A → ℕ} {c c' : System T A} {p p' : Processor A} {l : Label T A} {t : T}

omit [DecidableEq A] in
theorem live_of_ne {phase : T → Phase} {u : T} {ph : Phase} (ht : t ≠ u)
    (h : (Function.update phase u ph t).Live) : (phase t).Live := by
  rwa [Function.update_of_ne ht] at h

omit [DecidableEq A] in
theorem live_of_dead {phase : T → Phase} {u : T} {ph : Phase} (hph : ¬ph.Live)
    (h : (Function.update phase u ph t).Live) : t ≠ u ∧ (phase t).Live := by
  have htu : t ≠ u := by
    rintro rfl
    rw [Function.update_self] at h
    exact hph h
  exact ⟨htu, live_of_ne htu h⟩

/-- The processor uses the page table of the thread. -/
def Own (numPages : A → ℕ) (space : Option A) (p : Processor A) : Prop :=
  ∃ a, space = some a ∧ p.pageTable = some a ∧ p.pageTableSize = numPages a

/-- An instruction changes the registers, main memory and the bits in the page table. -/
theorem instruction_spec (h : c.instruction p = some (c', p')) :
    c'.currentThread = c.currentThread ∧ c'.space = c.space ∧
      (∃ ph, c'.phase = Function.update c.phase c.currentThread ph) ∧
      p'.pageTable = p.pageTable ∧ p'.pageTableSize = p.pageTableSize := by
  obtain ⟨a, -, h⟩ := Option.bind_eq_some_iff.mp h
  dsimp only at h
  split at h
  · obtain ⟨rfl, rfl⟩ := Prod.mk.inj (Option.some.inj h)
    exact ⟨rfl, rfl, ⟨_, rfl⟩, rfl, rfl⟩
  · obtain ⟨rfl, rfl⟩ := Prod.mk.inj (Option.some.inj h)
    exact ⟨rfl, rfl, ⟨_, rfl⟩, rfl, rfl⟩
  · obtain ⟨rfl, rfl⟩ := Prod.mk.inj (Option.some.inj h)
    exact ⟨rfl, rfl, ⟨_, rfl⟩, rfl, rfl⟩
  · cases h
  · cases h

/-- What a step of the current thread means for the others and for its own page table. -/
structure Acts (numPages : A → ℕ) (c : System T A) (p : Processor A) (c' : System T A)
    (p' : Processor A) : Prop where
  current : c'.currentThread = c.currentThread
  others : ∀ t, t ≠ c.currentThread → (c'.phase t).Live → (c.phase t).Live ∧ c'.space t = c.space t
  own : (c.currentPhase.Live → Own numPages (c.space c.currentThread) p) → c'.currentPhase.Live →
    Own numPages (c'.space c.currentThread) p'

omit [DecidableEq A] in
/-- A step after which the page table is the same. -/
theorem acts_of_same (hcurrent : c'.currentThread = c.currentThread) (hspace : c'.space = c.space)
    {ph : Phase} (hphase : c'.phase = Function.update c.phase c.currentThread ph)
    (hlive : ph.Live → c.currentPhase.Live) (htable : p'.pageTable = p.pageTable)
    (hsize : p'.pageTableSize = p.pageTableSize) : Acts numPages c p c' p' := by
  refine ⟨hcurrent, fun t ht hlive' => ?_, fun hown hlive' => ?_⟩
  · rw [hphase, Function.update_of_ne ht] at hlive'
    exact ⟨hlive', by rw [hspace]⟩
  · rw [System.currentPhase, hphase, hcurrent, Function.update_self] at hlive'
    rw [Own, hspace, htable, hsize]
    exact hown (hlive hlive')

theorem act_acts (h : c.act numPages p l = some (c', p')) : Acts numPages c p c' p' := by
  have hself : c.phase = Function.update c.phase c.currentThread c.currentPhase :=
    (Function.update_eq_self _ _).symm
  cases l with
  | instruction =>
    simp only [System.act] at h
    split_ifs at h with huser
    obtain ⟨hcur, hspace, ⟨ph, hph⟩, htable, hsize⟩ := instruction_spec h
    exact acts_of_same hcur hspace hph (fun _ => by rw [huser]; trivial) htable hsize
  | result value =>
    simp only [System.act] at h
    split_ifs at h with hphase
    obtain ⟨rfl, rfl⟩ := Prod.mk.inj (Option.some.inj h)
    exact acts_of_same rfl rfl hself id rfl rfl
  | handlerReturn =>
    simp only [System.act] at h
    split at h
    · rename_i hphase
      obtain ⟨rfl, rfl⟩ := Prod.mk.inj (Option.some.inj h)
      exact acts_of_same rfl rfl rfl (fun _ => by rw [hphase]; trivial) rfl rfl
    · rename_i hphase
      obtain ⟨rfl, rfl⟩ := Prod.mk.inj (Option.some.inj h)
      exact acts_of_same rfl rfl rfl (fun _ => by rw [hphase]; trivial) rfl rfl
    · cases h
  | enter =>
    simp only [System.act] at h
    split at h
    · rename_i func a hphase hspace
      obtain ⟨rfl, rfl⟩ := Prod.mk.inj (Option.some.inj h)
      exact ⟨rfl, fun t ht hlive => ⟨live_of_ne ht hlive, rfl⟩, fun _ _ => ⟨a, hspace, rfl, rfl⟩⟩
    · rename_i a hphase hspace
      obtain ⟨rfl, rfl⟩ := Prod.mk.inj (Option.some.inj h)
      exact ⟨rfl, fun t ht hlive => ⟨live_of_ne ht hlive, rfl⟩, fun _ _ => ⟨a, hspace, rfl, rfl⟩⟩
    · obtain ⟨rfl, rfl⟩ := Prod.mk.inj (Option.some.inj h)
      exact acts_of_same rfl rfl rfl (fun hlive => hlive.elim) rfl rfl
    · cases h
  | startProcess a =>
    simp only [System.act] at h
    split_ifs at h with hphase
    obtain ⟨rfl, rfl⟩ := Prod.mk.inj (Option.some.inj h)
    exact ⟨rfl, fun t ht hlive => ⟨live_of_ne ht hlive, Function.update_of_ne ht _ _⟩,
      fun _ _ => ⟨a, Function.update_self .., rfl, rfl⟩⟩
  | fork u space proc =>
    simp only [System.act] at h
    split_ifs at h with hphase
    obtain ⟨rfl, rfl⟩ := Prod.mk.inj (Option.some.inj h)
    have hlive : ∀ t, (Function.update c.phase u (.root proc) t).Live → t ≠ u ∧ (c.phase t).Live :=
      fun t ht => live_of_dead id ht
    refine ⟨rfl, fun t _ ht => ⟨(hlive t ht).2, Function.update_of_ne (hlive t ht).1 _ _⟩,
      fun hown ht => ?_⟩
    obtain ⟨hne, hcur⟩ := hlive c.currentThread ht
    obtain ⟨a, ha, htable⟩ := hown hcur
    exact ⟨a, (Function.update_of_ne hne _ _).trans ha, htable⟩
  | store mainMemory pageTables =>
    obtain ⟨rfl, rfl⟩ := Prod.mk.inj (Option.some.inj h)
    exact acts_of_same rfl rfl hself id rfl rfl
  | interrupt => cases h
  | run next => cases h
  | finish next => cases h

/-- A thread that has no user context yet does not depend on the one in the processor. -/
theorem act_fresh (h : c.act numPages p l = some (c', p')) (hphase : ¬c.currentPhase.Live)
    (q : Processor A) :
    ∃ q', c.act numPages q l = some (c', q') ∧ (c'.currentPhase.Live → q' = p') := by
  cases l with
  | instruction =>
    simp only [System.act] at h
    split_ifs at h with huser
    exact absurd (huser ▸ trivial) hphase
  | result value =>
    simp only [System.act] at h
    split_ifs at h with hhandler
    exact absurd (hhandler ▸ trivial) hphase
  | handlerReturn =>
    simp only [System.act] at h
    split at h
    · rename_i hhandler
      exact absurd (hhandler ▸ trivial) hphase
    · rename_i hhandler
      exact absurd (hhandler ▸ trivial) hphase
    · cases h
  | enter =>
    simp only [System.act] at h ⊢
    split at h
    · obtain ⟨rfl, rfl⟩ := Prod.mk.inj (Option.some.inj h)
      exact ⟨_, rfl, fun _ => rfl⟩
    · obtain ⟨rfl, rfl⟩ := Prod.mk.inj (Option.some.inj h)
      exact ⟨_, rfl, fun _ => rfl⟩
    · obtain ⟨rfl, rfl⟩ := Prod.mk.inj (Option.some.inj h)
      refine ⟨_, rfl, fun hlive => ?_⟩
      have hdead : ¬Phase.kernel.Live := id
      exact absurd rfl (live_of_dead hdead hlive).1
    · cases h
  | startProcess a =>
    simp only [System.act] at h ⊢
    split_ifs at h ⊢ with hkernel
    obtain ⟨rfl, rfl⟩ := Prod.mk.inj (Option.some.inj h)
    exact ⟨_, rfl, fun _ => rfl⟩
  | fork u space proc =>
    simp only [System.act] at h ⊢
    split_ifs at h ⊢ with hrunning
    obtain ⟨rfl, rfl⟩ := Prod.mk.inj (Option.some.inj h)
    refine ⟨_, rfl, fun hlive => absurd ?_ hphase⟩
    have hdead : ¬(Phase.root proc).Live := id
    exact (live_of_dead hdead hlive).2
  | store mainMemory pageTables =>
    obtain ⟨rfl, rfl⟩ := Prod.mk.inj (Option.some.inj h)
    exact ⟨q, rfl, fun hlive => absurd hlive hphase⟩
  | interrupt => cases h
  | run next => cases h
  | finish next => cases h

end act

section agreement
variable {numPages : A → ℕ} {s s' : Multiplexed T A} {p p' : Private T A} {l : Label T A} {t : T}

/-- The processor holds the context of the current thread, and the `userRegisters` of every other
thread hold its context. -/
structure Agrees (numPages : A → ℕ) (s : Multiplexed T A) (p : Private T A) : Prop where
  system : s.system = p.system
  running : s.system.currentPhase.Live → s.cpu = p.cpu s.system.currentThread
  saved : ∀ t, t ≠ s.system.currentThread → (s.system.phase t).Live →
    s.userRegisters t = (p.cpu t).registers
  own : ∀ t, (s.system.phase t).Live → Own numPages (s.system.space t) (p.cpu t)

omit [DecidableEq A] in
theorem Processor.delayedLoad_own {space : Option A} {p p' : Processor A}
    (h : p.delayedLoad = some p') (hown : Own numPages space p) : Own numPages space p' := by
  obtain ⟨m, -, rfl⟩ := Option.map_eq_some_iff.mp h
  exact hown

theorem Agrees.interrupt (h : Agrees numPages s p) (hs : s.step numPages .interrupt = some s') :
    ∃ p', p.step numPages .interrupt = some p' ∧ Agrees numPages s' p' := by
  obtain ⟨c, cpu⟩ := p
  obtain rfl : s.system = c := h.system
  obtain ⟨q, hq, rfl⟩ := Option.map_eq_some_iff.mp hs
  by_cases hlive : s.system.currentPhase.Live
  · have hcpu : s.cpu = cpu s.system.currentThread := h.running hlive
    rw [hcpu] at hq
    refine ⟨⟨s.system, Function.update cpu s.system.currentThread q⟩, ?_, rfl,
      fun _ => (Function.update_self s.system.currentThread q cpu).symm, fun t ht hl => ?_,
      fun t hl => ?_⟩
    · simp only [Private.step, if_pos hlive, hq, Option.map_some]
    · exact (h.saved t ht hl).trans (congrArg _ (Function.update_of_ne ht _ _).symm)
    · show Own numPages (s.system.space t) (Function.update cpu s.system.currentThread q t)
      by_cases ht : t = s.system.currentThread
      · rw [ht, Function.update_self]
        exact Processor.delayedLoad_own hq (h.own _ hlive)
      · rw [Function.update_of_ne ht]
        exact h.own t hl
  · exact ⟨⟨s.system, cpu⟩, if_neg hlive, rfl, fun hl => absurd hl hlive, h.saved, h.own⟩

/-- A step of the current thread on the processor. -/
theorem Agrees.act (h : Agrees numPages s p) {c : System T A} {q : Processor A}
    (hact : s.system.act numPages s.cpu l = some (c, q)) :
    ∃ q', p.system.act numPages (p.cpu p.system.currentThread) l = some (c, q') ∧
      Agrees numPages ⟨c, q, s.userRegisters⟩
        ⟨c, Function.update p.cpu p.system.currentThread q'⟩ := by
  obtain ⟨_, cpu⟩ := p
  obtain rfl := h.system
  have hcase : ∃ q', s.system.act numPages (cpu s.system.currentThread) l = some (c, q') ∧
      (c.currentPhase.Live → q = q') := by
    by_cases hlive : s.system.currentPhase.Live
    · have hcpu : s.cpu = cpu s.system.currentThread := h.running hlive
      rw [← hcpu]
      exact ⟨q, hact, fun _ => rfl⟩
    · obtain ⟨q', hq', heq⟩ := act_fresh hact hlive (cpu s.system.currentThread)
      exact ⟨q', hq', fun hl => (heq hl).symm⟩
  obtain ⟨q', hq', heq⟩ := hcase
  have hacts := act_acts hq'
  have hself : Function.update cpu s.system.currentThread q' s.system.currentThread = q' :=
    Function.update_self ..
  refine ⟨q', hq', rfl, fun hl => ?_, fun t ht hl => ?_, fun t hl => ?_⟩
  · show q = Function.update cpu s.system.currentThread q' c.currentThread
    rw [hacts.current, hself]
    exact heq hl
  · have hne : t ≠ s.system.currentThread := hacts.current ▸ ht
    refine (h.saved t hne (hacts.others t hne hl).1).trans ?_
    exact congrArg _ (Function.update_of_ne hne _ _).symm
  · show Own numPages (c.space t) (Function.update cpu s.system.currentThread q' t)
    by_cases ht : t = s.system.currentThread
    · rw [ht, hself]
      refine hacts.own (h.own _) ?_
      rwa [System.currentPhase, hacts.current, ← ht]
    · obtain ⟨hlive, hspace⟩ := hacts.others t ht hl
      rw [Function.update_of_ne ht, hspace]
      exact h.own t hlive

theorem live_switchedTo {ph : Phase} (h : ph.switchedTo.Live) : ph.Live := by
  cases ph <;> exact h

omit [DecidableEq A] in
/-- `Scheduler::Run`, also for a thread that gives the processor to itself. -/
theorem Agrees.run (h : Agrees numPages s p) {next : T} {c : System T A}
    (hswitch : s.system.switch next = some c) :
    Agrees numPages ⟨c, s.restore numPages s.save next, s.save⟩ ⟨c, p.cpu⟩ := by
  unfold System.switch at hswitch
  split_ifs at hswitch with hrunnable
  obtain rfl := Option.some.inj hswitch
  have hlive : ∀ t, (Function.update s.system.phase next (s.system.phase next).switchedTo t).Live →
      (s.system.phase t).Live := by
    intro t ht
    by_cases htn : t = next
    · rw [htn, Function.update_self] at ht
      rw [htn]
      exact live_switchedTo ht
    · exact live_of_ne htn ht
  have hsave : ∀ t, (s.system.phase t).Live → s.save t = (p.cpu t).registers := by
    intro t ht
    unfold Multiplexed.save
    by_cases hcur : t = s.system.currentThread
    · obtain ⟨a, ha, -⟩ := h.own t ht
      have hsome : (s.system.space s.system.currentThread).isSome := by rw [← hcur, ha]; rfl
      rw [hcur] at ht ⊢
      rw [if_pos hsome, Function.update_self, h.running ht]
    · split_ifs
      · rw [Function.update_of_ne hcur]
        exact h.saved t hcur ht
      · exact h.saved t hcur ht
  refine ⟨rfl, fun hl => ?_, fun t _ hl => hsave t (hlive t hl), fun t hl => h.own t (hlive t hl)⟩
  have hnext := hlive next hl
  obtain ⟨a, ha, htable, hsize⟩ := h.own next hnext
  show s.restore numPages s.save next = p.cpu next
  have hrestore : s.restore numPages s.save next = ⟨s.save next, some a, numPages a⟩ := by
    unfold Multiplexed.restore
    rw [ha]
    cases hph : s.system.phase next with
    | root proc =>
      rw [hph] at hnext
      exact hnext.elim
    | _ => rfl
  rw [hrestore, hsave next hnext, ← htable, ← hsize]

omit [DecidableEq A] in
theorem Agrees.finished (h : Agrees numPages s p) :
    Agrees numPages { s with system := s.system.setPhase s.system.currentThread .finished }
      { p with system := s.system.setPhase s.system.currentThread .finished } := by
  have hdead : ¬Phase.finished.Live := id
  refine ⟨rfl, fun hl => absurd rfl (live_of_dead hdead hl).1, fun t ht hl => ?_, fun t hl => ?_⟩
  · exact h.saved t ht (live_of_dead hdead hl).2
  · exact h.own t (live_of_dead hdead hl).2

theorem Agrees.step (h : Agrees numPages s p) (hs : Step numPages s l s') :
    ∃ p', PrivateStep numPages p l p' ∧ Agrees numPages s' p' := by
  have hact : (s.system.act numPages s.cpu l).map (fun r => (⟨r.1, r.2, s.userRegisters⟩ :
      Multiplexed T A)) = some s' →
      ∃ p', (p.system.act numPages (p.cpu p.system.currentThread) l).map (fun r =>
        (⟨r.1, Function.update p.cpu p.system.currentThread r.2⟩ : Private T A)) = some p' ∧
        Agrees numPages s' p' := by
    intro hs
    obtain ⟨⟨c, q⟩, hq, rfl⟩ := Option.map_eq_some_iff.mp hs
    obtain ⟨q', hq', hagrees⟩ := h.act hq
    exact ⟨_, by rw [hq']; rfl, hagrees⟩
  cases l with
  | interrupt => exact h.interrupt hs
  | run next =>
    simp only [Step, Multiplexed.step] at hs
    split_ifs at hs with hrunning
    obtain ⟨c, hc, rfl⟩ := Option.map_eq_some_iff.mp hs
    refine ⟨⟨c, p.cpu⟩, ?_, h.run hc⟩
    simp only [PrivateStep, Private.step, ← h.system, if_pos hrunning, hc]
    rfl
  | finish next =>
    simp only [Step, Multiplexed.step] at hs
    split_ifs at hs with hrunning
    obtain ⟨c, hc, rfl⟩ := Option.map_eq_some_iff.mp hs
    refine ⟨⟨c, p.cpu⟩, ?_, h.finished.run hc⟩
    simp only [PrivateStep, Private.step, ← h.system, if_pos hrunning, hc]
    rfl
  | _ => exact hact hs

/-- The steps that can change a processor. -/
def Label.Touches : Label T A → Prop
  | .instruction => True
  | .result _ => True
  | .handlerReturn => True
  | .interrupt => True
  | .enter => True
  | .startProcess _ => True
  | _ => False

/-- Only a thread itself changes its processor. -/
theorem privateStep_frame (h : PrivateStep numPages p l p') (ht : p'.cpu t ≠ p.cpu t) :
    t = p.system.currentThread ∧ l.Touches := by
  have hact : (p.system.act numPages (p.cpu p.system.currentThread) l).map (fun r =>
      (⟨r.1, Function.update p.cpu p.system.currentThread r.2⟩ : Private T A)) = some p' →
      t = p.system.currentThread ∧ p.system.act numPages (p.cpu p.system.currentThread) l =
        some (p'.system, p'.cpu p.system.currentThread) := by
    intro hp'
    obtain ⟨⟨c, q⟩, hq, rfl⟩ := Option.map_eq_some_iff.mp hp'
    have hself : Function.update p.cpu p.system.currentThread q p.system.currentThread = q :=
      Function.update_self ..
    refine ⟨?_, hq.trans (congrArg (fun q => some (c, q)) hself.symm)⟩
    by_contra hne
    exact ht (Function.update_of_ne hne _ _)
  cases l with
  | interrupt =>
    simp only [PrivateStep, Private.step] at h
    split_ifs at h with hlive
    · obtain ⟨q, hq, rfl⟩ := Option.map_eq_some_iff.mp h
      refine ⟨?_, trivial⟩
      by_contra hne
      exact ht (Function.update_of_ne hne _ _)
    · obtain rfl := Option.some.inj h
      exact absurd rfl ht
  | run next =>
    simp only [PrivateStep, Private.step] at h
    split_ifs at h
    obtain ⟨c, hc, rfl⟩ := Option.map_eq_some_iff.mp h
    exact absurd rfl ht
  | finish next =>
    simp only [PrivateStep, Private.step] at h
    split_ifs at h
    obtain ⟨c, hc, rfl⟩ := Option.map_eq_some_iff.mp h
    exact absurd rfl ht
  | fork u space proc =>
    obtain ⟨rfl, hq⟩ := hact h
    simp only [System.act] at hq
    split_ifs at hq
    exact absurd (Prod.mk.inj (Option.some.inj hq)).2.symm ht
  | store mainMemory pageTables =>
    obtain ⟨rfl, hq⟩ := hact h
    exact absurd (Prod.mk.inj (Option.some.inj hq)).2.symm ht
  | _ => exact ⟨(hact h).1, trivial⟩

/-- The main thread in the kernel, before any other thread. -/
def System.initial (main : T) (mainMemory : Memory) (pageTables : A → PageTable) : System T A where
  currentThread := main
  phase t := if t = main then .kernel else .created
  space _ := none
  mainMemory := mainMemory
  pageTables := pageTables

/-- In every run the registers and the page table in the processor are those that the current
thread would have in a processor of its own, from the time it has begun to run its user program,
and the page table is the one of its address space. In the system with processors of their own, one
is changed only by steps of its thread. -/
theorem contexts_private (numPages : A → ℕ) (main : T) (mainMemory : Memory)
    (pageTables : A → PageTable) (cpu : Processor A) (userRegisters : T → Reg → Word)
    (ls : List (Label T A)) (s : Multiplexed T A)
    (hrun : Run (Step numPages) Free
      ⟨System.initial main mainMemory pageTables, cpu, userRegisters⟩ ls s) :
    (∃ p, Run (PrivateStep numPages) Free
        ⟨System.initial main mainMemory pageTables, fun _ => cpu⟩ ls p ∧ p.system = s.system ∧
      (s.system.currentPhase.Live → s.cpu = p.cpu s.system.currentThread ∧
        Own numPages (s.system.space s.system.currentThread) s.cpu)) ∧
    ∀ (p p' : Private T A) l t, PrivateStep numPages p l p' → p'.cpu t ≠ p.cpu t →
      t = p.system.currentThread ∧ l.Touches := by
  have hdead : ∀ t, ¬((System.initial main mainMemory pageTables : System T A).phase t).Live := by
    intro t
    simp only [System.initial]
    split_ifs
    · exact id
    · exact id
  have hinitial : Agrees numPages ⟨System.initial main mainMemory pageTables, cpu, userRegisters⟩
      ⟨System.initial main mainMemory pageTables, fun _ => cpu⟩ :=
    ⟨rfl, fun hl => absurd hl (hdead _), fun t _ hl => absurd hl (hdead t),
      fun t hl => absurd hl (hdead t)⟩
  obtain ⟨p, hp, hagrees⟩ := hrun.simulation hinitial fun h _ hs => h.step hs
  refine ⟨⟨p, hp, hagrees.system.symm, fun hl => ⟨hagrees.running hl, ?_⟩⟩,
    fun _ _ _ _ h ht => privateStep_frame h ht⟩
  rw [hagrees.running hl]
  exact hagrees.own _ hl

end agreement

/-- The process of main executes an instruction, gives way to a second one, which executes another
and gives way to the first. -/
def alternate : List (Label ℕ ℕ) :=
  [.fork 1 (some 1) .execdummy, .startProcess 0, .instruction, .run 1, .enter, .instruction,
    .instruction, .run 0]

def frameTable (a : ℕ) : PageTable := [⟨BitVec.ofNat 32 a, true, false, false, false⟩]

/-- The first process goes on behind its first instruction, the second one is behind two. -/
theorem contexts_private_alternate : ∃ s : Multiplexed ℕ ℕ,
    Run (Step fun _ => 1) Free ⟨System.initial 0 (fun _ => 0) frameTable, ⟨fun _ => 0, none, 0⟩,
      fun _ _ => 0⟩ alternate s ∧
    s.cpu.registers pcReg = 4#32 ∧ s.userRegisters 1 pcReg = 8#32 ∧ s.cpu.pageTable = some 0 ∧
    ∃ p, Run (PrivateStep fun _ => 1) Free
        ⟨System.initial 0 (fun _ => 0) frameTable, fun _ => ⟨fun _ => 0, none, 0⟩⟩ alternate p ∧
      s.cpu = p.cpu 0 := by
  obtain ⟨s, hrun, hs⟩ := exists_run_of_exec (Multiplexed.step fun _ => 1)
    (⟨System.initial 0 (fun _ => 0) frameTable, ⟨fun _ => 0, none, 0⟩, fun _ _ => 0⟩ :
      Multiplexed ℕ ℕ) alternate
    (fun s => s.cpu.registers pcReg = 4#32 ∧ s.userRegisters 1 pcReg = 8#32 ∧
      s.cpu.pageTable = some 0 ∧ s.system.currentThread = 0 ∧ s.system.phase 0 = .user)
    (by decide +kernel)
  obtain ⟨hpc, hpc', htable, hcur, hphase⟩ := of_decide_eq_true hs
  obtain ⟨⟨p, hp, -, hagrees⟩, -⟩ :=
    contexts_private (fun _ => 1) 0 _ frameTable _ _ alternate s hrun
  have hlive : s.system.currentPhase.Live := by
    rw [System.currentPhase, hcur, hphase]
    trivial
  exact ⟨s, hrun, hpc, hpc', htable, p, hp, hcur ▸ (hagrees hlive).1⟩

end Nachos.UserContexts
