import Nachos.SystemCallStubs
import Nachos.UserContexts

/-!
# System calls (`start.s`, `RaiseException`, `ExceptionHandler`)

A program calls a stub. Its trap leaves user mode in the middle of the stub; the handler may give
the processor to other threads before it writes its result into the registers and increments the
program counters, and page faults and interrupts may come before and after it. `Kernel` is the
system of `UserContexts` with the control flow of `ExceptionHandler`: what it is asked for, which
registers it reads, and what has to happen before it returns.

What the cases of the handler do apart from that, to files, processes and memory, is left open.
-/
namespace Nachos.SystemCalls
open GuardedRuns Machine ByteMemory UserContexts

namespace SystemCall

/-- The registers that its case of `ExceptionHandler` reads. -/
def arguments : SystemCall → List (Fin 32)
  | scHalt | scYield => []
  | scRead | scWrite => [4, 5, 6]
  | _ => [4]

/-- The calls that write register 2; `ExitProcess` does it too. -/
def writes : SystemCall → Bool
  | scFork | scExec | scJoin | scExit | scOpen | scRead => true
  | _ => false

/-- `Interrupt::Halt` and `Thread::Finish` do not return. -/
def returns : SystemCall → Bool
  | scHalt | scExit => false
  | _ => true

theorem two_notMem_arguments (call : SystemCall) : 2 ∉ call.arguments := by cases call <;> decide

end SystemCall

structure Request where
  call : SystemCall
  args : List Word
  deriving DecidableEq, Repr

/-- The switch over `ReadRegister(2)` and the arguments that its case reads. -/
def request (registers : Reg → Word) : Option Request :=
  (SystemCall.ofNumber (registers 2)).map fun call =>
    ⟨call, call.arguments.map fun r => registers (gp r)⟩

/-- `served t` is the last system call of `t` and the value that has been written for it. -/
structure Kernel (T A : Type) where
  machine : Multiplexed T A
  served : T → Option (Request × Option Word)

variable {T A : Type} [DecidableEq T] [DecidableEq A]

namespace Kernel
variable (numPages : A → ℕ) (k : Kernel T A)

abbrev system : System T A := k.machine.system

abbrev current : Option (Request × Option Word) := k.served k.system.currentThread

/-- The simulator ends in `Interrupt::Halt`. -/
def halted : Bool :=
  k.system.currentPhase = .handler .syscall && k.current.any fun q => q.1.call = .scHalt

/-- The order of the steps in `ExceptionHandler`. A thread finishes in a procedure of the kernel,
behind its statements, or in the handler, behind the assignment of `ExitProcess`. -/
def permits : Label T A → Bool
  | .result value => k.current.any fun q =>
      q.1.call.writes && q.2.isNone && (q.1.call ≠ .scExit || value = 0#32)
  | .handlerReturn => k.system.currentPhase ≠ .handler .syscall ||
      k.current.any fun q => q.1.call.returns && q.2.isSome = q.1.call.writes
  | .finish _ => k.system.currentPhase = .kernel ||
      (k.system.currentPhase = .handler .syscall &&
        k.current.any fun q => q.1.call = .scExit && q.2.isSome)
  | _ => true

/-- What a step means for the handler of the current thread. An unknown system call stops the
simulator. -/
def record (machine : Multiplexed T A) : Label T A → Option (Kernel T A)
  | .instruction =>
    if machine.system.currentPhase = .handler .syscall then
      (request machine.cpu.registers).map fun r =>
        ⟨machine, Function.update k.served k.system.currentThread (some (r, none))⟩
    else some ⟨machine, k.served⟩
  | .result value =>
    some ⟨machine, Function.update k.served k.system.currentThread
      (k.current.map fun q => (q.1, some value))⟩
  | _ => some ⟨machine, k.served⟩

def step (l : Label T A) : Option (Kernel T A) :=
  if !k.halted && k.permits l then (k.machine.step numPages l).bind (k.record · l) else none

end Kernel

def KernelStep (numPages : A → ℕ) (k : Kernel T A) (l : Label T A) (k' : Kernel T A) : Prop :=
  k.step numPages l = some k'

section step
variable {numPages : A → ℕ} {k k' : Kernel T A} {l : Label T A} {t : T}

theorem kernelStep_iff : KernelStep numPages k l k' ↔ k.halted = false ∧ k.permits l = true ∧
    ∃ machine, Step numPages k.machine l machine ∧ k.record machine l = some k' := by
  simp only [KernelStep, Kernel.step, Step]
  split_ifs with h
  · simp only [Bool.and_eq_true, Bool.not_eq_true'] at h
    simp only [h, true_and, Option.bind_eq_some_iff]
  · simp only [Bool.and_eq_true, Bool.not_eq_true'] at h
    exact iff_of_false (by simp) fun hk => h ⟨hk.1, hk.2.1⟩

omit [DecidableEq A] in
theorem record_machine {machine : Multiplexed T A} (h : k.record machine l = some k') :
    k'.machine = machine := by
  cases l with
  | instruction =>
    simp only [Kernel.record] at h
    split_ifs at h
    · obtain ⟨r, -, rfl⟩ := Option.map_eq_some_iff.mp h
      rfl
    · exact Option.some.inj h ▸ rfl
  | _ => exact Option.some.inj h ▸ rfl

omit [DecidableEq A] in
theorem record_served_of_ne {machine : Multiplexed T A} (h : k.record machine l = some k')
    (ht : t ≠ k.system.currentThread) : k'.served t = k.served t := by
  cases l with
  | instruction =>
    simp only [Kernel.record] at h
    split_ifs at h
    · obtain ⟨r, -, rfl⟩ := Option.map_eq_some_iff.mp h
      exact Function.update_of_ne ht _ _
    · exact Option.some.inj h ▸ rfl
  | result value =>
    obtain rfl := Option.some.inj h
    exact Function.update_of_ne ht _ _
  | _ => exact Option.some.inj h ▸ rfl

end step

section phases
variable {numPages : A → ℕ} {c c' : System T A} {p p' : Processor A} {l : Label T A} {t : T}

/-- A thread that has left `ThreadRoot`. -/
def Started (ph : Phase) : Prop := ph ≠ .created ∧ ph.switchedTo = ph

/-- A step of the current thread leaves the phases of the others. -/
theorem act_phase_of_ne (h : c.act numPages p l = some (c', p')) (ht : t ≠ c.currentThread)
    (hstarted : Started (c.phase t)) : c'.phase t = c.phase t := by
  cases l with
  | instruction =>
    simp only [System.act] at h
    split_ifs at h
    obtain ⟨-, -, ⟨ph, hph⟩, -⟩ := instruction_spec h
    rw [hph, Function.update_of_ne ht]
  | result value =>
    simp only [System.act] at h
    split_ifs at h
    obtain ⟨rfl, -⟩ := Prod.mk.inj (Option.some.inj h)
    rfl
  | handlerReturn =>
    simp only [System.act] at h
    split at h
    · obtain ⟨rfl, -⟩ := Prod.mk.inj (Option.some.inj h)
      exact Function.update_of_ne ht _ _
    · obtain ⟨rfl, -⟩ := Prod.mk.inj (Option.some.inj h)
      exact Function.update_of_ne ht _ _
    · cases h
  | enter =>
    simp only [System.act] at h
    split at h
    · obtain ⟨rfl, -⟩ := Prod.mk.inj (Option.some.inj h)
      exact Function.update_of_ne ht _ _
    · obtain ⟨rfl, -⟩ := Prod.mk.inj (Option.some.inj h)
      exact Function.update_of_ne ht _ _
    · obtain ⟨rfl, -⟩ := Prod.mk.inj (Option.some.inj h)
      exact Function.update_of_ne ht _ _
    · cases h
  | startProcess a =>
    simp only [System.act] at h
    split_ifs at h
    obtain ⟨rfl, -⟩ := Prod.mk.inj (Option.some.inj h)
    exact Function.update_of_ne ht _ _
  | fork u space proc =>
    simp only [System.act] at h
    split_ifs at h with hcreated
    obtain ⟨rfl, -⟩ := Prod.mk.inj (Option.some.inj h)
    have hne : t ≠ u := by
      rintro rfl
      exact hstarted.1 hcreated.2
    exact Function.update_of_ne hne _ _
  | store mainMemory pageTables =>
    obtain ⟨rfl, -⟩ := Prod.mk.inj (Option.some.inj h)
    rfl
  | interrupt => cases h
  | run next => cases h
  | finish next => cases h

theorem act_enter_phase (h : c.act numPages p .enter = some (c', p')) :
    ∃ proc, c.currentPhase = .begun proc := by
  simp only [System.act] at h
  split at h
  · rename_i hphase _
    exact ⟨_, hphase⟩
  · rename_i hphase _
    exact ⟨_, hphase⟩
  · rename_i hphase
    exact ⟨_, hphase⟩
  · cases h

omit [DecidableEq A] in
theorem switch_phase {next : T} (h : c.switch next = some c') (hstarted : Started (c.phase t)) :
    c'.phase t = c.phase t := by
  simp only [System.switch] at h
  split_ifs at h
  obtain rfl := Option.some.inj h
  show Function.update c.phase next _ t = _
  by_cases ht : t = next
  · rw [ht, Function.update_self, ← ht, hstarted.2]
  · rw [Function.update_of_ne ht]

theorem privateStep_phase_of_ne {p p' : Private T A} (h : PrivateStep numPages p l p')
    (ht : t ≠ p.system.currentThread) (hstarted : Started (p.system.phase t)) :
    p'.system.phase t = p.system.phase t := by
  have hact : (p.system.act numPages (p.cpu p.system.currentThread) l).map (fun r =>
      (⟨r.1, Function.update p.cpu p.system.currentThread r.2⟩ : Private T A)) = some p' →
      p'.system.phase t = p.system.phase t := by
    intro hp'
    obtain ⟨⟨c, q⟩, hq, rfl⟩ := Option.map_eq_some_iff.mp hp'
    exact act_phase_of_ne hq ht hstarted
  cases l with
  | interrupt =>
    simp only [PrivateStep, Private.step] at h
    split_ifs at h
    · obtain ⟨q, -, rfl⟩ := Option.map_eq_some_iff.mp h
      rfl
    · exact Option.some.inj h ▸ rfl
  | run next =>
    simp only [PrivateStep, Private.step] at h
    split_ifs at h
    obtain ⟨c, hc, rfl⟩ := Option.map_eq_some_iff.mp h
    exact switch_phase hc hstarted
  | finish next =>
    simp only [PrivateStep, Private.step] at h
    split_ifs at h
    obtain ⟨c, hc, rfl⟩ := Option.map_eq_some_iff.mp h
    have hother : (p.system.setPhase p.system.currentThread .finished).phase t =
        p.system.phase t := Function.update_of_ne ht _ _
    rw [← hother] at hstarted ⊢
    exact switch_phase hc hstarted
  | _ => exact hact h

/-- The ends of an instruction after which the simulator goes on. -/
theorem instruction_cases (h : c.instruction p = some (c', p')) :
    ∃ a m, p.pageTable = some a ∧ p'.registers = m.registers ∧
      (∃ ph, c'.currentPhase = ph ∧
        ((State.oneInstruction ⟨p.registers, c.mainMemory, (c.pageTables a).take p.pageTableSize⟩ =
          .done m ∧ ph = .user) ∨
        ∃ which, State.oneInstruction ⟨p.registers, c.mainMemory,
          (c.pageTables a).take p.pageTableSize⟩ = .raised which m ∧
          (which = .syscall ∨ which = .pageFault) ∧ ph = .handler which)) := by
  obtain ⟨a, ha, h⟩ := Option.bind_eq_some_iff.mp h
  dsimp only at h
  have hphase : ∀ ph, Function.update c.phase c.currentThread ph c.currentThread = ph :=
    fun ph => Function.update_self _ _ _
  split at h
  · rename_i m hm
    obtain ⟨rfl, rfl⟩ := Prod.mk.inj (Option.some.inj h)
    exact ⟨a, m, ha, rfl, .user, hphase _, .inl ⟨hm, rfl⟩⟩
  · rename_i m hm
    obtain ⟨rfl, rfl⟩ := Prod.mk.inj (Option.some.inj h)
    exact ⟨a, m, ha, rfl, _, hphase _, .inr ⟨_, hm, .inl rfl, rfl⟩⟩
  · rename_i m hm
    obtain ⟨rfl, rfl⟩ := Prod.mk.inj (Option.some.inj h)
    exact ⟨a, m, ha, rfl, _, hphase _, .inr ⟨_, hm, .inr rfl, rfl⟩⟩
  · cases h
  · cases h

end phases

/-- The places of a stub, with the value that the handler has written. -/
inductive Place where
  | entry
  | coded
  | resumed (answer : Option Word)
  | jumped (answer : Option Word)
  | returned (answer : Option Word)

section call
variable (call : SystemCall) (f : Word) (u : Registers)

namespace Place

def pc : Place → Word
  | entry => f
  | coded => f + 4#32
  | resumed _ => f + 8#32
  | jumped _ => f + 12#32
  | returned _ => u.gpr 31

def npc : Place → Word
  | entry => f + 4#32
  | coded => f + 8#32
  | resumed _ => f + 12#32
  | jumped _ => u.gpr 31
  | returned _ => u.gpr 31 + 4#32

end Place

/-- The registers in the handler and behind it: register 2 has the number of the call unless it
has been written. -/
def answered (answer : Option Word) : Registers := u.setResult (answer.getD call.number)

/-- The call with the arguments that the program has put into the registers. -/
def asked : Request := ⟨call, call.arguments.map u.gpr⟩

def Place.registers : Place → Registers
  | entry => u
  | coded => answered call u none
  | resumed a => answered call u a
  | jumped a => answered call u a
  | returned a => answered call u a

/-- Behind the trap the call has been served. -/
def Served (answer : Option Word) (served : Option (Request × Option Word)) : Prop :=
  served = some (asked call u, answer) ∧ call.returns = true ∧ answer.isSome = call.writes

def Place.Serves : Place → Option (Request × Option Word) → Prop
  | entry, _ => True
  | coded, _ => True
  | resumed a, s => Served call u a s
  | jumped a, s => Served call u a s
  | returned a, s => Served call u a s

/-- A thread that has called the stub at `f` with registers `u`: its phase, what its handler was
asked for and its registers. -/
inductive InCall : Phase → Option (Request × Option Word) → (Reg → Word) → Prop
  | user {place : Place} {ph : Phase} {s : Option (Request × Option Word)} {r : Reg → Word} :
      (ph = .user ∨ ph = .handler .pageFault) → place.Serves call u s →
      Holding r (place.pc f u) (place.npc f u) (place.registers call u) → InCall ph s r
  | handler {a : Option Word} {r : Reg → Word} : Holding r (f + 4#32) (f + 8#32)
      (answered call u a) → InCall (.handler .syscall) (some (asked call u, a)) r
  | finished {a : Option Word} {r : Reg → Word} : call = .scExit →
      InCall .finished (some (asked call u, a)) r

/-- The word that the processor fetches, unless the fetch faults. -/
def fetched (c : System T A) (p : Processor A) : Option Word :=
  p.pageTable.bind fun a =>
    (State.fetch ⟨p.registers, c.mainMemory, (c.pageTables a).take p.pageTableSize⟩).toOption.map
      Prod.fst

/-- `t` has not left the stub at `f`, and its words are in memory whenever `t` fetches one. -/
def InStub (t : T) (k : Kernel T A) : Label T A → Prop
  | .instruction => k.system.currentThread = t →
      ∃ i < 4, k.machine.cpu.registers pcReg = f + BitVec.ofNat 32 (4 * i) ∧
        (fetched k.system k.machine.cpu = none ∨
          fetched k.system k.machine.cpu = call.stub[i]?)
  | _ => True

instance (t : T) (k : Kernel T A) : DecidablePred (InStub call f t k)
  | .instruction => inferInstanceAs (Decidable (_ → _))
  | .result _ | .handlerReturn | .interrupt | .run _ | .finish _ | .fork .. | .enter
  | .startProcess _ | .store .. => .isTrue trivial

end call

section calling
variable {call : SystemCall} {f : Word} {u : Registers}

theorem answered_setResult (a : Option Word) (v : Word) :
    (answered call u a).setResult v = answered call u (some v) := by
  simp only [answered, Registers.setResult, Function.update_idem, Option.getD_some]

theorem answered_gpr_of_ne (a : Option Word) {r : Fin 32} (hr : r ≠ 2) :
    (answered call u a).gpr r = u.gpr r := Function.update_of_ne hr _ _

theorem InCall.live_or_finished {ph : Phase} {s : Option (Request × Option Word)} {r : Reg → Word}
    (h : InCall call f u ph s r) : ph.Live ∨ ph = .finished := by
  cases h with
  | user hph => rcases hph with rfl | rfl <;> exact .inl trivial
  | handler => exact .inl trivial
  | finished => exact .inr rfl

theorem InCall.started {ph : Phase} {s : Option (Request × Option Word)} {r : Reg → Word}
    (h : InCall call f u ph s r) : Started ph := by
  rcases h.live_or_finished with hlive | rfl
  · cases ph <;> first | exact hlive.elim | exact ⟨nofun, rfl⟩
  · exact ⟨nofun, rfl⟩

theorem InCall.of_syscall {s : Option (Request × Option Word)} {r : Reg → Word}
    (h : InCall call f u (.handler .syscall) s r) : ∃ a, s = some (asked call u, a) ∧
      Holding r (f + 4#32) (f + 8#32) (answered call u a) := by
  cases h with
  | user hph => rcases hph with hph | hph <;> cases hph
  | @handler a _ hholding => exact ⟨a, rfl, hholding⟩

theorem InCall.of_finished {s : Option (Request × Option Word)} {r : Reg → Word}
    (h : InCall call f u .finished s r) : call = .scExit := by
  cases h with
  | user hph => rcases hph with hph | hph <;> cases hph
  | finished hexit => exact hexit

/-- A thread at its return address is not in the stub any more. -/
theorem InCall.returned (hret : ∀ i < 4, u.gpr 31 ≠ f + BitVec.ofNat 32 (4 * i))
    {s : Option (Request × Option Word)} {r : Reg → Word} (h : InCall call f u .user s r)
    (hpc : r pcReg = u.gpr 31) : ∃ a, Served call u a s ∧
      Holding r (u.gpr 31) (u.gpr 31 + 4#32) (answered call u a) := by
  cases h with
  | @user place _ _ _ _ hserves hholding =>
    have hplace : u.gpr 31 = place.pc f u := by rw [← hpc, hholding.counters.1]
    cases place with
    | entry => exact absurd (hplace.trans (BitVec.add_zero f).symm) (hret 0 (by decide))
    | coded => exact absurd hplace (hret 1 (by decide))
    | resumed a => exact absurd hplace (hret 2 (by decide))
    | jumped a => exact absurd hplace (hret 3 (by decide))
    | returned a => exact ⟨a, hserves, hholding⟩

omit [DecidableEq A] in
theorem Holding.incrementCounters {p : Processor A} {pc npc : Word}
    (h : Holding p.registers pc npc u) :
    Holding p.incrementCounters.registers npc (npc + 4#32) u := by
  have hprev : Function.update p.registers prevPCReg (p.registers pcReg) nextPCReg = npc :=
    (Function.update_of_ne (by decide) _ _).trans h.counters.2
  have hpc : Function.update (Function.update p.registers prevPCReg (p.registers pcReg)) pcReg npc
      nextPCReg = npc := (Function.update_of_ne (by decide) _ _).trans hprev
  simp only [Processor.incrementCounters, hprev, hpc]
  exact h.increment (p.registers pcReg)

/-- The handler reads the call and the arguments with which the stub was called. -/
theorem request_eq {registers : Reg → Word}
    (h : ∀ r, registers (gp r) = (answered call u none).gpr r) :
    request registers = some (asked call u) := by
  have hnumber : registers 2 = call.number := by
    refine (h 2).trans ?_
    exact Function.update_self (2 : Fin 32) call.number u.gpr
  have hargs : (call.arguments.map fun r => registers (gp r)) = call.arguments.map u.gpr := by
    refine List.map_congr_left fun r hr => ?_
    rw [h, answered_gpr_of_ne]
    rintro rfl
    exact call.two_notMem_arguments hr
  rw [request, hnumber, SystemCall.ofNumber_number, Option.map_some, hargs, asked]

/-- One instruction of the stub, by the place of its first word. -/
theorem Place.instruction {m m₁ : State} {w : Word} (place : Place) {i : ℕ}
    (h : Holding m.registers (place.pc f u) (place.npc f u) (place.registers call u))
    (hret : ∀ i < 4, u.gpr 31 ≠ f + BitVec.ofNat 32 (4 * i)) (hi : i < 4)
    (hpc : place.pc f u = f + BitVec.ofNat 32 (4 * i)) (hword : call.stub[i]? = some w)
    (hfetch : m.fetch = .ok (w, m₁)) :
    (∃ (place' : Place) (m' : State), m.oneInstruction = .done m' ∧
      (∀ s, place.Serves call u s → place'.Serves call u s) ∧
      Holding m'.registers (place'.pc f u) (place'.npc f u) (place'.registers call u)) ∨
    ∃ m', m.oneInstruction = .raised .syscall m' ∧
      Holding m'.registers (f + 4#32) (f + 8#32) (answered call u none) ∧
      request m'.registers = some (asked call u) := by
  have hindex : ∀ j < 4, f + BitVec.ofNat 32 (4 * j) = f + BitVec.ofNat 32 (4 * i) → j = i := by
    intro j hj h
    have hsum := congrArg BitVec.toNat h
    simp only [BitVec.toNat_add, BitVec.toNat_ofNat] at hsum
    omega
  cases place with
  | entry =>
    obtain rfl := hindex 0 (by decide) (hpc ▸ by simp [Place.pc])
    obtain rfl := Option.some.inj hword
    obtain ⟨m', hm', h'⟩ := h.number hfetch
    refine .inl ⟨.coded, m', hm', fun _ _ => trivial, ?_⟩
    have hnext : f + 4#32 + 4#32 = f + 8#32 := by
      rw [BitVec.add_assoc]
      rfl
    show Holding m'.registers (f + 4#32) (f + 8#32) (answered call u none)
    rw [← hnext]
    exact h'
  | coded =>
    obtain rfl := hindex 1 (by decide) (hpc ▸ rfl)
    obtain rfl := Option.some.inj hword
    obtain ⟨m', hm', h'⟩ := h.trap hfetch
    exact .inr ⟨m', hm', h', request_eq h'.general⟩
  | resumed a =>
    obtain rfl := hindex 2 (by decide) (hpc ▸ rfl)
    obtain rfl := Option.some.inj hword
    obtain ⟨m', hm', h'⟩ := h.jump hfetch
    have hreturn : (answered call u a).gpr 31 = u.gpr 31 := answered_gpr_of_ne a (by decide)
    refine .inl ⟨.jumped a, m', hm', fun _ hs => hs, ?_⟩
    show Holding m'.registers (f + 12#32) (u.gpr 31) (answered call u a)
    rw [← hreturn]
    exact h'
  | jumped a =>
    obtain rfl := hindex 3 (by decide) (hpc ▸ rfl)
    obtain rfl := Option.some.inj hword
    obtain ⟨m', hm', h'⟩ := h.nop hfetch
    exact .inl ⟨.returned a, m', hm', fun _ hs => hs, h'⟩
  | returned a => exact absurd hpc (hret i hi)

end calling

section run
variable {numPages : A → ℕ} {call : SystemCall} {f : Word} {u : Registers} {t : T}
  {k k' : Kernel T A} {p p' : Private T A} {machine : Multiplexed T A} {l : Label T A}

/-- `t` on its processor. -/
def Calling (call : SystemCall) (f : Word) (u : Registers) (t : T) (k : Kernel T A)
    (p : Private T A) : Prop :=
  InCall call f u (k.system.phase t) (k.served t) (p.cpu t).registers

/-- An instruction of the stub, a fault in its fetch, or the trap. -/
theorem InCall.oneInstruction {m : State} {s : Option (Request × Option Word)}
    (hret : ∀ i < 4, u.gpr 31 ≠ f + BitVec.ofNat 32 (4 * i))
    (h : InCall call f u .user s m.registers) {i : ℕ} (hi : i < 4)
    (hpc : m.registers pcReg = f + BitVec.ofNat 32 (4 * i))
    (hword : m.fetch.toOption.map Prod.fst = none ∨
      m.fetch.toOption.map Prod.fst = call.stub[i]?) :
    (∃ m', m.oneInstruction = .done m' ∧ InCall call f u .user s m'.registers) ∨
    (∃ which m', m.oneInstruction = .raised which m' ∧ which ≠ .syscall ∧
      InCall call f u (.handler .pageFault) s m'.registers) ∨
    ∃ m', m.oneInstruction = .raised .syscall m' ∧ request m'.registers = some (asked call u) ∧
      InCall call f u (.handler .syscall) (some (asked call u, none)) m'.registers := by
  cases h with
  | @user place _ _ _ _ hserves hholding =>
    cases hfetch : m.fetch with
    | error fault =>
      obtain ⟨which, m', hraised, hwhich, h'⟩ := hholding.fault hfetch
      exact .inr (.inl ⟨which, m', hraised, hwhich, .user (.inr rfl) hserves h'⟩)
    | ok r =>
      have hplace : place.pc f u = f + BitVec.ofNat 32 (4 * i) := by
        rw [← hpc, hholding.counters.1]
      have hstub : call.stub[i]? = some r.1 := by
        rw [hfetch] at hword
        exact (hword.resolve_left nofun).symm
      rcases place.instruction hholding hret hi hplace hstub hfetch with
        ⟨place', m', hdone, hserves', h'⟩ | ⟨m', hraised, h', hrequest⟩
      · exact .inl ⟨m', hdone, .user (.inl rfl) (hserves' _ hserves) h'⟩
      · exact .inr (.inr ⟨m', hraised, hrequest, .handler h'⟩)

omit [DecidableEq A] in
/-- A step of the current thread on its processor. -/
theorem calling_of_act (hagrees : Agrees numPages k.machine p) {c : System T A} {q : Processor A}
    (hagrees' : Agrees numPages machine ⟨c, Function.update p.cpu p.system.currentThread q⟩)
    (hrecord : k.record machine l = some k')
    (h : InCall call f u (c.phase k.system.currentThread) (k'.served k.system.currentThread)
      q.registers) :
    Calling call f u k.system.currentThread k'
      ⟨c, Function.update p.cpu p.system.currentThread q⟩ := by
  have hself : Function.update p.cpu p.system.currentThread q k.system.currentThread = q := by
    rw [← hagrees.system]
    exact Function.update_self _ _ _
  show InCall call f u (k'.machine.system.phase _) _
    (Function.update p.cpu p.system.currentThread q k.system.currentThread).registers
  rw [record_machine hrecord, hagrees'.system, hself]
  exact h

omit [DecidableEq A] in
/-- An interrupt ends the pending load. -/
theorem InCall.delayedLoad {q q' : Processor A} {ph : Phase} {s : Option (Request × Option Word)}
    (h : InCall call f u ph s q.registers) (hq : q.delayedLoad = some q') :
    InCall call f u ph s q'.registers := by
  obtain ⟨m, hm, rfl⟩ := Option.map_eq_some_iff.mp hq
  have hload : ∀ {pc npc v}, Holding q.registers pc npc v → Holding m.registers pc npc v := by
    intro pc npc v hholding
    obtain ⟨m', hm', h'⟩ := Holding.delayedLoad (m := ⟨q.registers, fun _ => 0, []⟩) hholding
    exact Option.some.inj (hm.symm.trans hm') ▸ h'
  cases h with
  | user hph hserves hholding => exact .user hph hserves (hload hholding)
  | handler hholding => exact .handler (hload hholding)
  | finished hexit => exact .finished hexit

section own
variable (hagrees : Agrees numPages k.machine p) (h : Calling call f u k.system.currentThread k p)
  (hp : PrivateStep numPages p l p') (hagrees' : Agrees numPages machine p')
  (hrecord : k.record machine l = some k')
include hagrees h hp hagrees' hrecord

theorem Calling.instruction (hl : l = .instruction)
    (hret : ∀ i < 4, u.gpr 31 ≠ f + BitVec.ofNat 32 (4 * i))
    (hstub : InStub call f k.system.currentThread k l) :
    Calling call f u k.system.currentThread k' p' := by
  subst hl
  obtain ⟨⟨c, q⟩, hq, rfl⟩ := Option.map_eq_some_iff.mp hp
  simp only [System.act, ← hagrees.system] at hq
  split_ifs at hq with huser
  have hcpu : k.machine.cpu = p.cpu k.system.currentThread :=
    hagrees.running (by rw [huser]; trivial)
  obtain ⟨i, hi, hpc, hword⟩ := hstub rfl
  rw [Calling, show k.system.phase k.system.currentThread = .user from huser] at h
  obtain ⟨hcur, -⟩ := instruction_spec hq
  obtain ⟨a, m, ha, hm, ph, hph, hcases⟩ := instruction_cases hq
  have hphase : machine.system.currentPhase = ph := by
    rw [hagrees'.system]
    exact hph
  have hfetched : fetched k.system k.machine.cpu = ((State.fetch ⟨(p.cpu
      k.system.currentThread).registers, k.system.mainMemory, (k.system.pageTables a).take (p.cpu
      k.system.currentThread).pageTableSize⟩).toOption.map Prod.fst) := by
    rw [fetched, hcpu, ha]
    rfl
  have hexec := h.oneInstruction hret hi (hcpu ▸ hpc) (hfetched ▸ hword)
  refine calling_of_act hagrees hagrees' hrecord ?_
  rw [← hcur, show c.phase c.currentThread = ph from hph, hcur, hm]
  simp only [Kernel.record, hphase] at hrecord
  rcases hexec with ⟨m', hdone, h'⟩ | ⟨which', m', hraised', hne, h'⟩ | ⟨m', htrap, hrequest, h'⟩
  · rcases hcases with ⟨hdone', rfl⟩ | ⟨which, hraised, -⟩
    · obtain rfl := Outcome.done.inj (hdone'.symm.trans hdone)
      obtain rfl := Option.some.inj hrecord
      exact h'
    · cases hraised.symm.trans hdone
  · rcases hcases with ⟨hdone', rfl⟩ | ⟨which, hraised, hwhich, rfl⟩
    · cases hdone'.symm.trans hraised'
    · obtain ⟨rfl, rfl⟩ := Outcome.raised.inj (hraised.symm.trans hraised')
      obtain rfl := hwhich.resolve_left hne
      obtain rfl := Option.some.inj hrecord
      exact h'
  · rcases hcases with ⟨hdone', rfl⟩ | ⟨which, hraised, -, rfl⟩
    · cases hdone'.symm.trans htrap
    · obtain ⟨rfl, rfl⟩ := Outcome.raised.inj (hraised.symm.trans htrap)
      have hregisters : machine.cpu.registers = m.registers := by
        rw [hagrees'.running (by rw [hphase]; trivial), hagrees'.system]
        show (Function.update p.cpu p.system.currentThread q c.currentThread).registers = _
        rw [hcur, hagrees.system, Function.update_self, hm]
      rw [if_pos rfl, hregisters, hrequest] at hrecord
      obtain rfl := Option.some.inj hrecord
      show InCall call f u _ (Function.update k.served k.system.currentThread _
        k.system.currentThread) _
      rw [Function.update_self]
      exact h'

/-- `WriteRegister(2, value)` in the handler. -/
theorem Calling.result {value : Word} (hl : l = .result value) :
    Calling call f u k.system.currentThread k' p' := by
  subst hl
  obtain ⟨⟨c, q⟩, hq, rfl⟩ := Option.map_eq_some_iff.mp hp
  simp only [System.act, ← hagrees.system] at hq
  split_ifs at hq with hphase
  obtain ⟨rfl, rfl⟩ := Prod.mk.inj (Option.some.inj hq)
  refine calling_of_act hagrees hagrees' hrecord ?_
  obtain rfl := Option.some.inj hrecord
  show InCall call f u (k.system.phase k.system.currentThread) (Function.update k.served
    k.system.currentThread (k.current.map _) k.system.currentThread) (Function.update
    (p.cpu k.system.currentThread).registers 2 value)
  rw [Function.update_self]
  have hown : k.system.phase k.system.currentThread = .handler .syscall := hphase
  rw [Calling, hown] at h
  obtain ⟨a, hserved, hholding⟩ := h.of_syscall
  rw [hown, Kernel.current, hserved]
  refine .handler ?_
  rw [← answered_setResult]
  exact hholding.result value

/-- The end of the handler: behind the trap, or where the fault was. -/
theorem Calling.handlerReturn (hl : l = .handlerReturn) (hpermits : k.permits l = true) :
    Calling call f u k.system.currentThread k' p' := by
  subst hl
  obtain ⟨⟨c, q⟩, hq, rfl⟩ := Option.map_eq_some_iff.mp hp
  refine calling_of_act hagrees hagrees' hrecord ?_
  obtain rfl := Option.some.inj hrecord
  simp only [System.act, ← hagrees.system] at hq
  split at hq
  · rename_i hphase
    obtain ⟨rfl, rfl⟩ := Prod.mk.inj (Option.some.inj hq)
    show InCall call f u (Function.update k.system.phase k.system.currentThread .user
      k.system.currentThread) k.current _
    rw [Function.update_self]
    simp only [Kernel.permits, hphase, ne_eq, not_true_eq_false, decide_false, Bool.false_or,
      Option.any_eq_true, Bool.and_eq_true, decide_eq_true_eq] at hpermits
    obtain ⟨⟨request, a⟩, hcurrent, hreturns, hwrites⟩ := hpermits
    rw [Calling, show k.system.phase k.system.currentThread = .handler .syscall from hphase] at h
    obtain ⟨a', hserved, hholding⟩ := h.of_syscall
    obtain ⟨rfl, rfl⟩ := Prod.mk.inj (Option.some.inj (hcurrent.symm.trans hserved))
    have hnext : f + 8#32 + 4#32 = f + 12#32 := by
      rw [BitVec.add_assoc]
      rfl
    have hholding' := hholding.incrementCounters
    rw [hnext] at hholding'
    have hserves : (Place.resumed a).Serves call u k.current := ⟨hcurrent, hreturns, hwrites⟩
    exact .user (.inl rfl) hserves hholding'
  · rename_i hphase
    obtain ⟨rfl, rfl⟩ := Prod.mk.inj (Option.some.inj hq)
    show InCall call f u (Function.update k.system.phase k.system.currentThread .user
      k.system.currentThread) k.current _
    rw [Function.update_self]
    rw [Calling, show k.system.phase k.system.currentThread = .handler .pageFault from hphase] at h
    cases h with
    | user _ hserves hholding => exact .user (.inl rfl) hserves hholding
  · cases hq

theorem Calling.interrupt (hl : l = .interrupt) :
    Calling call f u k.system.currentThread k' p' := by
  subst hl
  simp only [PrivateStep, Private.step] at hp
  split_ifs at hp
  · obtain ⟨q, hq, rfl⟩ := Option.map_eq_some_iff.mp hp
    refine calling_of_act hagrees hagrees' hrecord ?_
    obtain rfl := Option.some.inj hrecord
    rw [← hagrees.system] at hq ⊢
    exact InCall.delayedLoad h hq
  · obtain rfl := Option.some.inj hp
    obtain rfl := Option.some.inj hrecord
    show InCall call f u (machine.system.phase _) _ _
    rw [hagrees'.system, ← hagrees.system]
    exact h

/-- Only the handler of `Exit` finishes the thread. -/
theorem Calling.finish {next : T} (hl : l = .finish next) (hpermits : k.permits l = true) :
    Calling call f u k.system.currentThread k' p' := by
  subst hl
  simp only [PrivateStep, Private.step, ← hagrees.system] at hp
  split_ifs at hp with hrunning
  obtain ⟨c, hc, rfl⟩ := Option.map_eq_some_iff.mp hp
  obtain rfl := Option.some.inj hrecord
  have hfinished : (k.system.setPhase k.system.currentThread .finished).phase
      k.system.currentThread = .finished := Function.update_self _ _ _
  have hphase : c.phase k.system.currentThread = .finished := by
    rw [switch_phase hc (by rw [hfinished]; exact ⟨by decide, rfl⟩), hfinished]
  show InCall call f u (machine.system.phase _) k.current _
  rw [hagrees'.system, hphase]
  simp only [Kernel.permits, Bool.or_eq_true, Bool.and_eq_true, decide_eq_true_eq,
    Option.any_eq_true] at hpermits
  rcases hpermits with hkernel | ⟨hhandler, ⟨request, a⟩, hcurrent, hexit, -⟩
  · have hown : k.system.phase k.system.currentThread = .kernel := hkernel
    rw [Calling, hown] at h
    cases h with
    | user hph => rcases hph with hph | hph <;> cases hph
  · have hown : k.system.phase k.system.currentThread = .handler .syscall := hhandler
    rw [Calling, hown] at h
    obtain ⟨a', hserved, -⟩ := h.of_syscall
    rw [Kernel.current, hserved] at hcurrent ⊢
    obtain ⟨rfl, rfl⟩ := Prod.mk.inj (Option.some.inj hcurrent)
    exact .finished hexit

end own

/-- Every step of the system, of this thread or of another one. -/
theorem Calling.step (hret : ∀ i < 4, u.gpr 31 ≠ f + BitVec.ofNat 32 (4 * i))
    (hagrees : Agrees numPages k.machine p) (h : Calling call f u t k p)
    (hstub : InStub call f t k l) (hk : KernelStep numPages k l k') :
    ∃ p', Agrees numPages k'.machine p' ∧ Calling call f u t k' p' := by
  obtain ⟨-, hpermits, machine, hmachine, hrecord⟩ := kernelStep_iff.mp hk
  obtain ⟨p', hp, hagrees'⟩ := hagrees.step hmachine
  refine ⟨p', record_machine hrecord ▸ hagrees', ?_⟩
  by_cases ht : t = k.system.currentThread
  · subst ht
    have hcpu : ¬l.Touches → p'.cpu k.system.currentThread = p.cpu k.system.currentThread := by
      intro htouches
      by_contra hchanged
      exact htouches (privateStep_frame hp hchanged).2
    have hsame : p'.system.phase k.system.currentThread = k.system.currentPhase → ¬l.Touches →
        k'.served = k.served → Calling call f u k.system.currentThread k' p' := by
      intro hphase htouches hserved
      rw [Calling, hcpu htouches, hserved, Kernel.system, record_machine hrecord, hagrees'.system,
        hphase]
      exact h
    -- the thread is behind `ThreadRoot` and the procedures of the kernel
    have hlive : k.system.currentPhase.Live ∨ k.system.currentPhase = .finished :=
      InCall.live_or_finished h
    cases l with
    | instruction => exact h.instruction hagrees hp hagrees' hrecord rfl hret hstub
    | result value => exact h.result hagrees hp hagrees' hrecord rfl
    | handlerReturn => exact h.handlerReturn hagrees hp hagrees' hrecord rfl hpermits
    | interrupt => exact h.interrupt hagrees hp hagrees' hrecord rfl
    | finish next => exact h.finish hagrees hp hagrees' hrecord rfl hpermits
    | run next =>
      simp only [PrivateStep, Private.step, ← hagrees.system] at hp
      split_ifs at hp
      obtain ⟨c, hc, rfl⟩ := Option.map_eq_some_iff.mp hp
      exact hsame (switch_phase hc (InCall.started h)) id (Option.some.inj hrecord ▸ rfl)
    | fork v space proc =>
      obtain ⟨⟨c, q⟩, hq, rfl⟩ := Option.map_eq_some_iff.mp hp
      simp only [System.act, ← hagrees.system] at hq
      split_ifs at hq with hcreated
      obtain ⟨rfl, -⟩ := Prod.mk.inj (Option.some.inj hq)
      have hne : k.system.currentThread ≠ v := by
        rintro rfl
        exact (InCall.started h).1 hcreated.2
      exact hsame (Function.update_of_ne hne _ _) id (Option.some.inj hrecord ▸ rfl)
    | enter =>
      obtain ⟨⟨c, q⟩, hq, rfl⟩ := Option.map_eq_some_iff.mp hp
      obtain ⟨proc, hbegun⟩ := act_enter_phase hq
      rw [Kernel.system, hagrees.system, hbegun] at hlive
      exact (hlive.elim id (by simp)).elim
    | startProcess a =>
      obtain ⟨⟨c, q⟩, hq, rfl⟩ := Option.map_eq_some_iff.mp hp
      simp only [System.act, ← hagrees.system] at hq
      split_ifs at hq with hkernel
      rw [hkernel.1] at hlive
      exact (hlive.elim id (by simp)).elim
    | store mainMemory pageTables =>
      simp only [PrivateStep, Private.step, System.act, Option.map_some] at hp
      obtain rfl := Option.some.inj hp
      exact hsame (by rw [Kernel.system, hagrees.system]) id (Option.some.inj hrecord ▸ rfl)
  · have hne : t ≠ p.system.currentThread := hagrees.system ▸ ht
    have hcpu : p'.cpu t = p.cpu t := by
      by_contra hchanged
      exact hne (privateStep_frame hp hchanged).1
    have hphase : p'.system.phase t = k.system.phase t := by
      rw [Kernel.system, hagrees.system]
      refine privateStep_phase_of_ne hp hne ?_
      rw [← hagrees.system]
      exact InCall.started h
    rw [Calling, hcpu, record_served_of_ne hrecord ht, Kernel.system, record_machine hrecord,
      hagrees'.system, hphase]
    exact h

omit [DecidableEq A] in
theorem agrees_initial (numPages : A → ℕ) (main : T) (mainMemory : Memory)
    (pageTables : A → PageTable) (cpu : Processor A) (userRegisters : T → Reg → Word) :
    Agrees numPages ⟨System.initial main mainMemory pageTables, cpu, userRegisters⟩
      ⟨System.initial main mainMemory pageTables, fun _ => cpu⟩ := by
  have hdead : ∀ t, ¬((System.initial main mainMemory pageTables : System T A).phase t).Live := by
    intro t
    simp only [System.initial]
    split_ifs
    · exact id
    · exact id
  exact ⟨rfl, fun hl => absurd hl (hdead _), fun t _ hl => absurd hl (hdead t),
    fun t hl => absurd hl (hdead t)⟩

/-- A thread calls the stub of a system call. Whatever other threads, interrupts and page faults
do until it has returned, the handler serves this call with the arguments in the registers at the
entry, and a thread that comes back to its caller has all its registers, with the value that the
handler has written in register 2; where the handler writes none it is the number of the call.
`Halt` and `Exit` do not come back. -/
theorem system_call_served (numPages : A → ℕ) (main : T) (mainMemory : Memory)
    (pageTables : A → PageTable) (cpu : Processor A) (userRegisters : T → Reg → Word)
    (before during : List (Label T A)) (k k' : Kernel T A) (t : T) (call : SystemCall) (f : Word)
    (u : Registers)
    (hbefore : Run (KernelStep numPages) Free
      ⟨⟨System.initial main mainMemory pageTables, cpu, userRegisters⟩, fun _ => none⟩ before k)
    (ht : k.system.currentThread = t) (huser : k.system.phase t = .user)
    (hentry : Holding k.machine.cpu.registers f (f + 4#32) u)
    (hret : ∀ i < 4, u.gpr 31 ≠ f + BitVec.ofNat 32 (4 * i))
    (hduring : Run (KernelStep numPages) (InStub call f t) k during k') :
    (k'.system.phase t = .handler .syscall → ∃ a, k'.served t = some (asked call u, a)) ∧
    (k'.system.phase t = .finished → call = .scExit) ∧
    (k'.system.currentThread = t → k'.system.phase t = .user →
      k'.machine.cpu.registers pcReg = u.gpr 31 →
      ∃ a, k'.served t = some (asked call u, a) ∧ call.returns = true ∧ a.isSome = call.writes ∧
        Holding k'.machine.cpu.registers (u.gpr 31) (u.gpr 31 + 4#32) (answered call u a)) := by
  have hstep : ∀ {k k' : Kernel T A} {l}, (∃ p, Agrees numPages k.machine p) →
      KernelStep numPages k l k' → ∃ p', Agrees numPages k'.machine p' := by
    rintro k k' l ⟨p, hp⟩ hk
    obtain ⟨-, -, machine, hmachine, hrecord⟩ := kernelStep_iff.mp hk
    obtain ⟨p', -, hp'⟩ := hp.step hmachine
    exact ⟨p', record_machine hrecord ▸ hp'⟩
  obtain ⟨p, hp⟩ := hbefore.invariant ⟨_, agrees_initial numPages main mainMemory pageTables cpu
    userRegisters⟩ fun h _ hk => hstep h hk
  have hcpu : k.machine.cpu = p.cpu t := by
    rw [← ht]
    exact hp.running (by rw [System.currentPhase, ht, huser]; trivial)
  have hcalling : Calling call f u t k p := by
    rw [Calling, huser, ← hcpu]
    exact .user (.inl rfl) (show Place.entry.Serves call u _ from trivial) hentry
  obtain ⟨p', hp', hcalling'⟩ := hduring.invariant
    (I := fun k => ∃ p, Agrees numPages k.machine p ∧ Calling call f u t k p) ⟨p, hp, hcalling⟩ (by
      rintro _ _ _ ⟨_, hp, h⟩ hstub hk
      exact h.step hret hp hstub hk)
  refine ⟨fun hphase => ?_, fun hphase => ?_, fun hcurrent hphase hpc => ?_⟩
  · rw [Calling, hphase] at hcalling'
    obtain ⟨a, ha, -⟩ := hcalling'.of_syscall
    exact ⟨a, ha⟩
  · rw [Calling, hphase] at hcalling'
    exact hcalling'.of_finished
  · have hcpu' : k'.machine.cpu = p'.cpu t := by
      rw [← hcurrent]
      exact hp'.running (by rw [System.currentPhase, hcurrent, hphase]; trivial)
    rw [Calling, hphase, ← hcpu'] at hcalling'
    obtain ⟨a, ⟨hserved, hreturns, hwrites⟩, hholding⟩ := hcalling'.returned hret hpc
    exact ⟨a, hserved, hreturns, hwrites, hholding⟩

end run

theorem exists_holding {registers : Reg → Word} (hzero : registers 0 = 0)
    (hload : registers loadReg = 0#32) :
    ∃ u, Holding registers (registers pcReg) (registers nextPCReg) u :=
  ⟨⟨fun r => registers (gp r), registers hiReg, registers loReg, hzero⟩, registers loadValueReg,
    represents_of_gpr (fun _ => rfl) rfl rfl rfl rfl hload rfl⟩

/-- The stub of `Join` at 16, in the frame of the second process. -/
def joinProgram : Memory := fun p =>
  if p < 144 then 0 else byteOf (SystemCall.scJoin.stub.getD ((p - 144) / 4) 0#32) (p % 4)

/-- A forked thread starts in the stub. -/
def enterJoin : List (Label ℕ ℕ) :=
  [.fork 1 (some 1) (.forkbridge 16#32), .startProcess 0, .instruction, .run 1, .enter]

/-- It waits in the handler while the other process executes an instruction, gets 7 and returns. -/
def waitInJoin : List (Label ℕ ℕ) :=
  [.instruction, .interrupt, .instruction, .run 0, .instruction, .run 1, .result 7#32,
    .handlerReturn, .instruction, .instruction]

theorem system_call_served_join : ∃ (k k' : Kernel ℕ ℕ) (u : Registers),
    Run (KernelStep fun _ => 1) Free ⟨⟨System.initial 0 joinProgram frameTable,
      ⟨fun _ => 0, none, 0⟩, fun _ _ => 0⟩, fun _ => none⟩ enterJoin k ∧
    Run (KernelStep fun _ => 1) (InStub .scJoin 16#32 1) k waitInJoin k' ∧
    Holding k.machine.cpu.registers 16#32 20#32 u ∧
    Holding k'.machine.cpu.registers 8#32 12#32 (u.setResult 7#32) := by
  obtain ⟨k, hbefore, hk⟩ := exists_run_of_exec (Kernel.step fun _ => 1)
    (⟨⟨System.initial 0 joinProgram frameTable, ⟨fun _ => 0, none, 0⟩, fun _ _ => 0⟩,
      fun _ => none⟩ : Kernel ℕ ℕ) enterJoin
    (fun k => (k.system.currentThread = 1 ∧ k.system.phase 1 = .user ∧
      k.machine.cpu.registers 0 = 0 ∧ k.machine.cpu.registers loadReg = 0#32 ∧
      k.machine.cpu.registers pcReg = 16#32 ∧ k.machine.cpu.registers nextPCReg = 20#32 ∧
      k.machine.cpu.registers (gp 31) = 8#32) ∧
      (exec (Kernel.step fun _ => 1) (fun k l => InStub .scJoin 16#32 1 k l) k waitInJoin).any
        (fun k' => k'.system.currentThread = 1 ∧ k'.system.phase 1 = .user ∧
          k'.machine.cpu.registers pcReg = 8#32 ∧ (k'.served 1).map Prod.snd = some (some 7#32)))
    (by decide +kernel)
  obtain ⟨⟨ht, huser, hzero, hload, hpc, hnpc, hra⟩, hexec⟩ := of_decide_eq_true hk
  obtain ⟨k', hduring, hk'⟩ := exists_guarded_run_of_exec _ _ k waitInJoin _ hexec
  obtain ⟨ht', huser', hpc', hserved⟩ := of_decide_eq_true hk'
  obtain ⟨u, hentry⟩ := exists_holding hzero hload
  rw [hpc, hnpc] at hentry
  have hra' : u.gpr 31 = 8#32 := by rw [← hentry.general, hra]
  obtain ⟨-, -, hreturned⟩ := system_call_served (fun _ => 1) 0 joinProgram frameTable _ _ enterJoin
    waitInJoin k k' 1 .scJoin 16#32 u hbefore ht huser hentry (by rw [hra']; decide) hduring
  obtain ⟨a, hserved', -, -, hholding⟩ := hreturned ht' huser' (by rw [hra', hpc'])
  rw [hserved'] at hserved
  obtain rfl := Option.some.inj hserved
  rw [hra'] at hholding
  exact ⟨k, k', u, hbefore, hduring, hentry, hholding⟩

end Nachos.SystemCalls
