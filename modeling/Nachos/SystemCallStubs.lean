import Nachos.MipsCorrectness

/-!
# The stubs of the system calls (`test/start.s`)

A stub puts the number of its call into register 2, executes `syscall` and jumps to the address in
register 31; the assembler fills the delay slot of the jump. Here is what the processor does with
each of its four words, and what the kernel does to the registers.
-/
namespace Nachos.SystemCalls
open Machine ByteMemory

/-- The system calls of `syscall.h`. -/
inductive SystemCall where
  | scHalt | scExit | scExec | scJoin | scCreate | scOpen | scRead | scWrite | scClose | scFork
  | scYield
  deriving DecidableEq, Repr

namespace SystemCall

def number : SystemCall → Word
  | scHalt => 0#32 | scExit => 1#32 | scExec => 2#32 | scJoin => 3#32 | scCreate => 4#32
  | scOpen => 5#32 | scRead => 6#32 | scWrite => 7#32 | scClose => 8#32 | scFork => 9#32
  | scYield => 10#32

/-- The case of the switch in `ExceptionHandler`; the default case fails an assertion. -/
def ofNumber (type : Word) : Option SystemCall :=
  match type.toNat with
  | 0 => some scHalt | 1 => some scExit | 2 => some scExec | 3 => some scJoin
  | 4 => some scCreate | 5 => some scOpen | 6 => some scRead | 7 => some scWrite
  | 8 => some scClose | 9 => some scFork | 10 => some scYield
  | _ => none

theorem ofNumber_number (call : SystemCall) : ofNumber call.number = some call := by
  cases call <;> rfl

/-- `addiu $2,$0,number`, `syscall`, `j $31` and its delay slot. -/
def stub (call : SystemCall) : List Word :=
  [0x24020000#32 ||| call.number, 0x0000000c#32, 0x03e00008#32, 0#32]

end SystemCall

/-- The registers of a program. -/
structure Registers where
  gpr : Fin 32 → Word
  hi : Word
  lo : Word
  zero : gpr 0 = 0

/-- Register 2 is the place of the number of a call and of its result. -/
def Registers.setResult (u : Registers) (v : Word) : Registers where
  gpr := Function.update u.gpr 2 v
  hi := u.hi
  lo := u.lo
  zero := (Function.update_of_ne (by decide) _ _).trans u.zero

/-- A processor without a pending load. -/
def Registers.cpu (u : Registers) (pc npc value : Word) : MipsI.Cpu :=
  ⟨u.gpr, u.hi, u.lo, pc, npc, (0, value), u.zero⟩

/-- The simulator is at `pc` with these registers and no load is pending. -/
def Holding (registers : Reg → Word) (pc npc : Word) (u : Registers) : Prop :=
  ∃ value, Represents registers (u.cpu pc npc value)

theorem Holding.counters {registers : Reg → Word} {pc npc : Word} {u : Registers}
    (h : Holding registers pc npc u) : registers pcReg = pc ∧ registers nextPCReg = npc := by
  obtain ⟨value, hc⟩ := h
  exact ⟨hc.pc, hc.npc⟩

theorem Holding.general {registers : Reg → Word} {pc npc : Word} {u : Registers}
    (h : Holding registers pc npc u) (r : Fin 32) : registers (gp r) = u.gpr r := by
  obtain ⟨value, hc⟩ := h
  exact gpr_eq (m := ⟨registers, fun _ => 0, []⟩) hc r

/-- `DelayedLoad(0, 0)` -/
theorem Holding.delayedLoad {m : State} {pc npc : Word} {u : Registers}
    (h : Holding m.registers pc npc u) :
    ∃ m', m.delayedLoad 0 0 = some m' ∧ Holding m'.registers pc npc u := by
  have hgpr := h.general
  obtain ⟨value, hc⟩ := h
  rw [delayedLoad_eq hc.load]
  refine ⟨_, rfl, 0#32, represents_of_gpr (fun r => ?_) hc.hi hc.lo hc.pc hc.npc rfl rfl⟩
  show _ = u.gpr r
  by_cases h0 : r = 0
  · rw [h0, u.zero]
    exact State.set_self _ 0 _
  · rw [State.set_of_ne _ _ (gp_ne_zero h0), State.set_of_ne _ _ (gp_ne (by decide)),
      State.set_of_ne _ _ (gp_ne (by decide))]
    exact (State.set_of_ne _ _ (gp_ne_zero h0)).trans (hgpr r)

section instructions
variable {m m₁ : State} {w pc npc : Word} {u u' : Registers}

theorem oneInstruction_of_fetch (hfetch : m.fetch = .ok (w, m₁)) :
    m.oneInstruction = conclude (execute (Instruction.decode w) m₁) := by
  rw [oneInstruction_eq, hfetch]
  rfl

/-- An instruction that loads nothing and that the simulator executes as the architecture does. -/
theorem Holding.done {op : MipsI.Mnemonic} {e : MipsI.Effect (PageTable × Memory)}
    (h : Holding m.registers pc npc u) (hfetch : m.fetch = .ok (w, m₁))
    (hop : MipsI.decode w = some op) (hcovered : ∀ c, MipsI.Predictable w c op ∧ Covered w c op)
    (he : ∀ value, MipsI.exec bus w (u.cpu pc npc value) m₁.mem op = .ok e)
    (hload : e.load = (0, 0#32)) (hhi : e.hi = u'.hi) (hlo : e.lo = u'.lo)
    (hgpr : ∀ r, r ≠ 0 → Function.update u.gpr e.write.1 e.write.2 r = u'.gpr r) :
    ∃ m', m.oneInstruction = .done m' ∧ Holding m'.registers npc e.npc u' := by
  obtain ⟨value, hc⟩ := h
  have hm₁ : m₁.registers = m.registers := State.readMem_registers hfetch
  have hagree := execute_agrees (hm₁ ▸ hc) w (hcovered _).1 (hcovered _).2
  have hafter : (u.cpu pc npc value).after e = u'.cpu npc e.npc 0#32 := by
    have hregisters : Function.update (Function.update (Function.update u.gpr e.write.1 e.write.2)
        0 value) 0 0 = u'.gpr := by
      funext r
      by_cases hr : r = 0
      · rw [hr, Function.update_self, u'.zero]
      · rw [Function.update_of_ne hr, Function.update_of_ne hr, hgpr r hr]
    simp only [MipsI.Cpu.after, Registers.cpu, hload, hhi, hlo, hregisters]
  rw [he] at hagree
  rw [oneInstruction_of_fetch hfetch, decode_eq hop]
  revert hagree
  cases execute (instruction w op) m₁ with
  | error fault =>
    cases fault with
    | failure => exact False.elim
    | exception which bad m₂ => exact False.elim
  | ok f =>
    intro hagree
    obtain ⟨m', hfinish, hm', -⟩ := finish_represents hagree
    exact ⟨m', by rw [conclude_ok, hfinish]; rfl, 0#32, hafter ▸ hm'⟩

/-- `RaiseException` -/
theorem Holding.raise (h : Holding m.registers pc npc u) (which : ExceptionType) (bad : Word) :
    ∃ m', (Fault.exception which bad m).raise = .raised which m' ∧
      Holding m'.registers pc npc u := by
  have hset : Holding (m.set badVAddrReg bad).registers pc npc u := by
    obtain ⟨value, hc⟩ := h
    refine ⟨value, represents_of_gpr (fun r => ?_) hc.hi hc.lo hc.pc hc.npc hc.load hc.loadValue⟩
    rw [State.set_of_ne _ _ (gp_ne (by decide)), gpr_eq hc]
  obtain ⟨m', hload, hm'⟩ := hset.delayedLoad
  exact ⟨m', by rw [Fault.raise, hload]; rfl, hm'⟩

theorem translate_ne_syscall (pageTable : PageTable) (a : Word) (n : ℕ) (writing : Bool) :
    Machine.translate pageTable a n writing ≠ .error .syscall := by
  unfold Machine.translate
  split_ifs
  · simp
  · split
    · simp
    · split_ifs <;> simp

/-- A fault while the instruction is fetched. -/
theorem Holding.fault {f : Fault} (h : Holding m.registers pc npc u) (hfetch : m.fetch = .error f) :
    ∃ which m', m.oneInstruction = .raised which m' ∧ which ≠ .syscall ∧
      Holding m'.registers pc npc u := by
  obtain ⟨which, hwhich, rfl⟩ : ∃ which, which ≠ .syscall ∧
      f = .exception which (m.registers pcReg) m := by
    rw [State.fetch, State.readMem] at hfetch
    split at hfetch
    · rename_i e he
      exact ⟨e, fun h => translate_ne_syscall _ _ _ _ (h ▸ he), (Except.error.inj hfetch).symm⟩
    · cases hfetch
  obtain ⟨m', hraise, hm'⟩ := h.raise which (m.registers pcReg)
  exact ⟨which, m', by rw [oneInstruction_eq, hfetch]; exact hraise, hwhich, hm'⟩

/-- `addiu $2,$0,number` -/
theorem Holding.number {call : SystemCall} (h : Holding m.registers pc npc u)
    (hfetch : m.fetch = .ok (0x24020000#32 ||| call.number, m₁)) :
    ∃ m', m.oneInstruction = .done m' ∧
      Holding m'.registers npc (npc + 4#32) (u.setResult call.number) := by
  have hrs : MipsI.rs (0x24020000#32 ||| call.number) = 0 := by cases call <;> decide
  have hrt : MipsI.rt (0x24020000#32 ||| call.number) = 2 := by cases call <;> decide
  have himm : (MipsI.imm (0x24020000#32 ||| call.number)).signExtend 32 = call.number := by
    cases call <;> decide
  have hop : MipsI.decode (0x24020000#32 ||| call.number) = some .addiu := by cases call <;> decide
  have hsum : u.gpr 0 + call.number = call.number := by
    rw [u.zero]
    exact BitVec.zero_add _
  refine h.done (e := ⟨(2, call.number), u.hi, u.lo, npc + 4#32, (0, 0#32), m₁.mem⟩) hfetch hop
    (fun _ => ⟨trivial, trivial⟩) (fun _ => ?_) rfl rfl rfl fun _ _ => rfl
  simp only [MipsI.exec, MipsI.writes, MipsI.linear, MipsI.rsVal, Registers.cpu, hrs, hrt, himm,
    hsum]

/-- `j $31` -/
theorem Holding.jump (h : Holding m.registers pc npc u)
    (hfetch : m.fetch = .ok (0x03e00008#32, m₁)) :
    ∃ m', m.oneInstruction = .done m' ∧ Holding m'.registers npc (u.gpr 31) u :=
  h.done (e := ⟨(0, 0#32), u.hi, u.lo, u.gpr 31, (0, 0#32), m₁.mem⟩) hfetch
    (show MipsI.decode 0x03e00008#32 = some .jr by decide) (fun _ => ⟨trivial, trivial⟩)
    (fun _ => rfl) rfl rfl rfl fun _ hr => Function.update_of_ne hr _ _

/-- The delay slot. -/
theorem Holding.nop (h : Holding m.registers pc npc u) (hfetch : m.fetch = .ok (0#32, m₁)) :
    ∃ m', m.oneInstruction = .done m' ∧ Holding m'.registers npc (npc + 4#32) u := by
  refine h.done (e := ⟨(0, u.gpr (MipsI.rt 0#32) <<< MipsI.shamt 0#32), u.hi, u.lo, npc + 4#32,
    (0, 0#32), m₁.mem⟩) hfetch (show MipsI.decode 0#32 = some .sll by decide)
    (fun _ => ⟨trivial, trivial⟩) (fun _ => ?_) rfl rfl rfl fun _ hr => Function.update_of_ne hr _ _
  have hrd : MipsI.rd 0#32 = 0 := by decide
  simp only [MipsI.exec, MipsI.writes, MipsI.linear, MipsI.rtVal, Registers.cpu, hrd]

/-- The trap leaves the program counters to the handler. -/
theorem Holding.trap (h : Holding m.registers pc npc u)
    (hfetch : m.fetch = .ok (0x0000000c#32, m₁)) :
    ∃ m', m.oneInstruction = .raised .syscall m' ∧ Holding m'.registers pc npc u := by
  have hm₁ : m₁.registers = m.registers := State.readMem_registers hfetch
  obtain ⟨m', hraise, hm'⟩ := Holding.raise (hm₁ ▸ h) .syscall 0#32
  refine ⟨m', ?_, hm'⟩
  rw [oneInstruction_of_fetch hfetch,
    show Instruction.decode 0x0000000c#32 = ⟨.syscall, 0, 0, 0, 0⟩ by decide]
  exact hraise

end instructions

section kernel
variable {registers : Reg → Word} {pc npc : Word} {u : Registers}

/-- `WriteRegister(2, value)` -/
theorem Holding.result (h : Holding registers pc npc u) (value : Word) :
    Holding (Function.update registers 2 value) pc npc (u.setResult value) := by
  have hgpr := h.general
  obtain ⟨v, hc⟩ := h
  refine ⟨v, represents_of_gpr (fun r => ?_) hc.hi hc.lo hc.pc hc.npc hc.load hc.loadValue⟩
  show _ = Function.update u.gpr 2 value r
  by_cases hr : r = 2
  · rw [hr, Function.update_self]
    exact Function.update_self _ _ _
  · rw [Function.update_of_ne hr, ← hgpr]
    exact Function.update_of_ne (gp_ne_gp hr) _ _

/-- `IncrementCounters` -/
theorem Holding.increment (h : Holding registers pc npc u) (prev : Word) :
    Holding (Function.update (Function.update (Function.update registers prevPCReg prev) pcReg
      npc) nextPCReg (npc + 4#32)) npc (npc + 4#32) u := by
  have hgpr := h.general
  obtain ⟨v, hc⟩ := h
  refine ⟨v, represents_of_gpr (fun r => ?_) hc.hi hc.lo rfl rfl hc.load hc.loadValue⟩
  rw [Function.update_of_ne (gp_ne (by decide)), Function.update_of_ne (gp_ne (by decide)),
    Function.update_of_ne (gp_ne (by decide)), hgpr]
  rfl

end kernel

end Nachos.SystemCalls
