import Nachos.MipsExecution

/-!
# One instruction

`OneInstruction` fetches, decodes, runs the switch, applies the delayed load and moves
the program counters. On the inputs that `Covered` keeps it makes the step of the
architecture, with the same exception where there is one.
-/
namespace Nachos.Machine
open ByteMemory

theorem represents_of_gpr {registers : Reg → Word} {c : MipsI.Cpu}
    (gpr : ∀ r, registers (gp r) = c.gpr r) (hi : registers hiReg = c.hi)
    (lo : registers loReg = c.lo) (pc : registers pcReg = c.pc) (npc : registers nextPCReg = c.npc)
    (load : registers loadReg = BitVec.ofNat 32 c.load.1)
    (loadValue : registers loadValueReg = c.load.2) : Represents registers c := by
  refine ⟨fun r => ?_, hi, lo, pc, npc, load, loadValue⟩
  rw [gpr]
  refine congrFun ?_ r
  rw [show (0#32 : Word) = c.gpr 0 from c.gpr_zero.symm]
  exact (Function.update_eq_self 0 c.gpr).symm

theorem delayedLoad_eq {m : State} {r : Fin 32} (h : m.registers loadReg = BitVec.ofNat 32 r)
    (nextReg nextValue : Word) :
    m.delayedLoad nextReg nextValue = some ((((m.set (gp r) (m.registers loadValueReg)).set loadReg
      nextReg).set loadValueReg nextValue).set 0 0) := by
  have hr : (m.registers loadReg).toNat = r := by
    rw [h, BitVec.toNat_ofNat, Nat.mod_eq_of_lt (by omega)]
  have hlt : (m.registers loadReg).toNat < 40 := by omega
  have hfin : (⟨_, hlt⟩ : Reg) = gp r := Fin.ext hr
  rw [State.delayedLoad, dif_pos hlt, hfin]

theorem finish_represents {c : MipsI.Cpu} {e : Effect} {f : MipsI.Effect (PageTable × Memory)}
    (h : Performs c e f) :
    ∃ m, e.finish = some m ∧ Represents m.registers (c.after f) ∧ m.mem = f.mem := by
  rw [Effect.finish, delayedLoad_eq h.holds.load]
  refine ⟨_, rfl, represents_of_gpr ?_ ?_ ?_ ?_ ?_ ?_ ?_, h.mem⟩
  · intro r
    rw [State.set_of_ne _ _ (gp_ne (by decide)), State.set_of_ne _ _ (gp_ne (by decide)),
      State.set_of_ne _ _ (gp_ne (by decide))]
    show _ = Function.update (Function.update (Function.update c.gpr f.write.1 f.write.2) c.load.1
      c.load.2) 0 0 r
    by_cases h0 : r = 0
    · subst h0
      rw [Function.update_self]
      exact State.set_self _ 0 _
    · rw [Function.update_of_ne h0, State.set_of_ne _ _ (gp_ne_zero h0),
        State.set_of_ne _ _ (gp_ne (by decide)), State.set_of_ne _ _ (gp_ne (by decide))]
      by_cases hl : r = c.load.1
      · rw [hl, State.set_self, Function.update_self, h.holds.loadValue]
      · rw [State.set_of_ne _ _ (gp_ne_gp hl),
          Function.update_of_ne hl, h.holds.gpr]
  · simp (disch := decide) only [State.set_of_ne]
    rw [State.set_of_ne _ _ (gp_ne (by decide)).symm]
    exact h.holds.hi
  · simp (disch := decide) only [State.set_of_ne]
    rw [State.set_of_ne _ _ (gp_ne (by decide)).symm]
    exact h.holds.lo
  · rw [State.set_of_ne _ _ (by decide), State.set_self]
    simp (disch := decide) only [State.set_of_ne]
    rw [State.set_of_ne _ _ (gp_ne (by decide)).symm]
    exact h.holds.npc
  · rw [State.set_self]
    exact h.pcAfter
  · simp (disch := decide) only [State.set_of_ne]
    rw [State.set_self]
    exact h.nextLoadReg
  · simp (disch := decide) only [State.set_of_ne]
    rw [State.set_self]
    exact h.nextLoadValue

/-- The outcome of an instruction and the one that the architecture asks for. -/
def Outcome.Meets : Outcome → Except ExceptionType (MipsI.Cpu × PageTable × Memory) → Prop
  | .done m, .ok (c, mem) => Represents m.registers c ∧ m.mem = mem
  | .raised which _, .error e => which = e
  | _, _ => False

/-- A processor about to execute the word at address 0, with `a` and `b` in registers 1 and 2. -/
def sampleCpu (a b npc : Word) : MipsI.Cpu :=
  ⟨fun r => if r = 1 then a else if r = 2 then b else 0#32, 0#32, 0#32, 0#32, npc, (0, 0#32), rfl⟩

/-- The simulator in the same state: one page, with the word `w` and behind it a datum. -/
def sample (used : Bool) (w a b npc : Word) : State where
  registers r := if r = 1 then a else if r = 2 then b else if r = nextPCReg then npc else 0#32
  mainMemory := setWord (setWord (fun _ => 0#8) 4 0x44332211#32) 0 w
  pageTable := [⟨0#32, true, false, used, false⟩]

theorem sample_represents (w a b npc : Word) :
    Represents (sample false w a b npc).registers (sampleCpu a b npc) := by
  refine represents_of_gpr (fun r => ?_) rfl rfl rfl rfl rfl rfl
  fin_cases r <;> rfl

theorem sample_fetch (w a b npc : Word) :
    (sample false w a b npc).fetch = .ok (w, sample true w a b npc) := by
  have h : loadBytes (sample false w a b npc).mainMemory 0 4 = w :=
    word_setWord_self (setWord (fun _ => 0#8) 4 0x44332211#32) 0 w
  have ht : translate (sample false w a b npc).pageTable 0#32 4 false =
      .ok (0#32, (sample true w a b npc).pageTable) := by
    rw [translate, if_neg (by decide)]
    rfl
  rw [State.fetch, show (sample false w a b npc).registers pcReg = 0#32 from rfl, State.readMem, ht]
  exact congrArg (fun v => Except.ok (v, sample true w a b npc)) h

/-- Some state in which the simulator gives another result than the architecture. -/
def Deviates (op : MipsI.Mnemonic) : Prop :=
  ∃ m m₁ : State, ∃ c w, Represents m.registers c ∧ m.fetch = .ok (w, m₁) ∧
    MipsI.decode w = some op ∧ MipsI.Predictable w c op ∧
    ¬m.oneInstruction.Meets (MipsI.step bus w c m₁.mem op)

/-- Register 3, the next program counter, the loaded value and the datum of `sample`. -/
def Outcome.sameResult :
    Outcome → Except ExceptionType (MipsI.Cpu × PageTable × Memory) → Bool
  | .done m, .ok (c, mem) => m.registers 3 = c.gpr 3 && m.registers nextPCReg = c.npc &&
      m.registers loadValueReg = c.load.2 && m.mainMemory 4 = mem.2 4
  | .raised _ _, .error _ => true
  | _, _ => false

theorem Outcome.Meets.sameResult {o : Outcome}
    {s : Except ExceptionType (MipsI.Cpu × PageTable × Memory)} (h : o.Meets s) :
    o.sameResult s = true := by
  cases o with
  | done m =>
    cases s with
    | error e => exact h.elim
    | ok r =>
      have hmem : m.mainMemory = r.2.2 := congrArg Prod.snd h.2
      have h3 : m.registers 3 = r.1.gpr 3 := gpr_eq h.1 3
      simp [Outcome.sameResult, h3, h.1.npc, h.1.loadValue, hmem]
  | raised which m =>
    cases s with
    | error e => rfl
    | ok r => exact h.elim
  | failed => cases s <;> exact h.elim

theorem deviates_of_sample (w a b npc : Word) {op : MipsI.Mnemonic}
    (hop : MipsI.decode w = some op) (hp : MipsI.Predictable w (sampleCpu a b npc) op)
    (h : (sample false w a b npc).oneInstruction.sameResult
      (MipsI.step bus w (sampleCpu a b npc) (sample true w a b npc).mem op) = false) :
    Deviates op := by
  refine ⟨_, _, _, w, sample_represents w a b npc, sample_fetch w a b npc, hop, hp, ?_⟩
  intro hmeets
  rw [hmeets.sameResult] at h
  exact Bool.noConfusion h

end Nachos.Machine
