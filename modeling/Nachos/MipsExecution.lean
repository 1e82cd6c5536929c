import Nachos.MipsDecoding

/-!
# The switch of the simulator and the architecture

`execute` is compared with `MipsI.exec`, one instruction at a time. Instructions of one
kind share a lemma: those that write a register, that write `HI` and `LO`, branches,
jumps, loads and stores. `Covered` leaves out the inputs on which the simulator differs:
`OR` takes its first operand twice, the logical right shifts shift a signed number, `J`
and `JAL` take the high bits of the address behind the delay slot, and the partial word
instructions select the bytes of a big-endian word.
-/
namespace Nachos.Machine
open ByteMemory

/-- Memory as the architecture sees it: virtual addresses, translated by the page table. -/
def bus : MipsI.Bus (PageTable × Memory) ExceptionType where
  read n mem a := (translate mem.1 a n false).map fun r => (value mem.2 r.1.toNat n, r.2, mem.2)
  write n mem a v := (translate mem.1 a n true).map fun r => (r.2, setValue mem.2 r.1.toNat n v)
  addressError := .addressError
  overflow := .overflow

def State.mem (m : State) : PageTable × Memory := (m.pageTable, m.mainMemory)

/-- The registers behind the switch: those of the processor, with what the instruction wrote. -/
structure Holds (registers : Reg → Word) (c : MipsI.Cpu) (write : Fin 32 × Word) (hi lo : Word) :
    Prop where
  gpr : ∀ r, registers (gp r) = Function.update c.gpr write.1 write.2 r
  hi : registers hiReg = hi
  lo : registers loReg = lo
  pc : registers pcReg = c.pc
  npc : registers nextPCReg = c.npc
  load : registers loadReg = BitVec.ofNat 32 c.load.1
  loadValue : registers loadValueReg = c.load.2

/-- The registers of the simulator hold the state of the processor. -/
abbrev Represents (registers : Reg → Word) (c : MipsI.Cpu) : Prop :=
  Holds registers c (0, 0#32) c.hi c.lo

/-- The switch did what the architecture asks for. -/
structure Performs (c : MipsI.Cpu) (e : Effect) (f : MipsI.Effect (PageTable × Memory)) : Prop where
  holds : Holds e.m.registers c f.write f.hi f.lo
  pcAfter : e.pcAfter = f.npc
  nextLoadReg : e.nextLoadReg = BitVec.ofNat 32 f.load.1
  nextLoadValue : e.nextLoadValue = f.load.2
  mem : e.m.mem = f.mem

def Agrees (m : State) (c : MipsI.Cpu) :
    Except Fault Effect → Except ExceptionType (MipsI.Effect (PageTable × Memory)) → Prop
  | .ok e, .ok f => Performs c e f
  | .error (.exception which _ m'), .error e => which = e ∧ m'.registers = m.registers
  | _, _ => False

theorem misaligned_iff {a : Word} {n : ℕ} (hn : n = 1 ∨ n = 2 ∨ n = 4) :
    misaligned a n = true ↔ a.toNat % n ≠ 0 := by
  rcases hn with rfl | rfl | rfl
  · simp [misaligned, Nat.mod_one]
  · simp [misaligned, and_mask_one]
  · simp [misaligned, and_mask_two]

theorem translate_of_misaligned {pageTable : PageTable} {a : Word} {n : ℕ} {writing : Bool}
    (h : misaligned a n = true) : translate pageTable a n writing = .error .addressError := by
  rw [translate, if_pos h]

theorem agrees_jump {m m' : State} {c : MipsI.Cpu} {write : Fin 32 × Word} {target target' : Word}
    (hm' : Holds m'.registers c write c.hi c.lo) (hmem : m'.mem = m.mem) (ht : target = target') :
    Agrees m c (jump m' target) (.ok { MipsI.linear c m.mem with npc := target', write := write }) :=
  ⟨hm', ht, rfl, rfl, hmem⟩

section families
variable {m : State} {c : MipsI.Cpu} (hm : Represents m.registers c)
include hm

theorem gpr_eq (r : Fin 32) : m.registers (gp r) = c.gpr r := by
  rw [hm.gpr]
  refine congrFun ?_ r
  rw [show (0#32 : Word) = c.gpr 0 from c.gpr_zero.symm]
  exact Function.update_eq_self 0 c.gpr

theorem holds_set (r : Fin 32) (v : Word) : Holds (m.set (gp r) v).registers c (r, v) c.hi c.lo := by
  have hne : ∀ k : Reg, 32 ≤ (k : ℕ) → (m.set (gp r) v).registers k = m.registers k := by
    intro k hk
    exact m.set_of_ne v (gp_ne hk).symm
  constructor
  · intro r'
    by_cases hr : r' = r
    · subst hr
      simp [State.set]
    · rw [m.set_of_ne v (gp_ne_gp hr), Function.update_of_ne hr, gpr_eq hm]
  · rw [hne _ (by decide), hm.hi]
  · rw [hne _ (by decide), hm.lo]
  · rw [hne _ (by decide), hm.pc]
  · rw [hne _ (by decide), hm.npc]
  · rw [hne _ (by decide), hm.load]
  · rw [hne _ (by decide), hm.loadValue]

theorem holds_hiLo {registers : Reg → Word} {hi lo : Word}
    (hhi : registers hiReg = hi) (hlo : registers loReg = lo)
    (hother : ∀ k, k ≠ hiReg → k ≠ loReg → registers k = m.registers k) :
    Holds registers c (0, 0#32) hi lo := by
  constructor
  · intro r
    rw [hother _ (gp_ne (by decide)) (gp_ne (by decide)), hm.gpr]
  · exact hhi
  · exact hlo
  · rw [hother _ (by decide) (by decide), hm.pc]
  · rw [hother _ (by decide) (by decide), hm.npc]
  · rw [hother _ (by decide) (by decide), hm.load]
  · rw [hother _ (by decide) (by decide), hm.loadValue]

theorem agrees_write (r : Fin 32) {v v' : Word} (hv : v = v') :
    Agrees m c (goOn m (m.set (gp r) v)) (MipsI.writes c m.mem r v') := by
  subst hv
  constructor
  · exact holds_set hm r v
  · rw [hm.npc]
    rfl
  · rfl
  · rfl
  · rfl

theorem agrees_hiLo {m' : State} {hi lo : Word} (hmem : m'.mem = m.mem)
    (hhi : m'.registers hiReg = hi) (hlo : m'.registers loReg = lo)
    (hother : ∀ k, k ≠ hiReg → k ≠ loReg → m'.registers k = m.registers k) :
    Agrees m c (goOn m m') (MipsI.writesHiLo c m.mem hi lo) := by
  constructor
  · exact holds_hiLo hm hhi hlo hother
  · rw [hm.npc]
    rfl
  · rfl
  · rfl
  · exact hmem

theorem agrees_link {w : Word} {i : Instruction} (hi : i.extra = (MipsI.imm w).signExtend 32)
    {m' : State} {write : Fin 32 × Word} (hm' : Holds m'.registers c write c.hi c.lo)
    (hmem : m'.mem = m.mem) {taken : Bool} {P : Prop} [Decidable P] (h : taken = true ↔ P) :
    Agrees m c (branch i m m' taken)
      (.ok { MipsI.branches w c m.mem P with write := write }) := by
  by_cases hP : P
  · rw [branch, if_pos (h.2 hP), MipsI.branches, if_pos hP]
    refine ⟨hm', ?_, rfl, rfl, hmem⟩
    rw [hm'.npc, hi]
  · rw [branch, if_neg (mt h.1 hP), MipsI.branches, if_neg hP]
    refine ⟨hm', ?_, rfl, rfl, hmem⟩
    rw [hm.npc]
    rfl

theorem agrees_branch {w : Word} {i : Instruction} (hi : i.extra = (MipsI.imm w).signExtend 32)
    {taken : Bool} {P : Prop} [Decidable P] (h : taken = true ↔ P) :
    Agrees m c (branch i m m taken) (.ok (MipsI.branches w c m.mem P)) := by
  have hwrite : (MipsI.branches w c m.mem P).write = (0, 0#32) := by
    rw [MipsI.branches]
    split_ifs <;> rfl
  have hlink := agrees_link hm hi hm rfl h
  rwa [← hwrite] at hlink

theorem agrees_load {w : Word} {i : Instruction} (hrt : i.rt = MipsI.rt w)
    (ha : address i m = MipsI.effective w c) {n : ℕ} (hn : n = 1 ∨ n = 2 ∨ n = 4)
    (convert : Word → Word) (extend : BitVec (8 * n) → Word)
    (h : ∀ memory a, convert (loadBytes memory a n) = extend (value memory a n)) :
    Agrees m c (load i m n convert) (MipsI.loads bus w c m.mem n extend) := by
  rw [load, State.readMem, MipsI.loads, ha]
  by_cases hal : (MipsI.effective w c).toNat % n = 0
  · rw [if_neg (not_not.2 hal)]
    show Agrees m c _ (((translate m.pageTable _ n false).map _).map _)
    cases translate m.pageTable (MipsI.effective w c) n false with
    | error e => exact ⟨rfl, rfl⟩
    | ok r =>
      refine ⟨hm, ?_, ?_, h _ _, rfl⟩
      · rw [hm.npc]
        rfl
      · rw [hrt]
        rfl
  · rw [if_pos hal, translate_of_misaligned ((misaligned_iff hn).2 hal)]
    exact ⟨rfl, rfl⟩

/-- A load that tests the alignment itself. -/
theorem agrees_checked_load {w : Word} {i : Instruction} (hrt : i.rt = MipsI.rt w)
    (ha : address i m = MipsI.effective w c) {n : ℕ} (hn : n = 1 ∨ n = 2 ∨ n = 4)
    {convert : Word → Word} {extend : BitVec (8 * n) → Word}
    (h : ∀ memory a, convert (loadBytes memory a n) = extend (value memory a n))
    {mask : Word} (hmask : ∀ a : Word, a &&& mask = 0#32 ↔ a.toNat % n = 0) :
    Agrees m c (if address i m &&& mask ≠ 0#32 then
        .error (.exception .addressError (address i m) m) else load i m n convert)
      (MipsI.loads bus w c m.mem n extend) := by
  split_ifs with hal
  · rw [ne_eq, hmask, ha] at hal
    rw [MipsI.loads, if_pos hal]
    exact ⟨rfl, rfl⟩
  · exact agrees_load hm hrt ha hn convert extend h

theorem agrees_store {w : Word} {i : Instruction} (hrt : i.rt = MipsI.rt w)
    (ha : address i m = MipsI.effective w c) {n : ℕ} (hn : n = 1 ∨ n = 2 ∨ n = 4) :
    Agrees m c (store i m n) (MipsI.stores bus w c m.mem n) := by
  rw [store, State.writeMem, MipsI.stores, ha, hrt, gpr_eq hm]
  by_cases hal : (MipsI.effective w c).toNat % n = 0
  · rw [if_neg (not_not.2 hal)]
    show Agrees m c _ (((translate m.pageTable _ n true).map _).map _)
    cases translate m.pageTable (MipsI.effective w c) n true with
    | error e => exact ⟨rfl, rfl⟩
    | ok r =>
      refine ⟨hm, ?_, rfl, rfl, ?_⟩
      · rw [hm.npc]
        rfl
      · exact congrArg (Prod.mk r.2) (setValue_setWidth _ _ _ _).symm
  · rw [if_pos hal, translate_of_misaligned ((misaligned_iff hn).2 hal)]
    exact ⟨rfl, rfl⟩

end families

/-- The inputs on which the simulator does what the architecture defines. -/
def Covered (w : Word) (c : MipsI.Cpu) : MipsI.Mnemonic → Prop
  | .or => MipsI.rtVal w c &&& ~~~MipsI.rsVal w c = 0#32
  | .srl => (MipsI.rtVal w c).msb = false ∨ MipsI.shamt w = 0
  | .srlv => (MipsI.rtVal w c).msb = false ∨ (MipsI.rsVal w c).toNat % 32 = 0
  | .j | .jal => (c.npc + 4#32) &&& 0xf0000000#32 = c.npc &&& 0xf0000000#32
  | .lwl | .lwr | .swl | .swr => False
  | _ => True

abbrev instruction (w : Word) (op : MipsI.Mnemonic) : Instruction :=
  ⟨.ofMnemonic op, MipsI.rs w, MipsI.rt w, MipsI.rd w, extraField w (.ofMnemonic op)⟩

theorem or_eq_of_covered {x y : Word} (h : y &&& ~~~x = 0#32) : x ||| x = x ||| y := by
  apply BitVec.eq_of_getLsbD_eq
  intro i hi
  have hbit := congrArg (BitVec.getLsbD · i) h
  simp only [BitVec.getLsbD_and, BitVec.getLsbD_not, hi, decide_true, Bool.true_and,
    BitVec.getLsbD_zero] at hbit
  rw [BitVec.or_self, BitVec.getLsbD_or]
  cases hx : x.getLsbD i <;> simp_all

theorem negative_iff (x : Word) : decide (x &&& signBit ≠ 0#32) = true ↔ x.toInt < 0 := by
  rw [decide_eq_true_eq, ne_eq, and_signBit_eq_zero, BitVec.msb_eq_toInt]
  simp

theorem nonnegative_iff (x : Word) : decide (x &&& signBit = 0#32) = true ↔ 0 ≤ x.toInt := by
  rw [decide_eq_true_eq, and_signBit_eq_zero, BitVec.msb_eq_toInt]
  simp

theorem words_of_append {hi lo : Word} {p : BitVec 64} (h : hi ++ lo = p) :
    hi = p.extractLsb' 32 32 ∧ lo = p.extractLsb' 0 32 := by
  subst h
  constructor
  · apply BitVec.eq_of_getLsbD_eq
    intro i hlt
    rw [BitVec.getLsbD_extractLsb', BitVec.getLsbD_append]
    simp [hlt]
  · apply BitVec.eq_of_getLsbD_eq
    intro i hlt
    rw [BitVec.getLsbD_extractLsb', BitVec.getLsbD_append]
    simp [hlt]

section switch
variable {m : State} {c : MipsI.Cpu} (hm : Represents m.registers c) (w : Word)
include hm

theorem address_eq (op : MipsI.Mnemonic) (h : Format.ofMnemonic op = .ifmt) :
    address (instruction w op) m = MipsI.effective w c := by
  rw [address, gpr_eq hm, MipsI.effective, show (instruction w op).extra = _ from
    congrArg (extraField w) h, extraField_ifmt]

theorem agrees_int {r : Fin 32} {v : Word} {z : ℤ} {P : Prop} [Decidable P]
    (hP : P ↔ ¬MipsI.Fits z) (hv : v = BitVec.ofInt 32 z) :
    Agrees m c (if P then .error (.exception .overflow 0 m) else goOn m (m.set (gp r) v))
      (MipsI.writesInt bus c m.mem r z) := by
  rw [MipsI.writesInt]
  by_cases hz : MipsI.Fits z
  · rw [if_pos hz, if_neg (fun h => hP.1 h hz)]
    exact agrees_write hm r hv
  · rw [if_neg hz, if_pos (hP.2 hz)]
    exact ⟨rfl, rfl⟩

theorem agrees_setLoHi {hi lo hi' lo' : Word} (hhi : hi = hi') (hlo : lo = lo') :
    Agrees m c (goOn m ((m.set loReg lo).set hiReg hi)) (MipsI.writesHiLo c m.mem hi' lo') := by
  refine agrees_hiLo hm rfl ?_ ?_ ?_
  · rw [State.set_self, hhi]
  · rw [State.set_of_ne _ _ (by decide), State.set_self, hlo]
  · intro k hkh hkl
    rw [State.set_of_ne _ _ hkh, State.set_of_ne _ _ hkl]

theorem agrees_setHiLo {hi lo hi' lo' : Word} (hhi : hi = hi') (hlo : lo = lo') :
    Agrees m c (goOn m ((m.set hiReg hi).set loReg lo)) (MipsI.writesHiLo c m.mem hi' lo') := by
  have hswap : (m.set hiReg hi).set loReg lo = (m.set loReg lo).set hiReg hi := by
    simp only [State.set]
    rw [Function.update_comm (by decide)]
  rw [hswap]
  exact agrees_setLoHi hm hhi hlo

theorem rs_eq : m.registers (gp (MipsI.rs w)) = MipsI.rsVal w c := gpr_eq hm _

theorem rt_eq : m.registers (gp (MipsI.rt w)) = MipsI.rtVal w c := gpr_eq hm _

theorem execute_add :
    Agrees m c (execute (instruction w .add) m) (MipsI.exec bus w c m.mem .add) := by
  refine agrees_int hm ?_ ?_
  · rw [rs_eq hm, rt_eq hm]
    exact add_overflows_iff _ _
  · rw [rs_eq hm, rt_eq hm, BitVec.ofInt_add, BitVec.ofInt_toInt, BitVec.ofInt_toInt]

theorem execute_sub :
    Agrees m c (execute (instruction w .sub) m) (MipsI.exec bus w c m.mem .sub) := by
  refine agrees_int hm ?_ ?_
  · rw [rs_eq hm, rt_eq hm]
    exact sub_overflows_iff _ _
  · rw [rs_eq hm, rt_eq hm, Int.sub_eq_add_neg, BitVec.ofInt_add, BitVec.ofInt_neg,
      BitVec.ofInt_toInt, BitVec.ofInt_toInt, BitVec.sub_eq_add_neg]

theorem execute_addi :
    Agrees m c (execute (instruction w .addi) m) (MipsI.exec bus w c m.mem .addi) := by
  have hint : ((MipsI.imm w).signExtend 32).toInt = (MipsI.imm w).toInt :=
    BitVec.toInt_signExtend_of_le (by decide)
  have himm : (instruction w .addi).extra = (MipsI.imm w).signExtend 32 := extraField_ifmt w
  refine agrees_int hm ?_ ?_
  · rw [rs_eq hm, himm, BitVec.xor_comm, BitVec.add_comm, ← hint, Int.add_comm]
    exact add_overflows_iff _ _
  · rw [rs_eq hm, himm, ← hint, BitVec.ofInt_add, BitVec.ofInt_toInt, BitVec.ofInt_toInt]

theorem execute_lui :
    Agrees m c (execute (instruction w .lui) m) (MipsI.exec bus w c m.mem .lui) := by
  have hv : extraField w .ifmt <<< 16 = MipsI.imm w ++ 0#16 := by
    rw [extraField_ifmt, signExtend_shiftLeft]
  exact agrees_write hm (MipsI.rt w) hv

theorem execute_sll :
    Agrees m c (execute (instruction w .sll) m) (MipsI.exec bus w c m.mem .sll) := by
  have hv : m.registers (gp (MipsI.rt w)) <<< extraField w .rfmt =
      MipsI.rtVal w c <<< MipsI.shamt w := by
    rw [rt_eq hm, BitVec.shiftLeft_eq', extraField_rfmt]
  exact agrees_write hm (MipsI.rd w) hv

theorem execute_sra :
    Agrees m c (execute (instruction w .sra) m) (MipsI.exec bus w c m.mem .sra) := by
  have hv : (m.registers (gp (MipsI.rt w))).sshiftRight' (extraField w .rfmt) =
      (MipsI.rtVal w c).sshiftRight (MipsI.shamt w) := by
    rw [rt_eq hm, BitVec.sshiftRight', extraField_rfmt]
  exact agrees_write hm (MipsI.rd w) hv

/-- The shift is an arithmetic one in the source. -/
theorem execute_srl (hc : (MipsI.rtVal w c).msb = false ∨ MipsI.shamt w = 0) :
    Agrees m c (execute (instruction w .srl) m) (MipsI.exec bus w c m.mem .srl) := by
  have hv : (m.registers (gp (MipsI.rt w))).sshiftRight' (extraField w .rfmt) =
      MipsI.rtVal w c >>> MipsI.shamt w := by
    rw [rt_eq hm, BitVec.sshiftRight', extraField_rfmt, sshiftRight_eq_ushiftRight hc]
  exact agrees_write hm (MipsI.rd w) hv

theorem execute_sllv :
    Agrees m c (execute (instruction w .sllv) m) (MipsI.exec bus w c m.mem .sllv) := by
  have hv : m.registers (gp (MipsI.rt w)) <<< (m.registers (gp (MipsI.rs w)) &&& 0x1f#32) =
      MipsI.rtVal w c <<< ((MipsI.rsVal w c).toNat % 32) := by
    rw [rs_eq hm, rt_eq hm, BitVec.shiftLeft_eq', and_mask_five]
  exact agrees_write hm (MipsI.rd w) hv

theorem execute_srav :
    Agrees m c (execute (instruction w .srav) m) (MipsI.exec bus w c m.mem .srav) := by
  have hv : (m.registers (gp (MipsI.rt w))).sshiftRight' (m.registers (gp (MipsI.rs w)) &&& 0x1f#32) =
      (MipsI.rtVal w c).sshiftRight ((MipsI.rsVal w c).toNat % 32) := by
    rw [rs_eq hm, rt_eq hm, BitVec.sshiftRight', and_mask_five]
  exact agrees_write hm (MipsI.rd w) hv

theorem execute_srlv
    (hc : (MipsI.rtVal w c).msb = false ∨ (MipsI.rsVal w c).toNat % 32 = 0) :
    Agrees m c (execute (instruction w .srlv) m) (MipsI.exec bus w c m.mem .srlv) := by
  have hv : (m.registers (gp (MipsI.rt w))).sshiftRight' (m.registers (gp (MipsI.rs w)) &&& 0x1f#32) =
      MipsI.rtVal w c >>> ((MipsI.rsVal w c).toNat % 32) := by
    rw [rs_eq hm, rt_eq hm, BitVec.sshiftRight', and_mask_five, sshiftRight_eq_ushiftRight hc]
  exact agrees_write hm (MipsI.rd w) hv

theorem agrees_set_if {r : Fin 32} {b : Bool} {P : Prop} [Decidable P] (h : b = true ↔ P) :
    Agrees m c (goOn m (m.set (gp r) (if b then 1#32 else 0#32)))
      (MipsI.writes c m.mem r (if P then 1 else 0)) :=
  agrees_write hm r (if_congr h rfl rfl)

theorem execute_slt :
    Agrees m c (execute (instruction w .slt) m) (MipsI.exec bus w c m.mem .slt) := by
  refine agrees_set_if hm ?_
  rw [rs_eq hm, rt_eq hm]
  exact BitVec.slt_iff_toInt_lt

theorem execute_sltu :
    Agrees m c (execute (instruction w .sltu) m) (MipsI.exec bus w c m.mem .sltu) := by
  have h : m.registers (gp (MipsI.rs w)) < m.registers (gp (MipsI.rt w)) ↔
      (MipsI.rsVal w c).toNat < (MipsI.rtVal w c).toNat := by
    rw [rs_eq hm, rt_eq hm, BitVec.lt_def]
  exact agrees_write hm (MipsI.rd w) (if_congr h rfl rfl)

theorem execute_slti :
    Agrees m c (execute (instruction w .slti) m) (MipsI.exec bus w c m.mem .slti) := by
  have himm : (instruction w .slti).extra = (MipsI.imm w).signExtend 32 := extraField_ifmt w
  refine agrees_set_if hm ?_
  rw [rs_eq hm, himm, BitVec.slt_iff_toInt_lt, BitVec.toInt_signExtend_of_le (by decide)]

theorem execute_sltiu :
    Agrees m c (execute (instruction w .sltiu) m) (MipsI.exec bus w c m.mem .sltiu) := by
  have h : m.registers (gp (MipsI.rs w)) < extraField w .ifmt ↔
      (MipsI.rsVal w c).toNat < ((MipsI.imm w).signExtend 32).toNat := by
    rw [rs_eq hm, extraField_ifmt, BitVec.lt_def]
  exact agrees_write hm (MipsI.rt w) (if_congr h rfl rfl)

theorem execute_mult :
    Agrees m c (execute (instruction w .mult) m) (MipsI.exec bus w c m.mem .mult) := by
  have hwords := words_of_append (mult_signed (MipsI.rsVal w c) (MipsI.rtVal w c))
  refine agrees_setHiLo hm ?_ ?_
  · rw [rs_eq hm, rt_eq hm]
    exact hwords.1
  · rw [rs_eq hm, rt_eq hm]
    exact hwords.2

theorem execute_multu :
    Agrees m c (execute (instruction w .multu) m) (MipsI.exec bus w c m.mem .multu) := by
  have hwords := words_of_append (mult_unsigned (MipsI.rsVal w c) (MipsI.rtVal w c))
  refine agrees_setHiLo hm ?_ ?_
  · rw [rs_eq hm, rt_eq hm]
    exact hwords.1
  · rw [rs_eq hm, rt_eq hm]
    exact hwords.2

theorem execute_div (h : MipsI.rtVal w c ≠ 0#32) :
    Agrees m c (execute (instruction w .div) m) (MipsI.exec bus w c m.mem .div) := by
  have hx : execute (instruction w .div) m =
      goOn m ((m.set loReg ((MipsI.rsVal w c).sdiv (MipsI.rtVal w c))).set hiReg
        ((MipsI.rsVal w c).srem (MipsI.rtVal w c))) := by
    rw [← rs_eq hm, ← rt_eq hm] at *
    exact if_neg h
  rw [hx]
  exact agrees_setLoHi hm (srem_eq _ _) (sdiv_eq _ _)

theorem execute_divu (h : MipsI.rtVal w c ≠ 0#32) :
    Agrees m c (execute (instruction w .divu) m) (MipsI.exec bus w c m.mem .divu) := by
  have hx : execute (instruction w .divu) m =
      goOn m ((m.set loReg (MipsI.rsVal w c / MipsI.rtVal w c)).set hiReg
        (MipsI.rsVal w c % MipsI.rtVal w c)) := by
    rw [← rs_eq hm, ← rt_eq hm] at *
    exact if_neg h
  rw [hx]
  refine agrees_setLoHi hm ?_ ?_
  · rw [← BitVec.toNat_umod, BitVec.ofNat_toNat, BitVec.setWidth_eq]
  · rw [← BitVec.toNat_udiv, BitVec.ofNat_toNat, BitVec.setWidth_eq]

theorem execute_mthi :
    Agrees m c (execute (instruction w .mthi) m) (MipsI.exec bus w c m.mem .mthi) := by
  refine agrees_hiLo hm rfl ?_ ?_ ?_
  · exact (m.set_self hiReg _).trans (rs_eq hm w)
  · exact (m.set_of_ne _ (by decide)).trans hm.lo
  · intro k hk _
    exact m.set_of_ne _ hk

theorem execute_mtlo :
    Agrees m c (execute (instruction w .mtlo) m) (MipsI.exec bus w c m.mem .mtlo) := by
  refine agrees_hiLo hm rfl ?_ ?_ ?_
  · exact (m.set_of_ne _ (by decide)).trans hm.hi
  · exact (m.set_self loReg _).trans (rs_eq hm w)
  · intro k _ hk
    exact m.set_of_ne _ hk

theorem holds_link (r : Fin 32) :
    Holds (m.set (gp r) (m.registers nextPCReg + 4#32)).registers c (r, c.npc + 4#32) c.hi c.lo := by
  have h := holds_set hm r (c.npc + 4#32)
  rwa [← hm.npc] at h ⊢

theorem rs_eq_of_link {r : Fin 32} (h : MipsI.rs w ≠ r) (v : Word) :
    (m.set (gp r) v).registers (gp (MipsI.rs w)) = MipsI.rsVal w c := by
  rw [m.set_of_ne v (gp_ne_gp h), rs_eq hm]

theorem execute_bltzal (h : MipsI.rs w ≠ 31) :
    Agrees m c (execute (instruction w .bltzal) m) (MipsI.exec bus w c m.mem .bltzal) := by
  refine agrees_link hm (extraField_ifmt w) (holds_link hm 31) rfl ?_
  rw [rs_eq_of_link hm w h]
  exact negative_iff _

theorem execute_bgezal (h : MipsI.rs w ≠ 31) :
    Agrees m c (execute (instruction w .bgezal) m) (MipsI.exec bus w c m.mem .bgezal) := by
  refine agrees_link hm (extraField_ifmt w) (holds_link hm 31) rfl ?_
  rw [rs_eq_of_link hm w h]
  exact nonnegative_iff _

theorem execute_jalr (h : MipsI.rd w ≠ MipsI.rs w) :
    Agrees m c (execute (instruction w .jalr) m) (MipsI.exec bus w c m.mem .jalr) :=
  agrees_jump (holds_link hm (MipsI.rd w)) rfl (rs_eq_of_link hm w h.symm _)

/-- The source takes the high bits of the address behind the delay slot. -/
theorem target_eq (hc : (c.npc + 4#32) &&& 0xf0000000#32 = c.npc &&& 0xf0000000#32) :
    (m.registers nextPCReg + 4#32) &&& 0xf0000000#32 ||| extraField w .jfmt <<< 2 =
      c.npc.extractLsb' 28 4 ++ MipsI.index w ++ 0#2 := by
  rw [hm.npc, hc, extraField_jfmt, jump_target]

theorem execute_j (hc : (c.npc + 4#32) &&& 0xf0000000#32 = c.npc &&& 0xf0000000#32) :
    Agrees m c (execute (instruction w .j) m) (MipsI.exec bus w c m.mem .j) :=
  agrees_jump hm rfl (target_eq hm w hc)

theorem execute_jal (hc : (c.npc + 4#32) &&& 0xf0000000#32 = c.npc &&& 0xf0000000#32) :
    Agrees m c (execute (instruction w .jal) m) (MipsI.exec bus w c m.mem .jal) :=
  agrees_jump (holds_link hm 31) rfl (target_eq hm w hc)

theorem execute_lb :
    Agrees m c (execute (instruction w .lb) m) (MipsI.exec bus w c m.mem .lb) := by
  refine agrees_load hm rfl (address_eq hm w .lb rfl) (.inl rfl)
    (fun v => if v &&& 0x80#32 ≠ 0#32 then v ||| 0xffffff00#32 else v &&& 0xff#32)
    (BitVec.signExtend 32) ?_
  intro memory a
  rw [value_one]
  exact lb_value _

theorem execute_lbu :
    Agrees m c (execute (instruction w .lbu) m) (MipsI.exec bus w c m.mem .lbu) := by
  refine agrees_load hm rfl (address_eq hm w .lbu rfl) (.inl rfl) (· &&& 0xff#32)
    (BitVec.zeroExtend 32) ?_
  intro memory a
  rw [value_one]
  exact lbu_value _

theorem execute_lh :
    Agrees m c (execute (instruction w .lh) m) (MipsI.exec bus w c m.mem .lh) := by
  refine agrees_checked_load hm rfl (address_eq hm w .lh rfl) (.inr (.inl rfl)) ?_ and_mask_one
  intro memory a
  rw [value_two]
  exact lh_value _

theorem execute_lhu :
    Agrees m c (execute (instruction w .lhu) m) (MipsI.exec bus w c m.mem .lhu) := by
  refine agrees_checked_load hm rfl (address_eq hm w .lhu rfl) (.inr (.inl rfl)) ?_ and_mask_one
  intro memory a
  rw [value_two]
  exact lhu_value _

theorem execute_lw :
    Agrees m c (execute (instruction w .lw) m) (MipsI.exec bus w c m.mem .lw) := by
  refine agrees_checked_load hm rfl (address_eq hm w .lw rfl) (.inr (.inr rfl)) ?_ and_mask_two
  intro memory a
  rw [value_four]
  exact (BitVec.setWidth_eq _).symm

theorem execute_agrees {op : MipsI.Mnemonic} (hp : MipsI.Predictable w c op)
    (hc : Covered w c op) :
    Agrees m c (execute (instruction w op) m) (MipsI.exec bus w c m.mem op) := by
  have hrs := rs_eq hm w
  have hrt := rt_eq hm w
  have himm := extraField_ifmt w
  have hmask := (congrArg (· &&& 0xffff#32) himm).trans (signExtend_and_mask _)
  cases op with
  | add => exact execute_add hm w
  | addi => exact execute_addi hm w
  | sub => exact execute_sub hm w
  | addiu => exact agrees_write hm _ (congrArg₂ (· + ·) hrs himm)
  | addu => exact agrees_write hm _ (congrArg₂ (· + ·) hrs hrt)
  | subu => exact agrees_write hm _ (congrArg₂ (· - ·) hrs hrt)
  | and => exact agrees_write hm _ (congrArg₂ (· &&& ·) hrs hrt)
  | or => exact agrees_write hm _ ((congrArg (fun x => x ||| x) hrs).trans (or_eq_of_covered hc))
  | xor => exact agrees_write hm _ (congrArg₂ (· ^^^ ·) hrs hrt)
  | nor => exact agrees_write hm _ (congrArg₂ (fun x y => ~~~(x ||| y)) hrs hrt)
  | andi => exact agrees_write hm _ (congrArg₂ (· &&& ·) hrs hmask)
  | ori => exact agrees_write hm _ (congrArg₂ (· ||| ·) hrs hmask)
  | xori => exact agrees_write hm _ (congrArg₂ (· ^^^ ·) hrs hmask)
  | lui => exact execute_lui hm w
  | sll => exact execute_sll hm w
  | sra => exact execute_sra hm w
  | srl => exact execute_srl hm w hc
  | sllv => exact execute_sllv hm w
  | srav => exact execute_srav hm w
  | srlv => exact execute_srlv hm w hc
  | slt => exact execute_slt hm w
  | sltu => exact execute_sltu hm w
  | slti => exact execute_slti hm w
  | sltiu => exact execute_sltiu hm w
  | mult => exact execute_mult hm w
  | multu => exact execute_multu hm w
  | div => exact execute_div hm w hp.1
  | divu => exact execute_divu hm w hp
  | mfhi => exact agrees_write hm _ hm.hi
  | mflo => exact agrees_write hm _ hm.lo
  | mthi => exact execute_mthi hm w
  | mtlo => exact execute_mtlo hm w
  | beq => exact agrees_branch hm himm (by rw [hrs, hrt, decide_eq_true_eq])
  | bne => exact agrees_branch hm himm (by rw [hrs, hrt, decide_eq_true_eq])
  | blez => exact agrees_branch hm himm (by rw [hrs]; exact BitVec.sle_iff_toInt_le)
  | bgtz => exact agrees_branch hm himm (by rw [hrs]; exact BitVec.slt_iff_toInt_lt)
  | bltz => exact agrees_branch hm himm (by rw [hrs]; exact negative_iff _)
  | bgez => exact agrees_branch hm himm (by rw [hrs]; exact nonnegative_iff _)
  | bltzal => exact execute_bltzal hm w hp
  | bgezal => exact execute_bgezal hm w hp
  | j => exact execute_j hm w hc
  | jal => exact execute_jal hm w hc
  | jr => exact agrees_jump hm rfl hrs
  | jalr => exact execute_jalr hm w hp
  | lb => exact execute_lb hm w
  | lbu => exact execute_lbu hm w
  | lh => exact execute_lh hm w
  | lhu => exact execute_lhu hm w
  | lw => exact execute_lw hm w
  | sb => exact agrees_store hm rfl (address_eq hm w .sb rfl) (.inl rfl)
  | sh => exact agrees_store hm rfl (address_eq hm w .sh rfl) (.inr (.inl rfl))
  | sw => exact agrees_store hm rfl (address_eq hm w .sw rfl) (.inr (.inr rfl))
  | lwl => exact hc.elim
  | lwr => exact hc.elim
  | swl => exact hc.elim
  | swr => exact hc.elim

end switch

end Nachos.Machine
