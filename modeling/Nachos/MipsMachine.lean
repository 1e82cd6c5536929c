import Nachos.AddressTranslation
import Nachos.ByteMemory

/-!
# The simulated processor (`machine/mipssim.cc`)

The machine has forty registers: the general ones, `HI` and `LO`, the program
counters, the load that the previous instruction left pending, and the address
of the last exception. `execute` is the switch of `OneInstruction`, one case for
every operation code; what it leaves in local variables is its `Effect`. An
instruction ends with its effect, in an exception, which is recorded with the
state in which the kernel's handler is entered, or in a failed assertion.

The host is little-endian, and a `char` is signed. An index behind the end of the
registers, which only a bad value of `LoadReg` can give, counts as a failure too.
-/
namespace Nachos.Machine
open ByteMemory

abbrev Reg := Fin 40

abbrev hiReg : Reg := 32

abbrev loReg : Reg := 33

abbrev pcReg : Reg := 34

abbrev nextPCReg : Reg := 35

abbrev prevPCReg : Reg := 36

abbrev loadReg : Reg := 37

abbrev loadValueReg : Reg := 38

abbrev badVAddrReg : Reg := 39

abbrev stackReg : Reg := 29

abbrev signBit : Word := 0x80000000#32

/-- A general register. -/
abbrev gp (r : Fin 32) : Reg := r.castLE (by decide)

theorem gp_ne {r : Fin 32} {k : Reg} (hk : 32 ≤ (k : ℕ)) : gp r ≠ k := by
  intro h
  have := r.isLt
  rw [← h] at hk
  simp at hk
  omega

theorem gp_ne_gp {r r' : Fin 32} (h : r ≠ r') : gp r ≠ gp r' := fun hgp =>
  h (Fin.castLE_injective _ hgp)

theorem gp_ne_zero {r : Fin 32} (h : r ≠ 0) : gp r ≠ 0 := gp_ne_gp h

structure State where
  registers : Reg → Word
  mainMemory : Memory
  pageTable : PageTable

def State.set (m : State) (r : Reg) (v : Word) : State :=
  { m with registers := Function.update m.registers r v }

@[simp] theorem State.set_self (m : State) (r : Reg) (v : Word) : (m.set r v).registers r = v :=
  Function.update_self _ _ _

theorem State.set_of_ne (m : State) {r k : Reg} (v : Word) (h : k ≠ r) :
    (m.set r v).registers k = m.registers k :=
  Function.update_of_ne h _ _

/-- How a part of an instruction can end before its time. -/
inductive Fault where
  | exception (which : ExceptionType) (badVAddr : Word) (m : State)
  | failure

/-- The `size` bytes at a physical address as a number; a single byte is a signed `char`. -/
def loadBytes (memory : Memory) (a size : ℕ) : Word :=
  match size with
  | 1 => (memory a).signExtend 32
  | 2 => (memory (a + 1) ++ memory a).zeroExtend 32
  | _ => word memory a

def storeBytes (memory : Memory) (a size : ℕ) (value : Word) : Memory := fun p =>
  if a ≤ p ∧ p < a + size then byteOf value (p - a) else memory p

namespace State

def readMem (m : State) (addr : Word) (size : ℕ) : Except Fault (Word × State) :=
  match translate m.pageTable addr size false with
  | .error e => .error (.exception e addr m)
  | .ok (p, pageTable) => .ok (loadBytes m.mainMemory p.toNat size, { m with pageTable := pageTable })

def writeMem (m : State) (addr : Word) (size : ℕ) (value : Word) : Except Fault State :=
  match translate m.pageTable addr size true with
  | .error e => .error (.exception e addr m)
  | .ok (p, pageTable) => .ok { m with
      mainMemory := storeBytes m.mainMemory p.toNat size value
      pageTable := pageTable }

/-- `DelayedLoad` -/
def delayedLoad (m : State) (nextReg nextValue : Word) : Option State :=
  if h : (m.registers loadReg).toNat < 40 then
    some ((((m.set ⟨_, h⟩ (m.registers loadValueReg)).set loadReg nextReg).set loadValueReg
      nextValue).set 0 0)
  else none

theorem readMem_registers {m m' : State} {a v : Word} {n : ℕ} (h : m.readMem a n = .ok (v, m')) :
    m'.registers = m.registers := by
  rw [State.readMem] at h
  cases ht : translate m.pageTable a n false with
  | error e => simp [ht] at h
  | ok r =>
    simp only [ht, Except.ok.injEq, Prod.mk.injEq] at h
    rw [← h.2]

end State

/-- The operation codes of `mipssim.h`. -/
inductive OpCode where
  | add | addi | addiu | addu | and | andi | beq | bgez | bgezal | bgtz | blez | bltz | bltzal | bne
  | div | divu | j | jal | jalr | jr | lb | lbu | lh | lhu | lui | lw | lwl | lwr | mfhi | mflo
  | mthi | mtlo | mult | multu | nor | or | ori | sb | sh | sll | sllv | slt | slti | sltiu | sltu
  | sra | srav | srl | srlv | sub | subu | sw | swl | swr | xor | xori | syscall | unimp | res
  | special | bcond
  deriving DecidableEq, Repr

inductive Format where
  | ifmt
  | jfmt
  | rfmt
  deriving DecidableEq, Repr

def opTable : List (OpCode × Format) :=
  [(.special, .rfmt), (.bcond, .ifmt), (.j, .jfmt), (.jal, .jfmt),
   (.beq, .ifmt), (.bne, .ifmt), (.blez, .ifmt), (.bgtz, .ifmt),
   (.addi, .ifmt), (.addiu, .ifmt), (.slti, .ifmt), (.sltiu, .ifmt),
   (.andi, .ifmt), (.ori, .ifmt), (.xori, .ifmt), (.lui, .ifmt),
   (.unimp, .ifmt), (.unimp, .ifmt), (.unimp, .ifmt), (.unimp, .ifmt),
   (.res, .ifmt), (.res, .ifmt), (.res, .ifmt), (.res, .ifmt),
   (.res, .ifmt), (.res, .ifmt), (.res, .ifmt), (.res, .ifmt),
   (.res, .ifmt), (.res, .ifmt), (.res, .ifmt), (.res, .ifmt),
   (.lb, .ifmt), (.lh, .ifmt), (.lwl, .ifmt), (.lw, .ifmt),
   (.lbu, .ifmt), (.lhu, .ifmt), (.lwr, .ifmt), (.res, .ifmt),
   (.sb, .ifmt), (.sh, .ifmt), (.swl, .ifmt), (.sw, .ifmt),
   (.res, .ifmt), (.res, .ifmt), (.swr, .ifmt), (.res, .ifmt),
   (.unimp, .ifmt), (.unimp, .ifmt), (.unimp, .ifmt), (.unimp, .ifmt),
   (.res, .ifmt), (.res, .ifmt), (.res, .ifmt), (.res, .ifmt),
   (.unimp, .ifmt), (.unimp, .ifmt), (.unimp, .ifmt), (.unimp, .ifmt),
   (.res, .ifmt), (.res, .ifmt), (.res, .ifmt), (.res, .ifmt)]

def specialTable : List OpCode :=
  [.sll, .res, .srl, .sra, .sllv, .res, .srlv, .srav,
   .jr, .jalr, .res, .res, .syscall, .unimp, .res, .res,
   .mfhi, .mthi, .mflo, .mtlo, .res, .res, .res, .res,
   .mult, .multu, .div, .divu, .res, .res, .res, .res,
   .add, .addu, .sub, .subu, .and, .or, .xor, .nor,
   .res, .res, .slt, .sltu, .res, .res, .res, .res,
   .res, .res, .res, .res, .res, .res, .res, .res,
   .res, .res, .res, .res, .res, .res, .res, .res]

structure Instruction where
  opCode : OpCode
  rs : Fin 32
  rt : Fin 32
  rd : Fin 32
  extra : Word
  deriving DecidableEq, Repr

/-- `(value >> n) & 0x1f` -/
def regField (value : Word) (n : ℕ) : Fin 32 :=
  ⟨(value >>> n &&& 0x1f#32).toNat, by
    rw [BitVec.toNat_and]
    exact Nat.and_lt_two_pow _ (n := 5) (by decide)⟩

/-- The field `extra` for each format. -/
def extraField (value : Word) : Format → Word
  | .ifmt =>
    let extra := value &&& 0xffff#32
    if extra &&& 0x8000#32 ≠ 0#32 then extra ||| 0xffff0000#32 else extra
  | .rfmt => value >>> 6 &&& 0x1f#32
  | .jfmt => value &&& 0x3ffffff#32

/-- `Instruction::Decode` -/
def Instruction.decode (value : Word) : Instruction :=
  let op := opTable.getD (value >>> 26 &&& 0x3f#32).toNat (.res, .ifmt)
  let opCode :=
    match op.1 with
    | .special => specialTable.getD (value &&& 0x3f#32).toNat .res
    | .bcond =>
      let i := value &&& 0x1f0000#32
      if i = 0#32 then .bltz
      else if i = 0x10000#32 then .bgez
      else if i = 0x100000#32 then .bltzal
      else if i = 0x110000#32 then .bgezal
      else .unimp
    | code => code
  ⟨opCode, regField value 21, regField value 16, regField value 11, extraField value op.2⟩

/-- The loop of `Mult`; the result is `hi` and `lo`. -/
def multLoop : ℕ → (a bLo bHi lo hi : Word) → Word × Word
  | 0, _, _, _, lo, hi => (hi, lo)
  | n + 1, a, bLo, bHi, lo, hi =>
    let bHi' := bHi <<< 1 ||| (if bLo &&& signBit ≠ 0#32 then 1#32 else 0#32)
    let bLo' := bLo <<< 1
    let a' := a.sshiftRight 1
    if a &&& 1#32 ≠ 0#32 then
      let lo' := lo + bLo
      let hi' := (if lo' < bLo then hi + 1#32 else hi) + bHi
      if a &&& 0xfffffffe#32 = 0#32 then (hi', lo') else multLoop n a' bLo' bHi' lo' hi'
    else multLoop n a' bLo' bHi' lo hi

/-- `Mult`: the words for `HI` and `LO`. -/
def mult (a b : Word) (signedArith : Bool) : Word × Word :=
  if a = 0#32 ∨ b = 0#32 then (0#32, 0#32)
  else
    let negA := signedArith && a.slt 0#32
    let negB := signedArith && b.slt 0#32
    let r := multLoop 32 (if negA then -a else a) (if negB then -b else b) 0#32 0#32 0#32
    if negA != negB then
      let lo := ~~~r.2 + 1#32
      (if lo = 0#32 then ~~~r.1 + 1#32 else ~~~r.1, lo)
    else r

/-- The machine after the switch, with the local variables that are used behind it. -/
structure Effect where
  m : State
  pcAfter : Word
  nextLoadReg : Word
  nextLoadValue : Word

section execute
variable (i : Instruction) (m : State)

/-- An instruction without a branch and without a load. -/
def goOn (m' : State) : Except Fault Effect := .ok ⟨m', m.registers nextPCReg + 4#32, 0#32, 0#32⟩

/-- `pcAfter = registers[NextPCReg] + IndexToAddr(instr->extra)` under a condition. -/
def branch (m' : State) (taken : Bool) : Except Fault Effect :=
  .ok ⟨m', if taken then m'.registers nextPCReg + i.extra <<< 2 else m.registers nextPCReg + 4#32,
    0#32, 0#32⟩

def jump (m' : State) (target : Word) : Except Fault Effect := .ok ⟨m', target, 0#32, 0#32⟩

/-- The address `registers[instr->rs] + instr->extra`. -/
def address : Word := m.registers (gp i.rs) + i.extra

/-- A load; `convert` makes the register's value from the one that was read. -/
def load (size : ℕ) (convert : Word → Word) : Except Fault Effect :=
  (m.readMem (address i m) size).map fun r =>
    ⟨r.2, m.registers nextPCReg + 4#32, (i.rt : ℕ), convert r.1⟩

def store (size : ℕ) : Except Fault Effect :=
  (m.writeMem (address i m) size (m.registers (gp i.rt))).map fun m' =>
    ⟨m', m.registers nextPCReg + 4#32, 0#32, 0#32⟩

/-- `LWL` and `LWR`: the merge with the register, or with the load pending for it. -/
def loadPart (merge : Word → Word → Word → Word) : Except Fault Effect :=
  let tmp := address i m
  if tmp &&& 3#32 ≠ 0#32 then .error .failure
  else
    (m.readMem tmp 4).map fun r =>
      let old := if r.2.registers loadReg = ((i.rt : ℕ) : Word) then r.2.registers loadValueReg
        else r.2.registers (gp i.rt)
      ⟨r.2, m.registers nextPCReg + 4#32, (i.rt : ℕ), merge (tmp &&& 3#32) old r.1⟩

/-- `SWL` and `SWR`: the word is read, merged with the register and written. -/
def storePart (merge : Word → Word → Word → Word) : Except Fault Effect :=
  let tmp := address i m
  if tmp &&& 3#32 ≠ 0#32 then .error .failure
  else
    (m.readMem (tmp &&& ~~~3#32) 4).bind fun r =>
    (r.2.writeMem (tmp &&& ~~~3#32) 4 (merge (tmp &&& 3#32) (m.registers (gp i.rt)) r.1)).map
      fun m' => ⟨m', m.registers nextPCReg + 4#32, 0#32, 0#32⟩

end execute

/-- The switch of `OneInstruction`. -/
def execute (i : Instruction) (m : State) : Except Fault Effect :=
  let rs := m.registers (gp i.rs)
  let rt := m.registers (gp i.rt)
  let next := m.registers nextPCReg
  match i.opCode with
  | .add =>
    let sum := rs + rt
    if (rs ^^^ rt) &&& signBit = 0#32 ∧ (rs ^^^ sum) &&& signBit ≠ 0#32 then
      .error (.exception .overflow 0 m)
    else goOn m (m.set (gp i.rd) sum)
  | .addi =>
    let sum := rs + i.extra
    if (rs ^^^ i.extra) &&& signBit = 0#32 ∧ (i.extra ^^^ sum) &&& signBit ≠ 0#32 then
      .error (.exception .overflow 0 m)
    else goOn m (m.set (gp i.rt) sum)
  | .addiu => goOn m (m.set (gp i.rt) (rs + i.extra))
  | .addu => goOn m (m.set (gp i.rd) (rs + rt))
  | .and => goOn m (m.set (gp i.rd) (rs &&& rt))
  | .andi => goOn m (m.set (gp i.rt) (rs &&& (i.extra &&& 0xffff#32)))
  | .beq => branch i m m (rs = rt)
  | .bgezal =>
    let m' := m.set (gp 31) (next + 4#32)
    branch i m m' (m'.registers (gp i.rs) &&& signBit = 0#32)
  | .bgez => branch i m m (rs &&& signBit = 0#32)
  | .bgtz => branch i m m (BitVec.slt 0#32 rs)
  | .blez => branch i m m (rs.sle 0#32)
  | .bltzal =>
    let m' := m.set (gp 31) (next + 4#32)
    branch i m m' (m'.registers (gp i.rs) &&& signBit ≠ 0#32)
  | .bltz => branch i m m (rs &&& signBit ≠ 0#32)
  | .bne => branch i m m (rs ≠ rt)
  | .div =>
    if rt = 0#32 then goOn m ((m.set loReg 0#32).set hiReg 0#32)
    else goOn m ((m.set loReg (rs.sdiv rt)).set hiReg (rs.srem rt))
  | .divu =>
    if rt = 0#32 then goOn m ((m.set loReg 0#32).set hiReg 0#32)
    else goOn m ((m.set loReg (rs / rt)).set hiReg (rs % rt))
  | .jal =>
    jump (m.set (gp 31) (next + 4#32)) ((next + 4#32) &&& 0xf0000000#32 ||| i.extra <<< 2)
  | .j => jump m ((next + 4#32) &&& 0xf0000000#32 ||| i.extra <<< 2)
  | .jalr =>
    let m' := m.set (gp i.rd) (next + 4#32)
    jump m' (m'.registers (gp i.rs))
  | .jr => jump m rs
  | .lb => load i m 1 fun v =>
      if v &&& 0x80#32 ≠ 0#32 then v ||| 0xffffff00#32 else v &&& 0xff#32
  | .lbu => load i m 1 fun v => v &&& 0xff#32
  | .lh =>
    if address i m &&& 1#32 ≠ 0#32 then .error (.exception .addressError (address i m) m)
    else load i m 2 fun v =>
      if v &&& 0x8000#32 ≠ 0#32 then v ||| 0xffff0000#32 else v &&& 0xffff#32
  | .lhu =>
    if address i m &&& 1#32 ≠ 0#32 then .error (.exception .addressError (address i m) m)
    else load i m 2 fun v => v &&& 0xffff#32
  | .lui => goOn m (m.set (gp i.rt) (i.extra <<< 16))
  | .lw =>
    if address i m &&& 3#32 ≠ 0#32 then .error (.exception .addressError (address i m) m)
    else load i m 4 id
  | .lwl => loadPart i m fun k old v =>
      if k = 0#32 then v
      else if k = 1#32 then old &&& 0xff#32 ||| v <<< 8
      else if k = 2#32 then old &&& 0xffff#32 ||| v <<< 16
      else old &&& 0xffffff#32 ||| v <<< 24
  | .lwr => loadPart i m fun k old v =>
      if k = 0#32 then old &&& 0xffffff00#32 ||| v.sshiftRight 24 &&& 0xff#32
      else if k = 1#32 then old &&& 0xffff0000#32 ||| v.sshiftRight 16 &&& 0xffff#32
      else if k = 2#32 then old &&& 0xff000000#32 ||| v.sshiftRight 8 &&& 0xffffff#32
      else v
  | .mfhi => goOn m (m.set (gp i.rd) (m.registers hiReg))
  | .mflo => goOn m (m.set (gp i.rd) (m.registers loReg))
  | .mthi => goOn m (m.set hiReg rs)
  | .mtlo => goOn m (m.set loReg rs)
  | .mult => goOn m ((m.set hiReg (mult rs rt true).1).set loReg (mult rs rt true).2)
  | .multu => goOn m ((m.set hiReg (mult rs rt false).1).set loReg (mult rs rt false).2)
  | .nor => goOn m (m.set (gp i.rd) (~~~(rs ||| rt)))
  | .or => goOn m (m.set (gp i.rd) (rs ||| rs))
  | .ori => goOn m (m.set (gp i.rt) (rs ||| (i.extra &&& 0xffff#32)))
  | .sb => store i m 1
  | .sh => store i m 2
  | .sll => goOn m (m.set (gp i.rd) (rt <<< i.extra))
  | .sllv => goOn m (m.set (gp i.rd) (rt <<< (rs &&& 0x1f#32)))
  | .slt => goOn m (m.set (gp i.rd) (if rs.slt rt then 1#32 else 0#32))
  | .slti => goOn m (m.set (gp i.rt) (if rs.slt i.extra then 1#32 else 0#32))
  | .sltiu => goOn m (m.set (gp i.rt) (if rs < i.extra then 1#32 else 0#32))
  | .sltu => goOn m (m.set (gp i.rd) (if rs < rt then 1#32 else 0#32))
  | .sra => goOn m (m.set (gp i.rd) (rt.sshiftRight' i.extra))
  | .srav => goOn m (m.set (gp i.rd) (rt.sshiftRight' (rs &&& 0x1f#32)))
  | .srl => goOn m (m.set (gp i.rd) (rt.sshiftRight' i.extra))
  | .srlv => goOn m (m.set (gp i.rd) (rt.sshiftRight' (rs &&& 0x1f#32)))
  | .sub =>
    let diff := rs - rt
    if (rs ^^^ rt) &&& signBit ≠ 0#32 ∧ (rs ^^^ diff) &&& signBit ≠ 0#32 then
      .error (.exception .overflow 0 m)
    else goOn m (m.set (gp i.rd) diff)
  | .subu => goOn m (m.set (gp i.rd) (rs - rt))
  | .sw => store i m 4
  | .swl => storePart i m fun k rt v =>
      if k = 0#32 then rt
      else if k = 1#32 then v &&& 0xff000000#32 ||| rt.sshiftRight 8 &&& 0xffffff#32
      else if k = 2#32 then v &&& 0xffff0000#32 ||| rt.sshiftRight 16 &&& 0xffff#32
      else v &&& 0xffffff00#32 ||| rt.sshiftRight 24 &&& 0xff#32
  | .swr => storePart i m fun k rt v =>
      if k = 0#32 then v &&& 0xffffff#32 ||| rt <<< 24
      else if k = 1#32 then v &&& 0xffff#32 ||| rt <<< 16
      else if k = 2#32 then v &&& 0xff#32 ||| rt <<< 8
      else rt
  | .syscall => .error (.exception .syscall 0 m)
  | .xor => goOn m (m.set (gp i.rd) (rs ^^^ rt))
  | .xori => goOn m (m.set (gp i.rt) (rs ^^^ (i.extra &&& 0xffff#32)))
  | .res => .error (.exception .illegalInstr 0 m)
  | .unimp => .error (.exception .illegalInstr 0 m)
  | .special => .error .failure
  | .bcond => .error .failure

/-- `AddrSpace::InitRegisters` -/
def initRegisters (numPages : ℕ) : Reg → Word := fun r =>
  if r = stackReg then BitVec.ofNat 32 (numPages * pageSize) - 16#32
  else if r = nextPCReg then 4#32
  else 0#32

/-- How an instruction ends. -/
inductive Outcome where
  | done (m : State)
  | raised (which : ExceptionType) (m : State)
  | failed

/-- `RaiseException` up to the call of the handler. -/
def Fault.raise : Fault → Outcome
  | .exception which badVAddr m =>
    ((m.set badVAddrReg badVAddr).delayedLoad 0 0).elim .failed fun m => .raised which m
  | .failure => .failed

/-- The end of `OneInstruction`: the delayed load, then the program counters. -/
def Effect.finish (e : Effect) : Option State :=
  (e.m.delayedLoad e.nextLoadReg e.nextLoadValue).map fun m =>
    ((m.set prevPCReg (m.registers pcReg)).set pcReg (m.registers nextPCReg)).set nextPCReg e.pcAfter

def State.fetch (m : State) : Except Fault (Word × State) := m.readMem (m.registers pcReg) 4

def State.oneInstruction (m : State) : Outcome :=
  match m.fetch.bind fun r => execute (Instruction.decode r.1) r.2 with
  | .error f => f.raise
  | .ok e => e.finish.elim .failed .done

/-- The end of an instruction that was tried with this result. -/
def conclude : Except Fault Effect → Outcome
  | .error f => f.raise
  | .ok e => e.finish.elim .failed .done

theorem oneInstruction_eq (m : State) : m.oneInstruction =
    conclude (m.fetch.bind fun r => execute (Instruction.decode r.1) r.2) := rfl

theorem conclude_error (f : Fault) : conclude (.error f) = f.raise := rfl

theorem conclude_ok (e : Effect) : conclude (.ok e) = e.finish.elim .failed .done := rfl

end Nachos.Machine
