import Nachos.IndexNumerals

/-!
# The MIPS I architecture

The integer instructions of a little-endian MIPS I processor without coprocessors:
the opcode map, what every instruction computes, one branch delay slot and one load
delay slot. Memory is a parameter, a `Bus` whose accesses may end in an exception.

In state `c`, `c.npc` is the address of the delay slot of the instruction at `c.pc`.
A load is pending for one instruction and reaches its register behind what that
instruction writes. Results are given as integers wherever the architecture speaks of
numbers; the reserved cases of the architecture manual are left to `Predictable`.
-/
namespace Nachos.MipsI

abbrev Word := BitVec 32

inductive Mnemonic where
  | add | addi | addiu | addu | and | andi | beq | bgez | bgezal | bgtz | blez | bltz | bltzal | bne
  | div | divu | j | jal | jalr | jr | lb | lbu | lh | lhu | lui | lw | lwl | lwr | mfhi | mflo
  | mthi | mtlo | mult | multu | nor | or | ori | sb | sh | sll | sllv | slt | slti | sltiu | sltu
  | sra | srav | srl | srlv | sub | subu | sw | swl | swr | xor | xori
  deriving DecidableEq, Repr

section fields
variable (w : Word)

def opcode : ℕ := (w.extractLsb' 26 6).toNat

def funct : ℕ := (w.extractLsb' 0 6).toNat

def rs : Fin 32 := (w.extractLsb' 21 5).toFin

def rt : Fin 32 := (w.extractLsb' 16 5).toFin

def rd : Fin 32 := (w.extractLsb' 11 5).toFin

def shamt : ℕ := (w.extractLsb' 6 5).toNat

def imm : BitVec 16 := w.extractLsb' 0 16

def index : BitVec 26 := w.extractLsb' 0 26

end fields

/-- The instructions with opcode 0, by their function. -/
def special : ℕ → Option Mnemonic
  | 0 => some .sll | 2 => some .srl | 3 => some .sra
  | 4 => some .sllv | 6 => some .srlv | 7 => some .srav
  | 8 => some .jr | 9 => some .jalr
  | 16 => some .mfhi | 17 => some .mthi | 18 => some .mflo | 19 => some .mtlo
  | 24 => some .mult | 25 => some .multu | 26 => some .div | 27 => some .divu
  | 32 => some .add | 33 => some .addu | 34 => some .sub | 35 => some .subu
  | 36 => some .and | 37 => some .or | 38 => some .xor | 39 => some .nor
  | 42 => some .slt | 43 => some .sltu
  | _ => none

/-- The branches with opcode 1, by the field `rt`. -/
def bcond : ℕ → Option Mnemonic
  | 0 => some .bltz | 1 => some .bgez | 16 => some .bltzal | 17 => some .bgezal
  | _ => none

def primary : ℕ → Option Mnemonic
  | 2 => some .j | 3 => some .jal
  | 4 => some .beq | 5 => some .bne | 6 => some .blez | 7 => some .bgtz
  | 8 => some .addi | 9 => some .addiu | 10 => some .slti | 11 => some .sltiu
  | 12 => some .andi | 13 => some .ori | 14 => some .xori | 15 => some .lui
  | 32 => some .lb | 33 => some .lh | 34 => some .lwl | 35 => some .lw
  | 36 => some .lbu | 37 => some .lhu | 38 => some .lwr
  | 40 => some .sb | 41 => some .sh | 42 => some .swl | 43 => some .sw | 46 => some .swr
  | _ => none

/-- The instruction of a word, if it has one that does not trap by itself. -/
def decode (w : Word) : Option Mnemonic :=
  if opcode w = 0 then special (funct w)
  else if opcode w = 1 then bcond (rt w)
  else primary (opcode w)

/-- `load` is the register of the pending load, which is 0 when there is none, and its value. -/
structure Cpu where
  gpr : Fin 32 → Word
  hi : Word
  lo : Word
  pc : Word
  npc : Word
  load : Fin 32 × Word
  gpr_zero : gpr 0 = 0

/-- A memory: `read n` and `write n` access `n` bytes, the low one first. -/
structure Bus (M E : Type) where
  read : (n : ℕ) → M → Word → Except E (BitVec (8 * n) × M)
  write : (n : ℕ) → M → Word → BitVec (8 * n) → Except E M
  addressError : E
  overflow : E

/-- What an instruction does; `write` is the register written and its new value. -/
structure Effect (M : Type) where
  write : Fin 32 × Word
  hi : Word
  lo : Word
  npc : Word
  load : Fin 32 × Word
  mem : M

/-- The integers that a register can hold. -/
def Fits (z : ℤ) : Prop := -2 ^ 31 ≤ z ∧ z < 2 ^ 31

instance (z : ℤ) : Decidable (Fits z) := inferInstanceAs (Decidable (_ ∧ _))

/-- `k` bytes in the high or in the low end of a word, with the rest of another word. -/
def toHighEnd {k : ℕ} (v : BitVec (8 * k)) (old : Word) : Word :=
  (v.zeroExtend 32 <<< (32 - 8 * k)) ||| (old &&& (BitVec.allOnes 32 >>> (8 * k)))

def toLowEnd {k : ℕ} (v : BitVec (8 * k)) (old : Word) : Word :=
  v.zeroExtend 32 ||| (old &&& (BitVec.allOnes 32 <<< (8 * k)))

section semantics
variable {M E : Type} (bus : Bus M E) (w : Word) (c : Cpu) (mem : M)

/-- The contents of the registers that the fields name. -/
abbrev rsVal : Word := c.gpr (rs w)

abbrev rtVal : Word := c.gpr (rt w)

def linear : Effect M := ⟨(0, 0#32), c.hi, c.lo, c.npc + 4#32, (0, 0#32), mem⟩

def writes (r : Fin 32) (v : Word) : Except E (Effect M) := .ok { linear c mem with write := (r, v) }

def writesHiLo (hi lo : Word) : Except E (Effect M) := .ok { linear c mem with hi := hi, lo := lo }

/-- A result that is an integer and traps when no register can hold it. -/
def writesInt (r : Fin 32) (z : ℤ) : Except E (Effect M) :=
  if Fits z then writes c mem r (BitVec.ofInt 32 z) else .error bus.overflow

def branches (taken : Prop) [Decidable taken] : Effect M :=
  if taken then { linear c mem with npc := c.npc + (imm w).signExtend 32 <<< 2 } else linear c mem

/-- The return address: the instruction behind the delay slot. -/
def link (r : Fin 32) (e : Effect M) : Effect M := { e with write := (r, c.npc + 4#32) }

/-- The address of a load or store. -/
def effective : Word := rsVal w c + (imm w).signExtend 32

def loads (n : ℕ) (extend : BitVec (8 * n) → Word) : Except E (Effect M) :=
  if (effective w c).toNat % n ≠ 0 then .error bus.addressError
  else (bus.read n mem (effective w c)).map fun r =>
    { linear c r.2 with load := (rt w, extend r.1) }

def stores (n : ℕ) : Except E (Effect M) :=
  if (effective w c).toNat % n ≠ 0 then .error bus.addressError
  else (bus.write n mem (effective w c) ((rtVal w c).setWidth (8 * n))).map (linear c)

/-- The value that a partial load completes: a pending load of its register is seen. -/
def old : Word := if c.load.1 = rt w then c.load.2 else rtVal w c

/-- The byte of the addressed word, and the word's address. -/
def byteInWord : ℕ := (effective w c).toNat % 4

def wordAddress : Word := effective w c &&& ~~~3#32

/-- What an instruction computes. -/
def exec : Mnemonic → Except E (Effect M)
  | .add => writesInt bus c mem (rd w) ((rsVal w c).toInt + (rtVal w c).toInt)
  | .addi => writesInt bus c mem (rt w) ((rsVal w c).toInt + (imm w).toInt)
  | .sub => writesInt bus c mem (rd w) ((rsVal w c).toInt - (rtVal w c).toInt)
  | .addiu => writes c mem (rt w) (rsVal w c + (imm w).signExtend 32)
  | .addu => writes c mem (rd w) (rsVal w c + rtVal w c)
  | .subu => writes c mem (rd w) (rsVal w c - rtVal w c)
  | .and => writes c mem (rd w) (rsVal w c &&& rtVal w c)
  | .or => writes c mem (rd w) (rsVal w c ||| rtVal w c)
  | .xor => writes c mem (rd w) (rsVal w c ^^^ rtVal w c)
  | .nor => writes c mem (rd w) (~~~(rsVal w c ||| rtVal w c))
  | .andi => writes c mem (rt w) (rsVal w c &&& (imm w).zeroExtend 32)
  | .ori => writes c mem (rt w) (rsVal w c ||| (imm w).zeroExtend 32)
  | .xori => writes c mem (rt w) (rsVal w c ^^^ (imm w).zeroExtend 32)
  | .lui => writes c mem (rt w) (imm w ++ 0#16)
  | .sll => writes c mem (rd w) (rtVal w c <<< shamt w)
  | .srl => writes c mem (rd w) (rtVal w c >>> shamt w)
  | .sra => writes c mem (rd w) ((rtVal w c).sshiftRight (shamt w))
  | .sllv => writes c mem (rd w) (rtVal w c <<< ((rsVal w c).toNat % 32))
  | .srlv => writes c mem (rd w) (rtVal w c >>> ((rsVal w c).toNat % 32))
  | .srav => writes c mem (rd w) ((rtVal w c).sshiftRight ((rsVal w c).toNat % 32))
  | .slt => writes c mem (rd w) (if (rsVal w c).toInt < (rtVal w c).toInt then 1 else 0)
  | .sltu => writes c mem (rd w) (if (rsVal w c).toNat < (rtVal w c).toNat then 1 else 0)
  | .slti => writes c mem (rt w) (if (rsVal w c).toInt < (imm w).toInt then 1 else 0)
  | .sltiu => writes c mem (rt w)
      (if (rsVal w c).toNat < ((imm w).signExtend 32).toNat then 1 else 0)
  | .mult =>
    let p := BitVec.ofInt 64 ((rsVal w c).toInt * (rtVal w c).toInt)
    writesHiLo c mem (p.extractLsb' 32 32) (p.extractLsb' 0 32)
  | .multu =>
    let p := BitVec.ofNat 64 ((rsVal w c).toNat * (rtVal w c).toNat)
    writesHiLo c mem (p.extractLsb' 32 32) (p.extractLsb' 0 32)
  | .div => writesHiLo c mem (BitVec.ofInt 32 ((rsVal w c).toInt.tmod (rtVal w c).toInt))
      (BitVec.ofInt 32 ((rsVal w c).toInt.tdiv (rtVal w c).toInt))
  | .divu => writesHiLo c mem (BitVec.ofNat 32 ((rsVal w c).toNat % (rtVal w c).toNat))
      (BitVec.ofNat 32 ((rsVal w c).toNat / (rtVal w c).toNat))
  | .mfhi => writes c mem (rd w) c.hi
  | .mflo => writes c mem (rd w) c.lo
  | .mthi => writesHiLo c mem (rsVal w c) c.lo
  | .mtlo => writesHiLo c mem c.hi (rsVal w c)
  | .beq => .ok (branches w c mem (rsVal w c = rtVal w c))
  | .bne => .ok (branches w c mem (rsVal w c ≠ rtVal w c))
  | .blez => .ok (branches w c mem ((rsVal w c).toInt ≤ 0))
  | .bgtz => .ok (branches w c mem (0 < (rsVal w c).toInt))
  | .bltz => .ok (branches w c mem ((rsVal w c).toInt < 0))
  | .bgez => .ok (branches w c mem (0 ≤ (rsVal w c).toInt))
  | .bltzal => .ok (link c 31 (branches w c mem ((rsVal w c).toInt < 0)))
  | .bgezal => .ok (link c 31 (branches w c mem (0 ≤ (rsVal w c).toInt)))
  | .j => .ok { linear c mem with npc := c.npc.extractLsb' 28 4 ++ index w ++ 0#2 }
  | .jal => .ok (link c 31 { linear c mem with npc := c.npc.extractLsb' 28 4 ++ index w ++ 0#2 })
  | .jr => .ok { linear c mem with npc := rsVal w c }
  | .jalr => .ok (link c (rd w) { linear c mem with npc := rsVal w c })
  | .lb => loads bus w c mem 1 (BitVec.signExtend 32)
  | .lbu => loads bus w c mem 1 (BitVec.zeroExtend 32)
  | .lh => loads bus w c mem 2 (BitVec.signExtend 32)
  | .lhu => loads bus w c mem 2 (BitVec.zeroExtend 32)
  | .lw => loads bus w c mem 4 (BitVec.zeroExtend 32)
  | .sb => stores bus w c mem 1
  | .sh => stores bus w c mem 2
  | .sw => stores bus w c mem 4
  -- the bytes up to the addressed one go to the high end of the register
  | .lwl =>
    let k := byteInWord w c + 1
    (bus.read k mem (wordAddress w c)).map fun r => { linear c r.2 with
      load := (rt w, toHighEnd r.1 (old w c)) }
  -- and those from the addressed one on to its low end
  | .lwr =>
    let k := 4 - byteInWord w c
    (bus.read k mem (effective w c)).map fun r => { linear c r.2 with
      load := (rt w, toLowEnd r.1 (old w c)) }
  | .swl =>
    let k := byteInWord w c + 1
    (bus.write k mem (wordAddress w c) ((rtVal w c >>> (32 - 8 * k)).setWidth (8 * k))).map (linear c)
  | .swr =>
    let k := 4 - byteInWord w c
    (bus.write k mem (effective w c) ((rtVal w c).setWidth (8 * k))).map (linear c)

/-- The processor behind an instruction: its result, then the load that was pending. -/
def Cpu.after (e : Effect M) : Cpu where
  gpr := Function.update
    (Function.update (Function.update c.gpr e.write.1 e.write.2) c.load.1 c.load.2) 0 0
  hi := e.hi
  lo := e.lo
  pc := c.npc
  npc := e.npc
  load := e.load
  gpr_zero := by simp

def step (op : Mnemonic) : Except E (Cpu × M) :=
  (exec bus w c mem op).map fun e => (c.after e, e.mem)

/-- The cases in which the architecture leaves the result open, and unaligned partial words. -/
def Predictable : Mnemonic → Prop
  | .jalr => rd w ≠ rs w
  | .bltzal | .bgezal => rs w ≠ 31
  | .div => rtVal w c ≠ 0#32 ∧ ¬((rsVal w c).toInt = -2 ^ 31 ∧ (rtVal w c).toInt = -1)
  | .divu => rtVal w c ≠ 0#32
  | .lwl | .lwr | .swl | .swr => byteInWord w c = 0
  | _ => True

end semantics

end Nachos.MipsI
