import Nachos.MipsArithmetic

/-!
# Decoding

`Instruction::Decode` with its two tables finds the instruction that the opcode map of
the architecture gives, its three registers, and the immediate in the form of the
instruction's format.
-/
namespace Nachos.Machine

/-- The operation code of an instruction, and the format of its fields. -/
def OpCode.ofMnemonic : MipsI.Mnemonic → OpCode
  | .add => .add | .addi => .addi | .addiu => .addiu | .addu => .addu | .and => .and
  | .andi => .andi | .beq => .beq | .bgez => .bgez | .bgezal => .bgezal | .bgtz => .bgtz
  | .blez => .blez | .bltz => .bltz | .bltzal => .bltzal | .bne => .bne | .div => .div
  | .divu => .divu | .j => .j | .jal => .jal | .jalr => .jalr | .jr => .jr | .lb => .lb
  | .lbu => .lbu | .lh => .lh | .lhu => .lhu | .lui => .lui | .lw => .lw | .lwl => .lwl
  | .lwr => .lwr | .mfhi => .mfhi | .mflo => .mflo | .mthi => .mthi | .mtlo => .mtlo
  | .mult => .mult | .multu => .multu | .nor => .nor | .or => .or | .ori => .ori | .sb => .sb
  | .sh => .sh | .sll => .sll | .sllv => .sllv | .slt => .slt | .slti => .slti | .sltiu => .sltiu
  | .sltu => .sltu | .sra => .sra | .srav => .srav | .srl => .srl | .srlv => .srlv | .sub => .sub
  | .subu => .subu | .sw => .sw | .swl => .swl | .swr => .swr | .xor => .xor | .xori => .xori

def Format.ofMnemonic : MipsI.Mnemonic → Format
  | .j | .jal => .jfmt
  | .add | .addu | .and | .div | .divu | .jalr | .jr | .mfhi | .mflo | .mthi | .mtlo | .mult | .multu
  | .nor | .or | .sll | .sllv | .slt | .sltu | .sra | .srav | .srl | .srlv | .sub | .subu
  | .xor => .rfmt
  | _ => .ifmt

theorem specialTable_spec : ∀ k < 64, ∀ op, MipsI.special k = some op →
    specialTable.getD k .res = .ofMnemonic op ∧ Format.ofMnemonic op = .rfmt := by
  decide

theorem opTable_spec : ∀ k < 64, ∀ op, MipsI.primary k = some op →
    opTable.getD k (.res, .ifmt) = (.ofMnemonic op, .ofMnemonic op) := by
  decide

theorem opField_eq (w : Word) : (w >>> 26 &&& 0x3f#32).toNat = MipsI.opcode w := by
  rw [MipsI.opcode, BitVec.toNat_and, BitVec.toNat_ushiftRight, BitVec.extractLsb'_toNat]
  exact Nat.and_two_pow_sub_one_eq_mod _ 6

theorem functField_eq (w : Word) : (w &&& 0x3f#32).toNat = MipsI.funct w := by
  rw [MipsI.funct, BitVec.toNat_and, BitVec.extractLsb'_toNat]
  exact Nat.and_two_pow_sub_one_eq_mod _ 6

theorem condField_eq (w : Word) : w &&& 0x1f0000#32 = BitVec.ofNat 32 (MipsI.rt w * 2 ^ 16) := by
  have hrt : ((MipsI.rt w : Fin 32) : ℕ) = w.toNat / 2 ^ 16 % 2 ^ 5 := by
    rw [MipsI.rt, BitVec.val_toFin, BitVec.extractLsb'_toNat, Nat.shiftRight_eq_div_pow]
  have hmask : w &&& 0x1f0000#32 = (w >>> 16 &&& 0x1f#32) <<< 16 := by
    apply BitVec.eq_of_getLsbD_eq
    intro i hi
    rw [show 0x1f0000#32 = 0x1f#32 <<< 16 from rfl]
    simp only [BitVec.getLsbD_and, BitVec.getLsbD_shiftLeft, BitVec.getLsbD_ushiftRight, hi]
    by_cases h16 : i < 16
    · simp [h16]
    · simp [h16, show 16 + (i - 16) = i by omega]
  apply BitVec.eq_of_toNat_eq
  rw [hmask, hrt, BitVec.toNat_shiftLeft, and_mask_five, BitVec.toNat_ushiftRight,
    BitVec.toNat_ofNat, Nat.shiftLeft_eq, Nat.shiftRight_eq_div_pow]
  rfl

theorem condField_spec (k : Fin 32) {op : MipsI.Mnemonic} (h : MipsI.bcond k = some op) :
    (let i := BitVec.ofNat 32 (k * 2 ^ 16)
     if i = 0#32 then OpCode.bltz
      else if i = 0x10000#32 then .bgez
      else if i = 0x100000#32 then .bltzal
      else if i = 0x110000#32 then .bgezal
      else .unimp) = .ofMnemonic op ∧ Format.ofMnemonic op = .ifmt := by
  revert k op
  decide

theorem decode_eq {w : Word} {op : MipsI.Mnemonic} (h : MipsI.decode w = some op) :
    Instruction.decode w =
      ⟨.ofMnemonic op, MipsI.rs w, MipsI.rt w, MipsI.rd w, extraField w (.ofMnemonic op)⟩ := by
  rw [Instruction.decode, opField_eq, functField_eq, condField_eq, regField_eq, regField_eq,
    regField_eq]
  have hlt : MipsI.opcode w < 64 := BitVec.isLt _
  rw [MipsI.decode] at h
  split_ifs at h with h0 h1
  · obtain ⟨hop, hfmt⟩ := specialTable_spec _ (BitVec.isLt _) op h
    rw [h0, hfmt, ← hop]
    rfl
  · obtain ⟨hop, hfmt⟩ := condField_spec _ h
    rw [h1, hfmt, ← hop]
    rfl
  · rw [opTable_spec _ hlt op h]
    cases op <;> rfl

end Nachos.Machine
