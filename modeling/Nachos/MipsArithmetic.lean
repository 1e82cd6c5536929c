import Nachos.MipsMachine
import Nachos.MipsArchitecture

/-!
# The arithmetic of the simulated processor

What the C expressions of `machine/mipssim.cc` compute: the sign tests for overflow,
the fields of an instruction word with their extensions, the values of the loads, and
the multiplication, which adds shifted copies of one factor in two words.
-/
namespace Nachos.Machine

theorem and_twoPow_eq_zero (x : Word) {k : ℕ} (hk : k < 32) :
    x &&& BitVec.twoPow 32 k = 0#32 ↔ x.getLsbD k = false := by
  rw [BitVec.and_twoPow]
  cases x.getLsbD k with
  | false => simp
  | true =>
    have hne : BitVec.twoPow 32 k ≠ 0#32 := by
      intro h
      simpa [BitVec.getLsbD_twoPow, hk] using congrArg (BitVec.getLsbD · k) h
    simp [hne]

theorem and_signBit_eq_zero (x : Word) : x &&& signBit = 0#32 ↔ x.msb = false := by
  rw [show signBit = BitVec.twoPow 32 31 from rfl, and_twoPow_eq_zero x (by decide),
    BitVec.msb_eq_getLsbD_last]

theorem xor_signBit (a b : Word) : (a ^^^ b) &&& signBit = 0#32 ↔ a.msb = b.msb := by
  rw [and_signBit_eq_zero, BitVec.msb_xor]
  simp

/-- The sign test of `ADD`: equal signs, and another one in the sum. -/
theorem add_overflows_iff (a b : Word) :
    ((a ^^^ b) &&& signBit = 0#32 ∧ (a ^^^ (a + b)) &&& signBit ≠ 0#32) ↔
      ¬MipsI.Fits (a.toInt + b.toInt) := by
  have h : a.saddOverflow b = true ↔ a.msb = b.msb ∧ ¬a.msb = (a + b).msb := by
    rw [BitVec.saddOverflow_eq]
    cases a.msb <;> cases b.msb <;> cases (a + b).msb <;> decide
  rw [ne_eq, xor_signBit, xor_signBit, MipsI.Fits, ← h]
  simp only [BitVec.saddOverflow, ge_iff_le, Bool.or_eq_true, decide_eq_true_eq, Nat.reduceSub]
  omega

theorem sub_overflows_iff (a b : Word) :
    ((a ^^^ b) &&& signBit ≠ 0#32 ∧ (a ^^^ (a - b)) &&& signBit ≠ 0#32) ↔
      ¬MipsI.Fits (a.toInt - b.toInt) := by
  have h : a.ssubOverflow b = true ↔ ¬a.msb = b.msb ∧ ¬a.msb = (a - b).msb := by
    rw [BitVec.ssubOverflow_eq]
    cases a.msb <;> cases b.msb <;> cases (a - b).msb <;> decide
  rw [ne_eq, ne_eq, xor_signBit, xor_signBit, MipsI.Fits, ← h]
  simp only [BitVec.ssubOverflow, ge_iff_le, Bool.or_eq_true, decide_eq_true_eq, Nat.reduceSub]
  omega

theorem regField_eq (w : Word) (n : ℕ) : regField w n = (w.extractLsb' n 5).toFin := by
  apply Fin.ext
  show (w >>> n &&& 0x1f#32).toNat = (w.extractLsb' n 5).toNat
  rw [BitVec.toNat_and, BitVec.toNat_ushiftRight, BitVec.extractLsb'_toNat]
  exact Nat.and_two_pow_sub_one_eq_mod _ 5

theorem extraField_rfmt (w : Word) : (extraField w .rfmt).toNat = MipsI.shamt w := by
  rw [extraField, MipsI.shamt, BitVec.toNat_and, BitVec.toNat_ushiftRight, BitVec.extractLsb'_toNat]
  exact Nat.and_two_pow_sub_one_eq_mod _ 5

theorem extraField_jfmt (w : Word) : extraField w .jfmt = (MipsI.index w).zeroExtend 32 := by
  apply BitVec.eq_of_toNat_eq
  have : (MipsI.index w).toNat < 2 ^ 26 := (MipsI.index w).isLt
  rw [extraField, BitVec.toNat_and]
  simp only [BitVec.zeroExtend, BitVec.toNat_setWidth]
  rw [Nat.mod_eq_of_lt (by omega), MipsI.index, BitVec.extractLsb'_toNat]
  exact Nat.and_two_pow_sub_one_eq_mod _ 26

/-- Sign extension from bit `k`, as the source writes it. -/
theorem signExtend_eq {k : ℕ} (hk : k < 32) (w : Word) :
    (if w.getLsbD k then w &&& (BitVec.allOnes (k + 1)).setWidth 32 ||| BitVec.allOnes 32 <<< (k + 1)
      else w &&& (BitVec.allOnes (k + 1)).setWidth 32) = (w.setWidth (k + 1)).signExtend 32 := by
  apply BitVec.eq_of_getLsbD_eq
  intro i hi
  rw [BitVec.getLsbD_signExtend, BitVec.msb_eq_getLsbD_last]
  cases hb : w.getLsbD k with
  | false =>
    simp only [Bool.false_eq_true, if_false, BitVec.getLsbD_and, BitVec.getLsbD_setWidth,
      BitVec.getLsbD_allOnes, hi, decide_true, Bool.true_and]
    by_cases hik : i < k + 1 <;> simp [hik, hb]
  | true =>
    simp only [if_true, BitVec.getLsbD_or, BitVec.getLsbD_and, BitVec.getLsbD_setWidth,
      BitVec.getLsbD_allOnes, BitVec.getLsbD_shiftLeft, hi, decide_true, Bool.true_and]
    by_cases hik : i < k + 1 <;> simp [hik, hb, show i - (k + 1) < 32 by omega]

theorem extraField_ifmt (w : Word) : extraField w .ifmt = (MipsI.imm w).signExtend 32 := by
  have himm : MipsI.imm w = w.setWidth 16 := by
    apply BitVec.eq_of_toNat_eq
    simp [MipsI.imm]
  have hbit : w &&& 0xffff#32 &&& 0x8000#32 = 0#32 ↔ w.getLsbD 15 = false := by
    rw [BitVec.and_assoc]
    exact and_twoPow_eq_zero w (show 15 < 32 by decide)
  rw [himm, ← signExtend_eq (show 15 < 32 by decide) w, extraField]
  cases h : w.getLsbD 15 with
  | false => simp [hbit.2 h]
  | true =>
    have := mt hbit.1 (by simp [h])
    simp [this]

theorem signExtend_and_mask (v : BitVec 16) : v.signExtend 32 &&& 0xffff#32 = v.zeroExtend 32 := by
  apply BitVec.eq_of_getLsbD_eq
  intro i hi
  rw [show 0xffff#32 = (BitVec.allOnes 16).setWidth 32 from rfl, BitVec.getLsbD_and,
    BitVec.getLsbD_signExtend]
  simp only [BitVec.zeroExtend, BitVec.getLsbD_setWidth, BitVec.getLsbD_allOnes, hi, decide_true,
    Bool.true_and]
  by_cases hik : i < 16
  · simp [hik]
  · simp [hik, BitVec.getLsbD_of_ge v i (by omega)]

theorem signExtend_shiftLeft (v : BitVec 16) : v.signExtend 32 <<< 16 = v ++ 0#16 := by
  apply BitVec.eq_of_getLsbD_eq
  intro i hi
  rw [BitVec.getLsbD_shiftLeft, BitVec.getLsbD_append, BitVec.getLsbD_signExtend]
  by_cases hik : i < 16
  · simp [hik]
  · simp [hik, hi, show i - 16 < 32 by omega, show i - 16 < 16 by omega]

theorem jump_target (next : Word) (v : BitVec 26) :
    next &&& 0xf0000000#32 ||| v.zeroExtend 32 <<< 2 = next.extractLsb' 28 4 ++ v ++ 0#2 := by
  apply BitVec.eq_of_getLsbD_eq
  intro i hi
  rw [show 0xf0000000#32 = BitVec.allOnes 32 <<< 28 from rfl, BitVec.getLsbD_append,
    BitVec.getLsbD_append]
  simp only [BitVec.getLsbD_or, BitVec.getLsbD_and, BitVec.getLsbD_shiftLeft,
    BitVec.getLsbD_allOnes, BitVec.zeroExtend, BitVec.getLsbD_setWidth, BitVec.getLsbD_extractLsb',
    hi, decide_true, Bool.true_and]
  by_cases h2 : i < 2
  · simp [h2, show i < 28 by omega]
  · by_cases h28 : i < 28
    · simp [h2, h28, show i - 2 < 26 by omega, show i - 2 < 32 by omega]
    · have hv : v.getLsbD (i - 2) = false := BitVec.getLsbD_of_ge v _ (by omega)
      simp [h2, h28, hv, show ¬i - 2 < 26 by omega, show i - 2 - 26 < 4 by omega,
        show i - 28 < 32 by omega, show 28 + (i - 2 - 26) = i by omega]

theorem lb_value (v : BitVec 8) :
    (if v.signExtend 32 &&& 0x80#32 ≠ 0#32 then v.signExtend 32 ||| 0xffffff00#32
      else v.signExtend 32 &&& 0xff#32) = v.signExtend 32 := by
  decide +revert

theorem lbu_value (v : BitVec 8) : v.signExtend 32 &&& 0xff#32 = v.zeroExtend 32 := by
  decide +revert

theorem lhu_value (v : BitVec 16) : v.zeroExtend 32 &&& 0xffff#32 = v.zeroExtend 32 := by
  rw [← signExtend_and_mask, BitVec.and_assoc, BitVec.and_self]

theorem lh_value (v : BitVec 16) :
    (if v.zeroExtend 32 &&& 0x8000#32 ≠ 0#32 then v.zeroExtend 32 ||| 0xffff0000#32
      else v.zeroExtend 32 &&& 0xffff#32) = v.signExtend 32 := by
  have h := signExtend_eq (show 15 < 32 by decide) (v.zeroExtend 32)
  have hv : (v.zeroExtend 32).setWidth (15 + 1) = v := by simp
  rw [hv, show (BitVec.allOnes (15 + 1)).setWidth 32 = 0xffff#32 from rfl, lhu_value] at h
  have hbit : v.zeroExtend 32 &&& 0x8000#32 = 0#32 ↔ (v.zeroExtend 32).getLsbD 15 = false :=
    and_twoPow_eq_zero _ (show 15 < 32 by decide)
  rw [← h, lhu_value]
  cases hb : (v.zeroExtend 32).getLsbD 15 with
  | false => rw [if_neg (not_not.2 (hbit.2 hb)), if_neg Bool.false_ne_true]
  | true =>
    rw [if_pos (mt hbit.1 (by rw [hb]; decide)), if_pos rfl]
    rfl

theorem and_mask_five (x : Word) : (x &&& 0x1f#32).toNat = x.toNat % 32 := by
  rw [BitVec.toNat_and]
  exact Nat.and_two_pow_sub_one_eq_mod _ 5

theorem and_mask_one (x : Word) : x &&& 1#32 = 0#32 ↔ x.toNat % 2 = 0 := by
  rw [← BitVec.toNat_inj, BitVec.toNat_and]
  exact Iff.of_eq (congrArg (· = 0) (Nat.and_two_pow_sub_one_eq_mod _ 1))

theorem and_mask_two (x : Word) : x &&& 3#32 = 0#32 ↔ x.toNat % 4 = 0 := by
  rw [← BitVec.toNat_inj, BitVec.toNat_and]
  exact Iff.of_eq (congrArg (· = 0) (Nat.and_two_pow_sub_one_eq_mod _ 2))

theorem sshiftRight_eq_ushiftRight {x : Word} {n : ℕ} (h : x.msb = false ∨ n = 0) :
    x.sshiftRight n = x >>> n := by
  rcases h with h | rfl
  · exact BitVec.sshiftRight_eq_of_msb_false h
  · simp

theorem sdiv_eq (a b : Word) : a.sdiv b = BitVec.ofInt 32 (a.toInt.tdiv b.toInt) := by
  apply BitVec.eq_of_toInt_eq
  rw [BitVec.toInt_sdiv, BitVec.toInt_ofInt]

theorem srem_eq (a b : Word) : a.srem b = BitVec.ofInt 32 (a.toInt.tmod b.toInt) := by
  rw [← BitVec.toInt_srem, BitVec.ofInt_toInt]

theorem toNat_append_word (hi lo : Word) : (hi ++ lo).toNat = hi.toNat * 2 ^ 32 + lo.toNat := by
  rw [BitVec.toNat_append, Nat.shiftLeft_eq, Nat.mul_comm, Nat.two_pow_add_eq_or_of_lt lo.isLt]

theorem append_add_append (hi lo bHi bLo : Word) :
    ((if lo + bLo < bLo then hi + 1#32 else hi) + bHi) ++ (lo + bLo) =
      (hi ++ lo) + (bHi ++ bLo) := by
  apply BitVec.eq_of_toNat_eq
  rw [BitVec.toNat_add, toNat_append_word, toNat_append_word, toNat_append_word]
  have h1 := lo.isLt
  have h2 := bLo.isLt
  have h3 := hi.isLt
  have h4 := bHi.isLt
  split_ifs with hc
  all_goals
    rw [BitVec.lt_def, BitVec.toNat_add] at hc
    simp only [BitVec.toNat_add, BitVec.toNat_ofNat]
    omega

theorem append_shiftLeft (bHi bLo : Word) :
    (bHi <<< 1 ||| (if bLo &&& signBit ≠ 0#32 then 1#32 else 0#32)) ++ bLo <<< 1 =
      (bHi ++ bLo) <<< 1 := by
  have hbit : (if bLo &&& signBit ≠ 0#32 then 1#32 else 0#32).toNat = bLo.toNat / 2 ^ 31 := by
    have := bLo.isLt
    by_cases h : bLo &&& signBit = 0#32
    · rw [if_neg (by simpa using h)]
      rw [and_signBit_eq_zero, BitVec.msb_eq_decide] at h
      simp at h
      simp
      omega
    · rw [if_pos (by simpa using h)]
      rw [and_signBit_eq_zero, BitVec.msb_eq_decide] at h
      simp at h
      simp
      omega
  apply BitVec.eq_of_toNat_eq
  rw [toNat_append_word, BitVec.toNat_or, hbit, BitVec.toNat_shiftLeft, BitVec.toNat_shiftLeft,
    BitVec.toNat_shiftLeft, toNat_append_word]
  simp only [Nat.shiftLeft_eq]
  have h2 := bLo.isLt
  have h4 := bHi.isLt
  have hor : bHi.toNat * 2 ^ 1 % 2 ^ 32 ||| bLo.toNat / 2 ^ 31 =
      bHi.toNat * 2 ^ 1 % 2 ^ 32 + bLo.toNat / 2 ^ 31 := by
    have : bHi.toNat * 2 ^ 1 % 2 ^ 32 = 2 ^ 1 * (bHi.toNat % 2 ^ 31) := by omega
    rw [this, Nat.two_pow_add_eq_or_of_lt (by omega)]
  rw [hor]
  omega

theorem sshiftRight_one_mod {n : ℕ} (hn : n < 32) (a : Word) :
    (a.sshiftRight 1).toNat % 2 ^ n = a.toNat / 2 % 2 ^ n := by
  apply Nat.eq_of_testBit_eq
  intro j
  simp only [Nat.testBit_mod_two_pow, BitVec.testBit_toNat, Nat.testBit_div_two]
  by_cases hj : j < n
  · rw [BitVec.getLsbD_sshiftRight, if_pos (show 1 + j < 32 by omega), Nat.add_comm 1 j]
    simp [show ¬32 ≤ j by omega]
  · simp [hj]

theorem div_two_eq_zero {a : Word} (h : a &&& 0xfffffffe#32 = 0#32) : a.toNat / 2 = 0 := by
  apply Nat.eq_of_testBit_eq
  intro j
  have hj : (a &&& ~~~1#32).getLsbD (j + 1) = false := by
    rw [show ~~~1#32 = 0xfffffffe#32 from rfl, h]
    simp
  by_cases hlt : j + 1 < 32
  · rw [BitVec.getLsbD_and, BitVec.getLsbD_not, BitVec.getLsbD_one] at hj
    rw [Nat.testBit_div_two, BitVec.testBit_toNat, Nat.zero_testBit]
    simpa [hlt] using hj
  · rw [Nat.testBit_div_two, BitVec.testBit_toNat, Nat.zero_testBit]
    exact BitVec.getLsbD_of_ge _ _ (by omega)

theorem multLoop_eq {n : ℕ} (hn : n ≤ 32) (a bLo bHi lo hi : Word) :
    (multLoop n a bLo bHi lo hi).1 ++ (multLoop n a bLo bHi lo hi).2 =
      (hi ++ lo) + (bHi ++ bLo) * BitVec.ofNat 64 (a.toNat % 2 ^ n) := by
  induction n generalizing a bLo bHi lo hi with
  | zero => simp [multLoop, Nat.mod_one]
  | succ n ih =>
    have hrest := ih (by omega) (a.sshiftRight 1) (bLo <<< 1)
      (bHi <<< 1 ||| (if bLo &&& signBit ≠ 0#32 then 1#32 else 0#32))
    rw [append_shiftLeft, sshiftRight_one_mod (by omega)] at hrest
    have hsplit : a.toNat % 2 ^ (n + 1) = a.toNat % 2 + 2 * (a.toNat / 2 % 2 ^ n) := by
      rw [Nat.pow_succ', Nat.mod_mul]
    rw [hsplit]
    have hmul : ∀ acc : BitVec 64, acc + (bHi ++ bLo) <<< 1 * BitVec.ofNat 64 (a.toNat / 2 % 2 ^ n) =
        acc + (bHi ++ bLo) * BitVec.ofNat 64 (2 * (a.toNat / 2 % 2 ^ n)) := by
      intro acc
      rw [BitVec.shiftLeft_eq_mul_twoPow, BitVec.ofNat_mul, BitVec.mul_assoc]
      rfl
    simp only [multLoop]
    by_cases hbit : a &&& 1#32 = 0#32
    · rw [if_neg (not_not.2 hbit), hrest, hmul, (and_mask_one a).1 hbit, Nat.zero_add]
    · have hodd : a.toNat % 2 = 1 := by
        have := mt (and_mask_one a).2 hbit
        omega
      have hone : ∀ acc : BitVec 64, acc + (bHi ++ bLo) +
          (bHi ++ bLo) * BitVec.ofNat 64 (2 * (a.toNat / 2 % 2 ^ n)) =
          acc + (bHi ++ bLo) * BitVec.ofNat 64 (1 + 2 * (a.toNat / 2 % 2 ^ n)) := by
        intro acc
        rw [BitVec.ofNat_add, BitVec.mul_add, BitVec.mul_one, BitVec.add_assoc]
      rw [if_pos hbit, hodd]
      by_cases hlast : a &&& 0xfffffffe#32 = 0#32
      · rw [if_pos hlast, append_add_append, ← hone, div_two_eq_zero hlast]
        simp
      · rw [if_neg hlast, hrest, append_add_append, hmul, hone]

/-- The whole loop multiplies the two words as unsigned numbers. -/
theorem multLoop_words (a b : Word) :
    (multLoop 32 a b 0#32 0#32 0#32).1 ++ (multLoop 32 a b 0#32 0#32 0#32).2 =
      BitVec.ofNat 64 (a.toNat * b.toNat) := by
  have hb : (0#32 ++ b : BitVec 64) = BitVec.ofNat 64 b.toNat := by
    apply BitVec.eq_of_toNat_eq
    have := b.isLt
    rw [toNat_append_word, BitVec.toNat_ofNat, BitVec.toNat_ofNat]
    omega
  rw [multLoop_eq le_rfl, hb, Nat.mod_eq_of_lt a.isLt, ← BitVec.ofNat_mul, Nat.mul_comm]
  simp

/-- The words of the two's complement, as the source computes it. -/
theorem complement_words (hi lo : Word) :
    (if ~~~lo + 1#32 = 0#32 then ~~~hi + 1#32 else ~~~hi) ++ (~~~lo + 1#32) = -(hi ++ lo) := by
  have h1 := hi.isLt
  have h2 := lo.isLt
  apply BitVec.eq_of_toNat_eq
  rw [BitVec.toNat_neg, toNat_append_word, toNat_append_word]
  split_ifs with h
  all_goals
    rw [← BitVec.toNat_inj, BitVec.toNat_add, BitVec.toNat_not] at h
    simp only [BitVec.toNat_add, BitVec.toNat_not, BitVec.toNat_ofNat] at h ⊢
    omega

theorem mult_unsigned (a b : Word) :
    (mult a b false).1 ++ (mult a b false).2 = BitVec.ofNat 64 (a.toNat * b.toNat) := by
  rw [mult]
  by_cases h : a = 0#32 ∨ b = 0#32
  · rw [if_pos h]
    rcases h with rfl | rfl <;> simp
  · rw [if_neg h]
    simp only [Bool.false_and, bne_self_eq_false, Bool.false_eq_true, if_false]
    rw [multLoop_words]

theorem toNat_magnitude (a : Word) :
    (if a.slt 0#32 then -a else a).toNat = a.toInt.natAbs := by
  have h := a.isLt
  rw [BitVec.slt_zero_eq_msb, BitVec.toInt_eq_msb_cond]
  cases hm : a.msb with
  | false => simp
  | true =>
    rw [BitVec.msb_eq_decide] at hm
    simp at hm
    simp only [if_true, BitVec.toNat_neg]
    omega

theorem toInt_eq_magnitude (a : Word) :
    a.toInt = if a.slt 0#32 then -(a.toInt.natAbs : ℤ) else a.toInt.natAbs := by
  by_cases h : a.slt 0#32
  · rw [if_pos h]
    rw [BitVec.slt_iff_toInt_lt] at h
    simp at h
    omega
  · rw [if_neg h]
    rw [BitVec.slt_iff_toInt_lt] at h
    simp at h
    omega

theorem mult_signed (a b : Word) :
    (mult a b true).1 ++ (mult a b true).2 = BitVec.ofInt 64 (a.toInt * b.toInt) := by
  rw [mult]
  by_cases h : a = 0#32 ∨ b = 0#32
  · rw [if_pos h]
    rcases h with rfl | rfl <;> simp
  · rw [if_neg h]
    simp only [Bool.true_and]
    have hwords := multLoop_words (if a.slt 0#32 then -a else a) (if b.slt 0#32 then -b else b)
    rw [toNat_magnitude, toNat_magnitude] at hwords
    have hneg : -BitVec.ofNat 64 (a.toInt.natAbs * b.toInt.natAbs) =
        BitVec.ofInt 64 (-(a.toInt.natAbs * b.toInt.natAbs)) := by
      rw [BitVec.ofInt_neg, ← Int.natCast_mul, BitVec.ofInt_natCast]
    have hpos : BitVec.ofNat 64 (a.toInt.natAbs * b.toInt.natAbs) =
        BitVec.ofInt 64 (a.toInt.natAbs * b.toInt.natAbs) := by
      rw [← Int.natCast_mul, BitVec.ofInt_natCast]
    conv_rhs => rw [toInt_eq_magnitude a, toInt_eq_magnitude b]
    generalize multLoop 32 (if a.slt 0#32 then -a else a) (if b.slt 0#32 then -b else b) 0#32 0#32
      0#32 = r at hwords ⊢
    cases a.slt 0#32 with
    | false =>
      cases b.slt 0#32 with
      | false => simp only [bne_self_eq_false, Bool.false_eq_true, if_false, hwords, hpos]
      | true =>
        simp only [Bool.false_bne, if_true, Bool.false_eq_true, if_false]
        rw [complement_words, hwords, hneg, Int.mul_neg]
    | true =>
      cases b.slt 0#32 with
      | false =>
        simp only [Bool.bne_false, if_true, Bool.false_eq_true, if_false]
        rw [complement_words, hwords, hneg, Int.neg_mul]
      | true =>
        simp only [bne_self_eq_false, Bool.false_eq_true, if_false, if_true]
        rw [hwords, hpos, Int.neg_mul_neg]

/-- A product of two words has 64 bits, so nothing of it is lost in `HI` and `LO`. -/
theorem toInt_mult (a b : Word) :
    ((mult a b true).1 ++ (mult a b true).2).toInt = a.toInt * b.toInt := by
  have hbound : |a.toInt * b.toInt| ≤ 2 ^ 31 * 2 ^ 31 := by
    have ha := a.le_toInt
    have ha' := a.toInt_lt
    have hb := b.le_toInt
    have hb' := b.toInt_lt
    rw [abs_mul]
    refine mul_le_mul (abs_le.mpr ⟨ha, ?_⟩) (abs_le.mpr ⟨hb, ?_⟩) (abs_nonneg _) (by norm_num)
    · exact ha'.le
    · exact hb'.le
  obtain ⟨hlow, hhigh⟩ := abs_le.mp hbound
  rw [mult_signed, BitVec.toInt_ofInt]
  exact Int.bmod_eq_of_le (by omega) (by omega)

theorem toNat_mult (a b : Word) :
    ((mult a b false).1 ++ (mult a b false).2).toNat = a.toNat * b.toNat := by
  have hlt : a.toNat * b.toNat < 2 ^ 32 * 2 ^ 32 := Nat.mul_lt_mul'' a.isLt b.isLt
  rw [mult_unsigned, BitVec.toNat_ofNat]
  exact Nat.mod_eq_of_lt (by omega)

/-- `Mult` is exact, and `MULT` and `MULTU` leave its result in `HI` and `LO`. -/
theorem mult_exact (a b : Word) :
    ((mult a b true).1 ++ (mult a b true).2).toInt = a.toInt * b.toInt ∧
    ((mult a b false).1 ++ (mult a b false).2).toNat = a.toNat * b.toNat ∧
    ∀ (m : State) (rs rt rd : Fin 32) (extra : Word),
      (∃ e, execute ⟨.mult, rs, rt, rd, extra⟩ m = .ok e ∧
        (e.m.registers hiReg ++ e.m.registers loReg).toInt =
          (m.registers (gp rs)).toInt * (m.registers (gp rt)).toInt) ∧
      ∃ e, execute ⟨.multu, rs, rt, rd, extra⟩ m = .ok e ∧
        (e.m.registers hiReg ++ e.m.registers loReg).toNat =
          (m.registers (gp rs)).toNat * (m.registers (gp rt)).toNat := by
  refine ⟨toInt_mult a b, toNat_mult a b, fun m rs rt rd extra => ⟨⟨_, rfl, ?_⟩, ⟨_, rfl, ?_⟩⟩⟩
  · rw [State.set_self, State.set_of_ne _ _ (by decide), State.set_self]
    exact toInt_mult _ _
  · rw [State.set_self, State.set_of_ne _ _ (by decide), State.set_self]
    exact toNat_mult _ _

end Nachos.Machine
