import Nachos.IndexNumerals

/-!
# The bit map of `userprog/bitmap.cc`

An array of bits in 32-bit words. Frames, process ids, swap slots, open-file
slots and disk sectors are all handed out by `find`. The three operations on a
given index carry the source's assertion: `none` is the aborted simulator.
The storage is an unbounded array of words of which the source has
`numWords`; no operation reads or writes another one.
-/
namespace Nachos

/-- A word of the host: `int`, `unsigned int` and every pointer. -/
abbrev Word := BitVec 32

structure BitMap where
  numBits : ℕ
  map : ℕ → Word

namespace BitMap

/-- `1 << (which % BitsInWord)` -/
def mask (i : ℕ) : Word := 1#32 <<< (i % 32)

def bit (b : BitMap) (i : ℕ) : Bool := b.map (i / 32) &&& mask i != 0#32

def setBit (b : BitMap) (i : ℕ) : BitMap :=
  { b with map := fun w => if w = i / 32 then b.map w ||| mask i else b.map w }

def resetBit (b : BitMap) (i : ℕ) : BitMap :=
  { b with map := fun w => if w = i / 32 then b.map w &&& ~~~ mask i else b.map w }

def InRange (b : BitMap) (which : ℤ) : Prop := 0 ≤ which ∧ which < b.numBits

instance (b : BitMap) (which : ℤ) : Decidable (b.InRange which) :=
  inferInstanceAs (Decidable (_ ∧ _))

def mark (b : BitMap) (which : ℤ) : Option BitMap :=
  if b.InRange which then some (b.setBit which.toNat) else none

def clear (b : BitMap) (which : ℤ) : Option BitMap :=
  if b.InRange which then some (b.resetBit which.toNat) else none

def test (b : BitMap) (which : ℤ) : Option Bool :=
  if b.InRange which then some (b.bit which.toNat) else none

/-- The first clear bit, marked as a side effect; `-1` when there is none. -/
def find (b : BitMap) : ℤ × BitMap :=
  match (List.range b.numBits).find? fun i => !b.bit i with
  | some i => (i, b.setBit i)
  | none => (-1, b)

def numClear (b : BitMap) : ℕ := (List.range b.numBits).countP fun i => !b.bit i

/-- The constructor clears every bit of storage that `new` left as it was. -/
def create (storage : ℕ → Word) (nitems : ℕ) : BitMap :=
  (List.range nitems).foldl resetBit ⟨nitems, storage⟩

theorem mask_getLsbD (i k : ℕ) (hk : k < 32) : (mask i).getLsbD k = decide (k = i % 32) := by
  have hi : i % 32 < 32 := Nat.mod_lt _ (by decide)
  simp only [mask, BitVec.getLsbD_shiftLeft, BitVec.getLsbD_one]
  by_cases h : k = i % 32
  · simp [h, hi]
  · simp only [h, decide_false, hk, decide_true, Bool.true_and, Bool.and_eq_false_imp]
    intro hlt
    simp only [Bool.not_eq_true', decide_eq_false_iff_not] at hlt
    simp only [Nat.reduceLT, decide_true, decide_eq_false_iff_not]
    omega

/-- The word test of the source reads exactly one bit. -/
theorem bit_eq_getLsbD (b : BitMap) (i : ℕ) : b.bit i = (b.map (i / 32)).getLsbD (i % 32) := by
  have hi : i % 32 < 32 := Nat.mod_lt _ (by decide)
  unfold bit
  cases h : (b.map (i / 32)).getLsbD (i % 32) with
  | true =>
    rw [bne_iff_ne]
    intro hz
    have hk := congrArg (fun v : Word => v.getLsbD (i % 32)) hz
    simp [mask_getLsbD i _ hi, h] at hk
  | false =>
    rw [bne_eq_false_iff_eq]
    apply BitVec.eq_of_getLsbD_eq
    intro k hk
    rw [BitVec.getLsbD_and, mask_getLsbD i k hk]
    by_cases hki : k = i % 32
    · simp [hki, h]
    · simp [hki]

@[simp] theorem setBit_numBits (b : BitMap) (i : ℕ) : (b.setBit i).numBits = b.numBits := rfl

@[simp] theorem resetBit_numBits (b : BitMap) (i : ℕ) : (b.resetBit i).numBits = b.numBits := rfl

@[simp] theorem find_numBits (b : BitMap) : b.find.2.numBits = b.numBits := by
  unfold find
  split <;> rfl

theorem same_bit_iff (i j : ℕ) : (j / 32 = i / 32 ∧ j % 32 = i % 32) ↔ i = j := by
  constructor
  · rintro ⟨hd, hm⟩
    omega
  · rintro rfl
    exact ⟨rfl, rfl⟩

@[simp] theorem bit_setBit (b : BitMap) (i j : ℕ) :
    (b.setBit i).bit j = (decide (i = j) || b.bit j) := by
  have hj : j % 32 < 32 := Nat.mod_lt _ (by decide)
  simp only [bit_eq_getLsbD, setBit]
  split_ifs with h
  · rw [BitVec.getLsbD_or, mask_getLsbD i _ hj, Bool.or_comm]
    congr 1
    exact decide_eq_decide.mpr ⟨fun hm => (same_bit_iff i j).mp ⟨h, hm⟩,
      fun he => ((same_bit_iff i j).mpr he).2⟩
  · have hne : i ≠ j := fun he => h (by rw [he])
    simp [hne]

@[simp] theorem bit_resetBit (b : BitMap) (i j : ℕ) :
    (b.resetBit i).bit j = (!decide (i = j) && b.bit j) := by
  have hj : j % 32 < 32 := Nat.mod_lt _ (by decide)
  simp only [bit_eq_getLsbD, resetBit]
  split_ifs with h
  · rw [BitVec.getLsbD_and, BitVec.getLsbD_not, mask_getLsbD i _ hj, Bool.and_comm]
    simp only [hj, decide_true, Bool.true_and]
    congr 2
    exact decide_eq_decide.mpr ⟨fun hm => (same_bit_iff i j).mp ⟨h, hm⟩,
      fun he => ((same_bit_iff i j).mpr he).2⟩
  · have hne : i ≠ j := fun he => h (by rw [he])
    simp [hne]

/-- Either the least clear bit is returned and marked, or every bit is set. -/
theorem find_cases (b : BitMap) :
    (∃ i, i < b.numBits ∧ b.bit i = false ∧ (∀ j < i, b.bit j = true) ∧
      b.find = ((i : ℤ), b.setBit i)) ∨
    ((∀ i < b.numBits, b.bit i = true) ∧ b.find = (-1, b)) := by
  unfold find
  cases h : (List.range b.numBits).find? fun i => !b.bit i with
  | none =>
    refine Or.inr ⟨?_, rfl⟩
    simpa using h
  | some i =>
    rw [List.find?_range_eq_some] at h
    obtain ⟨hb, hi, hmin⟩ := h
    refine Or.inl ⟨i, by simpa using hi, by simpa using hb, ?_, rfl⟩
    intro j hj
    simpa using hmin j hj

/-- The clear bits in the order in which `find` hands them out. -/
def clearBits (b : BitMap) : List ℕ := (List.range b.numBits).filter fun i => !b.bit i

theorem mem_clearBits {b : BitMap} {i : ℕ} : i ∈ b.clearBits ↔ i < b.numBits ∧ b.bit i = false := by
  simp [clearBits]

theorem clearBits_nodup (b : BitMap) : b.clearBits.Nodup := List.nodup_range.filter _

theorem numClear_eq_length (b : BitMap) : b.numClear = b.clearBits.length :=
  List.countP_eq_length_filter

theorem find_of_clearBits_nil {b : BitMap} (h : b.clearBits = []) : b.find = (-1, b) := by
  have hnone : (List.range b.numBits).find? (fun i => !b.bit i) = none := by
    rw [← List.head?_filter]
    exact List.head?_eq_none_iff.mpr h
  rw [find, hnone]

theorem find_of_clearBits {b : BitMap} {i : ℕ} {rest : List ℕ} (h : b.clearBits = i :: rest) :
    b.find = ((i : ℤ), b.setBit i) := by
  have hsome : (List.range b.numBits).find? (fun i => !b.bit i) = some i := by
    rw [← List.head?_filter]
    exact List.head?_eq_some_iff.mpr ⟨rest, h⟩
  rw [find, hsome]

theorem clearBits_setBit {b : BitMap} {i : ℕ} {rest : List ℕ} (h : b.clearBits = i :: rest) :
    (b.setBit i).clearBits = rest := by
  have hnodup := b.clearBits_nodup
  rw [h, List.nodup_cons] at hnodup
  have hsplit : (b.setBit i).clearBits = b.clearBits.filter fun j => decide (j ≠ i) := by
    rw [clearBits, clearBits, List.filter_filter, setBit_numBits]
    apply List.filter_congr
    intro j _
    rw [bit_setBit, Bool.not_or, decide_not, decide_eq_decide.mpr (eq_comm (a := i) (b := j))]
  rw [hsplit, h, List.filter_cons_of_neg (by simp)]
  apply List.filter_eq_self.mpr
  intro j hj
  simp only [decide_eq_true_eq]
  rintro rfl
  exact hnodup.1 hj

theorem numClear_le (b : BitMap) : b.numClear ≤ b.numBits := by
  simpa [numClear] using List.countP_le_length (l := List.range b.numBits) (p := fun i => !b.bit i)

theorem numClear_eq_zero_iff (b : BitMap) :
    b.numClear = 0 ↔ ∀ i < b.numBits, b.bit i = true := by
  simp [numClear, List.countP_eq_zero]

/-- A map is determined by its bits. -/
theorem ext_bit {b b' : BitMap} (hnum : b.numBits = b'.numBits)
    (hbit : ∀ i, b.bit i = b'.bit i) : b = b' := by
  have hmap : b.map = b'.map := by
    funext w
    apply BitVec.eq_of_getLsbD_eq
    intro k hk
    have h := hbit (32 * w + k)
    rw [bit_eq_getLsbD, bit_eq_getLsbD] at h
    rwa [show (32 * w + k) / 32 = w by omega, show (32 * w + k) % 32 = k by omega] at h
  cases b
  cases b'
  simp_all

@[simp] theorem foldl_resetBit_numBits (l : List ℕ) (b : BitMap) :
    (l.foldl resetBit b).numBits = b.numBits := by
  induction l generalizing b with
  | nil => rfl
  | cons i l ih => simp [ih]

theorem bit_foldl_resetBit (l : List ℕ) (b : BitMap) (j : ℕ) :
    (l.foldl resetBit b).bit j = (!decide (j ∈ l) && b.bit j) := by
  induction l generalizing b with
  | nil => simp
  | cons i l ih =>
    rw [List.foldl_cons, ih, bit_resetBit]
    by_cases hij : i = j
    · simp [hij]
    · simp [hij, Ne.symm hij]

@[simp] theorem create_numBits (storage : ℕ → Word) (n : ℕ) : (create storage n).numBits = n := by
  simp [create]

theorem bit_create (storage : ℕ → Word) {n i : ℕ} (hi : i < n) :
    (create storage n).bit i = false := by
  simp [create, bit_foldl_resetBit, hi]

end BitMap

end Nachos
