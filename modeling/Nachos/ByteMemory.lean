import Nachos.IndexNumerals

/-!
# Bytes, words and block copies

Memory is a function from addresses to bytes. A 32-bit word takes four bytes,
the low one first. `overlay` is the effect of a block copy to an address: it
changes as many bytes as the list that is copied has.
-/
namespace Nachos.ByteMemory

abbrev Byte := BitVec 8

abbrev Memory := ℕ → Byte

/-- Byte `k` of a word. -/
def byteOf (w : BitVec 32) (k : ℕ) : Byte := w.extractLsb' (8 * k) 8

/-- The word at address `a`. -/
def word (m : Memory) (a : ℕ) : BitVec 32 := m (a + 3) ++ m (a + 2) ++ m (a + 1) ++ m a

def setWord (m : Memory) (a : ℕ) (w : BitVec 32) : Memory := fun p =>
  if a ≤ p ∧ p < a + 4 then byteOf w (p - a) else m p

/-- Copy the bytes `l` to address `a`. -/
def overlay (m : Memory) (a : ℕ) (l : List Byte) : Memory := fun p =>
  if a ≤ p then (l[p - a]?).getD (m p) else m p

theorem word_eq_of_bytes {m : Memory} {a : ℕ} {w : BitVec 32}
    (h : ∀ k < 4, m (a + k) = byteOf w k) : word m a = w := by
  have h0 : m a = byteOf w 0 := h 0 (by decide)
  rw [word, h0, h 1 (by decide), h 2 (by decide), h 3 (by decide)]
  apply BitVec.eq_of_getLsbD_eq
  intro i hi
  simp only [byteOf, BitVec.getLsbD_append, BitVec.getLsbD_extractLsb']
  by_cases h8 : i < 8
  · simp [h8]
  · by_cases h16 : i < 16
    · have : i - 8 < 8 := by omega
      simp [h8, this, show 8 + (i - 8) = i by omega]
    · by_cases h24 : i < 24
      · have h1 : ¬i - 8 < 8 := by omega
        have h2 : i - 8 - 8 < 8 := by omega
        simp [h8, h1, h2, show 16 + (i - 8 - 8) = i by omega]
      · have h1 : ¬i - 8 < 8 := by omega
        have h2 : ¬i - 8 - 8 < 8 := by omega
        have h3 : i - 8 - 8 - 8 < 8 := by omega
        simp [h8, h1, h2, h3, show 24 + (i - 8 - 8 - 8) = i by omega]

theorem word_congr {m m' : Memory} {a b : ℕ} (h : ∀ k < 4, m (a + k) = m' (b + k)) :
    word m a = word m' b := by
  have h0 : m a = m' b := h 0 (by decide)
  simp only [word, h0, h 1 (by decide), h 2 (by decide), h 3 (by decide)]

theorem word_setWord_self (m : Memory) (a : ℕ) (w : BitVec 32) : word (setWord m a w) a = w := by
  apply word_eq_of_bytes
  intro k hk
  simp [setWord, hk]

theorem setWord_of_lt {m : Memory} {a p : ℕ} {w : BitVec 32} (h : p < a) :
    setWord m a w p = m p := if_neg (by omega)

theorem setWord_of_le {m : Memory} {a p : ℕ} {w : BitVec 32} (h : a + 4 ≤ p) :
    setWord m a w p = m p := if_neg (by omega)

theorem overlay_of_lt {m : Memory} {a p : ℕ} {l : List Byte} (h : p < a) :
    overlay m a l p = m p := if_neg (by omega)

theorem overlay_of_le {m : Memory} {a p : ℕ} {l : List Byte} (h : a + l.length ≤ p) :
    overlay m a l p = m p := by
  unfold overlay
  rw [if_pos (by omega), List.getElem?_eq_none (by omega), Option.getD_none]

theorem overlay_add {m : Memory} {a k : ℕ} {l : List Byte} {b : Byte} (h : l[k]? = some b) :
    overlay m a l (a + k) = b := by
  simp [overlay, h]

@[simp] theorem overlay_nil (m : Memory) (a : ℕ) : overlay m a [] = m := by
  funext p
  simp [overlay]

/-- The bytes of a word in memory. -/
theorem byteOf_word (m : Memory) (a : ℕ) {k : ℕ} (hk : k < 4) :
    byteOf (word m a) k = m (a + k) := by
  apply BitVec.eq_of_getLsbD_eq
  intro i hi
  simp only [byteOf, word, BitVec.getLsbD_extractLsb', BitVec.getLsbD_append, hi, decide_true,
    Bool.true_and]
  interval_cases k
  · simp [hi]
  · simp [hi, show ¬ 8 + i < 8 by omega]
  · simp [hi, show ¬ 16 + i < 8 by omega, show ¬ 16 + i - 8 < 8 by omega,
      show 16 + i - 8 - 8 = i by omega]
  · simp [show ¬ 24 + i < 8 by omega, show ¬ 24 + i - 8 < 8 by omega,
      show ¬ 24 + i - 8 - 8 < 8 by omega, show 24 + i - 8 - 8 - 8 = i by omega]

/-- The first `n` bytes from address `a` on. -/
def bytesAt (m : Memory) (a n : ℕ) : List Byte := (List.range n).map fun k => m (a + k)

@[simp] theorem bytesAt_length (m : Memory) (a n : ℕ) : (bytesAt m a n).length = n := by
  simp [bytesAt]

theorem bytesAt_getElem? {m : Memory} {a n k : ℕ} (h : k < n) :
    (bytesAt m a n)[k]? = some (m (a + k)) := by
  simp [bytesAt, h]

theorem bytesAt_congr {m m' : Memory} {a b n : ℕ} (h : ∀ k < n, m (a + k) = m' (b + k)) :
    bytesAt m a n = bytesAt m' b n :=
  List.map_congr_left fun k hk => h k (List.mem_range.mp hk)

/-- The number in the `n` bytes from address `a` on, the low byte first. -/
def value (m : Memory) (a : ℕ) : (n : ℕ) → BitVec (8 * n)
  | 0 => 0#0
  | n + 1 => (m (a + n) ++ value m a n).cast (by omega)

/-- Store a number of `n` bytes. -/
def setValue (m : Memory) (a n : ℕ) (v : BitVec (8 * n)) : Memory := fun p =>
  if a ≤ p ∧ p < a + n then v.extractLsb' (8 * (p - a)) 8 else m p

theorem value_one (m : Memory) (a : ℕ) : value m a 1 = m a := by
  apply BitVec.eq_of_toNat_eq
  simp [value]

theorem value_two (m : Memory) (a : ℕ) : value m a 2 = m (a + 1) ++ m a := by
  apply BitVec.eq_of_toNat_eq
  rw [value, BitVec.toNat_cast, BitVec.toNat_append, BitVec.toNat_append, value_one]

theorem value_four (m : Memory) (a : ℕ) : value m a 4 = word m a := by
  have h2 : (value m a 2).toNat = (m (a + 1) ++ m a).toNat := by rw [value_two]
  have h3 : (value m a 3).toNat = (m (a + 2) ++ (m (a + 1) ++ m a)).toNat := by
    rw [value, BitVec.toNat_cast, BitVec.toNat_append, h2, ← BitVec.toNat_append]
  rw [word, BitVec.append_assoc, BitVec.append_assoc]
  apply BitVec.eq_of_toNat_eq
  rw [value, BitVec.toNat_cast, BitVec.toNat_append, h3, ← BitVec.toNat_append]
  simp

theorem value_eq_of_bytes {m : Memory} {a n : ℕ} {v : BitVec (8 * n)}
    (h : ∀ k < n, m (a + k) = v.extractLsb' (8 * k) 8) : value m a n = v := by
  induction n with
  | zero => exact (BitVec.eq_nil _).trans (BitVec.eq_nil v).symm
  | succ n ih =>
    have hlow : value m a n = v.setWidth (8 * n) := by
      apply ih
      intro k hk
      rw [h k (by omega)]
      apply BitVec.eq_of_getLsbD_eq
      intro i hi
      simp only [BitVec.getLsbD_extractLsb', BitVec.getLsbD_setWidth, hi, decide_true, Bool.true_and,
        show 8 * k + i < 8 * n by omega]
    rw [value, hlow, h n (Nat.lt_succ_self n)]
    apply BitVec.eq_of_getLsbD_eq
    intro i hi
    rw [BitVec.getLsbD_cast, BitVec.getLsbD_append]
    by_cases hlt : i < 8 * n
    · simp [hlt]
    · simp [hlt, show i - 8 * n < 8 by omega, show 8 * n + (i - 8 * n) = i by omega]

theorem value_setValue_self (m : Memory) (a n : ℕ) (v : BitVec (8 * n)) :
    value (setValue m a n v) a n = v := by
  apply value_eq_of_bytes
  intro k hk
  rw [setValue, if_pos (by omega), Nat.add_sub_cancel_left]

theorem setValue_setWidth (m : Memory) (a n : ℕ) (w : BitVec 32) :
    setValue m a n (w.setWidth (8 * n)) =
      fun p => if a ≤ p ∧ p < a + n then byteOf w (p - a) else m p := by
  funext p
  rw [setValue]
  split_ifs with h
  · apply BitVec.eq_of_getLsbD_eq
    intro i hi
    simp only [byteOf, BitVec.getLsbD_extractLsb', BitVec.getLsbD_setWidth, hi, decide_true,
      Bool.true_and, show 8 * (p - a) + i < 8 * n by omega]
  · rfl

end Nachos.ByteMemory
