import Nachos.ByteMemory

/-!
# Strings with a terminator

A string is what memory holds up to the first zero byte. `strncmp` and
`strncpy` look at no more than `n` bytes; both depend only on the text of their
arguments, which is the string cut off after `n` bytes.
-/
namespace Nachos.CStrings
open ByteMemory

/-- The string that starts at address 0, cut off after `n` bytes. -/
def text (a : Memory) : ℕ → List Byte
  | 0 => []
  | n + 1 => if a 0 = 0#8 then [] else a 0 :: text (fun k => a (k + 1)) n

/-- `strlen`, or `none` when the `n` bytes have no terminator. -/
def strlen (a : Memory) : ℕ → Option ℕ
  | 0 => none
  | n + 1 => if a 0 = 0#8 then some 0 else (strlen (fun k => a (k + 1)) n).map (· + 1)

/-- `strncmp(a, b, n) == 0` -/
def sameText (a b : Memory) : ℕ → Bool
  | 0 => true
  | n + 1 =>
    a 0 == b 0 && (a 0 == 0#8 || sameText (fun k => a (k + 1)) (fun k => b (k + 1)) n)

/-- The `n` bytes that `strncpy` stores. -/
def copied (a : Memory) : ℕ → List Byte
  | 0 => []
  | n + 1 => if a 0 = 0#8 then List.replicate (n + 1) 0#8 else a 0 :: copied (fun k => a (k + 1)) n

theorem sameText_iff (a b : Memory) (n : ℕ) : sameText a b n = true ↔ text a n = text b n := by
  induction n generalizing a b with
  | zero => simp [sameText, text]
  | succ n ih =>
    simp only [sameText, text, Bool.and_eq_true, Bool.or_eq_true, beq_iff_eq, ih]
    by_cases ha : a 0 = 0#8
    · by_cases hb : b 0 = 0#8
      · simp [ha, hb]
      · simp [ha, hb, Ne.symm hb]
    · by_cases hb : b 0 = 0#8
      · simp [ha, hb]
      · simp [ha, hb]

theorem text_congr {a b : Memory} {n : ℕ} (h : ∀ k < n, a k = b k) : text a n = text b n := by
  induction n generalizing a b with
  | zero => rfl
  | succ n ih =>
    simp only [text, h 0 (Nat.succ_pos n)]
    rw [ih fun k hk => h (k + 1) (Nat.succ_lt_succ hk)]

@[simp] theorem copied_length (a : Memory) (n : ℕ) : (copied a n).length = n := by
  induction n generalizing a with
  | zero => rfl
  | succ n ih =>
    unfold copied
    split_ifs
    · exact List.length_replicate
    · simp [ih]

/-- A copy has the text of the original. -/
theorem text_of_copied {a b : Memory} {n : ℕ} (h : ∀ k < n, (copied a n)[k]? = some (b k)) :
    text b n = text a n := by
  induction n generalizing a b with
  | zero => rfl
  | succ n ih =>
    have h0 := h 0 (Nat.succ_pos n)
    by_cases ha : a 0 = 0#8
    · have hb : b 0 = 0#8 := by
        rw [copied, if_pos ha] at h0
        exact (Option.some.inj h0).symm
      simp [text, ha, hb]
    · have hb : b 0 = a 0 := by
        rw [copied, if_neg ha] at h0
        exact (Option.some.inj h0).symm
      simp only [text, hb, if_neg ha]
      congr 1
      apply ih
      intro k hk
      simpa [copied, ha] using h (k + 1) (Nat.succ_lt_succ hk)

/-- An argument of the caller: its characters, none of which is the terminator. -/
structure CString where
  chars : List Byte
  nonzero : ∀ b ∈ chars, b ≠ 0#8

def CString.memory (s : CString) : Memory := fun k => s.chars.getD k 0#8

theorem text_getD {l : List Byte} (hl : ∀ b ∈ l, b ≠ 0#8) (n : ℕ) :
    text (fun k => l.getD k 0#8) n = l.take n := by
  induction n generalizing l with
  | zero => rfl
  | succ n ih =>
    cases l with
    | nil => simp [text]
    | cons b l =>
      simp only [List.forall_mem_cons] at hl
      simp only [text, List.getD_cons_zero, if_neg hl.1, List.getD_cons_succ, ih hl.2,
        List.take_succ_cons]

theorem CString.text_memory (s : CString) (n : ℕ) : text s.memory n = s.chars.take n :=
  text_getD s.nonzero n

theorem strlen_eq {a : Memory} {len n : ℕ} (hnonzero : ∀ k < len, a k ≠ 0#8)
    (hzero : a len = 0#8) (hlt : len < n) : strlen a n = some len := by
  induction len generalizing a n with
  | zero =>
    obtain ⟨n, rfl⟩ := Nat.exists_eq_succ_of_ne_zero hlt.ne'
    rw [strlen, if_pos hzero]
  | succ len ih =>
    obtain ⟨n, rfl⟩ := Nat.exists_eq_succ_of_ne_zero (Nat.ne_zero_of_lt hlt)
    have hrest := ih (a := fun k => a (k + 1)) (n := n)
      (fun k hk => hnonzero (k + 1) (Nat.succ_lt_succ hk)) hzero (Nat.lt_of_succ_lt_succ hlt)
    rw [strlen, if_neg (hnonzero 0 (Nat.succ_pos len)), hrest]
    rfl

theorem CString.memory_ne_zero (s : CString) {k : ℕ} (hk : k < s.chars.length) :
    s.memory k ≠ 0#8 := by
  rw [CString.memory, List.getD_eq_getElem?_getD, List.getElem?_eq_getElem hk]
  exact s.nonzero _ (List.getElem_mem hk)

theorem CString.memory_length (s : CString) : s.memory s.chars.length = 0#8 := by
  rw [CString.memory, List.getD_eq_getElem?_getD, List.getElem?_eq_none le_rfl]
  rfl

end Nachos.CStrings
