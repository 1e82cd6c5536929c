import Nachos.CStrings
import Nachos.UserCopies

/-!
# Names in user memory

`GetFileName` and `Exec` of `userprog/exception.cc` translate the address of a name once
and then walk through the physical memory with `strlen` and `strcpy`. What they find is
the string of the process when the pages under it are in consecutive frames.
-/
namespace Nachos.UserTransfers
open ByteMemory CStrings

/-- `MemorySize` -/
def memorySize : ℤ := 64 * pageSize

/-- The string that is copied from `machine->mainMemory + paddr`, or `none` when `strlen` does
not stop in `mainMemory`. -/
def nameAt (m : Machine) (paddr : ℤ) : Option (List Byte) :=
  let a : Memory := fun k => m.mainMemory (paddr + k)
  (strlen a (memorySize - paddr).toNat).map (text a)

/-- `GetFileName`; `paddr` is not initialised. -/
def getFileName (s : AddrSpace) (m : Machine) (vaddr paddr : ℤ) : Option (List Byte) :=
  nameAt m ((s.translate vaddr).getD paddr)

/-- The name that `Exec` opens; `paddr` is not initialised. -/
def execName (s : AddrSpace) (m : Machine) (vaddr paddr : ℤ) : Option (List Byte) :=
  nameAt m ((s.translate vaddr).getD paddr)

/-- The process has the string `t`, with its terminator, at `v`. -/
structure StringAt (s : AddrSpace) (memory : Chars) (v : ℤ) (t : CString) : Prop where
  mapped : Mapped s v (t.chars.length + 1)
  inMemory : ∀ (k : ℕ) (a : ℤ), k ≤ t.chars.length → s.translate (v + k) = some a →
    0 ≤ a ∧ a < memorySize
  bytes : ∀ k : ℕ, k ≤ t.chars.length → userByte s memory (v + k) = t.memory k

/-- The pages from that of `v` to that of `w` are in consecutive frames. -/
def Contiguous (s : AddrSpace) (v w : ℤ) : Prop :=
  ∀ p, v / pageSize ≤ p → p < w / pageSize →
    (s.pageTable (p + 1)).physicalPage = (s.pageTable p).physicalPage + 1

section strings
variable {s : AddrSpace} {m : Machine} {v w a : ℤ} {t : CString}

theorem translate_eq (hv : 0 ≤ v) (h : (s.translate v).isSome) :
    s.translate v = some ((s.pageTable (v / pageSize)).physicalPage * pageSize + v % pageSize) := by
  obtain ⟨a, ha⟩ := Option.isSome_iff_exists.mp h
  obtain ⟨-, rfl⟩ := translate_eq_some ha
  rw [ha, Int.tdiv_eq_ediv_of_nonneg hv, Int.tmod_eq_emod_of_nonneg hv]

theorem Contiguous.frame (h : Contiguous s v w) (n : ℕ)
    (hn : v / pageSize + n ≤ w / pageSize) :
    (s.pageTable (v / pageSize + n)).physicalPage =
      (s.pageTable (v / pageSize)).physicalPage + n := by
  induction n with
  | zero => simp
  | succ n ih =>
    have hnext := h (v / pageSize + n) (by omega) (by omega)
    rw [ih (by omega), add_assoc] at hnext
    push_cast
    rw [hnext]
    ring

/-- In consecutive frames the translation of the first address is enough. -/
theorem StringAt.translate_add (h : StringAt s m.mainMemory v t)
    (hframes : Contiguous s v (v + t.chars.length)) (ha : s.translate v = some a) {k : ℕ}
    (hk : k ≤ t.chars.length) : s.translate (v + k) = some (a + k) := by
  obtain ⟨hv, hpages⟩ := h.mapped
  have hfirst := translate_eq hv (by rw [ha]; rfl)
  have hbyte := translate_eq (v := v + k) (by omega) (hpages k (by omega) (by omega))
  obtain ⟨n, hn⟩ : ∃ n : ℕ, (v + k) / pageSize = v / pageSize + n :=
    ⟨((v + k) / pageSize - v / pageSize).toNat, by unfold pageSize; omega⟩
  have hframe := hframes.frame n (by rw [← hn]; unfold pageSize; omega)
  rw [ha] at hfirst
  have haddr := Option.some.inj hfirst
  rw [hbyte, hn, hframe, haddr]
  congr 1
  unfold pageSize at *
  omega

theorem StringAt.nameAt (h : StringAt s m.mainMemory v t)
    (hframes : Contiguous s v (v + t.chars.length)) (ha : s.translate v = some a) :
    nameAt m a = some t.chars := by
  have hbyte : ∀ k ≤ t.chars.length, m.mainMemory (a + k) = t.memory k := by
    intro k hk
    rw [← h.bytes k hk, userByte, h.translate_add hframes ha hk, Option.getD_some]
  have hlast := (h.inMemory _ _ le_rfl (h.translate_add hframes ha le_rfl)).2
  have hlen : strlen (fun k => m.mainMemory (a + k)) (memorySize - a).toNat =
      some t.chars.length := by
    apply strlen_eq
    · intro k hk
      rw [hbyte k hk.le]
      exact t.memory_ne_zero hk
    · rw [hbyte _ le_rfl]
      exact t.memory_length
    · omega
  unfold UserTransfers.nameAt
  dsimp only
  rw [hlen, Option.map_some, text_congr fun k hk => hbyte k hk.le, t.text_memory, List.take_length]

end strings

/-- The string `ab`. -/
def sampleName : CString := ⟨[97#8, 98#8], by decide⟩

theorem sampleName_at {memory : Chars} {v : ℤ} (hv : 0 ≤ v) (hend : v + 3 ≤ 256)
    (hbytes : userByte twoPages memory v = 97#8 ∧ userByte twoPages memory (v + 1) = 98#8 ∧
      userByte twoPages memory (v + 2) = 0#8) : StringAt twoPages memory v sampleName := by
  refine ⟨twoPages_mapped hv hend, fun k a hk ha => ?_, fun k hk => ?_⟩
  · have hle : k ≤ 2 := hk
    rw [twoPages_translate (by omega) (by omega)] at ha
    have haddr := Option.some.inj ha
    unfold memorySize pageSize
    omega
  · obtain ⟨ha, hb, hzero⟩ := hbytes
    match k, hk with
    | 0, _ =>
      rw [Nat.cast_zero, add_zero]
      exact ha
    | 1, _ => exact hb
    | 2, _ => exact hzero

end Nachos.UserTransfers
