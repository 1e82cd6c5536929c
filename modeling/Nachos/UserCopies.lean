import Nachos.UserTransfers

/-!
# Single calls of `userReadWrite`

One process calls `userReadWrite` and no other one runs. Copying out of memory is exact
for every range of valid pages. Copying into memory takes the size of the whole call for
the size of what is left, so it is exact only when every chunk of `diskBuffer` is emptied
by one `memcpy`: a range inside of one page, or whole pages.
-/
namespace Nachos.UserTransfers
open ByteMemory

/-- No two addresses of the range are one byte of the memory, as when no two pages are in one
frame. -/
def OneToOne (s : AddrSpace) (v size : ℤ) : Prop :=
  ∀ i j, 0 ≤ i → i < size → 0 ≤ j → j < size → s.translate (v + i) = s.translate (v + j) → i = j

/-- Every chunk that comes from the buffer goes to one page. -/
def ChunkwisePaged (vaddr size : ℤ) : Prop :=
  size ≤ pageSize - vaddr % pageSize ∨ vaddr % pageSize = 0 ∧ size % pageSize = 0

/-- The next `memcpy` reads inside of the `size` bytes of the buffer, or inside of
`diskBuffer`. -/
def Transfer.InBounds (c : Transfer) : Prop :=
  match c.point with
  | .fill => 0 ≤ c.bytesRead ∧ c.bytesRead + c.chunk ≤ c.size
  | .drain => 0 ≤ c.memBuffer ∧ c.memBuffer + c.writeSize ≤ pageSize

namespace Transfer
variable {s : AddrSpace} {m m' : Machine} {c c' : Transfer} {memory buffer : Chars} {v size : ℤ}

/-- How far a call that copies into memory has got. Its chunks are emptied by one
`memcpy` each. -/
structure Stored (s : AddrSpace) (memory buffer : Chars) (v size : ℤ) (m : Machine)
    (c : Transfer) : Prop where
  kind : c.kind = .intoMemory
  buffer_eq : c.buffer = buffer
  size_eq : c.size = size
  bytesRead : 0 ≤ c.bytesRead ∧ c.bytesRead ≤ size
  rest : ∀ a, (∀ i, 0 ≤ i → i < size → s.translate (v + i) ≠ some a) →
    m.mainMemory a = memory a
  done : ∀ i, 0 ≤ i → v + i < c.vaddr → userByte s m.mainMemory (v + i) = buffer i
  fill : c.point = .fill → c.vaddr = v + c.bytesRead ∧
    (c.bytesRead < size → c.bytesRead % pageSize = 0)
  drain : c.point = .drain → c.vaddr = v + (c.bytesRead - c.read) ∧ 0 < c.read ∧
    c.read ≤ pageSize ∧ c.read ≤ c.bytesRead ∧ c.bytesWrote = 0 ∧ c.memBuffer = 0 ∧
    c.writeSize = c.read ∧ (c.bytesRead < size → c.bytesRead % pageSize = 0) ∧
    ∀ i, 0 ≤ i → i < c.read → m.diskBuffer i = buffer (c.bytesRead - c.read + i)

/-- A chunk of the buffer has the size that is then written to its page. -/
theorem chunk_eq_writeSize (hchunks : ChunkwisePaged v size) (hv : 0 ≤ v) (hsize : c.size = size)
    (hread : 0 ≤ c.bytesRead) (hlt : c.bytesRead < c.size)
    (hturn : c.bytesRead % pageSize = 0) (hvaddr : c.vaddr = v + c.bytesRead) :
    c.chunk = c.writeSize ∧ c.bytesRead + c.chunk ≤ size ∧ c.chunk ≤ pageSize ∧
      (c.bytesRead + c.chunk < size → (c.bytesRead + c.chunk) % pageSize = 0) := by
  have hmod : c.vaddr.tmod pageSize = c.vaddr % pageSize :=
    Int.tmod_eq_emod_of_nonneg (by omega)
  unfold chunk writeSize
  rw [hmod, hvaddr]
  unfold ChunkwisePaged pageSize at *
  rcases hchunks with hone | ⟨halign, hwhole⟩
  · split_ifs <;> omega
  · split_ifs <;> omega

theorem Stored.step (hs : OneToOne s v size) (hmapped : Mapped s v size)
    (hchunks : ChunkwisePaged v size) (h : Stored s memory buffer v size m c)
    (hstep : c.step s m = some (m', c')) :
    Stored s memory buffer v size m' c' ∧ c.InBounds ∧ c'.left < c.left := by
  obtain ⟨hv, hpages⟩ := hmapped
  obtain ⟨hread, hle⟩ := h.bytesRead
  have hsize := h.size_eq
  cases hpt : c.point with
  | fill =>
    simp only [Transfer.step, h.kind, hpt] at hstep
    split_ifs at hstep with hlt
    obtain ⟨rfl, rfl⟩ := Prod.mk.inj (Option.some.inj hstep)
    obtain ⟨hvaddr, hturn⟩ := h.fill hpt
    have hpos := chunk_pos hlt
    obtain ⟨hwrite, hbound, hpage, hnext⟩ :=
      chunk_eq_writeSize hchunks hv hsize hread hlt (hturn (by omega)) hvaddr
    refine ⟨⟨rfl, h.buffer_eq, hsize, ⟨by simp only; omega, hbound⟩, h.rest, h.done,
      fun hf => (by cases hf), fun _ => ⟨by simp only; omega, hpos, hpage, by simp only; omega, rfl,
        rfl, hwrite.symm, hnext, fun i hi hlt' => ?_⟩⟩, ?_, ?_⟩
    · dsimp only at hlt' ⊢
      rw [memcpy_of_mem ⟨hi, by omega⟩, h.buffer_eq, sub_zero, add_sub_cancel_right]
    · simp only [InBounds, hpt]
      omega
    · simp only [left, hpt, if_true, reduceCtorEq, if_false]
      omega
  | drain =>
    obtain ⟨hvaddr, hpos, hpage, hle', hwrote, hmem, hwrite, hnext, hdisk⟩ := h.drain hpt
    simp only [Transfer.step, h.kind, hpt] at hstep
    obtain ⟨rfl, rfl⟩ := Prod.mk.inj (Option.some.inj hstep)
    obtain ⟨a, ha⟩ : ∃ a, s.translate c.vaddr = some a := by
      rw [hvaddr]
      exact Option.isSome_iff_exists.mp (hpages (c.bytesRead - c.read) (by omega) (by omega))
    have hend := (writeSize_bounds (c := c) (by omega)).2
    have hplace : ∀ i, 0 ≤ i → i < c.read → s.translate (c.vaddr + i) = some (a + i) :=
      fun i hi hlt => translate_add (by omega) ha hi (by omega)
    rw [ha, Option.getD_some, hmem, hwrite]
    refine ⟨⟨rfl, h.buffer_eq, hsize, h.bytesRead, fun b hb => ?_, fun i hi hlt => ?_,
      fun _ => ⟨by simp only; omega, hnext⟩, fun hf => ?_⟩, ?_, ?_⟩
    · refine (memcpy_of_not_mem fun hin => ?_).trans (h.rest b hb)
      have hbyte := hplace (b - a) (by omega) (by omega)
      rw [hvaddr, add_assoc, add_sub_cancel] at hbyte
      exact hb _ (by omega) (by omega) hbyte
    · dsimp only at hlt ⊢
      by_cases hnew : c.vaddr ≤ v + i
      · have hbyte := hplace (v + i - c.vaddr) (by omega) (by omega)
        rw [add_sub_cancel] at hbyte
        rw [userByte, hbyte, Option.getD_some, memcpy_of_mem ⟨by omega, by omega⟩, zero_add,
          hdisk _ (by omega) (by omega)]
        congr 1
        omega
      · obtain ⟨b, hb⟩ := Option.isSome_iff_exists.mp (hpages i hi (by omega))
        have hold := h.done i hi (by omega)
        rw [userByte, hb, Option.getD_some] at hold ⊢
        refine (memcpy_of_not_mem fun hin => ?_).trans hold
        have hbyte := hplace (b - a) (by omega) (by omega)
        rw [add_sub_cancel] at hbyte
        rw [← hb, show c.vaddr + (b - a) = v + (c.vaddr + (b - a) - v) by omega] at hbyte
        have hsame := hs _ _ (by omega) (by omega) hi (by omega) hbyte
        omega
    · simp only [hwrote] at hf
      split_ifs at hf with hmore
      omega
    · simp only [InBounds, hpt]
      omega
    · simp only [left, hpt, hwrote, if_true]
      rw [if_neg (by simp)]
      omega

theorem Stored.finish (hs : OneToOne s v size) (hmapped : Mapped s v size)
    (hchunks : ChunkwisePaged v size) (h : Stored s memory buffer v size m c) (n : ℕ) :
    Stored s memory buffer v size (c.finish s n m).1 (c.finish s n m).2 ∧
      (c.left ≤ n → (c.finish s n m).2.step s (c.finish s n m).1 = none) := by
  refine finish_of_step (I := Stored s memory buffer v size)
    (fun h => left_nonneg (h.size_eq.symm ▸ h.bytesRead.2)) (fun h hc => ?_) h n
  obtain ⟨hstored, -, hlt⟩ := h.step hs hmapped hchunks hc
  exact ⟨hstored, hlt⟩

/-- A call that returns has stored everything. -/
theorem Stored.all (h : Stored s memory buffer v size m c) (hnone : c.step s m = none) :
    c.vaddr = v + size := by
  cases hpt : c.point with
  | fill =>
    simp only [Transfer.step, h.kind, hpt] at hnone
    split_ifs at hnone with hlt
    have hle := h.bytesRead.2
    have hsize := h.size_eq
    have hvaddr := (h.fill hpt).1
    omega
  | drain => simp [Transfer.step, h.kind, hpt] at hnone

theorem new_stored (s : AddrSpace) (hsize : 0 ≤ size) (m : Machine) (buffer : Chars)
    (v physAddr : ℤ) :
    Stored s m.mainMemory buffer v size m (.new .intoMemory v buffer size physAddr) :=
  ⟨rfl, rfl, rfl, ⟨le_rfl, hsize⟩, fun _ _ => rfl,
    fun i hi hlt => absurd hlt (by simp only [Transfer.new]; omega),
    fun _ => ⟨by simp [Transfer.new], fun _ => rfl⟩, fun h => by cases h⟩

end Transfer

/-- When every chunk of the buffer goes to one page, copying into memory ends, stores the bytes
of the buffer and changes no other byte of the memory, and all its copies read inside of the
buffer and of `diskBuffer`. -/
theorem copy_in_exact (s : AddrSpace) (v size : ℤ) (hsize : 0 ≤ size)
    (hmapped : 0 < size → Mapped s v size) (hs : OneToOne s v size)
    (hchunks : ChunkwisePaged v size) (m : Machine) (buffer : Chars) (physAddr : ℤ) :
    let r := userReadWrite s m v buffer size .intoMemory physAddr
    r.2.step s r.1 = none ∧
    (∀ i, 0 ≤ i → i < size → userByte s r.1.mainMemory (v + i) = buffer i) ∧
    (∀ a, (∀ i, 0 ≤ i → i < size → s.translate (v + i) ≠ some a) →
      r.1.mainMemory a = m.mainMemory a) ∧
    ∀ n m' c, (Transfer.new .intoMemory v buffer size physAddr).finish s n m = (m', c) →
      c.step s m' ≠ none → c.InBounds := by
  rcases hsize.eq_or_lt with rfl | hpos
  · have hnone : (Transfer.new .intoMemory v buffer 0 physAddr).step s m = none := rfl
    refine ⟨hnone, fun i hi hlt => absurd hlt (not_lt.mpr hi), fun a _ => rfl, ?_⟩
    intro n m' c hc hsome
    rw [Transfer.finish_of_none hnone] at hc
    obtain ⟨rfl, rfl⟩ := Prod.mk.inj hc
    exact absurd hnone hsome
  · have hnew := Transfer.new_stored s hsize m buffer v physAddr
    obtain ⟨hstored, hnone⟩ := hnew.finish hs (hmapped hpos) hchunks (2 * size.toNat)
    have hend := hnone (Transfer.left_new _ hsize _ _ _)
    have hall := hstored.all hend
    refine ⟨hend, fun i hi hlt => hstored.done i hi (by rw [hall]; omega), hstored.rest, ?_⟩
    intro n m' c hc hsome
    have hmid := (hnew.finish hs (hmapped hpos) hchunks n).1
    rw [hc] at hmid
    obtain ⟨r, hr⟩ := Option.ne_none_iff_exists'.mp hsome
    exact (hmid.step hs (hmapped hpos) hchunks hr).2.1

/-- Two pages, in the frames 1 and 0. -/
def twoPages : AddrSpace := ⟨2, fun vpn => ⟨decide (0 ≤ vpn ∧ vpn < 2), 1 - vpn⟩⟩

theorem twoPages_translate {v : ℤ} (hv : 0 ≤ v) (hlt : v < 256) :
    twoPages.translate v = some ((1 - v / 128) * 128 + v % 128) := by
  have hpage : 0 ≤ v / 128 ∧ v / 128 < 2 := by omega
  unfold AddrSpace.translate twoPages pageSize
  rw [Int.tdiv_eq_ediv_of_nonneg hv, Int.tmod_eq_emod_of_nonneg hv]
  simp [hpage, not_lt.mpr hpage.1, not_lt.mpr hpage.2.le]

theorem twoPages_mapped {v size : ℤ} (hv : 0 ≤ v) (hend : v + size ≤ 256) :
    Mapped twoPages v size := by
  refine ⟨hv, fun i hi hlt => ?_⟩
  rw [twoPages_translate (by omega) (by omega)]
  rfl

theorem twoPages_oneToOne {v size : ℤ} (hv : 0 ≤ v) (hend : v + size ≤ 256) :
    OneToOne twoPages v size := by
  intro i j hi hilt hj hjlt h
  rw [twoPages_translate (by omega) (by omega), twoPages_translate (by omega) (by omega)] at h
  have haddr := Option.some.inj h
  omega

/-- Three bytes at the end of the first page. -/
theorem copy_in_exact_page_end :
    let r := userReadWrite twoPages ⟨fun _ => 7, fun _ => 0⟩ 125 (BitVec.ofInt 8) 3 .intoMemory 0
    ∀ i, 0 ≤ i → i < 3 → userByte twoPages r.1.mainMemory (125 + i) = BitVec.ofInt 8 i :=
  (copy_in_exact twoPages 125 3 (by decide) (fun _ => twoPages_mapped (by decide) (by decide))
    (twoPages_oneToOne (by decide) (by decide)) (Or.inl (by decide)) _ _ 0).2.1

/-- Two bytes across the end of the first page: the second copy takes two bytes again, and the
byte behind the range gets what `diskBuffer` held. -/
theorem copy_in_overruns : Mapped twoPages 127 2 ∧
    (userReadWrite twoPages ⟨fun _ => 7, fun _ => 0⟩ 127 (fun _ => 1) 2 .intoMemory
      0).1.mainMemory 1 = 7 ∧
    ∀ i, 0 ≤ i → i < 2 → twoPages.translate (127 + i) ≠ some 1 := by
  refine ⟨twoPages_mapped (by decide) (by decide), by decide +kernel, fun i hi hlt => ?_⟩
  have hcases : i = 0 ∨ i = 1 := by omega
  rcases hcases with rfl | rfl
  · decide
  · decide

/-- Copying out of memory ends, gives the bytes of the process, and changes neither another
byte of the buffer nor the memory. -/
theorem copy_out_exact (s : AddrSpace) (v size : ℤ) (hsize : 0 ≤ size)
    (hmapped : Mapped s v size) (m : Machine) (buffer : Chars) (physAddr : ℤ) :
    let r := userReadWrite s m v buffer size .outOfMemory physAddr
    r.2.step s r.1 = none ∧
    (∀ i, 0 ≤ i → i < size → r.2.buffer i = userByte s m.mainMemory (v + i)) ∧
    (∀ i, ¬ (0 ≤ i ∧ i < size) → r.2.buffer i = buffer i) ∧
    r.1.mainMemory = m.mainMemory := by
  obtain ⟨hmemory, hbytes, hrest⟩ := userReadWrite_outOfMemory hmapped hsize m buffer physAddr
  refine ⟨?_, hbytes, hrest, hmemory⟩
  exact ((Transfer.new_copied s hsize m buffer v physAddr).finish hmapped (2 * size.toNat)).2
    (Transfer.left_new _ hsize _ _ _)

theorem copy_out_exact_two_pages :
    let r := userReadWrite twoPages ⟨fun _ => 0, fun a => BitVec.ofInt 8 a⟩ 100 (fun _ => 0) 50
      .outOfMemory 0
    ∀ i, 0 ≤ i → i < 50 → r.2.buffer i =
      userByte twoPages (fun a => BitVec.ofInt 8 a) (100 + i) :=
  (copy_out_exact twoPages 100 50 (by decide) (twoPages_mapped (by decide) (by decide)) _ _ 0).2.1

end Nachos.UserTransfers
