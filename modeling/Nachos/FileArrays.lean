import Nachos.FileDurability

/-!
# Open files as arrays of bytes

Within its length a file whose sectors are different sectors of the disk is an array of
bytes. `ReadAt` and `Read` give pieces of it, `WriteAt` and `Write` change the piece they
are given and nothing else. No such file is too large for the test with which `WriteAt`
begins.
-/
namespace Nachos.FileSystem
open ByteMemory

/-- The number of sectors that a file of `length` bytes needs. -/
def sectorsFor (length : ℕ) : ℕ := (length + 127) / 128

/-- A file of `length` bytes in the sectors `σ 0`, `σ 1`, … of the disk. -/
structure ArrayFile (st : Store) (h : FileHeader) (σ : ℕ → ℕ) (length : ℕ) : Prop where
  length_eq : h.fileLength = length
  maps : h.Maps st σ (sectorsFor length)

section arrays
variable {st : Store} {h : FileHeader} {σ : ℕ → ℕ} {length : ℕ}

theorem sectorsFor_bound (length : ℕ) : length ≤ sectorsFor length * sectorSize := by
  unfold sectorsFor sectorSize
  omega

/-- Different sectors of the disk are at most as many as the disk has. -/
theorem FileHeader.Maps.le_totalSectors {n : ℕ} (hm : h.Maps st σ n) : n ≤ totalSectors := by
  have hinj : Function.Injective fun i : Fin n => (⟨σ i, hm.valid i i.isLt⟩ : Fin totalSectors) := by
    intro i j hij
    exact Fin.ext (hm.injective i i.isLt j j.isLt (Fin.mk.inj hij))
  simpa using Fintype.card_le_of_injective _ hinj

theorem ArrayFile.length_le (hf : ArrayFile st h σ length) : length ≤ sectorSize * totalSectors := by
  have hle := hf.maps.le_totalSectors
  have hbound := sectorsFor_bound length
  simp only [sectorSize, totalSectors] at *
  omega

/-- The first sector of a file that is not empty is a sector of the disk. -/
theorem ArrayFile.first_lt (hf : ArrayFile st h σ length) (hpos : 0 < length) :
    (h.directDataSectors 0).toInt < totalSectors := by
  have h0 : 0 < sectorsFor length := by
    unfold sectorsFor
    omega
  obtain ⟨w, hw, hσ⟩ := hf.maps.sector 0 h0
  rw [Nat.zero_mul, FileHeader.byteToSector_zero] at hw
  obtain rfl := Option.some.inj hw
  have hlt := hf.maps.valid 0 h0
  rw [← hσ] at hlt
  rw [BitVec.toInt_eq_toNat_of_lt (by simp only [totalSectors] at hlt; omega)]
  exact_mod_cast hlt

theorem divRoundUp_natCast (n : ℕ) : divRoundUp n sectorSize = sectorsFor n := by
  unfold divRoundUp sectorsFor sectorSize
  rw [Int.tdiv_eq_ediv_of_nonneg (Int.natCast_nonneg n),
    Int.tmod_eq_emod_of_nonneg (Int.natCast_nonneg n)]
  split_ifs <;> omega

/-- A write inside of the file is never turned down for its size. -/
theorem ArrayFile.not_oversized (hf : ArrayFile st h σ length) (hpos : 0 < length)
    {position size : ℕ} (hin : position + size ≤ length) : ¬ Oversized h position size := by
  have hfirst := hf.first_lt hpos
  have hle := hf.length_le
  have hsum : h.fileLength - position + size = (length - position + size : ℕ) := by
    rw [hf.length_eq]
    omega
  unfold Oversized
  rw [hsum, divRoundUp_natCast]
  simp only [sectorsFor, sectorSize, totalSectors] at *
  omega

/-- A write inside of the file: its bytes, the header and all other sectors. -/
theorem ArrayFile.writeAt (hf : ArrayFile st h σ length) {data : List Byte} (hdata : data ≠ [])
    {position : ℕ} (hin : position + data.length ≤ length) (depth : ℕ) (junk : Junk) :
    ∃ st', writeAt (depth + 1) st h junk data position = some (data.length, st', h) ∧
      ArrayFile st' h σ length ∧
      (∀ p < length, FileHeader.contents st' σ p =
        overlay (FileHeader.contents st σ) position data p) ∧
      ∀ x, (∀ i < sectorsFor length, σ i ≠ x) → st'.disk x = st.disk x := by
  have hpos : 0 < data.length := List.length_pos_of_ne_nil hdata
  obtain ⟨st', hst', hbytes⟩ := hf.maps.writeCommon hf.length_eq (sectorsFor_bound length)
    (by omega) (junk.buffer 0) hin
  obtain ⟨hblocks, -, hhandOn, hframe⟩ := FileHeader.writeCommon_frame hst'
  refine ⟨st', ?_, ⟨hf.length_eq, hf.maps.congr hblocks hhandOn⟩, hbytes, ?_⟩
  · rw [writeAt_inside (by rw [hf.length_eq]; exact_mod_cast hin),
      if_neg (hf.not_oversized (by omega) hin), hst', Option.map_some]
  · intro x hx
    refine hframe x fun i _ hi w hw => ?_
    have hlt : i < sectorsFor length := by
      simp only [sectorsFor, sectorSize] at *
      omega
    obtain ⟨w', hw', hσ⟩ := hf.maps.sector i hlt
    obtain rfl := Option.some.inj (hw.symm.trans hw')
    rw [hσ]
    exact hx i hlt

end arrays

/-- Reads give the bytes of the file from the position on, up to its end. Writes inside of the
file change exactly the bytes they are given. `Read` and `Write` do the same at `seekPosition`
and advance it by the result. -/
theorem file_is_array (st : Store) (h : FileHeader) (σ : ℕ → ℕ) (length : ℕ)
    (hf : ArrayFile st h σ length) (position : ℕ) :
    (∀ numBytes, 1 ≤ numBytes →
      let bytes := bytesAt (FileHeader.contents st σ) position (min numBytes (length - position))
      h.readAt st numBytes position = some bytes ∧
      OpenFile.read st ⟨h, position⟩ numBytes = some (bytes, ⟨h, position + bytes.length⟩)) ∧
    ∀ data, 1 ≤ data.length → position + data.length ≤ length → ∀ depth junk, ∃ st',
      writeAt (depth + 1) st h junk data position = some (data.length, st', h) ∧
      OpenFile.write (depth + 1) st ⟨h, position⟩ junk data =
        some (data.length, st', ⟨h, position + data.length⟩) ∧
      ArrayFile st' h σ length ∧
      (∀ p < length, FileHeader.contents st' σ p =
        if position ≤ p ∧ p < position + data.length then data.getD (p - position) 0
        else FileHeader.contents st σ p) ∧
      ∀ x, (∀ i < sectorsFor length, σ i ≠ x) → st'.disk x = st.disk x := by
  constructor
  · intro numBytes _ bytes
    have hread : h.readAt st numBytes position = some bytes :=
      hf.maps.readAt hf.length_eq (sectorsFor_bound length) numBytes position
    refine ⟨hread, ?_⟩
    rw [OpenFile.read, hread, Option.map_some]
  · intro data hdata hin depth junk
    obtain ⟨st', hwrite, hf', hbytes, hframe⟩ :=
      hf.writeAt (List.ne_nil_of_length_pos hdata) hin depth junk
    refine ⟨st', hwrite, ?_, hf', fun p hp => ?_, hframe⟩
    · rw [OpenFile.write, hwrite, Option.map_some]
    · rw [hbytes p hp]
      split_ifs with hp'
      · obtain ⟨k, rfl⟩ := Nat.exists_eq_add_of_le hp'.1
        have hk : k < data.length := by omega
        rw [overlay_add (List.getElem?_eq_getElem hk), Nat.add_sub_cancel_left,
          List.getD_eq_getElem?_getD, List.getElem?_eq_getElem hk, Option.getD_some]
      · by_cases hlt : p < position
        · exact overlay_of_lt hlt
        · exact overlay_of_le (by omega)

/-- A file of ten bytes in sector 6. -/
theorem sampleStore_array : ArrayFile (sampleStore 10 1 6)
    ⟨10, 1, fun _ => 6, fun _ => 0, fun _ => 0⟩ (fun _ => 6) 10 := by
  refine ⟨by decide, fun i hi => ?_, fun i _ => by decide, fun i hi j hj _ => ?_⟩
  · obtain rfl : i = 0 := by
      have hi : i < 1 := hi
      omega
    exact ⟨6, rfl, rfl⟩
  · have hi : i < 1 := hi
    have hj : j < 1 := hj
    omega

/-- Two bytes are written into a file of ten bytes. -/
theorem file_is_array_ten : ∃ st',
    OpenFile.write 1 (sampleStore 10 1 6) ⟨⟨10, 1, fun _ => 6, fun _ => 0, fun _ => 0⟩, 3⟩ clearJunk
      [7, 8] = some (2, st', ⟨⟨10, 1, fun _ => 6, fun _ => 0, fun _ => 0⟩, 5⟩) := by
  obtain ⟨st', -, hwrite, -⟩ := (file_is_array _ _ _ 10 sampleStore_array 3).2 [7, 8] (by decide)
    (by decide) 0 clearJunk
  exact ⟨st', hwrite⟩

end Nachos.FileSystem
