import Nachos.HeaderSectors
import Nachos.SystemFiles

/-!
# Writes that extend a file

A write at or behind the end of a file appends its bytes when `WriteAt` computes the number
of new sectors that the new length needs and these are direct entries of the header. The
number is wrong when the bytes end in the first byte of a sector, when an empty file gets
more than one sector and when a file of one sector stays in it. A write that starts inside
of the file never goes behind its old end.
-/
namespace Nachos.FileSystem
open ByteMemory

/-- The lengths for which `WriteAt` counts the new sectors right. -/
def Counted (length size : ℕ) : Prop :=
  (length = 0 ∧ 1 ≤ size ∧ size ≤ sectorSize) ∨
  (0 < length ∧ length < sectorSize ∧ sectorSize < length + size ∧
    (length + size = sectorSize + 1 ∨ (length + size) % sectorSize ≠ 1)) ∨
  (sectorSize ≤ length ∧ (length + size) % sectorSize ≠ 1)

/-- The write of no bytes at the end of a file that is not empty, or a write at or behind the end
that is counted right and goes to direct entries or to no new sector. The first entry of an empty
file is not set, but `WriteAt` tests it. -/
def Appended (h : FileHeader) (length position size : ℕ) : Prop :=
  (position = length ∧ size = 0 ∧ 0 < length) ∨
  (length ≤ position ∧ Counted length size ∧
    (sectorsFor (length + size) = sectorsFor length ∨ length + size ≤ 4 * sectorSize) ∧
    (length = 0 → ¬ Oversized h position size))

/-- A file of `length` bytes in a volume. Its sectors are marked in the free map, and so are
sector 0 with the header of the free map and its sector `x`, which are not among them. -/
structure VolumeFile (st : Store) (h : FileHeader) (σ : ℕ → ℕ) (length x : ℕ) : Prop where
  array : ArrayFile st h σ length
  numSectors : h.numSectors.toInt = sectorsNeeded length
  mapFile : MapFile (OpenFile.create st 0).hdr x
  ne : x ≠ 0
  system : (diskMap (st.disk x)).bit 0 = true ∧ (diskMap (st.disk x)).bit x = true
  marked : ∀ i < sectorsFor length, (diskMap (st.disk x)).bit (σ i) = true
  apart : ∀ i < sectorsFor length, σ i ≠ 0 ∧ σ i ≠ x

section counting

theorem divRoundUp_of_nonpos {k : ℕ} (hk : k < sectorSize) :
    divRoundUp (-(k : ℤ)) sectorSize = 0 := by
  have hdiv : (-(k : ℤ)).tdiv sectorSize = 0 := by
    rw [Int.neg_tdiv, Int.tdiv_eq_ediv_of_nonneg (Int.natCast_nonneg k)]
    simp only [sectorSize] at *
    omega
  have hmod : ¬ (-(k : ℤ)).tmod sectorSize > 0 := by
    rw [Int.neg_tmod, Int.tmod_eq_emod_of_nonneg (Int.natCast_nonneg k)]
    simp only [sectorSize] at *
    omega
  rw [divRoundUp, hdiv, if_neg hmod]
  rfl

theorem newSectors_eq (size last : ℕ) :
    newSectors size last = divRoundUp (size + (last % sectorSize : ℕ) - sectorSize) sectorSize := by
  have hmod : last - last / sectorSize * sectorSize = last % sectorSize := by
    simp only [sectorSize]
    omega
  unfold newSectors
  rw [hmod]
  congr 1
  ring

theorem appendSectors_counted {length size : ℕ} (h : Counted length size) :
    appendSectors size length = (sectorsFor (length + size) - sectorsFor length : ℕ) := by
  generalize ho : (length - 1) % sectorSize = o
  have hlt : o < sectorSize := ho ▸ Nat.mod_lt _ (by decide)
  have hn : newSectors size (length - 1) =
      if sectorSize < size + o then (sectorsFor (size + o - sectorSize) : ℤ)
      else if sectorSize < size + o + sectorSize then 0 else -1 := by
    rw [newSectors_eq, ho]
    split_ifs with hpos hsmall
    · rw [show (size : ℤ) + o - sectorSize = (size + o - sectorSize : ℕ) by omega,
        divRoundUp_natCast]
    · rw [show (size : ℤ) + o - sectorSize = -((sectorSize - (size + o) : ℕ) : ℤ) by omega,
        divRoundUp_of_nonpos (by omega)]
    · obtain rfl : size = 0 := by omega
      obtain rfl : o = 0 := by omega
      rfl
  unfold appendSectors
  rw [hn]
  unfold Counted at h
  simp only [sectorsFor, sectorSize] at *
  split_ifs <;> omega

end counting

/-- The third case: the write starts at or behind the end of the file. -/
theorem writeAt_behind {h : FileHeader} {length position : ℕ} {data : List Byte}
    (hlen : h.fileLength = length) (hover : ¬ Oversized h position data.length)
    (hout : length < position + data.length) (hpos : length ≤ position) (depth : ℕ) (st : Store)
    (junk : Junk) :
    writeAt (depth + 1) st h junk data position =
      (extendWith (fun st h l => (writeAt depth st h junk.inner l 0).map fun r => r.2.1) st h junk
        (appendSectors data.length length) (length + data.length)).bind fun r =>
      if r.1 then
        (r.2.2.writeCommon r.2.1 (junk.buffer 0) data length).map fun st => (data.length, st, r.2.2)
      else some (0, r.2) := by
  rw [Oversized, hlen] at hover
  have hnot : ¬ (position : ℤ) + data.length ≤ length := by omega
  have hnot' : ¬ (position : ℤ) < length := by omega
  have hnot'' : ¬ (length : ℤ) < 0 := by omega
  simp only [writeAt, FileHeader.byteToSector_zero, Option.bind_some, hlen, if_neg hover,
    if_neg hnot, if_neg hnot', if_neg hnot'', Int.toNat_natCast]

/-- The file when its header is extended and the free map is written, before its bytes are. -/
structure Staged (st : Store) (h : FileHeader) (σ : ℕ → ℕ) (length x size : ℕ) (st₁ : Store)
    (h₁ : FileHeader) (σ₁ : ℕ → ℕ) : Prop where
  file : VolumeFile st₁ h₁ σ₁ (length + size) x
  old : ∀ i < sectorsFor length, σ₁ i = σ i
  disk : ∀ y, y ≠ x → st₁.disk y = st.disk y
  empty : size = 0 → h₁ = h ∧ st₁.disk = st.disk

section appending
variable {st st₁ : Store} {h h₁ : FileHeader} {σ σ₁ : ℕ → ℕ} {length x size : ℕ}

theorem VolumeFile.staged (hf : VolumeFile st h σ length x) : Staged st h σ length x 0 st h σ :=
  ⟨hf, fun _ _ => rfl, fun _ _ => rfl, fun _ => ⟨rfl, rfl⟩⟩

/-- The common part of `WriteAt` then writes the bytes behind the old end. -/
theorem Staged.finish (data : List Byte) (hs : Staged st h σ length x data.length st₁ h₁ σ₁)
    (hpos : 0 < length + data.length) (hf : VolumeFile st h σ length x) (junk : Memory) :
    ∃ st', h₁.writeCommon st₁ junk data length = some st' ∧
      VolumeFile st' h₁ σ₁ (length + data.length) x ∧
      h₁.readAt st' data.length length = some data ∧
      h₁.readAt st' length 0 = h.readAt st length 0 ∧
      (data = [] → h₁ = h ∧ ∀ y, (∀ i < sectorsFor length, σ i ≠ y) →
        st'.disk y = st.disk y) := by
  obtain ⟨harray, hnum, hmap, hne, hsystem, hmarked, hapart⟩ := hs.file
  obtain ⟨st', hst', hbytes⟩ := harray.maps.writeCommon harray.length_eq (sectorsFor_bound _) hpos
    junk (show length + data.length ≤ length + data.length from le_rfl)
  obtain ⟨hblocks, -, hhandOn, hframe⟩ := FileHeader.writeCommon_frame hst'
  have hother : ∀ y, (∀ i < sectorsFor (length + data.length), σ₁ i ≠ y) →
      st'.disk y = st₁.disk y := by
    intro y hy
    refine hframe y fun i _ hi w hw => ?_
    have hlt : i < sectorsFor (length + data.length) := by
      simp only [sectorsFor, sectorSize] at *
      omega
    obtain ⟨w', hw', hσ⟩ := harray.maps.sector i hlt
    obtain rfl := Option.some.inj (hw.symm.trans hw')
    rw [hσ]
    exact hy i hlt
  have hx : st'.disk x = st₁.disk x := hother x fun i hi => (hapart i hi).2
  have h0 : st'.disk 0 = st₁.disk 0 := hother 0 fun i hi => (hapart i hi).1
  have harray' : ArrayFile st' h₁ σ₁ (length + data.length) :=
    ⟨harray.length_eq, harray.maps.congr hblocks hhandOn⟩
  refine ⟨st', hst', ⟨harray', hnum, ?_, hne, by rwa [hx], by rwa [hx], hapart⟩, ?_, ?_, ?_⟩
  · rw [OpenFile.create, h0]
    exact hmap
  · rw [harray'.maps.readAt harray'.length_eq (sectorsFor_bound _), Nat.add_sub_cancel_left,
      min_self]
    congr 1
    apply List.ext_getElem?
    intro k
    by_cases hk : k < data.length
    · rw [bytesAt_getElem? hk, hbytes _ (by omega), overlay_add (List.getElem?_eq_getElem hk),
        List.getElem?_eq_getElem hk]
    · rw [List.getElem?_eq_none (by simpa using hk), List.getElem?_eq_none (by omega)]
  · rw [harray'.maps.readAt harray'.length_eq (sectorsFor_bound _),
      hf.array.maps.readAt hf.array.length_eq (sectorsFor_bound _)]
    rw [show min length (length + data.length - 0) = length by omega,
      show min length (length - 0) = length by omega]
    congr 1
    apply List.map_congr_left
    intro p hp
    have hp := List.mem_range.mp hp
    rw [Nat.zero_add, hbytes p (by omega), overlay_of_lt hp]
    have hi : p / sectorSize < sectorsFor length := by
      simp only [sectorsFor, sectorSize]
      omega
    unfold FileHeader.contents
    rw [hs.old _ hi, hs.disk _ (hf.apart _ hi).2]
  · rintro rfl
    obtain ⟨hh, hdisk⟩ := hs.empty rfl
    refine ⟨hh, fun y hy => ?_⟩
    rw [hother y fun i hi => by rw [hs.old i hi]; exact hy i hi, hdisk]

theorem sectorsNeeded_congr {a b : ℕ} (h : sectorsFor a = sectorsFor b) :
    sectorsNeeded a = sectorsNeeded b := by
  unfold sectorsNeeded
  rw [h]

/-- Where the sectors of the file are after new ones were added. -/
def behind (σ : ℕ → ℕ) (n : ℕ) (l : List ℕ) (i : ℕ) : ℕ := if i < n then σ i else l.getD (i - n) 0

/-- New sectors that were clear come behind the marked ones of the file. -/
theorem Grown.maps {c c' : Allocation} {n : ℕ} {bytes : Word} {l : List ℕ}
    (hg : Grown c n bytes c') (hlen : l.length = n) (hnodup : l.Nodup)
    (hclear : ∀ x ∈ l, x < totalSectors ∧ c.freeMap.bit x = false) {count : ℕ}
    (hnew : ∀ i < n, (c'.hdr.byteToSector c'.store ((count + i) * sectorSize)).map BitVec.toNat =
      l[i]?) (hm : c.hdr.Maps c.store σ count) (hcount : (count : ℤ) ≤ c.hdr.numSectors.toInt)
    (hmarked : ∀ i < count, c.freeMap.bit (σ i) = true) :
    c'.hdr.Maps c'.store (behind σ count l) (count + n) := by
  have hget : ∀ i, ¬ i < count → i < count + n →
      ∃ hi : i - count < l.length, behind σ count l i = l.get ⟨i - count, hi⟩ := by
    intro i hi hlt
    have hlt' : i - count < l.length := by omega
    refine ⟨hlt', ?_⟩
    rw [behind, if_neg hi, List.getD_eq_getElem?_getD, List.getElem?_eq_getElem hlt']
    rfl
  have hsplit : ∀ i, ¬ i < count → i < count + n →
      behind σ count l i < totalSectors ∧ c.freeMap.bit (behind σ count l i) = false := by
    intro i hi hlt
    obtain ⟨hi', he⟩ := hget i hi hlt
    rw [he]
    exact hclear _ (List.get_mem _ _)
  have hmix : ∀ i j, i < count → ¬ j < count → j < count + n →
      behind σ count l i ≠ behind σ count l j := by
    intro i j hi hj hlt he
    have hbit := (hsplit j hj hlt).2
    rw [← he, behind, if_pos hi, hmarked i hi] at hbit
    cases hbit
  refine ⟨fun i hi => ?_, fun i hi => ?_, fun i hi j hj he => ?_⟩
  · by_cases hlt : i < count
    · have hdiv : i * sectorSize / sectorSize = i := Nat.mul_div_cancel _ (by decide)
      rw [hg.kept _ (by rw [hdiv]; omega), behind, if_pos hlt]
      exact hm.sector i hlt
    · obtain ⟨hi', he⟩ := hget i hlt hi
      have hsector := hnew (i - count) (by omega)
      rw [show count + (i - count) = i by omega, List.getElem?_eq_getElem hi'] at hsector
      obtain ⟨w, hw, hnat⟩ := Option.map_eq_some_iff.mp hsector
      exact ⟨w, hw, hnat.trans he.symm⟩
  · by_cases hlt : i < count
    · rw [behind, if_pos hlt]
      exact hm.valid i hlt
    · exact (hsplit i hlt hi).1
  · by_cases hic : i < count
    · by_cases hjc : j < count
      · rw [behind, if_pos hic, behind, if_pos hjc] at he
        exact hm.injective i hic j hjc he
      · exact absurd he (hmix i j hic hjc hj)
    · by_cases hjc : j < count
      · exact absurd he.symm (hmix j i hjc hic hi)
      · obtain ⟨hi', hei⟩ := hget i hic hi
        obtain ⟨hj', hej⟩ := hget j hjc hj
        rw [hei, hej] at he
        have hsame := Fin.mk.inj (hnodup.get_inj_iff.mp he)
        omega

theorem VolumeFile.direct (hf : VolumeFile st h σ length x)
    (hdirect : sectorsFor (length + size) = sectorsFor length ∨ length + size ≤ 4 * sectorSize) :
    Direct ⟨h, diskMap (st.disk x), st⟩ (sectorsFor (length + size) - sectorsFor length) := by
  rcases hdirect with hsame | hsmall
  · exact Or.inl (by omega)
  · obtain ⟨hneed, hle⟩ := Allocation.small_needed (le_trans (Nat.le_add_right length size) hsmall)
    obtain ⟨-, hle'⟩ := Allocation.small_needed hsmall
    have hnum := hf.numSectors
    have hmono : sectorsFor length ≤ sectorsFor (length + size) := by
      unfold sectorsFor
      omega
    exact Or.inr (Or.inl ⟨by simp only; omega, by simp only; omega⟩)

theorem VolumeFile.length_lt (hf : VolumeFile st h σ length x)
    (hdirect : sectorsFor (length + size) = sectorsFor length ∨ length + size ≤ 4 * sectorSize) :
    length + size < 2 ^ 31 := by
  have hle := hf.array.length_le
  have hbound := sectorsFor_bound (length + size)
  have hnext : sectorsFor length * sectorSize ≤ length + 127 := by
    simp only [sectorsFor, sectorSize]
    omega
  rcases hdirect with hsame | hsmall
  · rw [hsame] at hbound
    simp only [sectorSize, totalSectors] at *
    omega
  · simp only [sectorSize] at hsmall
    omega

/-- The header is extended and the free map written to its sector. -/
theorem VolumeFile.extendWith (hf : VolumeFile st h σ length x) (hcount : Counted length size)
    (hdirect : sectorsFor (length + size) = sectorsFor length ∨ length + size ≤ 4 * sectorSize)
    (henough : sectorsFor (length + size) - sectorsFor length ≤ (diskMap (st.disk x)).numClear)
    (depth : ℕ) (junk : Junk) :
    ∃ c', Grown ⟨h, diskMap (st.disk x), st⟩ (sectorsFor (length + size) - sectorsFor length)
        (BitVec.ofInt 32 (length + size : ℕ)) c' ∧
      (size = 0 → c' = ⟨h, diskMap (st.disk x), st⟩) ∧
      extendWith (fun st h l => (writeAt (depth + 1) st h junk.inner l 0).map fun r => r.2.1) st h
        junk (appendSectors size length) (length + size) =
          some (true, st.withSector x (mapSector c'.freeMap), c'.hdr) := by
  have hbytes : (BitVec.ofInt 32 ((length + size : ℕ) : ℤ)).toInt = (length : ℤ) + size := by
    have hlt := hf.length_lt hdirect
    rw [BitVec.toInt_ofInt_eq_self (by decide) (by omega) (by omega)]
    push_cast
    rfl
  obtain ⟨c', hc', hg⟩ := extendFile_grown (c := ⟨h, diskMap (st.disk x), st⟩) (diskMap_numBits _)
    (hf.direct hdirect) henough junk.block (BitVec.ofInt 32 (length + size : ℕ))
  rw [hbytes] at hc'
  refine ⟨c', hg, ?_, ?_⟩
  · rintro rfl
    rw [Nat.add_zero, Nat.sub_self, Nat.cast_zero, Allocation.extendFile_zero] at hc'
    have hsame : BitVec.ofInt 32 ((length : ℤ) + 0) = h.numBytes := by
      rw [add_zero]
      exact Allocation.eq_ofInt_of_toInt hf.array.length_eq
    rw [hsame] at hc'
    exact (Prod.mk.inj (Option.some.inj hc')).2.symm
  · unfold FileSystem.extendWith
    simp only [hf.mapFile.fetch st, Option.bind_some, appendSectors_counted hcount, hc', if_true]
    have hwrite := hf.mapFile.write depth st junk.inner c'.freeMap
    rw [hg.store]
    rw [show bytesAt (mapBytes c'.freeMap) 0 freeMapFileSize = freeMapBytes c'.freeMap from rfl,
      hwrite]
    rfl

theorem VolumeFile.stage (hf : VolumeFile st h σ length x) (hcount : Counted length size)
    (hdirect : sectorsFor (length + size) = sectorsFor length ∨ length + size ≤ 4 * sectorSize)
    (henough : sectorsFor (length + size) - sectorsFor length ≤ (diskMap (st.disk x)).numClear)
    (depth : ℕ) (junk : Junk) :
    ∃ st₁ h₁ σ₁, FileSystem.extendWith (fun st h l =>
        (writeAt (depth + 1) st h junk.inner l 0).map fun r => r.2.1) st h junk
          (appendSectors size length) (length + size) = some (true, st₁, h₁) ∧
      Staged st h σ length x size st₁ h₁ σ₁ := by
  obtain ⟨c', hg, hzero, hext⟩ := hf.extendWith hcount hdirect henough depth junk
  obtain ⟨l, hlen, hnodup, hclear, hbit, hnew⟩ := hg.added
  have hmono : sectorsFor length ≤ sectorsFor (length + size) := by
    unfold sectorsFor
    omega
  have hneed : (sectorsFor length : ℤ) ≤ h.numSectors.toInt := by
    rw [hf.numSectors]
    unfold sectorsNeeded
    omega
  have hstart : ∀ i < sectorsFor (length + size) - sectorsFor length,
      (c'.hdr.byteToSector c'.store ((sectorsFor length + i) * sectorSize)).map BitVec.toNat =
        l[i]? := by
    intro i hi
    have hsmall := hdirect.resolve_left (by omega)
    have hneed := (Allocation.small_needed (le_trans (Nat.le_add_right length size) hsmall)).1
    have hnum : h.numSectors.toInt.toNat = sectorsFor length := by
      rw [hf.numSectors, Int.toNat_natCast, hneed]
    have hi' := hnew i hi
    simp only [hnum] at hi'
    exact hi'
  have hmaps := hg.maps hlen hnodup hclear hstart hf.array.maps hneed hf.marked
  rw [Nat.add_sub_cancel' hmono] at hmaps
  -- the bits of the map that is now on disk
  have hmap : ∀ y < totalSectors, (diskMap ((st.withSector x (mapSector c'.freeMap)).disk x)).bit y =
      true ↔ (diskMap (st.disk x)).bit y = true ∨ y ∈ l := by
    intro y hy
    rw [Store.withSector_self, bit_diskMap_mapSector _ hy]
    exact hbit y
  have hsys := hf.system
  have hsplit : ∀ i < sectorsFor (length + size),
      (i < sectorsFor length ∧ behind σ (sectorsFor length) l i = σ i) ∨
        behind σ (sectorsFor length) l i ∈ l := by
    intro i hi
    by_cases hlt : i < sectorsFor length
    · exact Or.inl ⟨hlt, if_pos hlt⟩
    · have hlt' : i - sectorsFor length < l.length := by omega
      rw [behind, if_neg hlt, List.getD_eq_getElem?_getD, List.getElem?_eq_getElem hlt']
      exact Or.inr (List.getElem_mem hlt')
  refine ⟨_, _, behind σ (sectorsFor length) l, hext, ⟨⟨?_, ?_⟩, ?_, ?_, hf.ne, ?_, ?_, ?_⟩,
    fun i hi => if_pos hi, fun y hy => Store.withSector_of_ne st hy _, fun h0 => ?_⟩
  · have hlt := hf.length_lt hdirect
    rw [hg.length, BitVec.toInt_ofInt_eq_self (by decide) (by omega) (by omega)]
  · exact hmaps.congr (by rw [hg.store]; rfl) (by rw [hg.store]; rfl)
  · rw [hg.numSectors]
    have hnum := hf.numSectors
    rcases hdirect with hsame | hsmall
    · rw [sectorsNeeded_congr hsame]
      simp only
      omega
    · have hneed := (Allocation.small_needed hsmall).1
      have hneed' := (Allocation.small_needed (le_trans (Nat.le_add_right length size) hsmall)).1
      simp only
      omega
  · rw [OpenFile.create, Store.withSector_of_ne st hf.ne.symm]
    exact hf.mapFile
  · exact ⟨(hmap 0 (by decide)).mpr (Or.inl hsys.1),
      (hmap x hf.mapFile.lt).mpr (Or.inl hsys.2)⟩
  · intro i hi
    refine (hmap _ (hmaps.valid i hi)).mpr ?_
    rcases hsplit i hi with ⟨hlt, he⟩ | hmem
    · rw [he]
      exact Or.inl (hf.marked i hlt)
    · exact Or.inr hmem
  · intro i hi
    rcases hsplit i hi with ⟨hlt, he⟩ | hmem
    · rw [he]
      exact hf.apart i hlt
    · have hfree := (hclear _ hmem).2
      refine ⟨fun he => ?_, fun he => ?_⟩
      · rw [he] at hfree
        exact absurd (hsys.1.symm.trans hfree) (by decide)
      · rw [he] at hfree
        exact absurd (hsys.2.symm.trans hfree) (by decide)
  · rw [hzero h0]
    refine ⟨rfl, ?_⟩
    rw [mapSector_diskMap]
    exact Function.update_eq_self x st.disk

/-- A file that is not empty is never too large for its write. -/
theorem VolumeFile.not_oversized (hf : VolumeFile st h σ length x) (hpos : 0 < length)
    {position : ℕ} (hle : length ≤ position)
    (hdirect : sectorsFor (length + size) = sectorsFor length ∨ length + size ≤ 4 * sectorSize) :
    ¬ Oversized h position size := by
  have hfirst := hf.array.first_lt hpos
  have hsize : size ≤ 4 * sectorSize := by
    simp only [sectorsFor, sectorSize] at *
    omega
  have hcount : divRoundUp (h.fileLength - position + size) sectorSize ≤ 4 := by
    rw [hf.array.length_eq]
    by_cases hneg : (length : ℤ) - position + size < 0
    · obtain ⟨k, hk⟩ := Int.exists_eq_neg_ofNat hneg.le
      rw [hk]
      unfold divRoundUp
      rw [Int.neg_tdiv, Int.neg_tmod, Int.tdiv_eq_ediv_of_nonneg (Int.natCast_nonneg k),
        Int.tmod_eq_emod_of_nonneg (Int.natCast_nonneg k)]
      simp only [sectorSize]
      split_ifs <;> omega
    · obtain ⟨k, hk⟩ := Int.eq_ofNat_of_zero_le (not_lt.mp hneg)
      rw [hk, divRoundUp_natCast]
      simp only [sectorsFor, sectorSize] at *
      omega
  unfold Oversized
  simp only [sectorSize, totalSectors] at *
  omega

end appending

/-- A write at or behind the end of a file appends its bytes, as long as it is one of those
described. -/
theorem append_extends (st : Store) (h : FileHeader) (σ : ℕ → ℕ) (length x : ℕ)
    (hf : VolumeFile st h σ length x) (data : List Byte) (position : ℕ)
    (hcov : Appended h length position data.length)
    (henough : sectorsFor (length + data.length) - sectorsFor length ≤
      (diskMap (st.disk x)).numClear) (depth : ℕ) (junk : Junk) :
    ∃ st' h' σ', writeAt (depth + 2) st h junk data position = some (data.length, st', h') ∧
      h'.fileLength = (length + data.length : ℕ) ∧
      h'.numSectors.toInt = sectorsNeeded (length + data.length) ∧
      VolumeFile st' h' σ' (length + data.length) x ∧
      h'.readAt st' data.length length = some data ∧
      h'.readAt st' length 0 = h.readAt st length 0 ∧
      (data = [] → h' = h ∧ ∀ y, (∀ i < sectorsFor length, σ i ≠ y) →
        st'.disk y = st.disk y) := by
  by_cases hout : length < position + data.length
  · obtain ⟨hle, hcount, hdirect, hempty⟩ := hcov.resolve_left (by omega)
    have hover : ¬ Oversized h position data.length := by
      by_cases hzero : length = 0
      · exact hempty hzero
      · exact hf.not_oversized (Nat.pos_of_ne_zero hzero) hle hdirect
    have hpos : 0 < length + data.length := by
      unfold Counted at hcount
      simp only [sectorSize] at hcount
      omega
    obtain ⟨st₁, h₁, σ₁, hext, hs⟩ := hf.stage hcount hdirect henough depth junk
    obtain ⟨st', hst', hfile, hnew, hold, hnone⟩ := hs.finish data hpos hf (junk.buffer 0)
    refine ⟨st', h₁, σ₁, ?_, hfile.array.length_eq, hfile.numSectors, hfile, hnew, hold, hnone⟩
    rw [writeAt_behind hf.array.length_eq hover hout hle, hext, Option.bind_some]
    simp only [if_true, hst', Option.map_some]
  · -- no bytes at the end of the file are the first case of `WriteAt`
    obtain ⟨rfl, hsize, hpos⟩ : position = length ∧ data.length = 0 ∧ 0 < length := by
      unfold Appended Counted at hcov
      simp only [sectorSize] at hcov
      omega
    obtain rfl : data = [] := List.eq_nil_of_length_eq_zero hsize
    obtain ⟨st', hst', hfile, hnew, hold, hnone⟩ := hf.staged.finish [] hpos hf (junk.buffer 0)
    refine ⟨st', h, σ, ?_, hfile.array.length_eq, hfile.numSectors, hfile, hnew, hold, hnone⟩
    have hin : ((position : ℤ) + ([] : List Byte).length) ≤ h.fileLength := by
      rw [hf.array.length_eq]
      simp
    rw [writeAt_inside hin, if_neg (hf.array.not_oversized hpos (by simp)), hst']
    rfl

/-- The sample disk with a free map in which the sectors 0, 2, 5 and 6 are marked. -/
def markedStore (length sectors first : Word) : Store :=
  (sampleStore length sectors first).withSector 2 fun i => if i = 0 then 101 else 0

def sampleHeader (length sectors first : Word) : FileHeader :=
  ⟨length, sectors, fun _ => first, fun _ => 0, fun _ => 0⟩

/-- One byte for an empty file. -/
theorem append_extends_empty : ∃ st' h',
    writeAt 2 (markedStore 0 0 0) (sampleHeader 0 0 0) clearJunk [7] 0 = some (1, st', h') ∧
      h'.fileLength = 1 ∧ h'.readAt st' 1 0 = some [7] := by
  have hf : VolumeFile (markedStore 0 0 0) (sampleHeader 0 0 0) id 0 2 := by
    refine ⟨⟨rfl, ?_, ?_, ?_⟩, rfl, ⟨?_, ?_, by decide⟩, by decide, ?_, ?_, ?_⟩
    · exact fun i hi => absurd hi (by simp [sectorsFor])
    · exact fun i hi => absurd hi (by simp [sectorsFor])
    · exact fun i hi => absurd hi (by simp [sectorsFor])
    · decide +kernel
    · decide +kernel
    · decide +kernel
    · exact fun i hi => absurd hi (by simp [sectorsFor])
    · exact fun i hi => absurd hi (by simp [sectorsFor])
  obtain ⟨st', h', -, hwrite, hlen, -, -, hread, -⟩ := append_extends _ _ _ 0 2 hf [7] 0
    (Or.inr ⟨le_rfl, Or.inl (by decide), Or.inr (by decide), fun _ => by decide⟩)
    (by decide +kernel) 0 clearJunk
  exact ⟨st', h', hwrite, hlen, hread⟩

/-- Ten bytes at position 5 of a file of ten bytes are cut off at its old end, and the 129th byte
of a file gets no sector. -/
theorem extension_cut_off :
    (writeAt 2 (markedStore 10 1 6) (sampleHeader 10 1 6) clearJunk (List.replicate 10 7) 5).map
      Prod.fst = some 5 ∧
    (writeAt 2 (markedStore 128 1 6) (sampleHeader 128 1 6) clearJunk [7] 128).map
      (fun r => (r.1, r.2.2.fileLength, r.2.2.numSectors)) = some (1, 129, 1#32) := by
  decide +kernel

end Nachos.FileSystem
