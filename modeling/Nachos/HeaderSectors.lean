import Nachos.FileArrays
import Nachos.HeaderGrowth

/-!
# The sectors of a new header

`Allocate` counts the data sectors of a file and one sector for every started group of 31
behind the first four. When there is such a group it counts the groups again from this
sum, takes all of them for full and does not look at the size of the table, so what it
marks is what the file needs only for the direct entries. `ByteToSector` finds the direct
entries, and with luck those of the first block: it divides the number of a group by the
size of a sector, and it has no return statement for them.
-/
namespace Nachos.FileSystem

/-- One pointer sector for every started group of data sectors beyond the first four. -/
def blocksFor (n : ℕ) : ℕ := (n - 4 + 30) / pointerSectors

/-- All sectors that a file of the given size needs. -/
def sectorsNeeded (fileSize : ℕ) : ℕ := sectorsFor fileSize + blocksFor (sectorsFor fileSize)

namespace Allocation
variable {junk : ℕ → ℕ → Word} {c c' : Allocation} {fileSize : ℕ}

theorem sizedHeader_numSectors (h : FileHeader) (hlt : fileSize < 2 ^ 31) :
    (sizedHeader h fileSize).numSectors = BitVec.ofNat 32 (sectorsNeeded fileSize) := by
  have hn : BitVec.ofInt 32 (divRoundUp fileSize sectorSize) =
      BitVec.ofNat 32 (sectorsFor fileSize) := by
    rw [divRoundUp_natCast, BitVec.ofInt_natCast]
  have hsum : (BitVec.ofNat 32 (sectorsFor fileSize) + 26#32).toNat = sectorsFor fileSize + 26 := by
    unfold sectorsFor
    rw [BitVec.toNat_add, BitVec.toNat_ofNat, BitVec.toNat_ofNat]
    omega
  have hblocks : (sectorsFor fileSize + 26) / pointerSectors = blocksFor (sectorsFor fileSize) := by
    unfold blocksFor pointerSectors
    omega
  unfold sizedHeader sectorsNeeded
  simp only [hn]
  rw [FileHeader.indirects_eq, hsum, hblocks, BitVec.ofNat_add]

theorem sectorsNeeded_lt (hlt : fileSize < 2 ^ 31) : sectorsNeeded fileSize < 2 ^ 30 := by
  unfold sectorsNeeded blocksFor sectorsFor pointerSectors
  omega

theorem sizedHeader_toInt (h : FileHeader) (hlt : fileSize < 2 ^ 31) :
    (sizedHeader h fileSize).numSectors.toInt = sectorsNeeded fileSize := by
  have hle := sectorsNeeded_lt hlt
  rw [sizedHeader_numSectors h hlt, BitVec.toInt_eq_toNat_of_lt, BitVec.toNat_ofNat]
  · omega
  · rw [BitVec.toNat_ofNat]
    omega

/-- Four sectors need no block. -/
theorem small_needed (hsmall : fileSize ≤ 4 * sectorSize) :
    sectorsNeeded fileSize = sectorsFor fileSize ∧ sectorsFor fileSize ≤ 4 := by
  unfold sectorsNeeded blocksFor sectorsFor pointerSectors
  simp only [sectorSize] at hsmall
  omega

/-- Marked and different sectors can be released one after the other. -/
theorem exists_release {m : BitMap} (hm : m.numBits = totalSectors) {l : List Word}
    (hreal : ∀ w ∈ l, w.toNat < totalSectors ∧ m.bit w.toNat = true)
    (hnodup : (l.map BitVec.toNat).Nodup) : ∃ m', l.foldlM release m = some m' := by
  induction l generalizing m with
  | nil => exact ⟨m, rfl⟩
  | cons w l ih =>
    obtain ⟨hw, hl⟩ := List.forall_mem_cons.mp hreal
    rw [List.map_cons, List.nodup_cons] at hnodup
    have hint : w.toInt = w.toNat := by
      refine BitVec.toInt_eq_toNat_of_lt ?_
      have hlt := hw.1
      simp only [totalSectors] at hlt
      omega
    have hrange : m.InRange w.toNat := ⟨Int.natCast_nonneg _, by rw [hm]; exact_mod_cast hw.1⟩
    have hrelease : release m w = some (m.resetBit w.toNat) := by
      unfold release BitMap.test BitMap.clear
      rw [hint, if_pos hrange, Option.bind_some, Int.toNat_natCast, hw.2, if_pos rfl,
        if_pos hrange]
    have hrest : ∀ v ∈ l, v.toNat < totalSectors ∧ (m.resetBit w.toNat).bit v.toNat = true := by
      intro v hv
      have hne : w.toNat ≠ v.toNat := fun he => hnodup.1 (he ▸ List.mem_map_of_mem hv)
      refine ⟨(hl v hv).1, ?_⟩
      rw [BitMap.bit_resetBit, (hl v hv).2]
      simp [hne]
    obtain ⟨m', hm'⟩ := ih (m := m.resetBit w.toNat) hm hrest hnodup.2
    exact ⟨m', by rw [List.foldlM_cons, hrelease]; exact hm'⟩

/-- A header whose tables hold `l`, taken from `m`, is released to `m` again. -/
theorem exists_deallocate {m : BitMap} {l : List Word} (hm : m.numBits = totalSectors)
    (htaken : Taken m l c'.freeMap) (hreal : ∀ w ∈ l, w.toNat < totalSectors)
    (hnone : FileHeader.indirects c'.hdr.numSectors = 0) (hl : c'.hdr.directSectors = l) :
    ∃ c'', c'.deallocate = some c'' ∧ c''.freeMap = m := by
  have hall : realSectors l = l.map BitVec.toNat := by
    rw [realSectors, List.filter_eq_self]
    intro x hx
    obtain ⟨w, hw, rfl⟩ := List.mem_map.mp hx
    exact decide_eq_true (hreal w hw)
  have hbits := htaken.numBits.trans hm
  have hmarked : ∀ w ∈ l, w.toNat < totalSectors ∧ c'.freeMap.bit w.toNat = true := by
    intro w hw
    refine ⟨hreal w hw, (htaken.bit_iff _).mpr (Or.inr ?_)⟩
    rw [hall]
    exact List.mem_map_of_mem hw
  obtain ⟨m', hm'⟩ := exists_release hbits hmarked (hall ▸ htaken.nodup)
  refine ⟨⟨c'.hdr, m', c'.store⟩, ?_, ?_⟩
  · unfold deallocate
    rw [hl, hm', Option.bind_some, hnone]
    rfl
  · have hrel := released_of_foldlM hbits hm'
    refine BitMap.ext_bit (hrel.numBits.trans htaken.numBits) fun x => ?_
    rw [Bool.eq_iff_iff, hrel.bit_iff, htaken.bit_iff]
    constructor
    · rintro ⟨h | h, hx⟩
      · exact h
      · exact absurd h hx
    · intro h
      refine ⟨Or.inl h, fun hx => ?_⟩
      rw [htaken.clear x hx] at h
      cases h

end Allocation

/-- What `Allocate` has to leave for a file of the given size: it has marked the sectors `l` that
the tables name, and nothing else. -/
structure Sized (c : Allocation) (fileSize : ℕ) (l : List Word) (c' : Allocation) : Prop where
  sectors : c'.hdr.sectors c'.store = some l
  length : l.length = sectorsNeeded fileSize
  nodup : (l.map BitVec.toNat).Nodup
  clear : ∀ w ∈ l, w.toNat < totalSectors ∧ c.freeMap.bit w.toNat = false
  marked : ∀ x, c'.freeMap.bit x = true ↔ c.freeMap.bit x = true ∨ x ∈ l.map BitVec.toNat
  released : ∃ c'', c'.deallocate = some c'' ∧ c''.freeMap = c.freeMap

namespace Allocation
variable {junk : ℕ → ℕ → Word} {c c' : Allocation} {fileSize : ℕ}

theorem allocate_few (junk : ℕ → ℕ → Word) (hlt : fileSize < 2 ^ 31)
    (hfew : c.freeMap.numClear < sectorsNeeded fileSize) :
    allocate junk c fileSize = some (false, { c with hdr := sizedHeader c.hdr fileSize }) := by
  unfold allocate
  simp only [sizedHeader_toInt c.hdr hlt]
  rw [if_pos (by exact_mod_cast hfew)]

theorem indirects_small (hsmall : fileSize ≤ 4 * sectorSize) :
    FileHeader.indirects (BitVec.ofNat 32 (sectorsNeeded fileSize)) = 0 := by
  obtain ⟨hneed, hle⟩ := small_needed hsmall
  rw [FileHeader.indirects_eq, hneed, BitVec.toNat_add, BitVec.toNat_ofNat, BitVec.toNat_ofNat]
  simp only [pointerSectors]
  omega

theorem allocate_small (junk : ℕ → ℕ → Word) (hbits : c.freeMap.numBits = totalSectors)
    (hsmall : fileSize ≤ 4 * sectorSize) (henough : sectorsNeeded fileSize ≤ c.freeMap.numClear) :
    ∃ c' l, allocate junk c fileSize = some (true, c') ∧ Sized c fileSize l c' := by
  have hlt : fileSize < 2 ^ 31 := by
    simp only [sectorSize] at hsmall
    omega
  obtain ⟨hneed, hle⟩ := small_needed hsmall
  have hsized := sizedHeader_numSectors c.hdr hlt
  have hsome : ∃ c', allocate junk c fileSize = some (true, c') := by
    have hint := sizedHeader_toInt c.hdr hlt
    unfold allocate
    simp only
    rw [if_neg (by omega), hsized, indirects_small hsmall]
    exact ⟨_, rfl⟩
  obtain ⟨c', hc'⟩ := hsome
  obtain ⟨l, hl⟩ := allocate_eq hc'
  have hnum : c'.hdr.numSectors = BitVec.ofNat 32 (sectorsNeeded fileSize) :=
    hl.numSectors.trans hsized
  have hdirects : c'.hdr.directs = sectorsFor fileSize := by
    have hint := sizedHeader_toInt c.hdr hlt
    rw [hsized, ← hnum, hneed] at hint
    unfold FileHeader.directs
    rw [hint, if_neg (by omega)]
  have hdirect : c'.hdr.directSectors = l := by
    have hsec := hl.sectors
    rw [FileHeader.sectors, hnum, indirects_small hsmall] at hsec
    simpa using hsec
  have hlen : l.length = sectorsNeeded fileSize := by
    rw [← hdirect, FileHeader.directSectors, hdirects, List.length_map]
    have hind := directIndices_natCast (a := 0) (n := sectorsFor fileSize) (by omega)
    have hlength := congrArg List.length hind
    rw [List.length_ofFn, Nat.zero_add, Nat.cast_zero] at hlength
    rw [hlength, hneed]
  obtain ⟨k, hk⟩ := hl.found
  have hkl : k = sectorsNeeded fileSize := by
    rw [← hlen, ← finds_length k c.freeMap, hk]
  subst hkl
  have hnat := finds_toNat hbits henough
  have htaken := finds_taken hbits (sectorsNeeded fileSize)
  have hreal := finds_real hbits henough
  rw [hk] at hnat htaken hreal
  have hclear : ∀ w ∈ l, w.toNat < totalSectors ∧ c.freeMap.bit w.toNat = false := by
    intro w hw
    have hmem : w.toNat ∈ c.freeMap.clearBits :=
      List.mem_of_mem_take (hnat ▸ List.mem_map_of_mem hw)
    rw [BitMap.mem_clearBits, hbits] at hmem
    exact hmem
  refine ⟨c', l, hc', hl.sectors, hlen, ?_, hclear, fun x => ?_, ?_⟩
  · rw [hnat]
    exact c.freeMap.clearBits_nodup.sublist (List.take_sublist _ _)
  · rw [htaken.bit_iff, hreal, hnat]
  · exact exists_deallocate hbits htaken (fun w hw => (hclear w hw).1)
      (by rw [hnum]; exact indirects_small hsmall) hdirect

end Allocation

/-- `Allocate` on files that need no pointer block, and on those for which there are too few
clear bits. -/
theorem allocate_exact (junk : ℕ → ℕ → Word) (c : Allocation)
    (hbits : c.freeMap.numBits = totalSectors) (fileSize : ℕ) (hlt : fileSize < 2 ^ 31)
    (hcov : fileSize ≤ 4 * sectorSize ∨ c.freeMap.numClear < sectorsNeeded fileSize) :
    ∃ answer c', Allocation.allocate junk c fileSize = some (answer, c') ∧
      (answer = false ↔ c.freeMap.numClear < sectorsNeeded fileSize ∨
        4 + numInDirect * pointerSectors < sectorsFor fileSize) ∧
      (answer = true → ∃ l, Sized c fileSize l c') := by
  by_cases hfew : c.freeMap.numClear < sectorsNeeded fileSize
  · exact ⟨false, _, Allocation.allocate_few junk hlt hfew, by simp [hfew], by simp⟩
  · have hsmall := hcov.resolve_right hfew
    obtain ⟨c', l, hc', hexact⟩ := Allocation.allocate_small junk hbits hsmall (not_lt.mp hfew)
    have hle := (Allocation.small_needed hsmall).2
    have hcap : ¬ 4 + numInDirect * pointerSectors < sectorsFor fileSize := by
      simp only [numInDirect, pointerSectors]
      omega
    exact ⟨true, c', hc', by simp [hfew, hcap], fun _ => ⟨l, hexact⟩⟩

/-- A file of three sectors on an empty disk. -/
theorem allocate_exact_three : ∃ c' l, Allocation.allocate (fun _ _ => 0)
    ⟨blankHeader, blankMap, emptyStore⟩ (300 : ℕ) = some (true, c') ∧
      Sized ⟨blankHeader, blankMap, emptyStore⟩ 300 l c' := by
  obtain ⟨answer, c', hc', hiff, hexact⟩ := allocate_exact (fun _ _ => 0)
    ⟨blankHeader, blankMap, emptyStore⟩ rfl 300 (by decide)
    (Or.inl (by decide))
  have htrue : answer = true := by
    by_contra hne
    have hfalse := hiff.mp (Bool.of_not_eq_true hne)
    revert hfalse
    decide +kernel
  obtain ⟨l, hl⟩ := hexact htrue
  exact ⟨c', l, htrue ▸ hc', hl⟩

/-- A file of five sectors needs six sectors and gets 36. -/
theorem allocate_excess : sectorsNeeded 513 = 6 ∧
    (Allocation.allocate (fun _ _ => 0) ⟨blankHeader, blankMap, emptyStore⟩ (513 : ℕ)).map
      (fun r => (r.1, r.2.freeMap.numClear)) = some (true, totalSectors - 36) := by
  decide +kernel

/-- The sector that `Allocate` has set aside for sector `i` of the file. -/
def FileHeader.dataSector (st : Store) (h : FileHeader) (i : ℕ) : Option Word :=
  if hi : i < 4 then some (h.directDataSectors ⟨i, hi⟩)
  else if hj : (i - 4) / pointerSectors < numInDirect then
    (st.blocks (h.indirectDataSectors ⟨(i - 4) / pointerSectors, hj⟩).toNat).map fun b =>
      b.dataSectors ((i - 4) % pointerSectors)
  else none

/-- A direct entry, or an entry of the first block when the value of the inner call is what the
caller finds. -/
def Reached (st : Store) (offset : ℕ) : Prop :=
  offset < 4 * sectorSize ∨ st.handOn = id ∧ offset < (4 + pointerSectors) * sectorSize

section translation
variable {st : Store} {h : FileHeader} {l : List Word}

theorem byteToSector_reached {offset : ℕ} (hr : Reached st offset) :
    h.byteToSector st offset = h.dataSector st (offset / sectorSize) := by
  unfold FileHeader.byteToSector FileHeader.dataSector
  by_cases hs : offset / sectorSize < 4
  · simp only [dif_pos hs]
  · have hlow : ¬ offset < 4 * sectorSize := by
      simp only [sectorSize] at *
      omega
    obtain ⟨hid, hlt⟩ := hr.resolve_left hlow
    have hin : offset / sectorSize - 4 < pointerSectors := by
      simp only [sectorSize, pointerSectors] at *
      omega
    have hzero : (offset / sectorSize - 4) / sectorSize = 0 :=
      Nat.div_eq_of_lt (hin.trans (by decide))
    have hentry : (offset - 4 * sectorSize - 0 * sectorSize) / sectorSize =
        offset / sectorSize - 4 := by
      simp only [sectorSize] at *
      omega
    simp only [dif_neg hs, hzero, Nat.div_eq_of_lt hin, Nat.mod_eq_of_lt hin,
      IndirectPointerBlock.byteToSector, hentry, if_pos hin, hid, Option.map_some, id_eq]
    rw [dif_pos (by decide), dif_pos (by decide)]
    rw [Option.map_eq_bind]
    rfl

theorem directSectors_eq {d : ℕ} (hd : h.directs = d) (h4 : d ≤ 4) :
    h.directSectors = List.ofFn fun i : Fin d => h.directDataSectors ⟨i, by omega⟩ := by
  have hind := Allocation.directIndices_natCast (a := 0) (n := d) (by omega)
  unfold FileHeader.directSectors
  rw [hd]
  simp only [Nat.zero_add, Nat.cast_zero] at hind
  rw [hind, List.map_ofFn]
  rfl

theorem sectors_direct (hs : h.sectors st = some l) {d i : ℕ} (hd : h.directs = d) (h4 : d ≤ 4)
    (hi : i < d) : l[i]? = some (h.directDataSectors ⟨i, by omega⟩) := by
  obtain ⟨ls, -, rfl⟩ := Option.map_eq_some_iff.mp hs
  rw [directSectors_eq hd h4, List.getElem?_append_left (by simpa using hi)]
  simp [hi]

theorem sectors_block (hs : h.sectors st = some l) (hd : h.directs = 4)
    (hpos : 0 < FileHeader.indirects h.numSectors) {b : IndirectPointerBlock}
    (hb : st.blocks (h.indirectDataSectors 0).toNat = some b)
    (hfull : b.numSectors = pointerSectors) {k : ℕ} (hk : k < pointerSectors) :
    l[5 + k]? = some (b.dataSectors k) := by
  obtain ⟨ls, hls, rfl⟩ := Option.map_eq_some_iff.mp hs
  obtain ⟨q, hq⟩ := Nat.exists_eq_succ_of_ne_zero hpos.ne'
  have hblock : h.blockSectors st 0 = some (h.pointerBlockSectors 0 :: b.sectors) := by
    unfold FileHeader.blockSectors
    rw [dif_pos (by decide)]
    exact congrArg (Option.map _) hb
  rw [hq, List.range_succ_eq_map, List.mapM_cons, hblock] at hls
  rw [Option.bind_eq_bind, Option.bind_some] at hls
  obtain ⟨rest, -, hrest⟩ := Option.bind_eq_some_iff.mp hls
  obtain rfl := Option.some.inj hrest
  have hlen : h.directSectors.length = 4 := by
    rw [directSectors_eq (d := 4) hd le_rfl, List.length_ofFn]
  rw [List.getElem?_append_right (by omega), hlen, show 5 + k - 4 = k + 1 by omega,
    List.flatten_cons, List.cons_append, List.getElem?_cons_succ,
    List.getElem?_append_left (by simp [IndirectPointerBlock.sectors, hfull, hk])]
  simp [IndirectPointerBlock.sectors, hfull, hk]

end translation

/-- Where in the order of `Allocate` the sectors of the direct entries and of the first block
are. -/
def slot (i : ℕ) : ℕ := if i < 4 then i else i + 1

namespace Allocation
variable {junk : ℕ → ℕ → Word} {c c' : Allocation} {fileSize : ℕ}

theorem slot_lt_needed {i : ℕ} (hi : i < sectorsFor fileSize) : slot i < sectorsNeeded fileSize := by
  unfold slot sectorsNeeded blocksFor pointerSectors
  split_ifs <;> omega

theorem Allocated.dataSector {l : List Word} (hlt : fileSize < 2 ^ 31)
    (ha : Allocated c fileSize l c') {i : ℕ} (hi : i < sectorsFor fileSize)
    (hfirst : i < 4 + pointerSectors) :
    ∃ w, c'.hdr.dataSector c'.store i = some w ∧ l[slot i]? = some w := by
  have hint : c'.hdr.numSectors.toInt = sectorsNeeded fileSize := by
    rw [ha.numSectors]
    exact sizedHeader_toInt c.hdr hlt
  have hneed := slot_lt_needed hi
  by_cases h4 : i < 4
  · refine ⟨_, by rw [FileHeader.dataSector, dif_pos h4], ?_⟩
    rw [slot, if_pos h4] at hneed ⊢
    refine sectors_direct ha.sectors (d := min 4 (sectorsNeeded fileSize)) ?_ (by omega) (by omega)
    unfold FileHeader.directs
    rw [hint]
    split_ifs <;> omega
  · rw [slot, if_neg h4] at hneed ⊢
    have hd : c'.hdr.directs = 4 := by
      unfold FileHeader.directs
      rw [hint, if_pos (by omega)]
    have hpos : 0 < FileHeader.indirects c'.hdr.numSectors := by
      have hle := sectorsNeeded_lt hlt
      rw [ha.numSectors, sizedHeader_numSectors c.hdr hlt, FileHeader.indirects_eq,
        BitVec.toNat_add, BitVec.toNat_ofNat, BitVec.toNat_ofNat]
      simp only [pointerSectors]
      omega
    obtain ⟨b, hb, hfull⟩ := ha.block 0 hpos
    have haddr := ha.address 0 hpos
    have hblock : c'.store.blocks (c'.hdr.indirectDataSectors 0).toNat = some b := by
      rw [haddr]
      exact hb
    have hk : i - 4 < pointerSectors := by omega
    refine ⟨b.dataSectors (i - 4), ?_, ?_⟩
    · unfold FileHeader.dataSector
      simp only [dif_neg h4, Nat.div_eq_of_lt hk, Nat.mod_eq_of_lt hk]
      rw [dif_pos (by decide)]
      exact congrArg (Option.map _) hblock
    · have hentry := sectors_block ha.sectors hd hpos hblock hfull hk
      rwa [show 5 + (i - 4) = i + 1 by omega] at hentry

end Allocation

end Nachos.FileSystem
