import Nachos.Formatting

/-!
# `Create` with a full directory

The table in memory gets ten more entries and the new name goes to the first of
them. Writing four hundred bytes to a directory file of two hundred is the
second case of `WriteAt`: it takes three sectors from the free map, sets the new
length in the header in memory, and then writes no more than the old length. The
name does not reach the disk. `Create` answers `TRUE`, and its own copy of the
free map, fetched before, overwrites the one with the three sectors.
-/
namespace Nachos.FileSystem
open ByteMemory CStrings

variable {m : BitMap} {k : ℕ} {st : Store} {h : FileHeader}

/-- The direct entries of the directory after its file was extended. -/
def grownDirects (h : FileHeader) (k : ℕ) : Fin 4 → Word := fun i =>
  if i = 2 then BitVec.ofNat 32 k else if i = 3 then BitVec.ofNat 32 (k + 1)
  else h.directDataSectors i

theorem Low.extendDirects (hm : Low m k) (hk : k + 3 ≤ totalSectors) (hn : h.numSectors = 2#32) :
    Allocation.extendDirects ⟨h, m, st⟩ 3 =
      some (⟨{ h with numSectors := 4#32, directDataSectors := grownDirects h k },
        (FileSystem.finds 2 m).2, st⟩, 1) := by
  have hindices : FileHeader.directIndices 2 4 = [2, 3] := by decide
  have hint : (2#32).toInt = 2 := by decide
  obtain ⟨g, hfill, hg, hother⟩ := Allocation.fillDirects_eq (FileHeader.directIndices 2 4)
    (Allocation.directIndices_nodup _ _) ⟨h, m, st⟩
  obtain ⟨hfinds, -⟩ := hm.finds 2 (by omega)
  rw [hindices] at hfill hg hother
  simp only [List.length_cons, List.length_nil, Nat.zero_add, Nat.reduceAdd] at hfill hg
  rw [hfinds] at hg
  obtain ⟨hg₂, hg₃⟩ : g 2 = BitVec.ofNat 32 k ∧ g 3 = BitVec.ofNat 32 (k + 1) := by
    simpa [List.range'] using hg
  have hdirects : g = grownDirects h k := by
    funext i
    fin_cases i
    · exact hother 0 (by decide)
    · exact hother 1 (by decide)
    · exact hg₂
    · exact hg₃
  simp only [Allocation.extendDirects, hn, hint]
  norm_num
  rw [hindices, hfill, hdirects]
  simp

/-- The second part of the extension: one sector in a new block. -/
theorem extendBlocks_one (junk : ℕ → ℕ → Word) {c : Allocation} (hn : c.hdr.numSectors = 4#32)
    (hnext : c.store.next < 2 ^ 32) :
    ∃ c', c.extendBlocks junk 1 = some (true, c') ∧ c'.freeMap = (finds 1 c.freeMap).2 ∧
      Allocation.Extends c.store c'.store 1 ∧ c'.hdr.numBytes = c.hdr.numBytes ∧
      c'.hdr.directDataSectors = c.hdr.directDataSectors := by
  have hw : c.hdr.numSectors - 4#32 = 0#32 := by rw [hn]; decide
  have hblocks : Allocation.pointerBlocks 0#32 = 0 := by decide
  have hnew : Allocation.pointerBlocks 1#32 = 1 := by decide
  have hspace : (BitVec.ofNat 32 0 * 31#32 - 0#32).toInt = 0 := by decide
  have hput : Allocation.putSectors c.freeMap ⟨0, junk 0⟩ 1 =
      some (⟨1, Function.update (junk 0) 0 (findSector c.freeMap)⟩, (finds 1 c.freeMap).2) := rfl
  obtain ⟨w, st, hst⟩ : ∃ w st, c.store.newBlock
      ⟨1, Function.update (junk 0) 0 (findSector c.freeMap)⟩ = some (w, st) :=
    ⟨_, _, if_pos hnext⟩
  obtain ⟨-, -, hext⟩ := Allocation.newBlock_eq hst
  refine ⟨⟨{ c.hdr with indirectDataSectors := Function.update c.hdr.indirectDataSectors 0 w },
    (finds 1 c.freeMap).2, st⟩, ?_, rfl, hext, rfl, rfl⟩
  simp only [Allocation.extendBlocks, hw, hblocks, hspace]
  norm_num
  simp [hnew, Allocation.extendBlock, hput, hst, numInDirect]

theorem Low.extendFile (hm : Low m k) (hk : k + 3 ≤ totalSectors) (hn : h.numSectors = 2#32)
    (hnext : st.next < 2 ^ 32) (junk : ℕ → ℕ → Word) :
    ∃ c, Allocation.extendFile junk ⟨h, m, st⟩ 3 400 = some (true, c) ∧
      Allocation.Extends st c.store 1 ∧ c.hdr.numBytes = 400#32 ∧
      c.hdr.directDataSectors = grownDirects h k := by
  have hclear : ¬(m.numClear : ℤ) < 3 := by
    rw [hm.numClear]
    omega
  obtain ⟨c, hc, -, hext, hbytes, hdirect⟩ := extendBlocks_one junk
    (c := ⟨{ h with numBytes := 400#32, numSectors := 4#32, directDataSectors := grownDirects h k },
      (FileSystem.finds 2 m).2, st⟩) rfl hnext
  refine ⟨c, ?_, hext, hbytes, hdirect⟩
  rw [Allocation.extendFile, if_neg hclear, hm.extendDirects hk hn, Option.bind_some,
    if_neg one_ne_zero]
  exact hc

/-- The directory file in memory after it was extended; only its first two sectors
hold entries that were written. -/
structure GrownFile (h : FileHeader) (k : ℕ) : Prop where
  numBytes : h.numBytes = 400#32
  direct : ∀ i : Fin 4, (h.directDataSectors i).toNat = if i.val < 2 then i.val + 3 else i.val + k - 2
  le : 5 ≤ k
  lt : k + 1 < totalSectors

theorem GrownFile.fileLength (hg : GrownFile h k) : h.fileLength = (400 : ℕ) := by
  rw [FileHeader.fileLength, hg.numBytes]
  rfl

theorem GrownFile.maps (hg : GrownFile h k) (st : Store) :
    FileHeader.Maps st h (fun i => if i < 2 then i + 3 else i + k - 2) 4 where
  sector i hi := by
    refine ⟨h.directDataSectors ⟨i, hi⟩, ?_, hg.direct ⟨i, hi⟩⟩
    have hdiv : i * sectorSize / sectorSize = i := Nat.mul_div_cancel i (by decide)
    simp only [FileHeader.byteToSector, hdiv, dif_pos hi]
  valid i hi := by
    have hlt := hg.lt
    simp only [totalSectors] at *
    split_ifs <;> omega
  injective i hi j hj he := by
    have hle := hg.le
    split_ifs at he <;> omega

/-- Within the first two hundred bytes the extended file has the sectors 3 and 4. -/
theorem contents_grown (st : Store) {p : ℕ} (hp : p < 200) :
    FileHeader.contents st (fun i => if i < 2 then i + 3 else i + k - 2) p =
      (diskDirectory st 3 4).table p := by
  have hsector : (if p / sectorSize < 2 then p / sectorSize + 3 else p / sectorSize + k - 2) =
      if p / sectorSize = 0 then 3 else 4 := by
    simp only [sectorSize]
    split_ifs <;> omega
  simp only [FileHeader.contents, diskDirectory, hsector]

theorem GrownFile.fetch {s : Volume} (hg : GrownFile s.directoryFile.hdr k) (junk : Memory) :
    ∃ d, s.fetchDirectory junk = some d ∧ ∀ i, d.entry i = (diskDirectory s.store 3 4).entry i := by
  obtain ⟨d, hfetch, -, hentry⟩ :=
    fetchDirectory_of_maps (hg.maps s.store) hg.fileLength (by decide) (by decide) junk
  refine ⟨d, hfetch, ?_⟩
  intro i
  rw [hentry]
  refine Directory.entry_congr Iff.rfl ?_
  intro hi k' hk'
  have hi : i < 10 := hi
  apply contents_grown
  simp only [entrySize] at *
  omega

theorem GrownFile.listing {s : Volume} (hg : GrownFile s.directoryFile.hdr k) (i : ℕ) :
    s.listing.entry i = (diskDirectory s.store 3 4).entry i := by
  obtain ⟨d, hfetch, hentry⟩ := hg.fetch fun _ => 0#8
  rw [Volume.listing, hfetch, Option.getD_some, hentry]

/-- Four hundred bytes are written to a directory file of two hundred. -/
theorem DirectoryFile.write_grown (hd : DirectoryFile h 3 4) (hn : h.numSectors = 2#32)
    (hmap : MapFile (st.headerAt 0) 2) (hlow : Low (diskMap (st.disk 2)) k) (hk : 5 ≤ k)
    (hk' : k + 3 ≤ totalSectors) (hnext : st.next < 2 ^ 32) (depth : ℕ) (junk : Junk)
    {data : List Byte} (hlen : data.length = 400) :
    ∃ st' h', writeAt (depth + 2) st h junk data 0 = some (200, st', h') ∧ GrownFile h' k ∧
      (∀ p < 200, (diskDirectory st' 3 4).table p = overlay (fun _ => 0#8) 0 data p) ∧
      (∀ x ∉ [2, 3, 4], st'.disk x = st.disk x) ∧ ∀ p < st.next, st'.blocks p = st.blocks p := by
  have hover : ¬Oversized h 0 400 := by
    have height : divRoundUp ((200 : ℕ) - (0 : ℕ) + (400 : ℕ)) sectorSize = 5 := by decide
    rw [Oversized, hd.fileLength, toInt_of_lt hd.first hd.lt (by decide), height]
    decide
  have hsectors : newSectors 400 0 = 3 := by decide
  obtain ⟨c, hc, hext, hbytes, hdirect⟩ := hlow.extendFile hk' hn hnext junk.block
  have hgrown : GrownFile c.hdr k := by
    refine ⟨hbytes, ?_, hk, by omega⟩
    intro i
    have hlt : k + 1 < 2 ^ 32 := by
      simp only [totalSectors] at hk'
      omega
    rw [hdirect]
    fin_cases i
    · exact hd.first
    · exact hd.second
    · simp [grownDirects]
      omega
    · simp [grownDirects]
      omega
  have hwrite : extendWith (fun st h l => (writeAt (depth + 1) st h junk.inner l 0).map fun r => r.2.1)
      st h junk 3 400 = some (true, c.store.withSector 2 (mapSector c.freeMap), c.hdr) := by
    have hhdr : (OpenFile.create st 0).hdr = st.headerAt 0 := rfl
    have hfree := hmap.write depth c.store junk.inner c.freeMap
    rw [freeMapBytes] at hfree
    simp only [extendWith, hhdr, hmap.fetch, Option.bind_some, hc, hfree, Option.map_some, if_true]
  have hin : 0 + (data.take 200).length ≤ 400 := by
    rw [List.length_take, hlen]
    decide
  obtain ⟨st', hst', hcontents⟩ := (hgrown.maps (c.store.withSector 2 (mapSector c.freeMap))).writeCommon
    hgrown.fileLength (by decide) (by decide) (junk.buffer 0) hin
  obtain ⟨hblocks, -, -, hframe⟩ := FileHeader.writeCommon_frame hst'
  refine ⟨st', c.hdr, ?_, hgrown, ?_, ?_, ?_⟩
  · have hbytes' : ((0 : ℕ) : ℤ) + (400 : ℕ) = 400 := rfl
    have hold : (((200 : ℕ) : ℤ) - (0 : ℕ)).toNat = 200 := rfl
    rw [writeAt_across (by rw [hlen]; exact hover) (by rw [hlen, hd.fileLength]; decide)
      (by rw [hd.fileLength]; decide), hlen, hsectors, hbytes', hwrite, Option.bind_some, hd.fileLength,
      hold, if_pos rfl, hst', Option.map_some]
  · intro p hp
    obtain ⟨b, hb⟩ : ∃ b, data[p]? = some b := ⟨_, List.getElem?_eq_getElem (by omega)⟩
    have htake : (data.take 200)[p]? = some b := by rw [List.getElem?_take_of_lt hp, hb]
    have hnew := overlay_add (m := FileHeader.contents (c.store.withSector 2 (mapSector c.freeMap))
      fun i => if i < 2 then i + 3 else i + k - 2) (a := 0) htake
    have hold := overlay_add (m := fun _ => 0#8) (a := 0) hb
    rw [Nat.zero_add] at hnew hold
    rw [← contents_grown st' hp (k := k), hcontents p (by omega), hnew, hold]
  · intro x hx
    simp only [List.mem_cons, List.not_mem_nil, or_false, not_or] at hx
    rw [hframe x, Store.withSector_of_ne _ hx.1, hext.disk]
    intro i _ hi w hw
    rw [List.length_take, hlen] at hi
    have hi : i ≤ 1 := hi
    obtain ⟨w', hw', hσ⟩ := (hgrown.maps (c.store.withSector 2 (mapSector c.freeMap))).sector i
      (by omega)
    obtain rfl := Option.some.inj (hw.symm.trans hw')
    rw [hσ, if_pos (by omega)]
    omega
  · intro p hp
    rw [hblocks]
    exact hext.blocks p hp

theorem Directory.le_expandTable {d : Directory} (junk : Memory) (hsize : d.tableSize ≤ maxTableSize) :
    d.tableSize ≤ (d.expandTable junk).tableSize := by
  simp only [expandTable]
  split_ifs <;> omega

theorem Directory.entry_of_le {d : Directory} {i : ℕ} (hi : d.tableSize ≤ i) : d.entry i = none := by
  simp [entry, Nat.not_lt.mpr hi]

theorem Directory.inUse_eq {d : Directory} {i : ℕ} (hi : i < d.tableSize) :
    d.inUse i = (d.entry i).isSome := by
  unfold entry
  cases d.inUse i with
  | true => simp [hi]
  | false => simp

/-- An empty file is created with the directory full: the answer is a sector, and
the directory on disk does not have the name. -/
theorem create_full {s : Volume} (hs : Layout s) (hhdr : s.store.headerAt 0 = s.freeMapFile.hdr)
    (hn : s.directoryFile.hdr.numSectors = 2#32) (hlow : Low (diskMap (s.store.disk 2)) k)
    (hk : 5 ≤ k) (hk' : k + 3 ≤ totalSectors) (hnext : s.store.next < 2 ^ 32) {name : CString}
    (hfull : ∀ i < numDirEntries, (s.listing.entry i).isSome)
    (hname : ∀ j v, s.listing.entry j ≠ some (text name.memory fileNameMaxLen, v)) (fresh : Fresh)
    (depth : ℕ) :
    ∃ t, s.create (depth + 2) name 0 fresh = some (some (BitVec.ofNat 32 k), t) ∧
      t.freeMapFile = s.freeMapFile ∧ GrownFile t.directoryFile.hdr k ∧
      Low (diskMap (t.store.disk 2)) (k + 1) ∧ (∀ i, t.listing.entry i = s.listing.entry i) ∧
      (∀ x, x ≠ k → x ∉ [2, 3, 4] → t.store.disk x = s.store.disk x) ∧
      ∀ p < s.store.next, t.store.blocks p = s.store.blocks p := by
  obtain ⟨d, hfetch, hsize, hentry⟩ := hs.dir.fetch_listing fresh.table
  have hlt : k < totalSectors := by omega
  have hnat : (BitVec.ofNat 32 k).toNat = k := by
    rw [BitVec.toNat_ofNat]
    exact Nat.mod_eq_of_lt (by simp only [totalSectors] at hlt; omega)
  have hnone : d.findIndex name.memory = none := by
    rw [Directory.findIndex_eq_none_iff]
    intro i w
    rw [hentry]
    exact hname i w
  have hadd := Directory.add_full fresh.grown (BitVec.ofNat 32 k) hnone (by rw [hsize]; decide)
    fun i hi => by
      rw [Directory.inUse_eq hi, hentry]
      exact hfull i (hsize ▸ hi)
  obtain ⟨c, hc, hst, -, -, -, hlow'⟩ := hlow.setBit.allocate fresh.block fresh.hdr s.store 0 0
    (by decide) rfl (by omega)
  have hsame : ∀ x, x ≠ k → (s.store.withSector k c.hdr.writeBack).disk x = s.store.disk x :=
    fun x hx => Store.withSector_of_ne _ hx _
  have hmap₁ : MapFile ((s.store.withSector k c.hdr.writeBack).headerAt 0) 2 := by
    rw [Store.headerAt, hsame 0 (by omega), ← Store.headerAt, hhdr]
    exact hs.map
  have hlow₁ : Low (diskMap ((s.store.withSector k c.hdr.writeBack).disk 2)) k := by
    rw [hsame 2 (by omega)]
    exact hlow
  have hlen : ((d.expandTable fresh.grown).setEntry d.tableSize name.memory
      (BitVec.ofNat 32 k)).bytes.length = 400 := by
    rw [Directory.bytes, bytesAt_length]
    simp only [Directory.setEntry, Directory.expandTable, hsize]
    decide
  obtain ⟨st₂, h', hdir, hgrown, htable, hdisk, hblocks⟩ := hs.dir.write_grown hn hmap₁ hlow₁ hk hk'
    hnext depth fresh.dirWrite hlen
  have hmap := hs.map.write (depth + 1) st₂ fresh.mapWrite c.freeMap
  refine ⟨⟨st₂.withSector 2 (mapSector c.freeMap), s.freeMapFile, ⟨h', s.directoryFile.seekPosition⟩,
    s.handles⟩, ?_, rfl, hgrown, ?_, ?_, ?_, hblocks⟩
  · have hfind : (diskMap (s.store.disk 2)).find.1 ≠ -1 := by
      rw [hlow.find hlt]
      show (k : ℤ) ≠ -1
      omega
    refine create_eq hfetch hnone (hs.map.fetch _) hfind (hlow.findSector hlt) hadd ?_ ?_ hdir hmap
    · rw [hlow.find hlt]
      exact hc
    · rw [hst, Store.writeSector_eq _ (hnat.symm ▸ hlt), hnat]
  · refine ⟨diskMap_numBits _, fun x hx => ?_⟩
    rw [Store.withSector_self, bit_diskMap_mapSector _ hx]
    exact hlow'.bit x hx
  · intro i
    rw [GrownFile.listing hgrown, diskDirectory_congr (Store.withSector_of_ne _ (by decide) _)
      (Store.withSector_of_ne _ (by decide) _), ← hentry]
    by_cases hi : i < d.tableSize
    · have hgrow : i < (d.expandTable fresh.grown).tableSize :=
        lt_of_lt_of_le hi (Directory.le_expandTable _ (by rw [hsize]; decide))
      have hlt : ∀ j < entrySize, entrySize * i + j < 200 := by
        intro j hj
        simp only [hsize, entrySize, numDirEntries] at *
        omega
      have hwritten : (diskDirectory st₂ 3 4).entry i = ((d.expandTable fresh.grown).setEntry
          d.tableSize name.memory (BitVec.ofNat 32 k)).entry i := by
        refine Directory.entry_congr ⟨fun _ => hgrow, fun _ => hi.trans_eq hsize⟩ ?_
        intro _ j hj
        rw [Directory.bytes, bytesAt_length] at hlen
        have hlt' : entrySize * i + j < entrySize * ((d.expandTable fresh.grown).setEntry
            d.tableSize name.memory (BitVec.ofNat 32 k)).tableSize := by
          have := hlt j hj
          omega
        have hget := bytesAt_getElem? (a := 0) (m := ((d.expandTable fresh.grown).setEntry
          d.tableSize name.memory (BitVec.ofNat 32 k)).table) hlt'
        have hbyte := overlay_add (m := fun _ => 0#8) (a := 0) hget
        rw [Nat.zero_add] at hbyte
        exact (htable _ (hlt j hj)).trans hbyte
      rw [hwritten, Directory.entry_setEntry_ne hi.ne, Directory.entry_expandTable _ hi]
      rw [hsize]
      decide
    · have hle : (diskDirectory st₂ 3 4).tableSize ≤ i := hsize.symm.trans_le (not_lt.mp hi)
      rw [Directory.entry_of_le hle, Directory.entry_of_le (not_lt.mp hi)]
  · intro x hxk hx
    have hx2 : x ≠ 2 := fun he => hx (by simp [he])
    rw [Store.withSector_of_ne _ hx2, hdisk x hx, hsame x hxk]

end Nachos.FileSystem
