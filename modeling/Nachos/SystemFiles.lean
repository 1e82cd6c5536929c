import Nachos.FileSystem
import Nachos.SectorAllocation

/-!
# The free-map file and the directory file

On a formatted disk the free map is a file of one sector and the directory a
file of two. Both stay within their length as long as the directory keeps its
ten entries. Under this assumption fetching a copy and writing it back are plain
reads and writes of these sectors, and what was written is what is fetched next.
-/
namespace Nachos.FileSystem
open ByteMemory

/-- A header with all of the free map in sector `x`. -/
structure MapFile (h : FileHeader) (x : ℕ) : Prop where
  numBytes : h.numBytes = 128#32
  first : (h.directDataSectors 0).toNat = x
  lt : x < totalSectors

/-- The map that is fetched when its sector holds `s`. -/
def diskMap (s : Sector) : BitMap :=
  fetchMap (BitMap.create (fun _ => 0) totalSectors) (bytesAt s.byte 0 freeMapFileSize)

/-- The sector that holds a map. -/
def mapSector (m : BitMap) : Sector := .ofMemory (mapBytes m)

@[simp] theorem diskMap_numBits (s : Sector) : (diskMap s).numBits = totalSectors := by
  simp [diskMap, fetchMap]

/-- A map is fetched as it was written. -/
theorem bit_diskMap_mapSector (m : BitMap) {i : ℕ} (hi : i < totalSectors) :
    (diskMap (mapSector m)).bit i = m.bit i := by
  have hbytes : bytesAt (mapSector m).byte 0 freeMapFileSize =
      bytesAt (mapBytes m) 0 freeMapFileSize := by
    refine bytesAt_congr fun k hk => ?_
    rw [Nat.zero_add, mapSector, Sector.byte_ofMemory, Nat.mod_eq_of_lt hk]
  have hword : 4 * (i / 32) + 4 ≤ freeMapFileSize := by
    simp only [totalSectors, freeMapFileSize] at *
    omega
  rw [BitMap.bit_eq_getLsbD, BitMap.bit_eq_getLsbD, diskMap, hbytes, fetchMap_map m _ hword]

/-- A map that is fetched and written back unchanged leaves its sector unchanged. -/
theorem mapSector_diskMap (s : Sector) : mapSector (diskMap s) = s := by
  funext i
  have hi : (i : ℕ) < freeMapFileSize := i.isLt
  have hget := bytesAt_getElem? (m := s.byte) (a := 0) hi
  have hbyte := overlay_add (m := fun p => byteOf ((BitMap.create (fun _ => 0) totalSectors).map
    (p / 4)) (p % 4)) (a := 0) hget
  have hword := byteOf_word (overlay (fun p => byteOf ((BitMap.create (fun _ => 0)
    totalSectors).map (p / 4)) (p % 4)) 0 (bytesAt s.byte 0 freeMapFileSize)) (4 * (i / 4))
    (Nat.mod_lt i (by decide : 0 < 4))
  rw [Nat.div_add_mod] at hword
  rw [Nat.zero_add] at hbyte
  refine (hword.trans hbyte).trans ?_
  simp only [Sector.byte]
  congr 1
  exact Fin.ext (Nat.mod_eq_of_lt i.isLt)

theorem mapSector_congr {m m' : BitMap} (h : ∀ i < totalSectors, m.bit i = m'.bit i) :
    mapSector m = mapSector m' := by
  have hword : ∀ w < 32, m.map w = m'.map w := by
    intro w hw
    apply BitVec.eq_of_getLsbD_eq
    intro k hk
    have hbit := h (32 * w + k) (by simp only [totalSectors]; omega)
    rw [BitMap.bit_eq_getLsbD, BitMap.bit_eq_getLsbD] at hbit
    rwa [show (32 * w + k) / 32 = w by omega, show (32 * w + k) % 32 = k by omega] at hbit
  funext i
  have hi : (i : ℕ) < 128 := i.isLt
  simp only [mapSector, Sector.ofMemory, mapBytes]
  rw [hword _ (by omega)]

/-- The store with one sector replaced. -/
def Store.withSector (st : Store) (x : ℕ) (s : Sector) : Store :=
  { st with disk := Function.update st.disk x s }

theorem Store.withSector_self (st : Store) (x : ℕ) (s : Sector) :
    (st.withSector x s).disk x = s := Function.update_self _ _ _

theorem Store.withSector_of_ne (st : Store) {x y : ℕ} (hy : y ≠ x) (s : Sector) :
    (st.withSector x s).disk y = st.disk y := Function.update_of_ne hy _ _

theorem Store.writeSector_eq (st : Store) {w : Word} (hw : w.toNat < totalSectors) (s : Sector) :
    st.writeSector w s = some (st.withSector w.toNat s) := if_pos hw

variable {st st' : Store} {h : FileHeader} {a b x : ℕ}

theorem MapFile.maps (hm : MapFile h x) (st : Store) : FileHeader.Maps st h (fun _ => x) 1 where
  sector i hi := by
    obtain rfl : i = 0 := by omega
    exact ⟨_, FileHeader.byteToSector_zero st h, hm.first⟩
  valid _ _ := hm.lt
  injective i hi j hj _ := by omega

theorem MapFile.fileLength (hm : MapFile h x) : h.fileLength = (128 : ℕ) := by
  rw [FileHeader.fileLength, hm.numBytes]
  rfl

theorem MapFile.fetch (hm : MapFile h x) (st : Store) :
    fetchFreeMap st h = some (diskMap (st.disk x)) := by
  rw [fetchFreeMap, (hm.maps st).readAt hm.fileLength (by decide)]
  rfl

theorem toInt_of_lt {w : Word} {n : ℕ} (hw : w.toNat = x) (hx : x < n) (hn : n ≤ 2 ^ 31) :
    w.toInt = x := by
  rw [BitVec.toInt_eq_toNat_cond, if_pos (by omega), hw]

theorem MapFile.not_oversized (hm : MapFile h x) : ¬Oversized h 0 (128 : ℕ) := by
  have hlt := hm.lt
  have htwo : divRoundUp ((128 : ℕ) - (0 : ℕ) + (128 : ℕ)) sectorSize = 2 := by decide
  rw [Oversized, hm.fileLength, toInt_of_lt hm.first hm.lt (by decide), htwo]
  simp only [sectorSize, totalSectors] at *
  omega

/-- The buffer of `WriteAt` that the bytes of the map fill. -/
theorem ofMemory_freeMapBytes (junk : Memory) (m : BitMap) :
    (Sector.ofMemory fun o => overlay junk 0 (freeMapBytes m) (0 * sectorSize + o)) =
      mapSector m := by
  funext i
  have hi : (i : ℕ) < freeMapFileSize := i.isLt
  have hbyte := overlay_add (m := junk) (a := 0) (bytesAt_getElem? (m := mapBytes m) (a := 0) hi)
  simpa [Sector.ofMemory, mapSector, freeMapBytes] using hbyte

/-- The free map is written as one sector. -/
theorem MapFile.write (hm : MapFile h x) (depth : ℕ) (st : Store) (junk : Junk) (m : BitMap) :
    writeAt (depth + 1) st h junk (freeMapBytes m) 0 =
      some (128, st.withSector x (mapSector m), h) := by
  have hlen : (freeMapBytes m).length = 128 := bytesAt_length _ _ _
  have hbuf : h.writeBuffer st (junk.buffer 0) (freeMapBytes m) 0 =
      some (overlay (junk.buffer 0) 0 (freeMapBytes m)) := by
    simp [FileHeader.writeBuffer, hlen]
  have hwrite : h.writeCommon st (junk.buffer 0) (freeMapBytes m) 0 =
      some (st.withSector x (mapSector m)) := by
    rw [FileHeader.writeCommon, hbuf, Option.bind_some, hlen]
    have hone : (0 + 128 - 1) / sectorSize + 1 - 0 / sectorSize = 0 + 1 := rfl
    rw [hone, FileHeader.writeSectors_succ]
    simp only [FileHeader.writeSectors, List.range_zero, List.foldlM_nil, Option.pure_def,
      Option.bind_some, Nat.zero_div, Nat.zero_mul, Nat.add_zero, FileHeader.byteToSector_zero]
    rw [Store.writeSector_eq _ (hm.first ▸ hm.lt), hm.first]
    simp only [← ofMemory_freeMapBytes (junk.buffer 0), Nat.zero_mul]
  rw [writeAt_inside (by rw [hm.fileLength, hlen]; decide), hlen, if_neg hm.not_oversized, hwrite]
  rfl

/-- A header with the directory of ten entries in the sectors `a` and `b`. -/
structure DirectoryFile (h : FileHeader) (a b : ℕ) : Prop where
  numBytes : h.numBytes = 200#32
  first : (h.directDataSectors 0).toNat = a
  second : (h.directDataSectors 1).toNat = b
  ne : a ≠ b
  lt : a < totalSectors
  lt' : b < totalSectors

/-- The directory on disk. -/
def diskDirectory (st : Store) (a b : ℕ) : Directory :=
  ⟨numDirEntries, FileHeader.contents st fun i => if i = 0 then a else b⟩

theorem diskDirectory_congr (ha : st'.disk a = st.disk a) (hb : st'.disk b = st.disk b) :
    diskDirectory st' a b = diskDirectory st a b := by
  have hsector : ∀ i : ℕ, st'.disk (if i = 0 then a else b) = st.disk (if i = 0 then a else b) := by
    intro i
    split_ifs
    · exact ha
    · exact hb
  unfold diskDirectory
  congr 1
  funext p
  exact congrArg (Sector.byte · p) (hsector _)

theorem DirectoryFile.maps (hd : DirectoryFile h a b) (st : Store) :
    FileHeader.Maps st h (fun i => if i = 0 then a else b) 2 where
  sector i hi := by
    rcases Nat.lt_or_ge i 1 with h0 | h1
    · obtain rfl : i = 0 := by omega
      exact ⟨_, FileHeader.byteToSector_zero st h, by simpa using hd.first⟩
    · obtain rfl : i = 1 := by omega
      exact ⟨h.directDataSectors 1, rfl, by simpa using hd.second⟩
  valid i _ := by
    split_ifs
    · exact hd.lt
    · exact hd.lt'
  injective i hi j hj he := by
    have hne := hd.ne
    split_ifs at he <;> omega

theorem DirectoryFile.fileLength (hd : DirectoryFile h a b) : h.fileLength = (200 : ℕ) := by
  rw [FileHeader.fileLength, hd.numBytes]
  rfl

/-- The first two hundred bytes of the directory file are fetched as a table of ten entries. -/
theorem fetchDirectory_of_maps {s : Volume} {σ : ℕ → ℕ} {c length : ℕ}
    (hm : FileHeader.Maps s.store s.directoryFile.hdr σ c)
    (hlength : s.directoryFile.hdr.fileLength = length) (hc : length ≤ c * sectorSize)
    (hle : 200 ≤ length) (junk : Memory) :
    ∃ d, s.fetchDirectory junk = some d ∧ d.tableSize = numDirEntries ∧
      ∀ i, d.entry i = Directory.entry ⟨numDirEntries, FileHeader.contents s.store σ⟩ i := by
  have hmin : min (entrySize * numDirEntries) (length - 0) = 200 := by
    simp only [entrySize, numDirEntries]
    omega
  refine ⟨_, by rw [Volume.fetchDirectory, hm.readAt hlength hc, hmin, Option.map_some], rfl, ?_⟩
  intro i
  refine Directory.entry_congr Iff.rfl ?_
  intro hi k hk
  have hi : i < 10 := hi
  have hlt : entrySize * i + k < 200 := by
    simp only [entrySize] at *
    omega
  have hbyte := overlay_add (m := (Directory.create junk numDirEntries).table) (a := 0)
    (bytesAt_getElem? (m := FileHeader.contents s.store σ) (a := 0) hlt)
  simpa only [Directory.fetchFrom, Nat.zero_add] using hbyte

theorem DirectoryFile.fetch {s : Volume} (hd : DirectoryFile s.directoryFile.hdr a b)
    (junk : Memory) : ∃ d, s.fetchDirectory junk = some d ∧ d.tableSize = numDirEntries ∧
      ∀ i, d.entry i = (diskDirectory s.store a b).entry i :=
  fetchDirectory_of_maps (hd.maps s.store) hd.fileLength (by decide) le_rfl junk

theorem DirectoryFile.not_oversized (hd : DirectoryFile h a b) : ¬Oversized h 0 (200 : ℕ) := by
  have hlt := hd.lt
  have hfour : divRoundUp ((200 : ℕ) - (0 : ℕ) + (200 : ℕ)) sectorSize = 4 := by decide
  rw [Oversized, hd.fileLength, toInt_of_lt hd.first hd.lt (by decide), hfour]
  simp only [sectorSize, totalSectors] at *
  omega

/-- Only the sectors in `written` differ. -/
structure WritesOnly (st st' : Store) (written : List ℕ) : Prop where
  blocks : st'.blocks = st.blocks
  next : st'.next = st.next
  handOn : st'.handOn = st.handOn
  disk : ∀ y ∉ written, st'.disk y = st.disk y

/-- A directory of ten entries is written to its two sectors. -/
theorem DirectoryFile.write (hd : DirectoryFile h a b) (depth : ℕ) (st : Store) (junk : Junk)
    {d : Directory} (hsize : d.tableSize = numDirEntries) :
    ∃ st', writeAt (depth + 1) st h junk d.bytes 0 = some (200, st', h) ∧
      (∀ i, (diskDirectory st' a b).entry i = d.entry i) ∧ WritesOnly st st' [a, b] := by
  have hlen : d.bytes.length = 200 := by
    simp [Directory.bytes, hsize, entrySize, numDirEntries]
  have hin : 0 + d.bytes.length ≤ 200 := by rw [hlen]
  obtain ⟨st', hst', hbytes⟩ := (hd.maps st).writeCommon hd.fileLength (by decide) (by decide)
    (junk.buffer 0) hin
  obtain ⟨hb, hn, hh, hframe⟩ := FileHeader.writeCommon_frame hst'
  refine ⟨st', ?_, ?_, hb, hn, hh, ?_⟩
  · rw [writeAt_inside (by rw [hd.fileLength, hlen]; decide), hlen, if_neg hd.not_oversized, hst']
    rfl
  · intro i
    refine Directory.entry_congr (by rw [hsize]; exact Iff.rfl) ?_
    intro hi k hk
    rw [hsize] at hi
    have hlt : entrySize * i + k < 200 := by
      simp only [entrySize, numDirEntries] at *
      omega
    have hget : d.bytes[entrySize * i + k]? = some (d.table (entrySize * i + k)) := by
      have := bytesAt_getElem? (m := d.table) (a := 0) (n := entrySize * d.tableSize) (by rw [hsize]; exact hlt)
      rwa [Nat.zero_add] at this
    have hnew := overlay_add (m := FileHeader.contents st fun i => if i = 0 then a else b) (a := 0) hget
    rw [Nat.zero_add] at hnew
    exact (hbytes _ hlt).trans hnew
  · intro y hy
    simp only [List.mem_cons, List.not_mem_nil, or_false, not_or] at hy
    apply hframe
    intro i _ hi w hw
    rw [hlen] at hi
    obtain ⟨w', hw', hσ⟩ := (hd.maps st).sector i (by simp only [sectorSize] at *; omega)
    obtain rfl := Option.some.inj (hw.symm.trans hw')
    rw [hσ]
    split_ifs
    · exact Ne.symm hy.1
    · exact Ne.symm hy.2

/-- The directory as every operation finds it. -/
def Volume.listing (s : Volume) : Directory :=
  (s.fetchDirectory fun _ => 0#8).getD (Directory.create (fun _ => 0#8) 0)

theorem DirectoryFile.entry_listing {s : Volume} (hd : DirectoryFile s.directoryFile.hdr a b)
    (i : ℕ) : s.listing.entry i = (diskDirectory s.store a b).entry i := by
  obtain ⟨d, hfetch, -, hentry⟩ := hd.fetch fun _ => 0#8
  rw [Volume.listing, hfetch, Option.getD_some, hentry]

theorem DirectoryFile.fetch_listing {s : Volume} (hd : DirectoryFile s.directoryFile.hdr a b)
    (junk : Memory) : ∃ d, s.fetchDirectory junk = some d ∧ d.tableSize = numDirEntries ∧
      ∀ i, d.entry i = s.listing.entry i := by
  obtain ⟨d, hfetch, hsize, hentry⟩ := hd.fetch junk
  exact ⟨d, hfetch, hsize, fun i => (hentry i).trans (hd.entry_listing i).symm⟩

/-- The layout of a formatted disk: the free map in sector 2 and the directory in
the sectors 3 and 4, all of these marked. -/
structure Layout (s : Volume) : Prop where
  map : MapFile s.freeMapFile.hdr 2
  dir : DirectoryFile s.directoryFile.hdr 3 4
  marked : ∀ x < 5, (diskMap (s.store.disk 2)).bit x = true
  entry_lt : ∀ i t w, s.listing.entry i = some (t, w) → w.toNat < totalSectors

end Nachos.FileSystem
