import Nachos.VolumeCalls

/-!
# A formatted disk

On a map whose marked sectors are the first `k`, the answers of `Find` are `k`,
`k + 1`, and so on. This gives the sectors that formatting hands out: the free
map has its header in sector 0 and its data in sector 2, the directory has its
header in sector 1 and its data in the sectors 3 and 4.
-/
namespace Nachos.FileSystem
open ByteMemory

/-- The first `k` sectors are marked and no others. -/
structure Low (m : BitMap) (k : ℕ) : Prop where
  numBits : m.numBits = totalSectors
  bit : ∀ x < totalSectors, m.bit x = decide (x < k)

variable {m : BitMap} {k : ℕ}

theorem Low.find (h : Low m k) (hk : k < totalSectors) : m.find = ((k : ℤ), m.setBit k) := by
  rcases m.find_cases with ⟨x, hx, hclear, hset, hfind⟩ | ⟨hfull, -⟩
  · rw [h.numBits] at hx
    have hle : k ≤ x := by
      rw [h.bit x hx, decide_eq_false_iff_not] at hclear
      omega
    have hge : ¬k < x := by
      intro hlt
      have := hset k hlt
      rw [h.bit k hk, decide_eq_true_iff] at this
      omega
    obtain rfl : x = k := by omega
    exact hfind
  · have := hfull k (h.numBits ▸ hk)
    rw [h.bit k hk, decide_eq_true_iff] at this
    omega

theorem Low.setBit (h : Low m k) : Low (m.setBit k) (k + 1) where
  numBits := h.numBits
  bit x hx := by
    rw [BitMap.bit_setBit, h.bit x hx, ← Bool.decide_or]
    congr 1
    exact propext (by omega)

theorem Low.findSector (h : Low m k) (hk : k < totalSectors) :
    FileSystem.findSector m = BitVec.ofNat 32 k := by
  rw [FileSystem.findSector, h.find hk]
  exact BitVec.ofInt_natCast _ _

theorem Low.finds (h : Low m k) (n : ℕ) (hn : k + n ≤ totalSectors) :
    (finds n m).1 = (List.range' k n).map (BitVec.ofNat 32) ∧ Low (finds n m).2 (k + n) := by
  induction n generalizing m k with
  | zero => exact ⟨rfl, h⟩
  | succ n ih =>
    have hlt : k < totalSectors := by omega
    have hrest := ih h.setBit (by omega)
    rw [finds_succ, h.findSector hlt, h.find hlt, List.range'_succ, List.map_cons, hrest.1]
    refine ⟨rfl, ?_⟩
    rw [← Nat.add_assoc, Nat.add_right_comm]
    exact hrest.2

theorem countP_range_ge (n k : ℕ) : (List.range n).countP (fun x => !decide (x < k)) = n - k := by
  induction n with
  | zero => simp
  | succ n ih =>
    rw [List.range_succ, List.countP_append, ih, List.countP_singleton]
    by_cases hk : n < k
    · simp [hk]
      omega
    · simp [hk]
      omega

theorem Low.numClear (h : Low m k) : m.numClear = totalSectors - k := by
  rw [BitMap.numClear, h.numBits, ← countP_range_ge]
  apply List.countP_congr
  intro x hx
  rw [h.bit x (List.mem_range.mp hx)]

/-- A file of at most four sectors, allocated from such a map. -/
theorem Low.allocate (h : Low m k) (junk : ℕ → ℕ → Word) (hdr : FileHeader) (st : Store) (size : ℤ)
    (n : ℕ) (hn : n ≤ 4) (hsize : (Allocation.sizedHeader hdr size).numSectors = BitVec.ofNat 32 n)
    (hk : k + n ≤ totalSectors) :
    ∃ c, Allocation.allocate junk ⟨hdr, m, st⟩ size = some (true, c) ∧ c.store = st ∧
      c.hdr.numBytes = BitVec.ofInt 32 size ∧ c.hdr.numSectors = BitVec.ofNat 32 n ∧
      c.hdr.directSectors = (List.range' k n).map (BitVec.ofNat 32) ∧ Low c.freeMap (k + n) := by
  have hint : (BitVec.ofNat 32 n).toInt = n := by interval_cases n <;> decide
  have hnone : FileHeader.indirects (BitVec.ofNat 32 n) = 0 := by interval_cases n <;> decide
  have hlength : (FileHeader.directIndices 0 n).length = n := by interval_cases n <;> decide
  have hbytes : (Allocation.sizedHeader hdr size).numBytes = BitVec.ofInt 32 size := rfl
  have hclear : ¬(m.numClear : ℤ) < n := by
    rw [h.numClear]
    omega
  unfold Allocation.allocate
  generalize Allocation.sizedHeader hdr size = h' at *
  have hdirects : ∀ g, FileHeader.directs { h' with directDataSectors := g } = n := by
    intro g
    simp only [FileHeader.directs, hsize, hint]
    split_ifs <;> omega
  obtain ⟨g, hfill, hg, -⟩ := Allocation.fillDirects_eq (FileHeader.directIndices 0 n)
    (Allocation.directIndices_nodup _ _) ⟨h', m, st⟩
  obtain ⟨hfinds, hlow⟩ := h.finds n hk
  rw [hlength] at hfill hg
  refine ⟨⟨{ h' with directDataSectors := g }, (FileSystem.finds n m).2, st⟩, ?_, rfl, hbytes, hsize,
    ?_, hlow⟩
  · have hdirects' : h'.directs = n := hdirects h'.directDataSectors
    simp [hsize, hint, hclear, hnone, hdirects', hfill]
  · rw [FileHeader.directSectors, hdirects, hg, hfinds]

/-- A disk that was just formatted. -/
structure Formatted (s : Volume) : Prop where
  map : MapFile s.freeMapFile.hdr 2
  dir : DirectoryFile s.directoryFile.hdr 3 4
  mapHdr : s.store.headerAt 0 = s.freeMapFile.hdr
  dirHdr : s.store.headerAt 1 = s.directoryFile.hdr
  mapSectors : s.freeMapFile.hdr.numSectors = 1#32
  dirSectors : s.directoryFile.hdr.numSectors = 2#32
  low : Low (diskMap (s.store.disk 2)) 5
  empty : ∀ i, s.listing.entry i = none

theorem Low.mark (h : Low m k) (hk : k < totalSectors) :
    ∃ m', m.mark k = some m' ∧ Low m' (k + 1) := by
  have hrange : m.InRange k := ⟨by omega, by rw [h.numBits]; omega⟩
  refine ⟨m.setBit k, ?_, h.setBit⟩
  rw [BitMap.mark, if_pos hrange, Int.toNat_natCast]

theorem low_of_mark : ∃ m₁ m₂, (BitMap.create (fun _ => 0) totalSectors).mark 0 = some m₁ ∧
    m₁.mark 1 = some m₂ ∧ Low m₂ 2 := by
  have hzero : Low (BitMap.create (fun _ => 0) totalSectors) 0 :=
    ⟨BitMap.create_numBits _ _, fun x hx => by rw [BitMap.bit_create _ hx]; rfl⟩
  obtain ⟨m₁, hm₁, hone⟩ := hzero.mark (by decide)
  obtain ⟨m₂, hm₂, htwo⟩ := hone.mark (by decide)
  exact ⟨m₁, m₂, hm₁, hm₂, htwo⟩

theorem mapFile_of_directSectors {h : FileHeader} (hbytes : h.numBytes = 128#32)
    (hnum : h.numSectors = 1#32) (hdirect : h.directSectors = [2#32]) : MapFile h 2 := by
  have hindices : FileHeader.directIndices 0 1 = [0] := by decide
  simp only [FileHeader.directSectors, FileHeader.directs, hnum] at hdirect
  have hfirst : h.directDataSectors 0 = 2#32 := by simpa [hindices] using hdirect
  exact ⟨hbytes, by rw [hfirst]; rfl, by decide⟩

theorem directoryFile_of_directSectors {h : FileHeader} (hbytes : h.numBytes = 200#32)
    (hnum : h.numSectors = 2#32) (hdirect : h.directSectors = [3#32, 4#32]) :
    DirectoryFile h 3 4 := by
  have hindices : FileHeader.directIndices 0 2 = [0, 1] := by decide
  simp only [FileHeader.directSectors, FileHeader.directs, hnum] at hdirect
  obtain ⟨hfirst, hsecond⟩ : h.directDataSectors 0 = 3#32 ∧ h.directDataSectors 1 = 4#32 := by
    simpa [hindices] using hdirect
  exact ⟨hbytes, by rw [hfirst]; rfl, by rw [hsecond]; rfl, by decide, by decide, by decide⟩

theorem format_eq (depth : ℕ) (st : Store) (fresh : Fresh) :
    ∃ s, format (depth + 1) st fresh = some s ∧ Formatted s ∧ s.store.next = st.next := by
  obtain ⟨m₁, m₂, hm₁, hm₂, hlow⟩ := low_of_mark
  obtain ⟨a, ha, hast, hbytes, hnum, hdirect, hlow₁⟩ := hlow.allocate fresh.block fresh.hdr st
    freeMapFileSize 1 (by decide) rfl (by decide)
  obtain ⟨b, hb, hbst, hbytes', hnum', hdirect', hlow₂⟩ := hlow₁.allocate fresh.block fresh.dirHdr st
    (entrySize * numDirEntries : ℕ) 2 (by decide) rfl (by decide)
  have hmap := mapFile_of_directSectors (hbytes.trans (by decide)) hnum hdirect
  have hdir := directoryFile_of_directSectors (hbytes'.trans (by decide)) hnum' hdirect'
  generalize hst₂ : (st.withSector 0 a.hdr.writeBack).withSector 1 b.hdr.writeBack = st₂
  have h0 : FileHeader.fetchFrom (st₂.disk 0) = a.hdr := by
    rw [← hst₂, Store.withSector_of_ne _ (by decide), Store.withSector_self,
      FileHeader.fetchFrom_writeBack]
  have h1 : FileHeader.fetchFrom (st₂.disk 1) = b.hdr := by
    rw [← hst₂, Store.withSector_self, FileHeader.fetchFrom_writeBack]
  obtain ⟨st₄, hst₄, hentry, hframe⟩ := hdir.write depth (st₂.withSector 2 (mapSector b.freeMap))
    fresh.dirWrite (show (Directory.create fresh.table numDirEntries).tableSize = numDirEntries from rfl)
  have hdisk : ∀ x < 2, st₄.disk x = st₂.disk x := by
    intro x hx
    rw [hframe.disk x (by simp only [List.mem_cons, List.not_mem_nil, or_false]; omega),
      Store.withSector_of_ne _ (by omega)]
  refine ⟨⟨st₄, ⟨a.hdr, 0⟩, ⟨b.hdr, 0⟩, fun _ => none⟩, ?_,
    ⟨hmap, hdir, ?_, ?_, hnum, hnum', ?_, ?_⟩, ?_⟩
  · have hzero : st.writeSector 0 a.hdr.writeBack = some (st.withSector 0 a.hdr.writeBack) :=
      Store.writeSector_eq _ (by decide) _
    have hone : (st.withSector 0 a.hdr.writeBack).writeSector 1 b.hdr.writeBack = some st₂ := by
      rw [← hst₂]
      exact Store.writeSector_eq _ (by decide) _
    unfold format
    rw [hm₁, Option.bind_some, hm₂, Option.bind_some, ha, Option.bind_some, if_neg (by simp), hast, hb,
      Option.bind_some, if_neg (by simp), hbst, hzero, Option.bind_some, hone, Option.bind_some,
      OpenFile.create, OpenFile.create, h0, h1, hmap.write, Option.bind_some, hst₄, Option.map_some]
  · rw [Store.headerAt, hdisk 0 (by decide), h0]
  · rw [Store.headerAt, hdisk 1 (by decide), h1]
  · refine ⟨diskMap_numBits _, fun x hx => ?_⟩
    rw [hframe.disk 2 (by decide), Store.withSector_self, bit_diskMap_mapSector _ hx]
    exact hlow₂.bit x hx
  · intro i
    rw [DirectoryFile.entry_listing (s := ⟨st₄, ⟨a.hdr, 0⟩, ⟨b.hdr, 0⟩, fun _ => none⟩) hdir, hentry]
    exact Directory.entry_create _ _ _
  · rw [← show st₂.next = st.next by rw [← hst₂]; rfl]
    exact hframe.next

theorem format_formatted {depth : ℕ} {st : Store} {fresh : Fresh} {s : Volume}
    (h : format depth st fresh = some s) : Formatted s := by
  cases depth with
  | zero => simp [format, writeAt] at h
  | succ depth =>
    obtain ⟨t, ht, hformatted, -⟩ := format_eq depth st fresh
    obtain rfl := Option.some.inj (h.symm.trans ht)
    exact hformatted

end Nachos.FileSystem
