import Nachos.SystemFiles

/-!
# What a successful `Create` and a successful `Remove` change

Both are stated for a disk with the layout that formatting gives it. `Created`
and `Removed` list the effects sector by sector and entry by entry, so that an
invariant of the volume can be checked without looking at the calls again.
-/
namespace Nachos.FileSystem
open ByteMemory CStrings

/-- The header that a sector of the disk holds. -/
def Store.headerAt (st : Store) (x : ℕ) : FileHeader := FileHeader.fetchFrom (st.disk x)

theorem FileHeader.sectors_congr {st st' : Store} {h : FileHeader}
    (hb : ∀ i : Fin numInDirect, (i : ℕ) < indirects h.numSectors →
      st'.blocks (h.indirectDataSectors i).toNat = st.blocks (h.indirectDataSectors i).toNat) :
    h.sectors st' = h.sectors st := by
  unfold sectors
  congr 1
  apply mapM_congr
  intro j hj
  exact blockSectors_congr fun hj' => ⟨rfl, rfl, hb ⟨j, hj'⟩ (List.mem_range.mp hj)⟩

/-- The file `name` was created with its header `hdr` in the sector `w` and its
other sectors `l`; its entry in the directory is number `i`. -/
structure Created (s t : Volume) (name : List Byte) (size : Word) (w : Word) (i : ℕ)
    (hdr : FileHeader) (l : List Word) : Prop where
  freeMapFile : t.freeMapFile = s.freeMapFile
  directoryFile : t.directoryFile = s.directoryFile
  handles : t.handles = s.handles
  lt : w.toNat < totalSectors
  nodup : (w.toNat :: realSectors l).Nodup
  clear : ∀ x ∈ w.toNat :: realSectors l, (diskMap (s.store.disk 2)).bit x = false
  bit_iff : ∀ x < totalSectors, (diskMap (t.store.disk 2)).bit x = true ↔
    (diskMap (s.store.disk 2)).bit x = true ∨ x ∈ w.toNat :: realSectors l
  index : i < numDirEntries
  free : s.listing.entry i = none
  entry : ∀ j, t.listing.entry j = if j = i then some (name, w) else s.listing.entry j
  header : t.store.headerAt w.toNat = hdr
  disk : ∀ x, x ≠ w.toNat → x ∉ [2, 3, 4] → t.store.disk x = s.store.disk x
  sectors : hdr.sectors t.store = some l
  numBytes : hdr.numBytes = size
  sized : hdr.numSectors = (Allocation.sizedHeader hdr size.toInt).numSectors
  handOn : t.store.handOn = s.store.handOn
  next : t.store.next = s.store.next + FileHeader.indirects hdr.numSectors
  blocks : ∀ p < s.store.next, t.store.blocks p = s.store.blocks p
  le : FileHeader.indirects hdr.numSectors ≤ numInDirect
  address : ∀ k : Fin numInDirect, (k : ℕ) < FileHeader.indirects hdr.numSectors →
    (hdr.indirectDataSectors k).toNat = s.store.next + k
  block : ∀ k < FileHeader.indirects hdr.numSectors, ∃ b,
    t.store.blocks (s.store.next + k) = some b ∧ b.numSectors = pointerSectors

theorem Layout.findIndex_iff {s : Volume} (hs : Layout s) {d : Directory}
    (hd : ∀ i, d.entry i = s.listing.entry i) (name : Memory) :
    d.find name = -1#32 ↔ d.findIndex name = none := by
  constructor
  · intro h
    by_contra hne
    obtain ⟨i, hi⟩ := Option.ne_none_iff_exists'.mp hne
    have hlt := hs.entry_lt i _ _ ((hd i).symm.trans (Directory.findIndex_eq_some hi))
    rw [← Directory.find_eq hi, h] at hlt
    exact absurd hlt (by decide)
  · exact Directory.find_of_none

theorem findSector_toNat {m : BitMap} (hm : m.numBits = totalSectors) (hfind : m.find.1 ≠ -1) :
    (findSector m).toNat < totalSectors := by
  rcases m.find_cases with ⟨x, hx, -, -, he⟩ | ⟨-, he⟩
  · rw [findSector, he, BitVec.ofInt_natCast, BitVec.toNat_ofNat]
    rw [hm] at hx
    exact (Nat.mod_le _ _).trans_lt hx
  · rw [he] at hfind
    exact absurd rfl hfind

/-- A run through `Create` in which no test fails. -/
theorem create_eq {s : Volume} {depth a b : ℕ} {name : CString} {size w : Word} {fresh : Fresh}
    {d d' : Directory} {m : BitMap} {c : Allocation} {st₁ st₂ st₃ : Store} {h h' : FileHeader}
    (hfetch : s.fetchDirectory fresh.table = some d) (hfound : d.findIndex name.memory = none)
    (hm : fetchFreeMap s.store s.freeMapFile.hdr = some m) (hfind : m.find.1 ≠ -1)
    (hw : findSector m = w) (hadd : d.add fresh.grown name.memory w = (true, d'))
    (halloc : Allocation.allocate fresh.block ⟨fresh.hdr, m.find.2, s.store⟩ size.toInt =
      some (true, c))
    (hhdr : c.store.writeSector w c.hdr.writeBack = some st₁)
    (hdir : writeAt depth st₁ s.directoryFile.hdr fresh.dirWrite d'.bytes 0 = some (a, st₂, h))
    (hmap : writeAt depth st₂ s.freeMapFile.hdr fresh.mapWrite (freeMapBytes c.freeMap) 0 =
      some (b, st₃, h')) :
    s.create depth name size fresh = some (some w, ⟨st₃,
      ⟨h', s.freeMapFile.seekPosition⟩, ⟨h, s.directoryFile.seekPosition⟩, s.handles⟩) := by
  unfold Volume.create
  rw [hfetch, Option.bind_some, if_neg (not_not.mpr (Directory.find_of_none hfound)), hm,
    Option.bind_some]
  simp only [hw, hadd]
  rw [if_neg hfind, if_neg (by simp), halloc, Option.bind_some, if_neg (by simp), hhdr,
    Option.bind_some, hdir, Option.bind_some, hmap, Option.map_some]

/-- `Create` of a name that is not in the directory, with a free entry in it. -/
theorem create_new {s : Volume} (hs : Layout s) {name : CString} {size : Word} {fresh : Fresh}
    {d : Directory} {i : ℕ} {c : Allocation} (depth : ℕ)
    (hfetch : s.fetchDirectory fresh.table = some d) (hsize : d.tableSize = numDirEntries)
    (hentry : ∀ i, d.entry i = s.listing.entry i) (hnone : d.findIndex name.memory = none)
    (hi : ((List.range d.tableSize).find? fun i => !d.inUse i) = some i)
    (hfind : (diskMap (s.store.disk 2)).find.1 ≠ -1)
    (halloc : Allocation.allocate fresh.block
      ⟨fresh.hdr, (diskMap (s.store.disk 2)).find.2, s.store⟩ size.toInt = some (true, c)) :
    ∃ t l, s.create (depth + 1) name size fresh =
        some (some (findSector (diskMap (s.store.disk 2))), t) ∧
      Created s t (text name.memory fileNameMaxLen) size (findSector (diskMap (s.store.disk 2))) i
        c.hdr l := by
  generalize hm : diskMap (s.store.disk 2) = m at *
  have hbits : m.numBits = totalSectors := hm ▸ diskMap_numBits _
  generalize hw : findSector m = w at *
  have hlt : w.toNat < totalSectors := hw ▸ findSector_toNat hbits hfind
  obtain ⟨l, hl⟩ := Allocation.allocate_eq halloc
  have htaken : Taken m ([w] ++ l) c.freeMap := by
    obtain ⟨k, hk⟩ := hl.found
    have hfirst := Taken.find hbits
    have hrest := finds_taken (hfirst.numBits.trans hbits) k
    rw [hk] at hrest
    exact hw ▸ hfirst.append hrest
  have hreal : realSectors ([w] ++ l) = w.toNat :: realSectors l := by
    simp [realSectors, hlt]
  have hclear : ∀ x ∈ w.toNat :: realSectors l, m.bit x = false := hreal ▸ htaken.clear
  have hmeta : ∀ x < 5, x ≠ w.toNat := by
    intro x hx he
    have hset : m.bit x = true := hm ▸ hs.marked x hx
    rw [he, hclear w.toNat List.mem_cons_self] at hset
    cases hset
  have hadd := Directory.add_eq fresh.grown w hnone (by rw [hsize]; decide) hi
  obtain ⟨st₂, hdir, hnew, hframe⟩ := hs.dir.write depth
    (c.store.withSector w.toNat c.hdr.writeBack) fresh.dirWrite
    (show (d.setEntry i name.memory w).tableSize = numDirEntries from hsize)
  have hmap := hs.map.write depth st₂ fresh.mapWrite c.freeMap
  refine ⟨⟨st₂.withSector 2 (mapSector c.freeMap), s.freeMapFile, s.directoryFile, s.handles⟩, l,
    ?_, ?_⟩
  · exact create_eq hfetch hnone ((hs.map.fetch _).trans (congrArg some hm)) hfind hw hadd halloc
      (Store.writeSector_eq _ hlt _) hdir hmap
  have hother : ∀ x, x ≠ w.toNat → x ∉ [2, 3, 4] →
      (st₂.withSector 2 (mapSector c.freeMap)).disk x = s.store.disk x := by
    intro x hxw hx
    simp only [List.mem_cons, List.not_mem_nil, or_false, not_or] at hx
    rw [Store.withSector_of_ne _ hx.1, hframe.disk x (by simp [hx.2]), Store.withSector_of_ne _ hxw,
      hl.store.disk]
  have hhdr : (st₂.withSector 2 (mapSector c.freeMap)).disk w.toNat = c.hdr.writeBack := by
    rw [Store.withSector_of_ne _ (hmeta 2 (by decide)).symm, hframe.disk w.toNat ?_,
      Store.withSector_self]
    simp [(hmeta 3 (by decide)).symm, (hmeta 4 (by decide)).symm]
  have hblocks : st₂.blocks = c.store.blocks := hframe.blocks
  have hlisting : ∀ j, (Volume.mk (st₂.withSector 2 (mapSector c.freeMap)) s.freeMapFile
      s.directoryFile s.handles).listing.entry j = (d.setEntry i name.memory w).entry j := by
    intro j
    have hfile : DirectoryFile (Volume.mk (st₂.withSector 2 (mapSector c.freeMap)) s.freeMapFile
      s.directoryFile s.handles).directoryFile.hdr 3 4 := hs.dir
    rw [hfile.entry_listing, ← hnew, diskDirectory_congr (Store.withSector_of_ne _ (by decide) _)
      (Store.withSector_of_ne _ (by decide) _)]
  have hindex : i < d.tableSize := List.mem_range.mp (List.mem_of_find?_eq_some hi)
  refine ⟨rfl, rfl, rfl, hlt, hreal ▸ htaken.nodup, hm.symm ▸ hclear, ?_, hsize ▸ hindex, ?_, ?_, ?_,
    hother, ?_, ?_, hl.numSectors, ?_, ?_, ?_, hl.le, hl.address, ?_⟩
  · intro x hx
    rw [Store.withSector_self, bit_diskMap_mapSector _ hx, htaken.bit_iff, hreal, hm]
  · rw [← hentry]
    exact Directory.entry_of_not_inUse (by simpa using List.find?_some hi)
  · intro j
    rw [hlisting]
    by_cases hj : j = i
    · rw [if_pos hj, hj, Directory.entry_setEntry_self hindex]
    · rw [if_neg hj, Directory.entry_setEntry_ne hj, hentry]
  · rw [Store.headerAt, hhdr, FileHeader.fetchFrom_writeBack]
  · rw [← hl.sectors]
    exact FileHeader.sectors_congr fun k _ => congrFun hblocks _
  · rw [hl.numBytes, BitVec.ofInt_toInt]
  · exact hframe.handOn.trans hl.store.handOn
  · exact hframe.next.trans hl.store.next
  · intro p hp
    exact (congrFun hblocks p).trans (hl.store.blocks p hp)
  · intro k hk
    obtain ⟨b, hb, hn⟩ := hl.block k hk
    exact ⟨b, (congrFun hblocks _).trans hb, hn⟩

/-- `Create` does not need more than the ten entries of the directory: one of them
is free, or the call fails for another reason. -/
def Volume.HasRoom (s : Volume) (name : CString) (size : Word) (fresh : Fresh) : Prop :=
  ∀ d m, s.fetchDirectory fresh.table = some d → fetchFreeMap s.store s.freeMapFile.hdr = some m →
    d.find name.memory ≠ -1#32 ∨ (∃ i < d.tableSize, d.inUse i = false) ∨ m.find.1 = -1 ∨
      (m.find.2.numClear : ℤ) < (Allocation.sizedHeader fresh.hdr size.toInt).numSectors.toInt

theorem allocate_refused (junk : ℕ → ℕ → Word) (hdr : FileHeader) (m : BitMap) (st : Store)
    {size : ℤ} (h : (m.numClear : ℤ) < (Allocation.sizedHeader hdr size).numSectors.toInt) :
    Allocation.allocate junk ⟨hdr, m, st⟩ size =
      some (false, ⟨Allocation.sizedHeader hdr size, m, st⟩) :=
  if_pos h

theorem create_cases {s t : Volume} (hs : Layout s) {name : CString} {size : Word} {fresh : Fresh}
    {depth : ℕ} {r : Option Word} (hroom : s.HasRoom name size fresh)
    (h : s.create depth name size fresh = some (r, t)) :
    (r = none ∧ t = s) ∨
      ∃ w i hdr l, r = some w ∧ Created s t (text name.memory fileNameMaxLen) size w i hdr l ∧
        ∀ j v, s.listing.entry j ≠ some (text name.memory fileNameMaxLen, v) := by
  obtain ⟨d, hfetch, hsize, hentry⟩ := hs.dir.fetch_listing fresh.table
  have hroom := hroom d _ hfetch (hs.map.fetch s.store)
  have hcreate := h
  simp only [Volume.create, hfetch, Option.bind_some, hs.map.fetch] at h
  by_cases hfound : d.find name.memory = -1#32
  case neg =>
    rw [if_pos hfound] at h
    obtain ⟨rfl, rfl⟩ := Prod.mk.inj (Option.some.inj h)
    exact Or.inl ⟨rfl, rfl⟩
  rw [if_neg (not_not.mpr hfound)] at h
  by_cases hfind : (diskMap (s.store.disk 2)).find.1 = -1
  · rw [if_pos hfind] at h
    obtain ⟨rfl, rfl⟩ := Prod.mk.inj (Option.some.inj h)
    exact Or.inl ⟨rfl, rfl⟩
  rw [if_neg hfind] at h
  split_ifs at h with hadd
  · obtain ⟨rfl, rfl⟩ := Prod.mk.inj (Option.some.inj h)
    exact Or.inl ⟨rfl, rfl⟩
  obtain ⟨⟨ok, c⟩, halloc, h⟩ := Option.bind_eq_some_iff.mp h
  cases ok with
  | false =>
    obtain ⟨rfl, rfl⟩ := Prod.mk.inj (Option.some.inj h)
    exact Or.inl ⟨rfl, rfl⟩
  | true =>
    have hnone := (hs.findIndex_iff hentry name.memory).mp hfound
    have hfree : ∃ i < d.tableSize, d.inUse i = false := by
      rcases hroom with hne | hfree | hne | hclear
      · exact absurd hfound hne
      · exact hfree
      · exact absurd hne hfind
      · rw [allocate_refused _ _ _ _ hclear] at halloc
        simp at halloc
    obtain ⟨i, hi⟩ : ∃ i, ((List.range d.tableSize).find? fun i => !d.inUse i) = some i := by
      apply Option.isSome_iff_exists.mp
      rw [List.find?_isSome]
      obtain ⟨i, hlt, huse⟩ := hfree
      exact ⟨i, List.mem_range.mpr hlt, by simp [huse]⟩
    cases depth with
    | zero =>
      rw [if_neg (by simp)] at h
      obtain ⟨st, -, h⟩ := Option.bind_eq_some_iff.mp h
      simp [writeAt] at h
    | succ depth =>
      obtain ⟨u, l, hu, hcreated⟩ := create_new hs depth hfetch hsize hentry hnone hi hfind halloc
      obtain ⟨rfl, rfl⟩ := Prod.mk.inj (Option.some.inj (hcreate.symm.trans hu))
      refine Or.inr ⟨_, i, c.hdr, l, rfl, hcreated, ?_⟩
      intro j v
      rw [← hentry]
      exact Directory.findIndex_eq_none_iff.mp hnone j v

/-- The file `name` with entry `i` was removed; its header was in the sector `w`
and its other sectors were `l`. -/
structure Removed (s t : Volume) (name : List Byte) (w : Word) (i : ℕ) (l : List Word) : Prop where
  freeMapFile : t.freeMapFile = s.freeMapFile
  directoryFile : t.directoryFile = s.directoryFile
  handles : t.handles = s.handles
  old : s.listing.entry i = some (name, w)
  entry : ∀ j, t.listing.entry j = if j = i then none else s.listing.entry j
  sectors : (s.store.headerAt w.toNat).sectors s.store = some l
  bit_iff : ∀ x < totalSectors, (diskMap (t.store.disk 2)).bit x = true ↔
    (diskMap (s.store.disk 2)).bit x = true ∧ x ∉ w.toNat :: realSectors l
  disk : ∀ x ∉ [2, 3, 4], t.store.disk x = s.store.disk x
  store : ∃ st, Allocation.Deletes s.store (s.store.headerAt w.toNat)
      (FileHeader.indirects (s.store.headerAt w.toNat).numSectors) st ∧
    t.store.blocks = st.blocks ∧ t.store.next = st.next ∧ t.store.handOn = st.handOn

theorem remove_cases {s t : Volume} (hs : Layout s) {name : CString} {fresh : Fresh} {depth : ℕ}
    {r : Bool} (h : s.remove depth name fresh = some (r, t)) :
    (r = false ∧ t = s ∧ ∀ j v, s.listing.entry j ≠ some (text name.memory fileNameMaxLen, v)) ∨
      ∃ w i l, r = true ∧ Removed s t (text name.memory fileNameMaxLen) w i l := by
  obtain ⟨d, hfetch, hsize, hentry⟩ := hs.dir.fetch_listing fresh.table
  simp only [Volume.remove, hfetch, Option.bind_some, hs.map.fetch] at h
  by_cases hfound : d.find name.memory = -1#32
  · rw [if_pos hfound] at h
    obtain ⟨rfl, rfl⟩ := Prod.mk.inj (Option.some.inj h)
    refine Or.inl ⟨rfl, rfl, ?_⟩
    intro j v
    rw [← hentry]
    exact Directory.findIndex_eq_none_iff.mp ((hs.findIndex_iff hentry _).mp hfound) j v
  rw [if_neg hfound] at h
  obtain ⟨i, hi⟩ := Option.ne_none_iff_exists'.mp (mt (hs.findIndex_iff hentry _).mpr hfound)
  have hold := (hentry i).symm.trans (Directory.findIndex_eq_some hi)
  rw [← Directory.find_eq hi] at hold
  generalize d.find name.memory = w at *
  obtain ⟨hdr, hhdr, h⟩ := Option.bind_eq_some_iff.mp h
  obtain ⟨c, hc, h⟩ := Option.bind_eq_some_iff.mp h
  obtain ⟨m, hm, h⟩ := Option.bind_eq_some_iff.mp h
  cases depth with
  | zero => simp [writeAt] at h
  | succ depth =>
    obtain ⟨st₂, hdir, hnew, hframe⟩ := hs.dir.write depth (c.store.withSector 2 (mapSector m))
      fresh.dirWrite (show (d.clearEntry i).tableSize = numDirEntries from hsize)
    have hremove : d.remove name.memory = (true, d.clearEntry i) := by
      simp [Directory.remove, hi]
    simp only [hs.map.write, Option.bind_some, hremove, hdir, Option.map_some] at h
    obtain ⟨rfl, rfl⟩ := Prod.mk.inj (Option.some.inj h)
    have hsector : hdr = s.store.disk w.toNat := by
      rw [Store.readSector, if_pos (hs.entry_lt i _ _ hold)] at hhdr
      exact (Option.some.inj hhdr).symm
    subst hsector
    obtain ⟨l, hl, hrel, hdel⟩ := Allocation.deallocate_eq hc (diskMap_numBits _)
    refine Or.inr ⟨w, i, l, rfl, rfl, rfl, rfl, hold, ?_, hl, ?_, ?_, ?_⟩
    · intro j
      have hfile : DirectoryFile (Volume.mk st₂ s.freeMapFile s.directoryFile
        s.handles).directoryFile.hdr 3 4 := hs.dir
      exact (hfile.entry_listing j).trans ((hnew j).trans
        ((Directory.entry_clearEntry d i j).trans (by rw [hentry])))
    · intro x hx
      rw [hframe.disk 2 (by decide), Store.withSector_self, bit_diskMap_mapSector _ hx]
      unfold BitMap.clear at hm
      split_ifs at hm with hrange
      obtain rfl := Option.some.inj hm
      have hne : (!decide (w.toNat = x)) = true ↔ ¬x = w.toNat := by
        rw [Bool.not_eq_true', decide_eq_false_iff_not, eq_comm]
      rw [toInt_of_lt rfl (hs.entry_lt i _ _ hold) (by decide), Int.toNat_natCast,
        BitMap.bit_resetBit, Bool.and_eq_true, hrel.bit_iff, List.mem_cons, not_or, hne,
        and_left_comm]
    · intro x hx
      have hx' := hx
      simp only [List.mem_cons, List.not_mem_nil, or_false, not_or] at hx'
      rw [hframe.disk x (by simp [hx'.2]), Store.withSector_of_ne _ hx'.1, hdel.disk]
    · exact ⟨c.store, hdel, hframe.blocks, hframe.next, hframe.handOn⟩

end Nachos.FileSystem
