import Nachos.DirectoryGrowth
import Nachos.Ownership

/-!
# The free map and the files on disk

Every sector that the free map marks belongs to exactly one file: the free map
itself, the directory or a file that the directory names. A file owns its
header, its data sectors and the sectors set aside for its pointer blocks. The
map stays exact as long as the directory keeps its ten entries, no file is
extended by a write, and no write goes through a file that was removed or
extended since it was opened.
-/
namespace Nachos.FileSystem
open ByteMemory CStrings GuardedRuns Ownership

/-- A header sector together with all sectors that the header names. -/
def Store.sectorsOf (st : Store) (x : ℕ) : List ℕ :=
  x :: realSectors (((st.headerAt x).sectors st).getD [])

inductive Owner where
  | freeMap
  | directory
  | file (i : ℕ)
deriving DecidableEq

/-- The sector is marked in the free map on disk. -/
def Volume.Marked (s : Volume) (x : ℕ) : Prop :=
  ∃ m, fetchFreeMap s.store (s.store.headerAt 0) = some m ∧ x < totalSectors ∧ m.bit x = true

/-- The sectors of the two system files and of the file with entry `i`. -/
def Volume.holdings (s : Volume) : Owner → List ℕ
  | .freeMap => s.store.sectorsOf 0
  | .directory => s.store.sectorsOf 1
  | .file i => (s.listing.entry i).elim [] fun e => s.store.sectorsOf e.2.toNat

/-- The header points to a block at address `p`. -/
def FileHeader.Points (h : FileHeader) (p : ℕ) : Prop :=
  ∃ k : Fin numInDirect, (k : ℕ) < indirects h.numSectors ∧ (h.indirectDataSectors k).toNat = p

/-- The header in sector `x` is as `Allocate` left it. -/
structure FileOk (st : Store) (x : ℕ) : Prop where
  sectors : ∃ l, (st.headerAt x).sectors st = some l
  sized : (st.headerAt x).numSectors =
    (Allocation.sizedHeader (st.headerAt x) (st.headerAt x).numBytes.toInt).numSectors
  block : ∀ p, (st.headerAt x).Points p → p < st.next ∧
    ∃ b, st.blocks p = some b ∧ b.numSectors = pointerSectors

structure VolumeInv (s : Volume) : Prop where
  layout : Layout s
  mapHdr : s.store.headerAt 0 = s.freeMapFile.hdr
  dirHdr : s.store.headerAt 1 = s.directoryFile.hdr
  mapSectors : s.freeMapFile.hdr.numSectors = 1#32
  dirSectors : s.directoryFile.hdr.numSectors = 2#32
  files : ∀ i e, s.listing.entry i = some e → FileOk s.store e.2.toNat
  apart : ∀ i j e e', s.listing.entry i = some e → s.listing.entry j = some e' → i ≠ j →
    ∀ p, (s.store.headerAt e.2.toNat).Points p → ¬(s.store.headerAt e'.2.toNat).Points p
  names : ∀ i j t w v, s.listing.entry i = some (t, w) → s.listing.entry j = some (t, v) → i = j
  exact : Exact s.Marked s.holdings

variable {s t : Volume} {st st' : Store} {x : ℕ}

theorem headerAt_congr (hd : st'.disk x = st.disk x) : st'.headerAt x = st.headerAt x := by
  rw [Store.headerAt, Store.headerAt, hd]

theorem sectorsOf_congr (hd : st'.disk x = st.disk x)
    (hb : ∀ p, (st.headerAt x).Points p → st'.blocks p = st.blocks p) :
    st'.sectorsOf x = st.sectorsOf x := by
  unfold Store.sectorsOf
  rw [headerAt_congr hd, FileHeader.sectors_congr fun k hk => hb _ ⟨k, hk, rfl⟩]

theorem FileOk.congr (h : FileOk st x) (hd : st'.disk x = st.disk x) (hn : st.next ≤ st'.next)
    (hb : ∀ p, (st.headerAt x).Points p → st'.blocks p = st.blocks p) : FileOk st' x := by
  have hhdr := headerAt_congr hd
  refine ⟨?_, by rw [hhdr]; exact h.sized, ?_⟩
  · rw [hhdr, FileHeader.sectors_congr fun k hk => hb _ ⟨k, hk, rfl⟩]
    exact h.sectors
  · intro p hp
    rw [hhdr] at hp
    obtain ⟨hlt, b, hblock, hnum⟩ := h.block p hp
    exact ⟨hlt.trans_le hn, b, by rw [hb p hp, hblock], hnum⟩

theorem marked_iff (hmap : MapFile s.freeMapFile.hdr 2)
    (hhdr : s.store.headerAt 0 = s.freeMapFile.hdr) (x : ℕ) :
    s.Marked x ↔ x < totalSectors ∧ (diskMap (s.store.disk 2)).bit x = true := by
  simp [Volume.Marked, hhdr, hmap.fetch]

theorem sectors_of_direct {h : FileHeader} (hn : FileHeader.indirects h.numSectors = 0) (st : Store) :
    h.sectors st = some h.directSectors := by
  simp [FileHeader.sectors, hn]

theorem MapFile.sectorsOf {h : FileHeader} {y : ℕ} (hm : MapFile h y) (hh : st.headerAt x = h)
    (hn : h.numSectors = 1#32) : st.sectorsOf x = [x, y] := by
  have hindices : FileHeader.directIndices 0 1 = [0] := by decide
  rw [Store.sectorsOf, hh, sectors_of_direct (by rw [hn]; decide)]
  simp [FileHeader.directSectors, FileHeader.directs, hn, hindices, realSectors, hm.first, hm.lt]

theorem DirectoryFile.sectorsOf {h : FileHeader} {a b : ℕ} (hd : DirectoryFile h a b)
    (hh : st.headerAt x = h) (hn : h.numSectors = 2#32) : st.sectorsOf x = [x, a, b] := by
  have hindices : FileHeader.directIndices 0 2 = [0, 1] := by decide
  rw [Store.sectorsOf, hh, sectors_of_direct (by rw [hn]; decide)]
  simp [FileHeader.directSectors, FileHeader.directs, hn, hindices, realSectors, hd.first, hd.second,
    hd.lt, hd.lt']

namespace VolumeInv

theorem sectorsOf_map (hs : VolumeInv s) : s.store.sectorsOf 0 = [0, 2] :=
  hs.layout.map.sectorsOf hs.mapHdr hs.mapSectors

theorem sectorsOf_dir (hs : VolumeInv s) : s.store.sectorsOf 1 = [1, 3, 4] :=
  hs.layout.dir.sectorsOf hs.dirHdr hs.dirSectors

theorem not_points_map (hs : VolumeInv s) (p : ℕ) : ¬(s.store.headerAt 0).Points p := by
  rintro ⟨k, hk, -⟩
  rw [hs.mapHdr, hs.mapSectors] at hk
  exact Nat.not_lt_zero _ hk

theorem not_points_dir (hs : VolumeInv s) (p : ℕ) : ¬(s.store.headerAt 1).Points p := by
  rintro ⟨k, hk, -⟩
  rw [hs.dirHdr, hs.dirSectors] at hk
  exact Nat.not_lt_zero _ hk

/-- The first five sectors belong to the two system files. -/
theorem system_sector (hs : VolumeInv s) (hx : x < 5) :
    x ∈ s.holdings .freeMap ∨ x ∈ s.holdings .directory := by
  simp only [Volume.holdings, hs.sectorsOf_map, hs.sectorsOf_dir, List.mem_cons, List.not_mem_nil,
    or_false]
  omega

theorem holdings_file {i : ℕ} {e : List Byte × Word} (he : s.listing.entry i = some e) :
    s.holdings (.file i) = s.store.sectorsOf e.2.toNat := by
  simp [Volume.holdings, he]

theorem holdings_none {i : ℕ} (he : s.listing.entry i = none) : s.holdings (.file i) = [] := by
  simp [Volume.holdings, he]

theorem header_mem {i : ℕ} {e : List Byte × Word} (he : s.listing.entry i = some e) :
    e.2.toNat ∈ s.holdings (.file i) := by
  rw [holdings_file he]
  exact List.mem_cons_self

/-- Nothing that a file owns is among the first five sectors. -/
theorem five_le (hs : VolumeInv s) {i : ℕ} (hx : x ∈ s.holdings (.file i)) : 5 ≤ x := by
  by_contra hlt
  rcases hs.system_sector (Nat.lt_of_not_le hlt) with h | h
  · cases hs.exact.owner_unique hx h
  · cases hs.exact.owner_unique hx h

end VolumeInv

/-- The two system files are as before. -/
structure SystemKept (s t : Volume) : Prop where
  freeMapFile : t.freeMapFile = s.freeMapFile
  directoryFile : t.directoryFile = s.directoryFile
  disk : ∀ x < 2, t.store.disk x = s.store.disk x
  next : s.store.next ≤ t.store.next

/-- The file with entry `j` is as before: its entry, its header and the blocks
that the header points to. -/
structure EntryKept (s t : Volume) (j : ℕ) : Prop where
  entry : t.listing.entry j = s.listing.entry j
  disk : ∀ e, s.listing.entry j = some e → t.store.disk e.2.toNat = s.store.disk e.2.toNat
  blocks : ∀ e, s.listing.entry j = some e → ∀ p, (s.store.headerAt e.2.toNat).Points p →
    t.store.blocks p = s.store.blocks p

theorem EntryKept.holdings {j : ℕ} (h : EntryKept s t j) :
    t.holdings (.file j) = s.holdings (.file j) := by
  cases he : s.listing.entry j with
  | none =>
    rw [VolumeInv.holdings_none he, VolumeInv.holdings_none (h.entry.trans he)]
  | some e =>
    rw [VolumeInv.holdings_file he, VolumeInv.holdings_file (h.entry.trans he)]
    exact sectorsOf_congr (h.disk e he) (h.blocks e he)

theorem SystemKept.marked_iff (hs : VolumeInv s) (h : SystemKept s t) (x : ℕ) :
    t.Marked x ↔ x < totalSectors ∧ (diskMap (t.store.disk 2)).bit x = true := by
  apply FileSystem.marked_iff
  · rw [h.freeMapFile]
    exact hs.layout.map
  · rw [headerAt_congr (h.disk 0 (by decide)), hs.mapHdr, h.freeMapFile]

/-- What the owners hold after a change of at most the file with entry `i`. -/
theorem SystemKept.holdings (hs : VolumeInv s) (h : SystemKept s t) {i : ℕ}
    (hkept : ∀ j, j ≠ i → EntryKept s t j) :
    t.holdings = Function.update s.holdings (.file i) (t.holdings (.file i)) := by
  funext o
  by_cases ho : o = .file i
  · rw [ho, Function.update_self]
  rw [Function.update_of_ne ho]
  cases o with
  | freeMap =>
    exact sectorsOf_congr (h.disk 0 (by decide)) fun p hp => absurd hp (hs.not_points_map p)
  | directory =>
    exact sectorsOf_congr (h.disk 1 (by decide)) fun p hp => absurd hp (hs.not_points_dir p)
  | file j => exact (hkept j fun he => ho (he ▸ rfl)).holdings

/-- A change of at most the file with entry `i` keeps the invariant when the map
is exact again and the new file, if there is one, is as `Allocate` leaves it. -/
theorem SystemKept.inv (hs : VolumeInv s) (h : SystemKept s t) {i : ℕ}
    (hkept : ∀ j, j ≠ i → EntryKept s t j)
    (hnew : ∀ e, t.listing.entry i = some e → FileOk t.store e.2.toNat ∧
      (∀ j v, j ≠ i → s.listing.entry j ≠ some (e.1, v)) ∧
      ∀ j e', j ≠ i → s.listing.entry j = some e' → ∀ p,
        (t.store.headerAt e.2.toNat).Points p → ¬(s.store.headerAt e'.2.toNat).Points p)
    (hexact : Exact t.Marked t.holdings) : VolumeInv t := by
  have hmarked := h.marked_iff hs
  have hholdings := h.holdings hs hkept
  have hdir : DirectoryFile t.directoryFile.hdr 3 4 := by
    rw [h.directoryFile]
    exact hs.layout.dir
  have hmap : MapFile t.freeMapFile.hdr 2 := by
    rw [h.freeMapFile]
    exact hs.layout.map
  have hhdr : ∀ {j e}, j ≠ i → s.listing.entry j = some e →
      t.store.headerAt e.2.toNat = s.store.headerAt e.2.toNat :=
    fun hj he => headerAt_congr ((hkept _ hj).disk _ he)
  refine ⟨⟨hmap, hdir, ?_, ?_⟩, ?_, ?_, ?_, ?_, ?_, ?_, ?_, hexact⟩
  · intro x hx
    have hown : ∃ o, x ∈ t.holdings o := by
      rw [hholdings]
      rcases hs.system_sector hx with hx | hx
      · exact ⟨.freeMap, by rwa [Function.update_of_ne (by simp)]⟩
      · exact ⟨.directory, by rwa [Function.update_of_ne (by simp)]⟩
    exact ((hmarked x).mp ((hexact.marked_iff x).mpr hown)).2
  · intro j name w he
    exact ((hmarked _).mp (hexact.marked_of_mem (VolumeInv.header_mem he))).1
  · rw [headerAt_congr (h.disk 0 (by decide)), hs.mapHdr, h.freeMapFile]
  · rw [headerAt_congr (h.disk 1 (by decide)), hs.dirHdr, h.directoryFile]
  · rw [h.freeMapFile, hs.mapSectors]
  · rw [h.directoryFile, hs.dirSectors]
  · intro j e he
    by_cases hj : j = i
    · exact (hnew e (hj ▸ he)).1
    · rw [(hkept j hj).entry] at he
      exact (hs.files j e he).congr ((hkept j hj).disk e he) h.next ((hkept j hj).blocks e he)
  · intro j k e e' he he' hjk p hp
    by_cases hj : j = i
    · have hk : k ≠ i := fun hk => hjk (hj.trans hk.symm)
      rw [(hkept k hk).entry] at he'
      rw [hhdr hk he']
      exact (hnew e (hj ▸ he)).2.2 k e' hk he' p hp
    · rw [(hkept j hj).entry] at he
      rw [hhdr hj he] at hp
      by_cases hk : k = i
      · exact fun hp' => (hnew e' (hk ▸ he')).2.2 j e hj he p hp' hp
      · rw [(hkept k hk).entry] at he'
        rw [hhdr hk he']
        exact hs.apart j k e e' he he' hjk p hp
  · intro j k name w v he he'
    by_cases hj : j = i
    · by_contra hjk
      have hk : k ≠ i := fun hk => hjk (hj.trans hk.symm)
      rw [(hkept k hk).entry] at he'
      exact (hnew _ (hj ▸ he)).2.1 k v hk he'
    · rw [(hkept j hj).entry] at he
      by_cases hk : k = i
      · exact absurd he ((hnew _ (hk ▸ he')).2.1 j w hj)
      · rw [(hkept k hk).entry] at he'
        exact hs.names j k name w v he he'

/-- The map stays exact when a file is added. -/
theorem Created.inv {name : List Byte} {size w : Word} {i : ℕ} {hdr : FileHeader} {l : List Word}
    (hs : VolumeInv s) (hc : Created s t name size w i hdr l)
    (hname : ∀ j v, s.listing.entry j ≠ some (name, v)) : VolumeInv t := by
  have hmarked := marked_iff hs.layout.map hs.mapHdr
  have hclear : ∀ x ∈ w.toNat :: realSectors l, ¬s.Marked x := by
    intro x hx hm
    have hset := ((hmarked x).mp hm).2
    rw [hc.clear x hx] at hset
    cases hset
  have hdisk : ∀ {o x}, x ∈ s.holdings o → x ∉ [2, 3, 4] → t.store.disk x = s.store.disk x := by
    intro o x hx hx'
    refine hc.disk x ?_ hx'
    rintro rfl
    exact hclear _ List.mem_cons_self (hs.exact.marked_of_mem hx)
  have hsystem : SystemKept s t := by
    refine ⟨hc.freeMapFile, hc.directoryFile, ?_, by rw [hc.next]; omega⟩
    intro x hx
    have hx' : x ∉ [2, 3, 4] := by
      simp only [List.mem_cons, List.not_mem_nil, or_false]
      omega
    rcases hs.system_sector (x := x) (by omega) with h | h
    · exact hdisk h hx'
    · exact hdisk h hx'
  have hkept : ∀ j, j ≠ i → EntryKept s t j := by
    intro j hj
    refine ⟨by rw [hc.entry, if_neg hj], ?_, ?_⟩
    · intro e he
      have hfive := hs.five_le (VolumeInv.header_mem he)
      refine hdisk (VolumeInv.header_mem he) ?_
      simp only [List.mem_cons, List.not_mem_nil, or_false]
      omega
    · intro e he p hp
      exact hc.blocks p ((hs.files j e he).block p hp).1
  have hentry : t.listing.entry i = some (name, w) := by rw [hc.entry, if_pos rfl]
  have hown : t.holdings (.file i) = w.toNat :: realSectors l := by
    rw [VolumeInv.holdings_file hentry, Store.sectorsOf, hc.header, hc.sectors]
    rfl
  have hpoints : ∀ p, hdr.Points p → s.store.next ≤ p ∧ p < t.store.next ∧
      ∃ b, t.store.blocks p = some b ∧ b.numSectors = pointerSectors := by
    rintro p ⟨k, hk, rfl⟩
    rw [hc.address k hk, hc.next]
    exact ⟨Nat.le_add_right _ _, Nat.add_lt_add_left hk _, hc.block k hk⟩
  refine hsystem.inv hs hkept ?_ ?_
  · intro e he
    obtain rfl := Option.some.inj (hentry.symm.trans he)
    refine ⟨⟨⟨l, by rw [hc.header, hc.sectors]⟩, ?_, ?_⟩, fun j v _ => hname j v, ?_⟩
    · rw [hc.header, hc.numBytes]
      exact hc.sized
    · intro p hp
      rw [hc.header] at hp
      exact (hpoints p hp).2
    · intro j e' _ he' p hp hp'
      rw [hc.header] at hp
      have hlt := ((hs.files j e' he').block p hp').1
      have hle := (hpoints p hp).1
      omega
  · rw [hsystem.holdings hs hkept, hown]
    refine hs.exact.insert ?_ hc.nodup hclear ?_
    · exact VolumeInv.holdings_none hc.free
    · intro x
      rw [hsystem.marked_iff hs, hmarked]
      constructor
      · rintro ⟨hx, hbit⟩
        rcases (hc.bit_iff x hx).mp hbit with h | h
        · exact Or.inl ⟨hx, h⟩
        · exact Or.inr h
      · rintro (⟨hx, h⟩ | h)
        · exact ⟨hx, (hc.bit_iff x hx).mpr (Or.inl h)⟩
        · have hx : x < totalSectors := by
            rcases List.mem_cons.mp h with rfl | h
            · exact hc.lt
            · exact (mem_realSectors.mp h).1
          exact ⟨hx, (hc.bit_iff x hx).mpr (Or.inr h)⟩

/-- The map stays exact when a file is removed. -/
theorem Removed.inv {name : List Byte} {w : Word} {i : ℕ} {l : List Word} (hs : VolumeInv s)
    (hr : Removed s t name w i l) : VolumeInv t := by
  obtain ⟨st, hdel, hblocks, hnext, -⟩ := hr.store
  have hsystem : SystemKept s t := by
    refine ⟨hr.freeMapFile, hr.directoryFile, ?_, by rw [hnext, hdel.next]⟩
    intro x hx
    refine hr.disk x ?_
    simp only [List.mem_cons, List.not_mem_nil, or_false]
    omega
  have hkept : ∀ j, j ≠ i → EntryKept s t j := by
    intro j hj
    refine ⟨by rw [hr.entry, if_neg hj], ?_, ?_⟩
    · intro e he
      have hfive := hs.five_le (VolumeInv.header_mem he)
      refine hr.disk _ ?_
      simp only [List.mem_cons, List.not_mem_nil, or_false]
      omega
    · intro e he p hp
      rw [hblocks]
      refine hdel.blocks p fun k hk hkp => ?_
      exact hs.apart j i e (name, w) he hr.old hj p hp ⟨k, hk, hkp⟩
  have hgone : t.listing.entry i = none := by rw [hr.entry, if_pos rfl]
  have hown : s.holdings (.file i) = w.toNat :: realSectors l := by
    rw [VolumeInv.holdings_file hr.old, Store.sectorsOf, hr.sectors]
    rfl
  refine hsystem.inv hs hkept ?_ ?_
  · intro e he
    rw [hgone] at he
    cases he
  · rw [hsystem.holdings hs hkept, VolumeInv.holdings_none hgone]
    refine hs.exact.erase _ fun x => ?_
    rw [hsystem.marked_iff hs, marked_iff hs.layout.map hs.mapHdr, hown]
    constructor
    · rintro ⟨hx, hbit⟩
      obtain ⟨h₁, h₂⟩ := (hr.bit_iff x hx).mp hbit
      exact ⟨⟨hx, h₁⟩, h₂⟩
    · rintro ⟨⟨hx, h₁⟩, h₂⟩
      exact ⟨hx, (hr.bit_iff x hx).mpr ⟨h₁, h₂⟩⟩

/-- The number of sectors of a file of `size` bytes, pointer blocks included. -/
theorem sizedHeader_numSectors (h : FileHeader) {size : ℕ} (hsize : size < 2 ^ 31) :
    (Allocation.sizedHeader h size).numSectors.toNat =
      (size + 127) / 128 + ((size + 127) / 128 + 26) / 31 := by
  have hround : divRoundUp size sectorSize = ((size + 127) / 128 : ℕ) := by
    simp only [divRoundUp, sectorSize]
    rw [Int.tdiv_eq_ediv_of_nonneg (by omega), Int.tmod_eq_emod_of_nonneg (by omega)]
    omega
  simp only [Allocation.sizedHeader, hround, BitVec.ofInt_natCast, FileHeader.indirects_eq,
    pointerSectors]
  generalize hq : (size + 127) / 128 = q
  have hq' : q ≤ 2 ^ 24 := by omega
  have hn : (BitVec.ofNat 32 q + 26#32).toNat = q + 26 := by
    rw [BitVec.toNat_add, BitVec.toNat_ofNat, BitVec.toNat_ofNat]
    omega
  rw [hn, BitVec.toNat_add, BitVec.toNat_ofNat, BitVec.toNat_ofNat]
  omega

/-- The header counts at least the sectors that its length needs. -/
theorem FileOk.lt_numSectors (h : FileOk st x) {k : ℕ}
    (hk : ((k * sectorSize : ℕ) : ℤ) < (st.headerAt x).fileLength) :
    (k : ℤ) < (st.headerAt x).numSectors.toInt ∧
      (4 ≤ k → 0 < FileHeader.indirects (st.headerAt x).numSectors) := by
  have hsized := h.sized
  generalize st.headerAt x = hdr at *
  obtain ⟨size, hsize⟩ : ∃ size : ℕ, hdr.numBytes.toInt = size :=
    Int.eq_ofNat_of_zero_le (by simp only [FileHeader.fileLength] at hk; omega)
  have hlt : hdr.numBytes.toInt < 2 ^ 31 := BitVec.toInt_lt
  rw [FileHeader.fileLength, hsize] at hk
  rw [hsize] at hlt
  have hnat : hdr.numSectors.toNat = (size + 127) / 128 + ((size + 127) / 128 + 26) / 31 := by
    rw [hsized, hsize]
    exact sizedHeader_numSectors hdr (by omega)
  simp only [sectorSize] at hk
  refine ⟨?_, ?_⟩
  · rw [BitVec.toInt_eq_toNat_cond, if_pos (by omega)]
    omega
  · intro hk4
    have h26 : (hdr.numSectors + 26#32).toNat = hdr.numSectors.toNat + 26 := by
      rw [BitVec.toNat_add]
      simp only [BitVec.toNat_ofNat]
      omega
    rw [FileHeader.indirects_eq, h26]
    simp only [pointerSectors]
    omega

/-- A position inside of the file is stored in a sector that the header names. The
sectors after the fourth are found through a function that does not return its
result; `handOn` is what the caller gets. -/
theorem FileOk.data_mem (h : FileOk st x) {k : ℕ} {w : Word} {l : List Word}
    (hl : (st.headerAt x).sectors st = some l)
    (hk : ((k * sectorSize : ℕ) : ℤ) < (st.headerAt x).fileLength)
    (hreturn : k < 4 ∨ st.handOn = id)
    (hw : (st.headerAt x).byteToSector st (k * sectorSize) = some w) : w ∈ l := by
  obtain ⟨hnum, hblocks⟩ := h.lt_numSectors hk
  have hpoints := h.block
  generalize st.headerAt x = hdr at *
  obtain ⟨ls, hls, rfl⟩ := Option.map_eq_some_iff.mp hl
  have hdiv : k * sectorSize / sectorSize = k := Nat.mul_div_cancel k (by decide)
  simp only [FileHeader.byteToSector, hdiv] at hw
  split_ifs at hw with hk4 hj
  · obtain rfl := Option.some.inj hw
    refine List.mem_append_left _ (List.mem_map.mpr ⟨⟨k, hk4⟩, ?_, rfl⟩)
    rw [FileHeader.directIndices, List.mem_filter, decide_eq_true_iff]
    refine ⟨List.mem_finRange _, by simp, ?_⟩
    simp only [FileHeader.directs]
    split_ifs <;> omega
  · obtain ⟨b, hb, hw⟩ := Option.bind_eq_some_iff.mp hw
    obtain ⟨v, hv, rfl⟩ := Option.map_eq_some_iff.mp hw
    rw [hreturn.resolve_left hk4, id]
    unfold IndirectPointerBlock.byteToSector at hv
    split_ifs at hv with hin
    obtain rfl := Option.some.inj hv
    -- a position that is found at all is in the first block
    have hzero : (k - 4) / sectorSize = 0 := by
      simp only [sectorSize, pointerSectors] at *
      omega
    simp only [hzero] at hb hin ⊢
    obtain ⟨-, b', hb', hnum'⟩ := hpoints _ ⟨⟨0, by decide⟩, hblocks (Nat.le_of_not_lt hk4), rfl⟩
    obtain rfl := Option.some.inj (hb.symm.trans hb')
    obtain ⟨l', hl', hsec⟩ := exists_mem_of_mapM hls
      (List.mem_range.mpr (hblocks (Nat.le_of_not_lt hk4)))
    rw [FileHeader.blockSectors, dif_pos (by decide), hb', Option.map_some] at hsec
    refine List.mem_append_right _ (List.mem_flatten.mpr ⟨l', hl', ?_⟩)
    rw [← Option.some.inj hsec]
    exact List.mem_cons_of_mem _ (List.mem_map.mpr ⟨_, List.mem_range.mpr (hnum' ▸ hin), rfl⟩)

/-- A write through an open file that cannot harm the map: it is turned down; or
it stays inside of a file that is still in the directory with the header that
the open file has, in the first four sectors unless the missing return statement
is harmless. A write of no bytes to an empty file goes to the sector that the
first entry of its table happens to hold. -/
def Volume.Harmless (s : Volume) (f : OpenFile) (position size : ℕ) : Prop :=
  Oversized f.hdr position size ∨ Refused s.store f.hdr position size ∨
    (position + size ≤ f.hdr.fileLength ∧
      if f.hdr.fileLength = 0 then ¬s.Marked (f.hdr.directDataSectors 0).toNat
      else (∃ i e, s.listing.entry i = some e ∧ f.hdr = s.store.headerAt e.2.toNat) ∧
        (position + size ≤ 4 * sectorSize ∨ s.store.handOn = id))

/-- No header and no part of the free map or the directory is in the sector. -/
def Volume.Spare (s : Volume) (x : ℕ) : Prop :=
  5 ≤ x ∧ ∀ i e, s.listing.entry i = some e → x ≠ e.2.toNat

theorem VolumeInv.spare_of_not_marked (hs : VolumeInv s) (hx : ¬s.Marked x) : s.Spare x := by
  refine ⟨?_, ?_⟩
  · by_contra hlt
    rcases hs.system_sector (Nat.lt_of_not_le hlt) with h | h
    · exact hx (hs.exact.marked_of_mem h)
    · exact hx (hs.exact.marked_of_mem h)
  · rintro i e he rfl
    exact hx (hs.exact.marked_of_mem (VolumeInv.header_mem he))

/-- The data sectors of a file are spare. -/
theorem VolumeInv.spare_of_data (hs : VolumeInv s) {i : ℕ} {e : List Byte × Word}
    (he : s.listing.entry i = some e) {l : List Word}
    (hl : (s.store.headerAt e.2.toNat).sectors s.store = some l) (hx : x ∈ realSectors l) :
    s.Spare x := by
  have hown : s.holdings (.file i) = e.2.toNat :: realSectors l := by
    rw [VolumeInv.holdings_file he, Store.sectorsOf, hl]
    rfl
  have hmem : x ∈ s.holdings (.file i) := hown ▸ List.mem_cons_of_mem _ hx
  refine ⟨hs.five_le hmem, ?_⟩
  rintro j e' he' rfl
  obtain rfl : i = j := by
    have := hs.exact.owner_unique hmem (VolumeInv.header_mem he')
    exact Owner.file.inj this
  obtain rfl := Option.some.inj (he.symm.trans he')
  have hnodup := hs.exact.nodup (.file i)
  rw [hown] at hnodup
  exact (List.nodup_cons.mp hnodup).1 hx

/-- Only spare sectors were written. -/
theorem VolumeInv.of_spare (hs : VolumeInv s) (hb : st'.blocks = s.store.blocks)
    (hn : st'.next = s.store.next) (hd : ∀ x, ¬s.Spare x → st'.disk x = s.store.disk x)
    (handles : ℕ → Option OpenFile) :
    VolumeInv ⟨st', s.freeMapFile, s.directoryFile, handles⟩ := by
  generalize ht : Volume.mk st' s.freeMapFile s.directoryFile handles = t
  have hdisk : ∀ x < 5, t.store.disk x = s.store.disk x := by
    intro x hx
    rw [← ht]
    exact hd x fun hspare => absurd hspare.1 (by omega)
  have hsystem : SystemKept s t := by
    refine ⟨by rw [← ht], by rw [← ht], fun x hx => hdisk x (by omega), ?_⟩
    rw [← ht]
    exact hn.ge
  have hentry : ∀ j, t.listing.entry j = s.listing.entry j := by
    intro j
    have hdir : DirectoryFile t.directoryFile.hdr 3 4 := hsystem.directoryFile ▸ hs.layout.dir
    rw [hdir.entry_listing, hs.layout.dir.entry_listing,
      diskDirectory_congr (hdisk 3 (by decide)) (hdisk 4 (by decide))]
  have hkept : ∀ j, EntryKept s t j := by
    intro j
    refine ⟨hentry j, ?_, ?_⟩
    · intro e he
      rw [← ht]
      exact hd _ fun hspare => hspare.2 j e he rfl
    · intro e _ p _
      rw [← ht]
      exact congrFun hb p
  -- no entry changes; the tenth does not exist
  have hnone : t.listing.entry numDirEntries = none := by
    rw [hentry, hs.layout.dir.entry_listing]
    simp [Directory.entry, diskDirectory]
  refine hsystem.inv hs (fun j _ => hkept j) (i := numDirEntries) ?_ ?_
  · intro e he
    rw [hnone] at he
    cases he
  · rw [hsystem.holdings hs (i := numDirEntries) fun j _ => hkept j, (hkept _).holdings,
      Function.update_eq_self]
    refine hs.exact.congr fun x => ?_
    rw [hsystem.marked_iff hs, marked_iff hs.layout.map hs.mapHdr, hdisk 2 (by decide)]

/-- A harmless write keeps the invariant. -/
theorem VolumeInv.writeAt (hs : VolumeInv s) {f : OpenFile} {depth position : ℕ} {junk : Junk}
    {data : List Byte} {r : ℕ × Store × FileHeader} (hf : s.Harmless f position data.length)
    (hw : FileSystem.writeAt depth s.store f.hdr junk data position = some r)
    (handles : ℕ → Option OpenFile) :
    VolumeInv ⟨r.2.1, s.freeMapFile, s.directoryFile, handles⟩ := by
  have hsame : VolumeInv ⟨s.store, s.freeMapFile, s.directoryFile, handles⟩ :=
    hs.of_spare rfl rfl (fun _ _ => rfl) handles
  cases depth with
  | zero => cases hw
  | succ depth =>
    by_cases hover : Oversized f.hdr position data.length
    · rw [writeAt_oversized hover] at hw
      cases hw
      exact hsame
    rcases hf with hf | hf | ⟨hin, hf⟩
    · exact absurd hf hover
    · rw [writeAt_refused hf] at hw
      cases hw
      exact hsame
    rw [writeAt_inside hin, if_neg hover] at hw
    obtain ⟨st', hst', rfl⟩ := Option.map_eq_some_iff.mp hw
    obtain ⟨hb, hn, -, hd⟩ := FileHeader.writeCommon_frame hst'
    refine hs.of_spare hb hn (fun x hx => hd x fun k _ hk w hw hwx => hx ?_) handles
    subst hwx
    by_cases hempty : f.hdr.fileLength = 0
    · rw [if_pos hempty] at hf
      have hlast : position + data.length - 1 = 0 := by omega
      rw [hlast, Nat.zero_div, Nat.le_zero] at hk
      subst hk
      rw [Nat.zero_mul, FileHeader.byteToSector_zero] at hw
      obtain rfl := Option.some.inj hw
      exact hs.spare_of_not_marked hf
    · rw [if_neg hempty] at hf
      obtain ⟨⟨i, e, he, hhdr⟩, hreturn⟩ := hf
      have hle := Nat.mul_le_of_le_div _ _ _ hk
      have hok := hs.files i e he
      obtain ⟨l, hl⟩ := hok.sectors
      rw [hhdr] at hw hin hempty
      have hmem := hok.data_mem hl (by omega) (hreturn.imp_left fun h4 => by
        simp only [sectorSize] at *
        omega) hw
      by_cases hlt : w.toNat < totalSectors
      · exact hs.spare_of_data he hl (mem_realSectors.mpr ⟨hlt, w, hmem, rfl⟩)
      · refine ⟨?_, ?_⟩
        · simp only [totalSectors] at hlt
          omega
        · rintro j e' he' heq
          exact hlt (heq ▸ hs.layout.entry_lt j _ _ he')

/-- The calls that keep the map exact. -/
def Volume.Careful (s : Volume) : Call → Prop
  | .create name initialSize fresh _ => s.HasRoom name initialSize fresh
  | .file id (.write data _) => ∀ f, s.handles id = some f → s.Harmless f f.seekPosition data.length
  | .file id (.writeAt data position _) => ∀ f, s.handles id = some f →
      s.Harmless f position data.length
  | _ => True

theorem VolumeInv.setHandle (hs : VolumeInv s) (id : ℕ) (f : Option OpenFile) :
    VolumeInv (s.setHandle id f) :=
  hs.of_spare rfl rfl (fun _ _ => rfl) _

theorem VolumeInv.step (hs : VolumeInv s) {depth : ℕ} {c : Call} (hc : s.Careful c)
    (ht : s.Step depth c t) : VolumeInv t := by
  cases c with
  | create name initialSize fresh sector =>
    rcases create_cases hs.layout hc ht with ⟨-, rfl⟩ | ⟨w, i, hdr, l, -, hcreated, hname⟩
    · exact hs
    · exact hcreated.inv hs hname
  | remove name fresh removed =>
    rcases remove_cases hs.layout ht with ⟨-, rfl, -⟩ | ⟨w, i, l, -, hremoved⟩
    · exact hs
    · exact hremoved.inv hs
  | openFile name junk id =>
    obtain ⟨sector, -, rfl⟩ := ht
    exact hs.setHandle _ _
  | closeFile id =>
    obtain rfl : t = s.setHandle id none := ht
    exact hs.setHandle _ _
  | file id call =>
    obtain ⟨f, u, hf, hcall, rfl⟩ := ht
    cases call with
    | seek position =>
      obtain rfl := Option.some.inj hcall
      exact hs.setHandle _ _
    | read numBytes =>
      obtain ⟨l, -, rfl⟩ := Option.map_eq_some_iff.mp hcall
      exact hs.setHandle _ _
    | write data junk =>
      obtain ⟨r, hr, rfl⟩ := Option.map_eq_some_iff.mp hcall
      exact hs.writeAt (hc f hf) hr _
    | writeAt data position junk =>
      obtain ⟨r, hr, rfl⟩ := Option.map_eq_some_iff.mp hcall
      exact hs.writeAt (hc f hf) hr _

theorem Formatted.inv (hf : Formatted s) : VolumeInv s := by
  have hmarked : ∀ x, s.Marked x ↔ x < 5 := by
    intro x
    rw [marked_iff hf.map hf.mapHdr]
    constructor
    · rintro ⟨hx, hbit⟩
      rw [hf.low.bit x hx] at hbit
      exact of_decide_eq_true hbit
    · intro hx
      have hlt : x < totalSectors := by
        simp only [totalSectors]
        omega
      exact ⟨hlt, by rw [hf.low.bit x hlt, decide_eq_true hx]⟩
  have hfile : ∀ i, s.holdings (.file i) = [] := fun i => VolumeInv.holdings_none (hf.empty i)
  have hmap : s.holdings .freeMap = [0, 2] := hf.map.sectorsOf hf.mapHdr hf.mapSectors
  have hdir : s.holdings .directory = [1, 3, 4] := hf.dir.sectorsOf hf.dirHdr hf.dirSectors
  have hnone : ∀ i e, s.listing.entry i ≠ some e := by
    intro i e he
    rw [hf.empty] at he
    cases he
  have hholdings : s.holdings =
      Function.update (Function.update (fun _ => []) .freeMap [0, 2]) .directory [1, 3, 4] := by
    funext o
    cases o with
    | freeMap => rw [hmap]; rfl
    | directory => rw [hdir]; rfl
    | file i => rw [hfile]; rfl
  have hexact : Exact s.Marked s.holdings := by
    rw [hholdings]
    have hfirst : Exact (· ∈ [0, 2]) (Function.update (fun _ => []) Owner.freeMap [0, 2]) :=
      Exact.empty.insert rfl (by decide) (by simp) (by simp)
    refine hfirst.insert rfl (by decide) (by decide) fun x => ?_
    rw [hmarked]
    simp only [List.mem_cons, List.not_mem_nil, or_false]
    omega
  refine ⟨⟨hf.map, hf.dir, ?_, fun i t w he => absurd he (hnone i _)⟩, hf.mapHdr, hf.dirHdr,
    hf.mapSectors, hf.dirSectors, fun i e he => absurd he (hnone i e),
    fun i j e e' he => absurd he (hnone i e), fun i j t w v he => absurd he (hnone i _), hexact⟩
  intro x hx
  exact ((marked_iff hf.map hf.mapHdr x).mp ((hmarked x).mpr hx)).2

/-- The invariant in every state that careful calls reach from a formatted disk. -/
theorem inv_of_run {depth : ℕ} {fresh : Fresh} {calls : List Call}
    (hf : format depth st fresh = some s)
    (hrun : Run (Volume.Step depth) Volume.Careful s calls t) : VolumeInv t :=
  hrun.invariant (I := VolumeInv) (format_formatted hf).inv fun h hc ht => h.step hc ht

/-- A name of one letter. -/
def letterName (i : ℕ) : CString where
  chars := [BitVec.ofNat 8 (65 + i % 26)]
  nonzero b hb h0 := by
    rw [List.mem_singleton.mp hb] at h0
    have hzero := congrArg BitVec.toNat h0
    simp only [BitVec.toNat_ofNat] at hzero
    omega

theorem text_letterName (i : ℕ) :
    text (letterName i).memory fileNameMaxLen = [BitVec.ofNat 8 (65 + i % 26)] :=
  (letterName i).text_memory fileNameMaxLen

theorem text_letterName_inj {i j : ℕ} (hi : i < 26) (hj : j < 26)
    (h : text (letterName i).memory fileNameMaxLen = text (letterName j).memory fileNameMaxLen) :
    i = j := by
  rw [text_letterName, text_letterName] at h
  have hnat := congrArg BitVec.toNat (List.singleton_inj.mp h)
  simp only [BitVec.toNat_ofNat] at hnat
  omega

/-- Empty files with the first `k` letters as names, each with one sector. -/
structure Filled (s : Volume) (k : ℕ) : Prop where
  inv : VolumeInv s
  low : Low (diskMap (s.store.disk 2)) (5 + k)
  next : s.store.next < 2 ^ 32
  entry : ∀ i, s.listing.entry i = if i < k then
    some (text (letterName i).memory fileNameMaxLen, BitVec.ofNat 32 (5 + i)) else none

/-- `Create` of the first `k` letters, with the sectors that it answers. -/
def creations (fresh : Fresh) (k : ℕ) : List Call :=
  (List.range k).map fun i => .create (letterName i) 0 fresh (some (BitVec.ofNat 32 (5 + i)))

theorem creations_succ (fresh : Fresh) (k : ℕ) : creations fresh (k + 1) = creations fresh k ++
    [.create (letterName k) 0 fresh (some (BitVec.ofNat 32 (5 + k)))] := by
  simp [creations, List.range_succ]

theorem Filled.not_named {k : ℕ} (hs : Filled s k) (hk : k < 26) (j : ℕ) (v : Word) :
    s.listing.entry j ≠ some (text (letterName k).memory fileNameMaxLen, v) := by
  rw [hs.entry]
  intro h
  split_ifs at h with hj
  have := text_letterName_inj (hj.trans hk) hk (Prod.mk.inj (Option.some.inj h)).1
  omega

/-- One more file, with an entry left in the directory. -/
theorem Filled.create {k : ℕ} (hs : Filled s k) (hk : k < numDirEntries) (fresh : Fresh)
    (depth : ℕ) : s.HasRoom (letterName k) 0 fresh ∧
      ∃ t, s.create (depth + 1) (letterName k) 0 fresh = some (some (BitVec.ofNat 32 (5 + k)), t) ∧
        Filled t (k + 1) := by
  simp only [numDirEntries] at hk
  have hlt : 5 + k < totalSectors := by
    simp only [totalSectors]
    omega
  obtain ⟨d, hfetch, hsize, hentry⟩ := hs.inv.layout.dir.fetch_listing fresh.table
  have huse : ∀ i < 10, d.inUse i = decide (i < k) := by
    intro i hi
    rw [Directory.inUse_eq (hsize.symm ▸ hi), hentry, hs.entry]
    split_ifs with h
    · simp [h]
    · simp [h]
  refine ⟨?_, ?_⟩
  · intro d' m hd' _
    obtain rfl := Option.some.inj (hfetch.symm.trans hd')
    exact Or.inr (Or.inl ⟨k, hsize.symm ▸ hk, by rw [huse k hk]; simp⟩)
  have hnone : d.findIndex (letterName k).memory = none := by
    rw [Directory.findIndex_eq_none_iff]
    intro i w
    rw [hentry]
    exact hs.not_named (by omega) i w
  have hi : ((List.range d.tableSize).find? fun i => !d.inUse i) = some k := by
    rw [List.find?_range_eq_some]
    refine ⟨by rw [huse k hk]; simp, List.mem_range.mpr (hsize.symm ▸ hk), ?_⟩
    intro j hj
    rw [huse j (by omega)]
    simp [hj]
  have hfind : (diskMap (s.store.disk 2)).find.1 ≠ -1 := by
    rw [hs.low.find hlt]
    show ((5 + k : ℕ) : ℤ) ≠ -1
    omega
  obtain ⟨c, hc, hst, hbytes, hnum, -, hlow⟩ := hs.low.setBit.allocate fresh.block fresh.hdr s.store 0 0
    (by decide) rfl (by simp only [totalSectors]; omega)
  have halloc : Allocation.allocate fresh.block ⟨fresh.hdr, (diskMap (s.store.disk 2)).find.2, s.store⟩
      (0#32).toInt = some (true, c) := by
    rw [hs.low.find hlt, BitVec.toInt_zero]
    exact hc
  obtain ⟨t, l, ht, hcreated⟩ := create_new hs.inv.layout depth hfetch hsize hentry hnone hi hfind
    halloc
  rw [hs.low.findSector hlt] at ht hcreated
  refine ⟨t, ht, hcreated.inv hs.inv (hs.not_named (by omega)), ?_, ?_, ?_⟩
  · have hnat : (BitVec.ofNat 32 (5 + k)).toNat = 5 + k := by
      rw [BitVec.toNat_ofNat]
      omega
    have hempty : l = [] := by
      have hl := hcreated.sectors
      rw [sectors_of_direct (by rw [hnum]; rfl), FileHeader.directSectors, FileHeader.directs, hnum] at hl
      exact (Option.some.inj hl).symm
    refine ⟨diskMap_numBits _, fun x hx => ?_⟩
    rw [Bool.eq_iff_iff, hcreated.bit_iff x hx, hs.low.bit x hx, hempty, hnat]
    simp [realSectors]
    omega
  · rw [hcreated.next, hnum]
    exact hs.next
  · intro i
    rw [hcreated.entry, hs.entry]
    rcases Nat.lt_trichotomy i k with h | rfl | h
    · rw [if_neg h.ne, if_pos h, if_pos (by omega)]
    · rw [if_pos rfl, if_pos (Nat.lt_succ_self i)]
    · rw [if_neg h.ne', if_neg (by omega), if_neg (by omega)]

/-- The directory can be filled by careful calls. -/
theorem run_creations (depth : ℕ) (fresh : Fresh) (hs : Filled s 0) {k : ℕ}
    (hk : k ≤ numDirEntries) :
    ∃ t, Run (Volume.Step (depth + 1)) Volume.Careful s (creations fresh k) t ∧ Filled t k := by
  induction k with
  | zero => exact ⟨s, .nil s, hs⟩
  | succ k ih =>
    obtain ⟨t, hrun, ht⟩ := ih (by omega)
    obtain ⟨hroom, u, hu, hfilled⟩ := ht.create hk fresh depth
    refine ⟨u, ?_, hfilled⟩
    rw [creations_succ]
    exact hrun.append (.cons hroom hu (.nil u))

theorem exists_filled (depth : ℕ) (fresh : Fresh) (hnext : st.next < 2 ^ 32) {k : ℕ}
    (hk : k ≤ numDirEntries) : ∃ s t, format (depth + 1) st fresh = some s ∧
      Run (Volume.Step (depth + 1)) Volume.Careful s (creations fresh k) t ∧ Filled t k := by
  obtain ⟨s, hs, hformatted, hn⟩ := format_eq depth st fresh
  have hzero : Filled s 0 :=
    ⟨hformatted.inv, hformatted.low, hn ▸ hnext, fun i => by rw [hformatted.empty]; rfl⟩
  obtain ⟨t, hrun, ht⟩ := run_creations depth fresh hzero hk
  exact ⟨s, t, hs, hrun, ht⟩

/-- What may be on the disk before it is formatted. -/
def blankStore : Store := ⟨fun _ _ => 0#8, fun _ => none, 0, id⟩

/-- What may be in the memory that a call uses. -/
def blankFresh : Fresh :=
  let hdr : FileHeader := ⟨0, 0, fun _ => 0, fun _ => 0, fun _ => 0⟩
  let junk : Junk := ⟨fun _ _ => 0#8, fun _ _ => 0⟩
  ⟨fun _ => 0#8, fun _ => 0#8, hdr, hdr, fun _ _ => 0, junk, junk⟩

/-- The eleventh file gets a sector, and the directory does not get its name. -/
theorem Filled.create_full (hs : Filled s numDirEntries) (fresh : Fresh) (depth : ℕ) :
    ∃ t, s.create (depth + 2) (letterName 10) 0 fresh = some (some 15#32, t) ∧
      (∀ i, t.listing.entry i = s.listing.entry i) ∧ t.Marked 15 ∧ t.holdings = s.holdings := by
  obtain ⟨t, ht, hfile, hgrown, hlow, hentry, hdisk, hblocks⟩ := FileSystem.create_full hs.inv.layout
    hs.inv.mapHdr hs.inv.dirSectors hs.low (by decide) (by decide) hs.next
    (fun i hi => by rw [hs.entry, if_pos hi]; rfl) (hs.not_named (by decide)) fresh depth
  have hmapHdr : t.store.headerAt 0 = s.store.headerAt 0 :=
    headerAt_congr (hdisk 0 (by decide) (by decide))
  refine ⟨t, ht, hentry, ?_, ?_⟩
  · rw [marked_iff (hfile ▸ hs.inv.layout.map) (by rw [hmapHdr, hs.inv.mapHdr, hfile])]
    exact ⟨by decide, by rw [hlow.bit 15 (by decide)]; rfl⟩
  · funext o
    cases o with
    | freeMap =>
      exact sectorsOf_congr (hdisk 0 (by decide) (by decide)) fun p hp =>
        absurd hp (hs.inv.not_points_map p)
    | directory =>
      exact sectorsOf_congr (hdisk 1 (by decide) (by decide)) fun p hp =>
        absurd hp (hs.inv.not_points_dir p)
    | file j =>
      refine EntryKept.holdings ⟨hentry j, ?_, ?_⟩
      · intro e he
        have hmarked := (marked_iff hs.inv.layout.map hs.inv.mapHdr _).mp
          (hs.inv.exact.marked_of_mem (VolumeInv.header_mem he))
        have hfive := hs.inv.five_le (VolumeInv.header_mem he)
        rw [hs.low.bit _ hmarked.1, decide_eq_true_iff] at hmarked
        refine hdisk _ hmarked.2.ne ?_
        simp only [List.mem_cons, List.not_mem_nil, or_false]
        omega
      · intro e he p hp
        exact hblocks p ((hs.inv.files j e he).block p hp).1

/-- On a disk that was formatted and then used by careful calls, the free map
marks exactly the sectors of the two system files and of the files in the
directory, and no sector has two owners. -/
theorem freeMap_exact {depth : ℕ} {fresh : Fresh} {calls : List Call}
    (hf : format depth st fresh = some s)
    (hrun : Run (Volume.Step depth) Volume.Careful s calls t) : Exact t.Marked t.holdings :=
  (inv_of_run hf hrun).exact

theorem freeMap_exact_ten_files :
    ∃ s t, format 1 blankStore blankFresh = some s ∧
      Run (Volume.Step 1) Volume.Careful s (creations blankFresh 10) t ∧
      Exact t.Marked t.holdings := by
  obtain ⟨s, t, hs, hrun, -⟩ := exists_filled 0 blankFresh (show blankStore.next < 2 ^ 32 by decide)
    (k := 10) le_rfl
  exact ⟨s, t, hs, hrun, freeMap_exact hs hrun⟩

/-- Eleven files are created. The header of the last one is marked, and it is the
header of no file in the directory. -/
theorem not_freeMap_exact : ¬∀ (depth : ℕ) (st : Store) (fresh : Fresh) (calls : List Call)
    (s t : Volume), format depth st fresh = some s → Run (Volume.Step depth) Free s calls t →
      Exact t.Marked t.holdings := by
  intro hall
  obtain ⟨s, t, hs, hrun, hfilled⟩ := exists_filled 1 blankFresh
    (show blankStore.next < 2 ^ 32 by decide) (k := numDirEntries) le_rfl
  obtain ⟨u, hu, -, hmarked, hholdings⟩ := hfilled.create_full blankFresh 0
  have hexact := hall 2 blankStore blankFresh (creations blankFresh 11) s u hs (by
    rw [creations_succ]
    exact (hrun.mono fun _ _ _ => trivial).append (.cons trivial hu (.nil u)))
  obtain ⟨o, ho⟩ := (hexact.marked_iff 15).mp hmarked
  rw [hholdings] at ho
  have hold := (marked_iff hfilled.inv.layout.map hfilled.inv.mapHdr 15).mp
    (hfilled.inv.exact.marked_of_mem ho)
  rw [hfilled.low.bit 15 (by decide)] at hold
  exact absurd (of_decide_eq_true hold.2) (by decide)

end Nachos.FileSystem
