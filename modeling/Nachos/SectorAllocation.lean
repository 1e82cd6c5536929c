import Nachos.FileBytes

/-!
# What `Allocate` and `Deallocate` do to the free map

`finds n m` are the answers of `n` calls of `Find`. A full map answers `-1`,
which is not a sector; `realSectors` drops these entries. `Allocate` fills the
tables of a header with the answers of `Find` in the order of the tables, so the
sectors that the header names are exactly those it marks. `Deallocate` clears
them and does not go on when one of them is not marked.
-/
namespace Nachos.FileSystem

/-- The numbers in a table that are sectors of the disk. -/
def realSectors (l : List Word) : List ℕ := (l.map BitVec.toNat).filter (· < totalSectors)

@[simp] theorem mem_realSectors {l : List Word} {x : ℕ} :
    x ∈ realSectors l ↔ x < totalSectors ∧ ∃ w ∈ l, w.toNat = x := by
  simp [realSectors, and_comm]

theorem realSectors_append (l l' : List Word) :
    realSectors (l ++ l') = realSectors l ++ realSectors l' := by
  simp [realSectors]

/-- The sectors `l` were clear in `m` and are marked in `m'`; nothing else changed. -/
structure Taken (m : BitMap) (l : List Word) (m' : BitMap) : Prop where
  numBits : m'.numBits = m.numBits
  nodup : (realSectors l).Nodup
  clear : ∀ x ∈ realSectors l, m.bit x = false
  bit_iff : ∀ x, m'.bit x = true ↔ m.bit x = true ∨ x ∈ realSectors l

theorem Taken.nil (m : BitMap) : Taken m [] m where
  numBits := rfl
  nodup := List.nodup_nil
  clear := by simp [realSectors]
  bit_iff := by simp [realSectors]

theorem Taken.append {m m₁ m₂ : BitMap} {l l' : List Word} (h : Taken m l m₁)
    (h' : Taken m₁ l' m₂) : Taken m (l ++ l') m₂ where
  numBits := h'.numBits.trans h.numBits
  nodup := by
    rw [realSectors_append, List.nodup_append]
    refine ⟨h.nodup, h'.nodup, ?_⟩
    rintro x hx y hy rfl
    have hset := (h.bit_iff x).mpr (Or.inr hx)
    rw [h'.clear x hy] at hset
    cases hset
  clear x hx := by
    rw [realSectors_append, List.mem_append] at hx
    rcases hx with hx | hx
    · exact h.clear x hx
    · have hclear := h'.clear x hx
      by_contra hne
      rw [(h.bit_iff x).mpr (Or.inl (Bool.of_not_eq_false hne))] at hclear
      cases hclear
  bit_iff x := by
    rw [h'.bit_iff, h.bit_iff, realSectors_append, List.mem_append, or_assoc]

theorem Taken.find {m : BitMap} (hm : m.numBits = totalSectors) :
    Taken m [findSector m] m.find.2 := by
  rcases m.find_cases with ⟨i, hi, hclear, -, hfind⟩ | ⟨-, hfind⟩
  · have hnat : (findSector m).toNat = i := by
      rw [findSector, hfind, BitVec.ofInt_natCast, BitVec.toNat_ofNat]
      exact Nat.mod_eq_of_lt (by simp only [totalSectors] at *; omega)
    have hreal : realSectors [findSector m] = [i] := by
      simp [realSectors, hnat, hm ▸ hi]
    rw [hfind]
    refine ⟨rfl, ?_, ?_, ?_⟩
    · simp [hreal]
    · simpa [hreal] using hclear
    · intro x
      rw [hreal, BitMap.bit_setBit, Bool.or_eq_true, decide_eq_true_iff, List.mem_singleton,
        or_comm, eq_comm (a := i)]
  · have hreal : realSectors [findSector m] = [] := by
      simp [realSectors, findSector, hfind, totalSectors]
    rw [hfind]
    refine ⟨rfl, ?_, ?_, ?_⟩
    · simp [hreal]
    · simp [hreal]
    · simp [hreal]

/-- The answers of `n` calls of `Find` and the map after them. -/
def finds : ℕ → BitMap → List Word × BitMap
  | 0, m => ([], m)
  | n + 1, m => (findSector m :: (finds n m.find.2).1, (finds n m.find.2).2)

theorem finds_succ (n : ℕ) (m : BitMap) :
    finds (n + 1) m = (findSector m :: (finds n m.find.2).1, (finds n m.find.2).2) := rfl

theorem finds_add (a b : ℕ) (m : BitMap) :
    finds (a + b) m = ((finds a m).1 ++ (finds b (finds a m).2).1, (finds b (finds a m).2).2) := by
  induction a generalizing m with
  | zero => simp [finds]
  | succ a ih => rw [Nat.succ_add, finds, ih]; rfl

theorem finds_taken {m : BitMap} (hm : m.numBits = totalSectors) (n : ℕ) :
    Taken m (finds n m).1 (finds n m).2 := by
  induction n generalizing m with
  | zero => exact Taken.nil m
  | succ n ih =>
    have hfind := Taken.find hm
    exact hfind.append (ih (hfind.numBits.trans hm))

/-- As long as there are clear bits, `Find` answers with them in their order. -/
theorem finds_toNat {m : BitMap} (hm : m.numBits = totalSectors) {n : ℕ} (hn : n ≤ m.numClear) :
    (finds n m).1.map BitVec.toNat = m.clearBits.take n := by
  induction n generalizing m with
  | zero => rfl
  | succ n ih =>
    cases hbits : m.clearBits with
    | nil => simp [BitMap.numClear_eq_length, hbits] at hn
    | cons i rest =>
      have hi : i < totalSectors :=
        hm ▸ (BitMap.mem_clearBits.mp (hbits ▸ List.mem_cons_self)).1
      have hfind := BitMap.find_of_clearBits hbits
      have hrest := BitMap.clearBits_setBit hbits
      have hnat : (findSector m).toNat = i := by
        rw [findSector, hfind, BitVec.ofInt_natCast, BitVec.toNat_ofNat]
        exact Nat.mod_eq_of_lt (by simp only [totalSectors] at hi; omega)
      have hle : n ≤ (m.setBit i).numClear := by
        rw [BitMap.numClear_eq_length, hbits, List.length_cons] at hn
        rw [BitMap.numClear_eq_length, hrest]
        exact Nat.le_of_succ_le_succ hn
      rw [finds_succ, List.map_cons, hnat, hfind, List.take_succ_cons, ← hrest]
      exact congrArg _ (ih hm hle)

theorem finds_length (n : ℕ) (m : BitMap) : (finds n m).1.length = n := by
  induction n generalizing m with
  | zero => rfl
  | succ n ih => rw [finds_succ, List.length_cons, ih]

/-- The answers of `Find` while there are clear bits are sectors of the disk. -/
theorem finds_real {m : BitMap} (hm : m.numBits = totalSectors) {n : ℕ} (hn : n ≤ m.numClear) :
    realSectors (finds n m).1 = m.clearBits.take n := by
  rw [realSectors, finds_toNat hm hn, List.filter_eq_self]
  intro x hx
  rw [decide_eq_true_eq, ← hm]
  exact (BitMap.mem_clearBits.mp (List.mem_of_mem_take hx)).1

/-- The same for one answer, when the map may be full before the last one. -/
theorem finds_getElem? {m : BitMap} (hm : m.numBits = totalSectors) {n i : ℕ} (hi : i < n)
    (hclear : i < m.numClear) : (finds n m).1[i]?.map BitVec.toNat = m.clearBits[i]? := by
  obtain ⟨b, rfl⟩ : ∃ b, n = i + 1 + b := Nat.exists_eq_add_of_le hi
  have hlen := finds_length (i + 1) m
  rw [finds_add, List.getElem?_append_left (by omega), ← List.getElem?_map,
    finds_toNat hm (by omega), List.getElem?_take_of_lt (Nat.lt_succ_self i)]

namespace Allocation

/-- `fillDirects` stores the answers of `Find` in the given entries. -/
theorem fillDirects_eq (is : List (Fin 4)) (hnd : is.Nodup) (c : Allocation) :
    ∃ g : Fin 4 → Word, fillDirects c is =
        ⟨{ c.hdr with directDataSectors := g }, (finds is.length c.freeMap).2, c.store⟩ ∧
      is.map g = (finds is.length c.freeMap).1 ∧ ∀ i ∉ is, g i = c.hdr.directDataSectors i := by
  induction is generalizing c with
  | nil => exact ⟨c.hdr.directDataSectors, rfl, rfl, fun _ _ => rfl⟩
  | cons i is ih =>
    obtain ⟨hi, hnd⟩ := List.nodup_cons.mp hnd
    obtain ⟨g, hg, hmap, hother⟩ := ih hnd
      { c with
        hdr := { c.hdr with
          directDataSectors := Function.update c.hdr.directDataSectors i (findSector c.freeMap) }
        freeMap := c.freeMap.find.2 }
    refine ⟨g, hg, ?_, ?_⟩
    · rw [List.map_cons, hmap, hother i hi]
      simp [finds]
    · intro k hk
      rw [List.mem_cons, not_or] at hk
      rw [hother k hk.2]
      exact Function.update_of_ne hk.1 _ _

end Allocation

theorem IndirectPointerBlock.sectors_zero (f : ℕ → Word) :
    (⟨0, f⟩ : IndirectPointerBlock).sectors = [] := rfl

theorem IndirectPointerBlock.sectors_putSector {b b' : IndirectPointerBlock} {w : Word}
    (h : b.putSector w = some b') :
    b.numSectors < pointerSectors ∧ b'.numSectors = b.numSectors + 1 ∧
      b'.sectors = b.sectors ++ [w] := by
  unfold putSector at h
  split_ifs at h with hlt
  obtain rfl := Option.some.inj h
  refine ⟨hlt, rfl, ?_⟩
  simp only [sectors, List.range_succ, List.map_append, List.map_cons, List.map_nil,
    Function.update_self]
  congr 1
  apply List.map_congr_left
  intro k hk
  exact Function.update_of_ne (List.mem_range.mp hk).ne _ _

namespace Allocation

/-- A block that takes `count` sectors gets the answers of `Find`. -/
theorem putSectors_eq {m m' : BitMap} {b b' : IndirectPointerBlock} {count : ℕ}
    (h : putSectors m b count = some (b', m')) :
    m' = (finds count m).2 ∧ b'.numSectors = b.numSectors + count ∧
      b'.sectors = b.sectors ++ (finds count m).1 ∧
      (b.numSectors ≤ pointerSectors → b'.numSectors ≤ pointerSectors) := by
  induction count generalizing m b with
  | zero =>
    obtain ⟨rfl, rfl⟩ := Prod.mk.inj (Option.some.inj h)
    exact ⟨rfl, rfl, by simp [finds], id⟩
  | succ count ih =>
    obtain ⟨b₁, hb₁, h⟩ := Option.bind_eq_some_iff.mp h
    obtain ⟨hlt, hnum, hsec⟩ := IndirectPointerBlock.sectors_putSector hb₁
    obtain ⟨rfl, hnum', hsec', hle⟩ := ih h
    refine ⟨rfl, by omega, ?_, ?_⟩
    · rw [hsec', hsec, List.append_assoc]
      rfl
    · intro _
      exact hle (by omega)

end Allocation

namespace FileHeader

theorem blockSectors_congr {st st' : Store} {h h' : FileHeader} {j : ℕ}
    (hp : ∀ hj : j < numInDirect, h'.pointerBlockSectors ⟨j, hj⟩ = h.pointerBlockSectors ⟨j, hj⟩ ∧
      h'.indirectDataSectors ⟨j, hj⟩ = h.indirectDataSectors ⟨j, hj⟩ ∧
      st'.blocks (h.indirectDataSectors ⟨j, hj⟩).toNat =
        st.blocks (h.indirectDataSectors ⟨j, hj⟩).toNat) :
    h'.blockSectors st' j = h.blockSectors st j := by
  unfold blockSectors
  by_cases hj : j < numInDirect
  · obtain ⟨h₁, h₂, h₃⟩ := hp hj
    rw [dif_pos hj, dif_pos hj, h₁, h₂, h₃]
  · rw [dif_neg hj, dif_neg hj]

theorem indirects_eq (n : Word) : indirects n = (n + 26#32).toNat / pointerSectors := by
  unfold indirects
  congr 2
  bv_omega

end FileHeader

namespace Allocation

/-- The loop of `Allocate` over the blocks never takes a block for the last one. -/
theorem count_eq {n : Word} {j : ℕ} (hj : j < FileHeader.indirects n) (hj' : j < numInDirect) :
    ¬BitVec.ofNat 32 j = n - 4#32 + 31#32 - 1#32 - 1#32 := by
  intro h
  rw [FileHeader.indirects_eq] at hj
  have hn : n + 26#32 = BitVec.ofNat 32 (j + 1) := by
    rw [BitVec.ofNat_add, h]
    bv_omega
  rw [hn, BitVec.toNat_ofNat] at hj
  simp only [numInDirect, pointerSectors] at *
  omega

/-- What stays as it was in the store, apart from `count` new blocks. -/
structure Extends (st st' : Store) (count : ℕ) : Prop where
  disk : st'.disk = st.disk
  handOn : st'.handOn = st.handOn
  next : st'.next = st.next + count
  blocks : ∀ p < st.next, st'.blocks p = st.blocks p

/-- A turn of the loop over the blocks: block `j` is new and holds the next 31
answers of `Find`, after the one that is its own sector. -/
structure BlockAdded (c : Allocation) (j : ℕ) (c' : Allocation) : Prop where
  lt : j < numInDirect
  freeMap : c'.freeMap = (finds (pointerSectors + 1) c.freeMap).2
  numBytes : c'.hdr.numBytes = c.hdr.numBytes
  numSectors : c'.hdr.numSectors = c.hdr.numSectors
  direct : c'.hdr.directDataSectors = c.hdr.directDataSectors
  other : ∀ i : Fin numInDirect, (i : ℕ) ≠ j →
    c'.hdr.pointerBlockSectors i = c.hdr.pointerBlockSectors i ∧
    c'.hdr.indirectDataSectors i = c.hdr.indirectDataSectors i
  address : (c'.hdr.indirectDataSectors ⟨j, lt⟩).toNat = c.store.next
  block : ∃ b, c'.store.blocks c.store.next = some b ∧ b.numSectors = pointerSectors ∧
    c'.hdr.pointerBlockSectors ⟨j, lt⟩ :: b.sectors = (finds (pointerSectors + 1) c.freeMap).1
  store : Extends c.store c'.store 1

theorem newBlock_eq {st st' : Store} {b : IndirectPointerBlock} {w : Word}
    (h : st.newBlock b = some (w, st')) :
    w.toNat = st.next ∧ st'.blocks st.next = some b ∧ Extends st st' 1 := by
  unfold Store.newBlock at h
  split_ifs at h with hnext
  obtain ⟨rfl, rfl⟩ := Prod.mk.inj (Option.some.inj h)
  refine ⟨?_, by simp, rfl, rfl, rfl, ?_⟩
  · rw [BitVec.toNat_ofNat]
    exact Nat.mod_eq_of_lt hnext
  · intro p hp
    exact Function.update_of_ne hp.ne _ _

theorem allocateBlock_eq {junk : ℕ → ℕ → Word} {c c' : Allocation} {j : ℕ}
    (hj : j < FileHeader.indirects c.hdr.numSectors) (h : allocateBlock junk c j = some c') :
    BlockAdded c j c' := by
  unfold allocateBlock at h
  split_ifs at h with hj'
  simp only [if_neg (count_eq hj hj'), Int.toNat_natCast] at h
  obtain ⟨⟨b, m⟩, hb, h⟩ := Option.bind_eq_some_iff.mp h
  obtain ⟨⟨w, st⟩, hst, rfl⟩ := Option.map_eq_some_iff.mp h
  obtain ⟨hm, hnum, hsec, -⟩ := putSectors_eq hb
  obtain ⟨haddr, hblock, hext⟩ := newBlock_eq hst
  have hfinds := finds_succ pointerSectors c.freeMap
  refine ⟨hj', by rw [hfinds, hm], rfl, rfl, rfl, ?_, ?_, ⟨b, hblock, ?_, ?_⟩, hext⟩
  · intro i hi
    have hne : i ≠ ⟨j, hj'⟩ := fun he => hi (Fin.val_eq_of_eq he)
    exact ⟨Function.update_of_ne hne _ _, Function.update_of_ne hne _ _⟩
  · simpa using haddr
  · rw [hnum, Nat.zero_add]
  · simp only [hsec, hfinds, Function.update_self, IndirectPointerBlock.sectors_zero,
      List.nil_append]

theorem BlockAdded.blockSectors {c c' : Allocation} {j : ℕ} (h : BlockAdded c j c') :
    c'.hdr.blockSectors c'.store j = some (finds (pointerSectors + 1) c.freeMap).1 := by
  obtain ⟨b, hb, -, hsec⟩ := h.block
  rw [FileHeader.blockSectors, dif_pos h.lt, h.address, hb, Option.map_some, hsec]

/-- The header `h` in the store `st` after its first `j` blocks were allocated
from the map `m`, at the addresses from `first` on. -/
structure Blocks (m : BitMap) (first j : ℕ) (st : Store) (h : FileHeader) : Prop where
  le : j ≤ numInDirect
  address : ∀ i : Fin numInDirect, (i : ℕ) < j → (h.indirectDataSectors i).toNat = first + i
  block : ∀ i < j, ∃ b, st.blocks (first + i) = some b ∧ b.numSectors = pointerSectors
  sectors : ∃ ls, (List.range j).mapM (h.blockSectors st) = some ls ∧
    ls.flatten = (finds ((pointerSectors + 1) * j) m).1

theorem Extends.trans {st₁ st₂ st₃ : Store} {a b : ℕ} (h : Extends st₁ st₂ a)
    (h' : Extends st₂ st₃ b) : Extends st₁ st₃ (a + b) where
  disk := h'.disk.trans h.disk
  handOn := h'.handOn.trans h.handOn
  next := by rw [h'.next, h.next, Nat.add_assoc]
  blocks p hp := (h'.blocks p (by rw [h.next]; omega)).trans (h.blocks p hp)

theorem Blocks.add {m : BitMap} {first j : ℕ} {c c' : Allocation}
    (h : Blocks m first j c.store c.hdr) (hmap : c.freeMap = (finds ((pointerSectors + 1) * j) m).2)
    (hnext : c.store.next = first + j) (ha : BlockAdded c j c') :
    Blocks m first (j + 1) c'.store c'.hdr where
  le := ha.lt
  address i hi := by
    by_cases he : (i : ℕ) = j
    · obtain rfl : i = ⟨j, ha.lt⟩ := Fin.ext he
      rw [ha.address, hnext]
    · rw [(ha.other i he).2]
      exact h.address i (by omega)
  block i hi := by
    by_cases he : i = j
    · obtain ⟨b, hb, hn, -⟩ := ha.block
      exact ⟨b, by rw [he, ← hnext, hb], hn⟩
    · obtain ⟨b, hb, hn⟩ := h.block i (by omega)
      exact ⟨b, by rw [ha.store.blocks _ (by omega), hb], hn⟩
  sectors := by
    obtain ⟨ls, hls, hflat⟩ := h.sectors
    have hold : (List.range j).mapM (c'.hdr.blockSectors c'.store) = some ls := by
      rw [← hls]
      apply mapM_congr
      intro i hi
      have hi := List.mem_range.mp hi
      apply FileHeader.blockSectors_congr
      intro hi'
      have hother := ha.other ⟨i, hi'⟩ (Nat.ne_of_lt hi)
      have haddr := h.address ⟨i, hi'⟩ hi
      refine ⟨hother.1, hother.2, ha.store.blocks _ ?_⟩
      rw [haddr, hnext]
      exact Nat.add_lt_add_left hi _
    refine ⟨ls ++ [(finds (pointerSectors + 1) c.freeMap).1], ?_, ?_⟩
    · rw [List.range_succ, List.mapM_append, hold]
      simp [ha.blockSectors]
    · rw [List.flatten_append, hflat, Nat.mul_succ, finds_add ((pointerSectors + 1) * j), hmap]
      simp

/-- The loop over the blocks from its start at `c`. -/
theorem allocateBlocks_eq {junk : ℕ → ℕ → Word} {c c' : Allocation} {j : ℕ}
    (hj : j ≤ FileHeader.indirects c.hdr.numSectors)
    (h : (List.range j).foldlM (allocateBlock junk) c = some c') :
    Blocks c.freeMap c.store.next j c'.store c'.hdr ∧ Extends c.store c'.store j ∧
      c'.freeMap = (finds ((pointerSectors + 1) * j) c.freeMap).2 ∧
      c'.hdr.numBytes = c.hdr.numBytes ∧ c'.hdr.numSectors = c.hdr.numSectors ∧
      c'.hdr.directDataSectors = c.hdr.directDataSectors := by
  induction j generalizing c' with
  | zero =>
    obtain rfl : c = c' := by simpa using h
    exact ⟨⟨by decide, fun i hi => absurd hi (Nat.not_lt_zero i),
      fun i hi => absurd hi (Nat.not_lt_zero i), [], by simp, rfl⟩,
      ⟨rfl, rfl, rfl, fun _ _ => rfl⟩, rfl, rfl, rfl, rfl⟩
  | succ j ih =>
    rw [List.range_succ, List.foldlM_append] at h
    obtain ⟨d, hd, h⟩ := Option.bind_eq_some_iff.mp h
    simp only [List.foldlM_cons, List.foldlM_nil, Option.bind_eq_bind, Option.pure_def,
      Option.bind_fun_some] at h
    obtain ⟨hblocks, hext, hmap, hbytes, hnum, hdirect⟩ := ih (by omega) hd
    have ha := allocateBlock_eq (by rw [hnum]; omega) h
    refine ⟨hblocks.add hmap hext.next ha, hext.trans ha.store, ?_, ha.numBytes.trans hbytes,
      ha.numSectors.trans hnum, ha.direct.trans hdirect⟩
    rw [ha.freeMap, hmap, Nat.mul_succ, finds_add ((pointerSectors + 1) * j)]

/-- `Allocate` has filled the tables of the header with `l`, the next answers of
`Find`, and given it blocks that no other header has. -/
structure Allocated (c : Allocation) (fileSize : ℤ) (l : List Word) (c' : Allocation) : Prop where
  found : ∃ k, finds k c.freeMap = (l, c'.freeMap)
  sectors : c'.hdr.sectors c'.store = some l
  numBytes : c'.hdr.numBytes = BitVec.ofInt 32 fileSize
  numSectors : c'.hdr.numSectors = (sizedHeader c.hdr fileSize).numSectors
  store : Extends c.store c'.store (FileHeader.indirects c'.hdr.numSectors)
  le : FileHeader.indirects c'.hdr.numSectors ≤ numInDirect
  address : ∀ i : Fin numInDirect, (i : ℕ) < FileHeader.indirects c'.hdr.numSectors →
    (c'.hdr.indirectDataSectors i).toNat = c.store.next + i
  block : ∀ i < FileHeader.indirects c'.hdr.numSectors, ∃ b,
    c'.store.blocks (c.store.next + i) = some b ∧ b.numSectors = pointerSectors

theorem directIndices_nodup (lo hi : ℤ) : (FileHeader.directIndices lo hi).Nodup :=
  (List.nodup_finRange 4).filter _

theorem allocate_eq {junk : ℕ → ℕ → Word} {c c' : Allocation} {fileSize : ℤ}
    (h : allocate junk c fileSize = some (true, c')) : ∃ l, Allocated c fileSize l c' := by
  unfold allocate at h
  simp only at h
  split_ifs at h with hclear
  · simp at h
  obtain ⟨d, hd, he⟩ := Option.map_eq_some_iff.mp h
  obtain rfl : d = c' := congrArg Prod.snd he
  generalize hsized : sizedHeader c.hdr fileSize = hdr at *
  obtain ⟨g, hfill, hg, -⟩ := fillDirects_eq (FileHeader.directIndices 0 hdr.directs)
    (directIndices_nodup _ _) { c with hdr := hdr }
  rw [hfill] at hd
  obtain ⟨hblocks, hext, hmap, hbytes, hnum, hdirect⟩ := allocateBlocks_eq le_rfl hd
  simp only at hblocks hext hmap hbytes hnum hdirect hg
  have hdirects : d.hdr.directs = hdr.directs := by simp only [FileHeader.directs, hnum]
  obtain ⟨ls, hls, hflat⟩ := hblocks.sectors
  rw [← hnum] at hblocks hext hls
  refine ⟨(finds (FileHeader.directIndices 0 hdr.directs).length c.freeMap).1 ++ ls.flatten, ?_, ?_,
    ?_, by rw [hnum, hsized], hext, hblocks.le, hblocks.address, hblocks.block⟩
  · rw [hflat, hmap]
    exact ⟨_, finds_add _ _ _⟩
  · rw [FileHeader.sectors, hls, Option.map_some, FileHeader.directSectors, hdirects, hdirect, hg]
  · rw [hbytes, ← hsized]
    rfl

/-- `Allocate` refuses before it takes a sector. -/
theorem allocate_false {junk : ℕ → ℕ → Word} {c c' : Allocation} {fileSize : ℤ}
    (h : allocate junk c fileSize = some (false, c')) : c'.store = c.store := by
  unfold allocate at h
  simp only at h
  split_ifs at h
  · rw [← (Prod.mk.inj (Option.some.inj h)).2]
  · simp at h

/-- Sectors were taken from the map as `Find` answers, and nothing was written. -/
structure Draws (c c' : Allocation) : Prop where
  found : ∃ k, c'.freeMap = (finds k c.freeMap).2
  disk : c'.store.disk = c.store.disk

theorem Draws.refl (c : Allocation) : Draws c c := ⟨⟨0, rfl⟩, rfl⟩

theorem Draws.trans {c c' c'' : Allocation} (h : Draws c c') (h' : Draws c' c'') : Draws c c'' := by
  obtain ⟨a, ha⟩ := h.found
  obtain ⟨b, hb⟩ := h'.found
  refine ⟨⟨a + b, ?_⟩, h'.disk.trans h.disk⟩
  rw [hb, ha, finds_add]

theorem Draws.withHdr {c c' : Allocation} (h : Draws c c') (hdr : FileHeader) :
    Draws c { c' with hdr := hdr } := ⟨h.found, h.disk⟩

theorem Draws.foldlM {ι : Type} {f : Allocation × ℤ → ι → Option (Allocation × ℤ)}
    (hf : ∀ {r i r'}, f r i = some r' → Draws r.1 r'.1) {l : List ι} {r r' : Allocation × ℤ}
    (h : l.foldlM f r = some r') : Draws r.1 r'.1 := by
  induction l generalizing r with
  | nil =>
    obtain rfl := Option.some.inj h
    exact Draws.refl _
  | cons i l ih =>
    rw [List.foldlM_cons] at h
    obtain ⟨r₁, h₁, h⟩ := Option.bind_eq_some_iff.mp h
    exact (hf h₁).trans (ih h)

theorem Draws.bit {c c' : Allocation} (h : Draws c c') (hbits : c.freeMap.numBits = totalSectors)
    {i : ℕ} (hi : c.freeMap.bit i = true) : c'.freeMap.bit i = true := by
  obtain ⟨k, hk⟩ := h.found
  rw [hk, (finds_taken hbits k).bit_iff]
  exact Or.inl hi

theorem allocate_draws {junk : ℕ → ℕ → Word} {c c' : Allocation} {fileSize : ℤ}
    (h : allocate junk c fileSize = some (true, c')) : Draws c c' := by
  obtain ⟨l, hl⟩ := allocate_eq h
  obtain ⟨k, hk⟩ := hl.found
  exact ⟨⟨k, by rw [hk]⟩, hl.store.disk⟩

theorem extendDirects_draws {c : Allocation} {n : ℤ} {r : Allocation × ℤ}
    (h : c.extendDirects n = some r) : Draws c r.1 := by
  have hfill : ∀ lo hi, Draws c (fillDirects c (FileHeader.directIndices lo hi)) := by
    intro lo hi
    obtain ⟨g, hg, -⟩ := fillDirects_eq _ (directIndices_nodup lo hi) c
    rw [hg]
    exact ⟨⟨_, rfl⟩, rfl⟩
  unfold extendDirects at h
  simp only at h
  split_ifs at h
  · obtain rfl := Option.some.inj h
    exact Draws.refl c
  all_goals
    obtain rfl := Option.some.inj h
    exact (hfill _ _).withHdr _

theorem extendBlock_draws {junk : ℕ → ℕ → Word} {last j : ℕ} {r r' : Allocation × ℤ}
    (h : extendBlock junk last r j = some r') : Draws r.1 r'.1 := by
  unfold extendBlock at h
  split_ifs at h
  all_goals
    obtain ⟨⟨b, m⟩, hb, h⟩ := Option.bind_eq_some_iff.mp h
    obtain ⟨⟨w, st⟩, hst, rfl⟩ := Option.map_eq_some_iff.mp h
    exact ⟨⟨_, (putSectors_eq hb).1⟩, (newBlock_eq hst).2.2.disk⟩

theorem extendBlocks_draws {junk : ℕ → ℕ → Word} {c c' : Allocation} {n : ℤ} {answer : Bool}
    (h : c.extendBlocks junk n = some (answer, c')) : Draws c c' := by
  unfold extendBlocks at h
  extract_lets w existing space left new at h
  split_ifs at h
  · obtain ⟨-, rfl⟩ := Prod.mk.inj (Option.some.inj h)
    exact Draws.refl c
  · obtain ⟨r, hr, he⟩ := Option.map_eq_some_iff.mp h
    obtain ⟨-, rfl⟩ := Prod.mk.inj he
    exact Draws.foldlM extendBlock_draws hr

theorem extendFile_draws {junk : ℕ → ℕ → Word} {c c' : Allocation} {n bytes : ℤ} {answer : Bool}
    (h : extendFile junk c n bytes = some (answer, c')) : Draws c c' := by
  unfold extendFile at h
  split_ifs at h
  · obtain ⟨-, rfl⟩ := Prod.mk.inj (Option.some.inj h)
    exact Draws.refl c
  obtain ⟨r, hr, h⟩ := Option.bind_eq_some_iff.mp h
  have hdirect := (extendDirects_draws hr).withHdr
    { r.1.hdr with numBytes := BitVec.ofInt 32 bytes }
  split_ifs at h
  · obtain ⟨-, rfl⟩ := Prod.mk.inj (Option.some.inj h)
    exact hdirect
  · exact hdirect.trans (extendBlocks_draws h)

theorem release_eq {m m' : BitMap} (hm : m.numBits = totalSectors) {w : Word}
    (h : release m w = some m') :
    w.toNat < totalSectors ∧ m.bit w.toNat = true ∧ m' = m.resetBit w.toNat := by
  obtain ⟨b, hb, h⟩ := Option.bind_eq_some_iff.mp h
  unfold BitMap.test at hb
  split_ifs at hb with hr
  obtain rfl := Option.some.inj hb
  split_ifs at h with hbit
  unfold BitMap.clear at h
  rw [if_pos hr] at h
  have hnat : w.toInt = w.toNat := by
    have := hr.1
    rw [BitVec.toInt_eq_toNat_cond] at this ⊢
    split_ifs at this ⊢ <;> omega
  rw [hnat, Int.toNat_natCast] at hbit h
  refine ⟨?_, hbit, (Option.some.inj h).symm⟩
  have hlt := hr.2
  rw [hm, hnat] at hlt
  exact Int.ofNat_lt.mp hlt

end Allocation

/-- All of `l` was marked in `m` and is clear in `m'`; nothing else changed. -/
structure Released (m : BitMap) (l : List Word) (m' : BitMap) : Prop where
  numBits : m'.numBits = m.numBits
  real : ∀ w ∈ l, w.toNat < totalSectors
  bit_iff : ∀ x, m'.bit x = true ↔ m.bit x = true ∧ x ∉ realSectors l

theorem Released.nil (m : BitMap) : Released m [] m := ⟨rfl, by simp, by simp⟩

theorem Released.append {m m₁ m₂ : BitMap} {l l' : List Word} (h : Released m l m₁)
    (h' : Released m₁ l' m₂) : Released m (l ++ l') m₂ where
  numBits := h'.numBits.trans h.numBits
  real w hw := (List.mem_append.mp hw).elim (h.real w) (h'.real w)
  bit_iff x := by
    rw [h'.bit_iff, h.bit_iff, realSectors_append, List.mem_append, not_or, and_assoc]

namespace Allocation

theorem released_of_release {m m' : BitMap} (hm : m.numBits = totalSectors) {w : Word}
    (h : release m w = some m') : Released m [w] m' := by
  obtain ⟨hw, -, rfl⟩ := release_eq hm h
  refine ⟨rfl, by simpa using hw, ?_⟩
  intro x
  have hmem : x ∈ realSectors [w] ↔ w.toNat = x := by
    rw [mem_realSectors]
    simp only [List.mem_singleton, exists_eq_left]
    exact ⟨And.right, fun he => ⟨he ▸ hw, he⟩⟩
  rw [hmem, BitMap.bit_resetBit]
  simp [and_comm]

theorem released_of_foldlM {m m' : BitMap} (hm : m.numBits = totalSectors) {l : List Word}
    (h : l.foldlM release m = some m') : Released m l m' := by
  induction l generalizing m with
  | nil =>
    obtain rfl : m = m' := by simpa using h
    exact Released.nil m
  | cons w l ih =>
    rw [List.foldlM_cons] at h
    obtain ⟨m₁, h₁, h⟩ := Option.bind_eq_some_iff.mp h
    have hfirst := released_of_release hm h₁
    exact hfirst.append (ih (hfirst.numBits.trans hm) h)

/-- Blocks were deleted, at the addresses that the first `j` entries of the header
hold, and nothing else changed. -/
structure Deletes (st : Store) (h : FileHeader) (j : ℕ) (st' : Store) : Prop where
  disk : st'.disk = st.disk
  handOn : st'.handOn = st.handOn
  next : st'.next = st.next
  blocks : ∀ p, (∀ i : Fin numInDirect, (i : ℕ) < j → (h.indirectDataSectors i).toNat ≠ p) →
    st'.blocks p = st.blocks p
  gone : ∀ p b, st'.blocks p = some b → st.blocks p = some b

theorem deallocateBlocks_eq {c c' : Allocation} (hm : c.freeMap.numBits = totalSectors) {j : ℕ}
    (h : (List.range j).foldlM deallocateBlock c = some c') :
    c'.hdr = c.hdr ∧ Deletes c.store c.hdr j c'.store ∧
      ∃ ls, (List.range j).mapM (c.hdr.blockSectors c.store) = some ls ∧
        Released c.freeMap ls.flatten c'.freeMap := by
  induction j generalizing c' with
  | zero =>
    obtain rfl : c = c' := by simpa using h
    exact ⟨rfl, ⟨rfl, rfl, rfl, fun _ _ => rfl, fun _ _ hb => hb⟩, [], by simp, Released.nil _⟩
  | succ j ih =>
    rw [List.range_succ, List.foldlM_append] at h
    obtain ⟨d, hd, h⟩ := Option.bind_eq_some_iff.mp h
    simp only [List.foldlM_cons, List.foldlM_nil, Option.bind_eq_bind, Option.pure_def,
      Option.bind_fun_some] at h
    obtain ⟨hhdr, hdel, ls, hls, hrel⟩ := ih hd
    unfold deallocateBlock at h
    split_ifs at h with hj
    obtain ⟨m₁, h₁, h⟩ := Option.bind_eq_some_iff.mp h
    obtain ⟨b, hb, h⟩ := Option.bind_eq_some_iff.mp h
    obtain ⟨m₂, h₂, rfl⟩ := Option.map_eq_some_iff.mp h
    have hbits := hrel.numBits.trans hm
    have hrel₁ := released_of_release hbits h₁
    have hrel₂ := released_of_foldlM (hrel₁.numBits.trans hbits) h₂
    have hblock := hdel.gone _ _ hb
    rw [hhdr] at hblock
    refine ⟨hhdr, ⟨hdel.disk, hdel.handOn, hdel.next, ?_, ?_⟩,
      ls ++ [d.hdr.pointerBlockSectors ⟨j, hj⟩ :: b.sectors], ?_, ?_⟩
    · intro p hp
      have hne := hp ⟨j, hj⟩ (Nat.lt_succ_self j)
      rw [← hhdr] at hne
      exact (Function.update_of_ne (Ne.symm hne) _ _).trans
        (hdel.blocks p fun i hi => hp i (Nat.lt_succ_of_lt hi))
    · intro p b' hb'
      simp only [Function.update_apply] at hb'
      split_ifs at hb' with hp
      exact hdel.gone p b' hb'
    · rw [List.range_succ, List.mapM_append, hls, hhdr]
      simp [FileHeader.blockSectors, hj, hblock]
    · rw [List.flatten_append]
      simpa using hrel.append (hrel₁.append hrel₂)

/-- `Deallocate` clears the sectors that the header names. -/
theorem deallocate_eq {c c' : Allocation} (h : c.deallocate = some c')
    (hm : c.freeMap.numBits = totalSectors) :
    ∃ l, c.hdr.sectors c.store = some l ∧ Released c.freeMap l c'.freeMap ∧
      Deletes c.store c.hdr (FileHeader.indirects c.hdr.numSectors) c'.store := by
  obtain ⟨m, hdirect, h⟩ := Option.bind_eq_some_iff.mp h
  have hrel := released_of_foldlM hm hdirect
  obtain ⟨-, hdel, ls, hls, hrel'⟩ := deallocateBlocks_eq (hrel.numBits.trans hm) h
  exact ⟨c.hdr.directSectors ++ ls.flatten, by rw [FileHeader.sectors, hls, Option.map_some],
    hrel.append hrel', hdel⟩

end Allocation

end Nachos.FileSystem
