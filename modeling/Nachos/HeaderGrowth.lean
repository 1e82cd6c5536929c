import Nachos.SectorAllocation
import Nachos.GuardedRuns

/-!
# Growing a header

`ExtendFile` gives a file new sectors as long as they go to the direct entries of its
header. Behind the fourth sector it does not count what it adds, sets no sector aside for
a pointer block and leaves out what would fit into the last block. `Direct` are the calls
that stay away from this. An answer `false` always comes from the first test, so it leaves
the header and the map alone.
-/
namespace Nachos.FileSystem
open GuardedRuns

namespace Allocation
variable {junk : ℕ → ℕ → Word} {c c' : Allocation} {n bytes : ℤ}

theorem extendBlock_left {last j : ℕ} {r r' : Allocation × ℤ}
    (h : extendBlock junk last r j = some r') :
    r'.2 = r.2 - (if j = last then r.2.toNat else pointerSectors : ℕ) := by
  unfold extendBlock at h
  by_cases hj : j < numInDirect
  · rw [dif_pos hj] at h
    obtain ⟨b, -, h⟩ := Option.bind_eq_some_iff.mp h
    obtain ⟨p, -, rfl⟩ := Option.map_eq_some_iff.mp h
    rfl
  · rw [dif_neg hj] at h
    cases h

/-- All blocks but the last one take as many sectors as they have room for, the last one takes
the rest. -/
theorem extendBlock_all (k : ℕ) {first : ℕ} {r r' : Allocation × ℤ}
    (hn : (pointerSectors * k : ℕ) ≤ r.2)
    (h : (List.range' first (k + 1)).foldlM (extendBlock junk (first + k)) r = some r') :
    r'.2 = 0 := by
  induction k generalizing first r with
  | zero =>
    rw [List.range'_succ, List.foldlM_cons] at h
    obtain ⟨r₁, h₁, h⟩ := Option.bind_eq_some_iff.mp h
    obtain rfl : r₁ = r' := by simpa using h
    rw [extendBlock_left h₁, if_pos (by omega)]
    omega
  | succ k ih =>
    rw [List.range'_succ, List.foldlM_cons] at h
    obtain ⟨r₁, h₁, h⟩ := Option.bind_eq_some_iff.mp h
    have hleft := extendBlock_left h₁
    rw [if_neg (by omega)] at hleft
    rw [show first + (k + 1) = first + 1 + k by omega] at h
    refine ih ?_ h
    rw [hleft]
    simp only [pointerSectors] at *
    omega

theorem pointerBlocks_eq (w : Word) : pointerBlocks w = (w.toNat + 30) / 31 := by
  unfold pointerBlocks pointerSectors
  split_ifs <;> omega

theorem extendBlocks_answer {b : Bool} (hk : 4 ≤ c.hdr.numSectors.toInt) (hn : n < 2 ^ 31)
    (h : c.extendBlocks junk n = some (b, c')) : b = true := by
  generalize hw : c.hdr.numSectors - 4#32 = w
  have hwlt : w.toNat < 2 ^ 31 := by
    have hlt := BitVec.toInt_lt (x := c.hdr.numSectors)
    have hnat : c.hdr.numSectors.toInt = c.hdr.numSectors.toNat := by
      rw [BitVec.toInt_eq_toNat_cond] at hk ⊢
      split_ifs at hk ⊢ <;> omega
    rw [hnat] at hk hlt
    rw [← hw]
    bv_omega
  have hspace : (BitVec.ofNat 32 (pointerBlocks w) * 31#32 - w).toInt =
      (pointerBlocks w * 31 - w.toNat : ℕ) := by
    have hnat : (BitVec.ofNat 32 (pointerBlocks w) * 31#32 - w).toNat =
        pointerBlocks w * 31 - w.toNat := by
      rw [pointerBlocks_eq]
      bv_omega
    rw [BitVec.toInt_eq_toNat_of_lt (by rw [hnat, pointerBlocks_eq]; omega), hnat]
  unfold extendBlocks at h
  simp only [hw, hspace] at h
  generalize hleft : n - (if ((pointerBlocks w * 31 - w.toNat : ℕ) : ℤ) - n > 0 then n
    else ((pointerBlocks w * 31 - w.toNat : ℕ) : ℤ)) = left at h
  have hbounds : 0 ≤ left ∧ left < 2 ^ 31 := by
    split_ifs at hleft <;> omega
  split_ifs at h with hzero
  · exact (Prod.mk.inj (Option.some.inj h)).1.symm
  · obtain ⟨r, hr, he⟩ := Option.map_eq_some_iff.mp h
    obtain ⟨rfl, rfl⟩ := Prod.mk.inj he
    have hnew : pointerBlocks (BitVec.ofInt 32 left) = (left.toNat - 1) / 31 + 1 := by
      have hnat : (BitVec.ofInt 32 left).toNat = left.toNat := by
        rw [BitVec.toNat_ofInt]
        omega
      rw [pointerBlocks_eq, hnat]
      omega
    rw [hnew] at hr
    have hall := extendBlock_all ((left.toNat - 1) / 31) (r := (c, left)) (by
      simp only [pointerSectors]
      omega) hr
    rw [hall]
    rfl

theorem extendDirects_left {r : Allocation × ℤ} (h : c.extendDirects n = some r) :
    r.2 = 0 ∨ r.2 ≤ n ∧ 4 ≤ r.1.hdr.numSectors.toInt := by
  unfold extendDirects at h
  simp only at h
  split_ifs at h with h4 hneg
  · obtain rfl := Option.some.inj h
    exact Or.inr ⟨le_rfl, h4⟩
  all_goals
    obtain rfl := Option.some.inj h
    simp only
  · refine Or.inr ⟨by omega, ?_⟩
    decide
  · exact Or.inl (by omega)

/-- `ExtendFile` answers `false` only when it has done nothing. -/
theorem extendFile_false (hbits : c.freeMap.numBits = totalSectors)
    (h : extendFile junk c n bytes = some (false, c')) :
    (c.freeMap.numClear : ℤ) < n ∧ c' = c := by
  have hle := c.freeMap.numClear_le
  unfold extendFile at h
  split_ifs at h with hfew
  · exact ⟨hfew, (Prod.mk.inj (Option.some.inj h)).2.symm⟩
  · obtain ⟨r, hr, h⟩ := Option.bind_eq_some_iff.mp h
    split_ifs at h with hzero
    · cases (Prod.mk.inj (Option.some.inj h)).1
    · rcases extendDirects_left hr with hleft | ⟨hleft, h4⟩
      · exact absurd hleft hzero
      · have hlt : r.2 < 2 ^ 31 := by
          simp only [totalSectors] at hbits
          omega
        cases extendBlocks_answer (c := ⟨{ r.1.hdr with numBytes := BitVec.ofInt 32 bytes },
          r.1.freeMap, r.1.store⟩) h4 hlt h

theorem directIndices_val : ∀ a : ℕ, a ≤ 4 → ∀ n : ℕ, n ≤ 4 - a →
    (FileHeader.directIndices a (a + n : ℕ)).map Fin.val = List.range' a n := by
  decide

theorem directIndices_natCast {a n : ℕ} (h : a + n ≤ 4) :
    FileHeader.directIndices a (a + n : ℕ) = List.ofFn fun i : Fin n => ⟨a + i, by omega⟩ := by
  apply List.map_injective_iff.mpr Fin.val_injective
  rw [directIndices_val a (by omega) n (by omega)]
  apply List.ext_getElem
  · simp
  · intro i hi _
    simp

theorem eq_ofInt_of_toInt {w : Word} {k : ℤ} (h : w.toInt = k) : BitVec.ofInt 32 k = w := by
  rw [← h, BitVec.ofInt_toInt]

/-- Without new sectors only the length is set. -/
theorem extendFile_zero (junk : ℕ → ℕ → Word) (c : Allocation) (bytes : ℤ) :
    extendFile junk c 0 bytes =
      some (true, { c with hdr := { c.hdr with numBytes := BitVec.ofInt 32 bytes } }) := by
  have hdirects : c.extendDirects 0 = some (c, 0) := by
    have hnone : FileHeader.directIndices c.hdr.numSectors.toInt c.hdr.numSectors.toInt = [] := by
      simp [FileHeader.directIndices]
    unfold extendDirects
    simp only [zero_add]
    split_ifs with h4 hneg
    · rfl
    all_goals first | omega | skip
    rw [hnone, eq_ofInt_of_toInt rfl, sub_self, sub_zero]
    rfl
  unfold extendFile
  rw [if_neg (by omega), hdirects]
  rfl

/-- New direct entries are the answers of `Find`. -/
theorem extendFile_direct (junk : ℕ → ℕ → Word) {a n : ℕ} (hk : c.hdr.numSectors.toInt = a)
    (hle : a + n ≤ 4) (hn : n ≤ c.freeMap.numClear) (bytes : ℤ) :
    ∃ g : Fin 4 → Word, extendFile junk c n bytes = some (true,
        ⟨{ c.hdr with
            numBytes := BitVec.ofInt 32 bytes
            numSectors := BitVec.ofInt 32 (a + n : ℕ)
            directDataSectors := g }, (finds n c.freeMap).2, c.store⟩) ∧
      (∀ i : Fin 4, (i : ℕ) < a → g i = c.hdr.directDataSectors i) ∧
      ∀ (i : ℕ) (hi : i < n), (finds n c.freeMap).1[i]? = some (g ⟨a + i, by omega⟩) := by
  obtain ⟨g, hfill, hmap, hother⟩ := fillDirects_eq (FileHeader.directIndices a (a + n : ℕ))
    (directIndices_nodup _ _) c
  rw [directIndices_natCast hle, List.length_ofFn] at hfill hmap
  refine ⟨g, ?_, fun i hi => hother i ?_, fun i hi => ?_⟩
  · by_cases h4 : a = 4
    · obtain rfl : n = 0 := by omega
      have hg : g = c.hdr.directDataSectors := by
        funext i
        exact hother i (by simp [FileHeader.directIndices])
      rw [Nat.cast_zero, extendFile_zero, hg, Nat.add_zero, eq_ofInt_of_toInt hk]
      rfl
    · have hdirects : c.extendDirects n = some (⟨{ c.hdr with
          numSectors := BitVec.ofInt 32 (a + n : ℕ)
          directDataSectors := g }, (finds n c.freeMap).2, c.store⟩, 0) := by
        unfold extendDirects
        simp only [hk]
        rw [if_neg (by omega), if_neg (by omega), if_neg (by omega)]
        rw [show (n : ℤ) + a = (a + n : ℕ) by omega, directIndices_natCast hle, hfill]
        simp
      unfold extendFile
      rw [if_neg (by omega), hdirects]
      rfl
  · rw [directIndices_natCast hle]
    simp only [List.mem_ofFn, not_exists]
    rintro k rfl
    simp at hi
  · rw [← hmap]
    simp [hi]

end Allocation

/-- The result of an extension by `n` sectors: the file sectors there were are where they were,
and `n` new ones come behind them. -/
structure Grown (c : Allocation) (n : ℕ) (bytes : Word) (c' : Allocation) : Prop where
  kept : ∀ offset : ℕ, ((offset / sectorSize : ℕ) : ℤ) < c.hdr.numSectors.toInt →
    c'.hdr.byteToSector c'.store offset = c.hdr.byteToSector c.store offset
  added : ∃ l : List ℕ, l.length = n ∧ l.Nodup ∧
    (∀ x ∈ l, x < totalSectors ∧ c.freeMap.bit x = false) ∧
    (∀ x, c'.freeMap.bit x = true ↔ c.freeMap.bit x = true ∨ x ∈ l) ∧
    ∀ i < n, (c'.hdr.byteToSector c'.store
      ((c.hdr.numSectors.toInt.toNat + i) * sectorSize)).map BitVec.toNat = l[i]?
  store : c'.store = c.store
  numBits : c'.freeMap.numBits = c.freeMap.numBits
  numSectors : c'.hdr.numSectors.toInt = c.hdr.numSectors.toInt + n
  length : c'.hdr.fileLength = bytes.toInt

/-- The call adds nothing, stays inside of the direct entries, or is turned down. -/
def Direct (c : Allocation) (n : ℕ) : Prop :=
  n = 0 ∨ (0 ≤ c.hdr.numSectors.toInt ∧ c.hdr.numSectors.toInt + n ≤ 4) ∨
    c.freeMap.numClear < n

section growth
variable {c c' : Allocation} {n : ℕ} {bytes : Word}

theorem byteToSector_of_lt (h : FileHeader) (st : Store) {i : ℕ} (hi : i < 4) :
    h.byteToSector st (i * sectorSize) = some (h.directDataSectors ⟨i, hi⟩) := by
  have hdiv : i * sectorSize / sectorSize = i := Nat.mul_div_cancel _ (by decide)
  unfold FileHeader.byteToSector
  simp only [hdiv, dif_pos hi]

theorem extendFile_grown (hbits : c.freeMap.numBits = totalSectors) (hd : Direct c n)
    (hn : n ≤ c.freeMap.numClear) (junk : ℕ → ℕ → Word) (bytes : Word) :
    ∃ c', Allocation.extendFile junk c n bytes.toInt = some (true, c') ∧ Grown c n bytes c' := by
  rcases hd with rfl | ⟨h0, h4⟩ | hfew
  · refine ⟨_, Allocation.extendFile_zero junk c bytes.toInt, fun _ _ => rfl,
      ⟨[], rfl, List.nodup_nil, by simp, by simp, by simp⟩, rfl, rfl, by simp, ?_⟩
    simp [FileHeader.fileLength]
  · obtain ⟨a, ha⟩ := Int.eq_ofNat_of_zero_le h0
    obtain ⟨g, hext, hold, hnew⟩ := Allocation.extendFile_direct junk ha (n := n) (by omega) hn
      bytes.toInt
    have htaken := finds_taken hbits n
    refine ⟨_, hext, fun offset hlt => ?_, ⟨c.freeMap.clearBits.take n, ?_, ?_, ?_, ?_, ?_⟩,
      rfl, htaken.numBits, ?_, ?_⟩
    · have hs : offset / sectorSize < 4 := by omega
      simp only [FileHeader.byteToSector, dif_pos hs]
      rw [hold ⟨offset / sectorSize, hs⟩ (by simp only; omega)]
    · rw [List.length_take, ← BitMap.numClear_eq_length]
      exact min_eq_left hn
    · exact c.freeMap.clearBits_nodup.sublist (List.take_sublist _ _)
    · intro x hx
      have hmem := BitMap.mem_clearBits.mp (List.mem_of_mem_take hx)
      exact ⟨hbits ▸ hmem.1, hmem.2⟩
    · intro x
      rw [← finds_real hbits hn]
      exact htaken.bit_iff x
    · intro i hi
      rw [ha, Int.toNat_natCast, byteToSector_of_lt _ _ (by omega), ← finds_toNat hbits hn,
        List.getElem?_map, hnew i hi, Option.map_some]
    · rw [ha]
      simp only
      rw [BitVec.toInt_ofInt_eq_self (by decide) (by omega) (by omega)]
      push_cast
      rfl
    · simp [FileHeader.fileLength]
  · omega

theorem extendFile_few (hfew : c.freeMap.numClear < n) (junk : ℕ → ℕ → Word) (bytes : Word) :
    Allocation.extendFile junk c n bytes.toInt = some (false, c) := by
  unfold Allocation.extendFile
  rw [if_pos (by omega)]

end growth

/-- A call on a copy of the free map, with the memory that new blocks are made of. -/
structure Extension where
  freeMap : BitMap
  numBits : freeMap.numBits = totalSectors
  n : ℕ
  bytes : Word
  junk : ℕ → ℕ → Word

/-- A header in memory and the store with its blocks. -/
abbrev Growing := FileHeader × Store

def Extension.on (e : Extension) (s : Growing) : Allocation := ⟨s.1, e.freeMap, s.2⟩

def Extension.call (e : Extension) (s : Growing) : Option (Bool × Allocation) :=
  Allocation.extendFile e.junk (e.on s) e.n e.bytes.toInt

def ExtendStep (s : Growing) (e : Extension) (s' : Growing) : Prop :=
  ∃ answer m, e.call s = some (answer, ⟨s'.1, m, s'.2⟩)

/-- What a run keeps: the sectors that the file had in the beginning. -/
structure Keeps (s₁ s : Growing) : Prop where
  le : s₁.1.numSectors.toInt ≤ s.1.numSectors.toInt
  sectors : ∀ offset : ℕ, ((offset / sectorSize : ℕ) : ℤ) < s₁.1.numSectors.toInt →
    s.1.byteToSector s.2 offset = s₁.1.byteToSector s₁.2 offset

section runs
variable {s₁ s s' : Growing} {e : Extension}

theorem Extension.call_grown (hd : Direct (e.on s) e.n) (hn : e.n ≤ e.freeMap.numClear) :
    ∃ c', e.call s = some (true, c') ∧ Grown (e.on s) e.n e.bytes c' := by
  unfold Extension.call
  exact extendFile_grown (c := e.on s) e.numBits hd hn e.junk e.bytes

theorem Extension.call_few (hfew : e.freeMap.numClear < e.n) :
    e.call s = some (false, e.on s) := by
  unfold Extension.call
  exact extendFile_few (c := e.on s) hfew e.junk e.bytes

theorem Keeps.step (hk : Keeps s₁ s) (hd : Direct (e.on s) e.n) (h : ExtendStep s e s') :
    Keeps s₁ s' := by
  obtain ⟨answer, m, h⟩ := h
  by_cases hn : e.n ≤ e.freeMap.numClear
  · obtain ⟨c', hcall, hgrown⟩ := Extension.call_grown hd hn
    obtain ⟨-, rfl⟩ := Prod.mk.inj (Option.some.inj (h.symm.trans hcall))
    refine ⟨?_, fun offset hlt => ?_⟩
    · exact hk.le.trans (hgrown.numSectors ▸ Int.le_add_of_nonneg_right (Int.natCast_nonneg e.n))
    · exact (hgrown.kept offset (lt_of_lt_of_le hlt hk.le)).trans (hk.sectors offset hlt)
  · have hcall := Extension.call_few (s := s) (not_le.mp hn)
    obtain ⟨-, hsame⟩ := Prod.mk.inj (Option.some.inj (h.symm.trans hcall))
    obtain ⟨hhdr, -, hstore⟩ := Allocation.mk.inj hsame
    obtain rfl : s' = s := Prod.ext hhdr hstore
    exact hk

end runs

/-- Along every run of such calls a file keeps its sectors, and the next call adds exactly the
sectors it is asked for or changes nothing. -/
theorem growth_exact {es : List Extension} {s₁ s : Growing}
    (hrun : Run ExtendStep (fun s e => Direct (e.on s) e.n) s₁ es s) :
    (∀ offset : ℕ, ((offset / sectorSize : ℕ) : ℤ) < s₁.1.numSectors.toInt →
      s.1.byteToSector s.2 offset = s₁.1.byteToSector s₁.2 offset) ∧
    ∀ e : Extension, Direct (e.on s) e.n →
      (e.n ≤ e.freeMap.numClear → ∃ c', e.call s = some (true, c') ∧
        Grown (e.on s) e.n e.bytes c') ∧
      (e.freeMap.numClear < e.n → e.call s = some (false, e.on s)) := by
  have hkeeps : Keeps s₁ s :=
    hrun.invariant (I := Keeps s₁) ⟨le_rfl, fun _ _ => rfl⟩ fun hk hd h => hk.step hd h
  exact ⟨hkeeps.sectors, fun e hd => ⟨Extension.call_grown hd, Extension.call_few⟩⟩

def blankHeader : FileHeader := ⟨0, 0, fun _ => 0, fun _ => 0, fun _ => 0⟩

def blankMap : BitMap := ⟨totalSectors, fun _ => 0#32⟩

def emptyStore : Store := ⟨fun _ _ => 0, fun _ => none, 0, id⟩

/-- An empty file gets two sectors. -/
theorem growth_exact_two : ∃ c', Extension.call ⟨blankMap, rfl, 2, 200,
    fun _ _ => 0⟩ (blankHeader, emptyStore) = some (true, c') ∧ c'.hdr.fileLength = 200 := by
  obtain ⟨c', hcall, hgrown⟩ := ((growth_exact (.nil (blankHeader, emptyStore))).2
    ⟨blankMap, rfl, 2, 200, fun _ _ => 0⟩
    (Or.inr (Or.inl (by decide)))).1 (by decide +kernel)
  exact ⟨c', hcall, hgrown.length⟩

/-- A file of four sectors is extended by one sector, twice. Its number of sectors stays 4, and
its fifth sector moves. -/
theorem growth_moves_sector :
    ((Allocation.allocate (fun _ _ => 0) ⟨blankHeader, blankMap, emptyStore⟩ 512).bind fun a =>
      (Allocation.extendFile (fun _ _ => 0) a.2 1 640).bind fun b =>
      (Allocation.extendFile (fun _ _ => 0) b.2 1 768).map fun c =>
        (b.1 && c.1, c.2.hdr.numSectors, b.2.hdr.byteToSector b.2.store 512,
          c.2.hdr.byteToSector c.2.store 512)) =
      some (true, 4#32, some 4#32, some 5#32) := by
  decide +kernel

end Nachos.FileSystem
