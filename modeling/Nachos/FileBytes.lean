import Nachos.OpenFile

/-!
# The bytes of an open file

`Maps st h σ n` says that the first `n` sectors of a file are the disk sectors
`σ 0`, `σ 1`, …, all different. Within its length such a file is an array of
bytes: `readAt` returns a piece of it and `writeAt` changes the piece it is
given. What a write does to other sectors does not need the map.
-/
namespace Nachos.FileSystem
open ByteMemory

theorem mapM_congr {α β : Type} {f g : α → Option β} {l : List α} (hfg : ∀ a ∈ l, f a = g a) :
    l.mapM f = l.mapM g := by
  induction l with
  | nil => rfl
  | cons a l ih =>
    simp only [List.forall_mem_cons] at hfg
    simp only [List.mapM_cons, hfg.1, ih hfg.2]

theorem exists_mem_of_mapM {α β : Type} {f : α → Option β} {l : List α} {l' : List β}
    (h : l.mapM f = some l') {a : α} (ha : a ∈ l) : ∃ b ∈ l', f a = some b := by
  induction l generalizing l' with
  | nil => exact absurd ha List.not_mem_nil
  | cons c l ih =>
    rw [List.mapM_cons] at h
    obtain ⟨b, hb, h⟩ := Option.bind_eq_some_iff.mp h
    obtain ⟨bs, hbs, h⟩ := Option.bind_eq_some_iff.mp h
    obtain rfl := Option.some.inj h
    rcases List.mem_cons.mp ha with rfl | ha
    · exact ⟨b, List.mem_cons_self, hb⟩
    · obtain ⟨b', hb', hf⟩ := ih hbs ha
      exact ⟨b', List.mem_cons_of_mem b hb', hf⟩

/-- The words of a map that gets the first `n` bytes of another one. -/
theorem fetchMap_map (m m' : BitMap) {n w : ℕ} (hw : 4 * w + 4 ≤ n) :
    (fetchMap m' (bytesAt (mapBytes m) 0 n)).map w = m.map w := by
  apply word_eq_of_bytes
  intro k hk
  have hbyte : overlay (mapBytes m') 0 (bytesAt (mapBytes m) 0 n) (0 + (4 * w + k)) =
      mapBytes m (0 + (4 * w + k)) := overlay_add (bytesAt_getElem? (by omega))
  rw [Nat.zero_add] at hbyte
  refine hbyte.trans ?_
  rw [mapBytes, show (4 * w + k) / 4 = w by omega, show (4 * w + k) % 4 = k by omega]

namespace FileHeader

variable {st st' : Store} {h : FileHeader} {σ : ℕ → ℕ} {n : ℕ}

/-- Translation reads the pointer blocks and not the disk. -/
theorem byteToSector_congr (hb : st'.blocks = st.blocks) (hh : st'.handOn = st.handOn)
    (h : FileHeader) (offset : ℕ) : h.byteToSector st' offset = h.byteToSector st offset := by
  simp only [byteToSector, hb, hh]

theorem writeSectors_succ (st : Store) (h : FileHeader) (buf : Memory) (first c : ℕ) :
    h.writeSectors st buf first (c + 1) = (h.writeSectors st buf first c).bind fun st =>
      (h.byteToSector st ((first + c) * sectorSize)).bind fun w =>
      st.writeSector w (.ofMemory fun o => buf (c * sectorSize + o)) := by
  unfold writeSectors
  rw [List.range_succ, List.foldlM_append]
  simp

/-- What a write leaves alone: the pointer blocks and every sector that is not
one of those it writes. -/
theorem writeSectors_frame {buf : Memory} {first c : ℕ}
    (hw : h.writeSectors st buf first c = some st') :
    st'.blocks = st.blocks ∧ st'.next = st.next ∧ st'.handOn = st.handOn ∧
      ∀ x, (∀ i < c, ∀ w, h.byteToSector st ((first + i) * sectorSize) = some w → w.toNat ≠ x) →
        st'.disk x = st.disk x := by
  induction c generalizing st' with
  | zero =>
    obtain rfl : st = st' := by simpa [writeSectors] using hw
    exact ⟨rfl, rfl, rfl, fun _ _ => rfl⟩
  | succ c ih =>
    rw [writeSectors_succ] at hw
    obtain ⟨st₁, h₁, hw⟩ := Option.bind_eq_some_iff.mp hw
    obtain ⟨w, hsec, hw⟩ := Option.bind_eq_some_iff.mp hw
    obtain ⟨hb, hn, hh, hd⟩ := ih h₁
    unfold Store.writeSector at hw
    split_ifs at hw with hlt
    obtain rfl := Option.some.inj hw
    refine ⟨hb, hn, hh, ?_⟩
    intro x hx
    have hne : x ≠ w.toNat := by
      intro he
      rw [byteToSector_congr hb hh] at hsec
      exact hx c (Nat.lt_succ_self c) w hsec he.symm
    exact (Function.update_of_ne hne _ _).trans (hd x fun i hi => hx i (hi.trans (Nat.lt_succ_self c)))

/-- The same for the common part of `WriteAt`. -/
theorem writeCommon_frame {junk : Memory} {data : List Byte} {position : ℕ}
    (hw : h.writeCommon st junk data position = some st') :
    st'.blocks = st.blocks ∧ st'.next = st.next ∧ st'.handOn = st.handOn ∧
      ∀ x, (∀ i, position / sectorSize ≤ i → i ≤ (position + data.length - 1) / sectorSize →
        ∀ w, h.byteToSector st (i * sectorSize) = some w → w.toNat ≠ x) → st'.disk x = st.disk x := by
  obtain ⟨buf, -, hw⟩ := Option.bind_eq_some_iff.mp hw
  obtain ⟨hb, hn, hh, hd⟩ := writeSectors_frame hw
  refine ⟨hb, hn, hh, ?_⟩
  intro x hx
  refine hd x fun i hi => hx _ (Nat.le_add_right _ _) ?_
  omega

structure Maps (st : Store) (h : FileHeader) (σ : ℕ → ℕ) (n : ℕ) : Prop where
  sector : ∀ i < n, ∃ w, h.byteToSector st (i * sectorSize) = some w ∧ w.toNat = σ i
  valid : ∀ i < n, σ i < totalSectors
  injective : ∀ i < n, ∀ j < n, σ i = σ j → i = j

/-- The byte of the file at every position. -/
def contents (st : Store) (σ : ℕ → ℕ) : Memory := fun p => (st.disk (σ (p / sectorSize))).byte p

theorem Maps.congr (hm : Maps st h σ n) (hb : st'.blocks = st.blocks)
    (hh : st'.handOn = st.handOn) : Maps st' h σ n where
  sector i hi := by
    rw [byteToSector_congr hb hh]
    exact hm.sector i hi
  valid := hm.valid
  injective := hm.injective

theorem Maps.readSector (hm : Maps st h σ n) {i : ℕ} (hi : i < n) :
    (h.byteToSector st (i * sectorSize)).bind st.readSector = some (st.disk (σ i)) := by
  obtain ⟨w, hw, hσ⟩ := hm.sector i hi
  have hlt : w.toNat < totalSectors := hσ ▸ hm.valid i hi
  rw [hw, Option.bind_some, Store.readSector, if_pos hlt, hσ]

theorem mapM_eq_map {α β : Type} {f : α → Option β} {g : α → β} {l : List α}
    (hf : ∀ a ∈ l, f a = some (g a)) : l.mapM f = some (l.map g) := by
  induction l with
  | nil => rfl
  | cons a l ih =>
    simp only [List.forall_mem_cons] at hf
    simp [List.mapM_cons, hf.1, ih hf.2]

theorem Maps.readSectors (hm : Maps st h σ n) (first c : ℕ) (hc : first + c ≤ n) :
    ∃ buf, h.readSectors st first c = some buf ∧
      ∀ p < c * sectorSize, buf p = contents st σ (first * sectorSize + p) := by
  have hmap := mapM_eq_map (l := List.range c) (g := fun i => st.disk (σ (first + i)))
    (f := fun i => (h.byteToSector st ((first + i) * sectorSize)).bind st.readSector)
    fun i hi => hm.readSector (by have := List.mem_range.mp hi; omega)
  refine ⟨_, by rw [FileHeader.readSectors, hmap, Option.map_some], ?_⟩
  intro p hp
  have hlt : p / sectorSize < c := Nat.div_lt_of_lt_mul (by rwa [Nat.mul_comm])
  have hdiv : (first * sectorSize + p) / sectorSize = first + p / sectorSize := by
    rw [Nat.mul_comm, Nat.mul_add_div (by decide)]
  have hmod : (first * sectorSize + p) % sectorSize = p % sectorSize := by
    rw [Nat.mul_comm, Nat.mul_add_mod]
  simp only [List.getElem?_map, List.getElem?_range hlt, Option.map_some, Option.getD_some, contents,
    hdiv, Sector.byte, hmod]

/-- `ReadAt` returns the bytes of the file from `position` on, up to its end. -/
theorem Maps.readAt (hm : Maps st h σ n) {length : ℕ} (hlen : h.fileLength = length)
    (hn : length ≤ n * sectorSize) (numBytes position : ℕ) :
    h.readAt st numBytes position =
      some (bytesAt (contents st σ) position (min numBytes (length - position))) := by
  unfold FileHeader.readAt
  rw [hlen]
  by_cases h0 : numBytes = 0 ∨ (length : ℤ) ≤ position
  · have hmin : min numBytes (length - position) = 0 := by omega
    rw [if_pos h0, hmin]
    rfl
  · rw [if_neg h0]
    have hk : (if (position : ℤ) + numBytes > length then ((length : ℤ) - position).toNat
        else numBytes) = min numBytes (length - position) := by
      split_ifs <;> omega
    simp only [hk]
    generalize hkk : min numBytes (length - position) = k
    have hk0 : 0 < k := by omega
    have hfirst : position / sectorSize ≤ (position + k - 1) / sectorSize :=
      Nat.div_le_div_right (by omega)
    have hlast : (position + k - 1) / sectorSize < n := Nat.div_lt_of_lt_mul (by
      rw [Nat.mul_comm]
      omega)
    obtain ⟨buf, hbuf, hbytes⟩ := hm.readSectors (position / sectorSize)
      ((position + k - 1) / sectorSize + 1 - position / sectorSize) (by omega)
    rw [hbuf, Option.map_some]
    congr 1
    apply List.map_congr_left
    intro i hi
    have hi := List.mem_range.mp hi
    rw [hbytes]
    · congr 1
      simp only [sectorSize] at *
      omega
    · simp only [sectorSize] at *
      omega

theorem Maps.writeSectors (hm : Maps st h σ n) (buf : Memory) (first c : ℕ) (hc : first + c ≤ n) :
    ∃ st', h.writeSectors st buf first c = some st' ∧ ∀ i < c,
      st'.disk (σ (first + i)) = .ofMemory fun o => buf (i * sectorSize + o) := by
  induction c with
  | zero => exact ⟨st, rfl, fun i hi => absurd hi (Nat.not_lt_zero i)⟩
  | succ c ih =>
    obtain ⟨st₁, h₁, hsec⟩ := ih (by omega)
    obtain ⟨hb, -, hh, -⟩ := writeSectors_frame h₁
    obtain ⟨w, hw, hσ⟩ := hm.sector (first + c) (by omega)
    have hlt : w.toNat < totalSectors := hσ ▸ hm.valid (first + c) (by omega)
    refine ⟨⟨Function.update st₁.disk w.toNat (.ofMemory fun o => buf (c * sectorSize + o)),
      st₁.blocks, st₁.next, st₁.handOn⟩, ?_, ?_⟩
    · rw [writeSectors_succ, h₁, Option.bind_some, byteToSector_congr hb hh, hw, Option.bind_some,
        Store.writeSector, if_pos hlt]
    · intro i hi
      by_cases hic : i = c
      · subst hic
        exact hσ ▸ Function.update_self ..
      · have hne : σ (first + i) ≠ w.toNat := by
          intro he
          have := hm.injective (first + i) (by omega) (first + c) (by omega) (he.trans hσ)
          omega
        exact (Function.update_of_ne hne _ _).trans (hsec i (by omega))

/-- A piece of the buffer that is read only when `cond` holds. -/
theorem Maps.readIf (hm : Maps st h σ n) {length : ℕ} (hlen : h.fileLength = length)
    (hn : length ≤ n * sectorSize) (cond : Prop) [Decidable cond] (position : ℕ) :
    ∃ a, (if cond then h.readAt st sectorSize position else some []) = some a ∧
      (cond → a = bytesAt (contents st σ) position (min sectorSize (length - position))) ∧
      (¬cond → a = []) := by
  by_cases hc : cond
  · exact ⟨_, by rw [if_pos hc, hm.readAt hlen hn], fun _ => rfl, fun hn => absurd hc hn⟩
  · exact ⟨[], if_neg hc, fun h => absurd h hc, fun _ => rfl⟩

/-- The buffer holds the new bytes where they go and the old bytes of the file
everywhere else. -/
theorem Maps.writeBuffer (hm : Maps st h σ n) {length : ℕ} (hlen : h.fileLength = length)
    (hn : length ≤ n * sectorSize) (junk : Memory) (data : List Byte) (position : ℕ) :
    ∃ buf, h.writeBuffer st junk data position = some buf ∧
      ∀ p, p < length → position / sectorSize * sectorSize ≤ p →
        p < ((position + data.length - 1) / sectorSize + 1) * sectorSize →
        buf (p - position / sectorSize * sectorSize) =
          overlay (contents st σ) position data p := by
  obtain ⟨a, ha, ha₁, ha₀⟩ := hm.readIf hlen hn (position ≠ position / sectorSize * sectorSize)
    (position / sectorSize * sectorSize)
  obtain ⟨z, hz, hz₁, hz₀⟩ := hm.readIf hlen hn
    (¬position + data.length = ((position + data.length - 1) / sectorSize + 1) * sectorSize ∧
      (position / sectorSize ≠ (position + data.length - 1) / sectorSize ∨
        position = position / sectorSize * sectorSize))
    ((position + data.length - 1) / sectorSize * sectorSize)
  generalize hF : position / sectorSize = F at *
  generalize hE : (position + data.length - 1) / sectorSize = E at *
  refine ⟨overlay (overlay (overlay junk 0 a) ((E - F) * sectorSize) z) (position - F * sectorSize)
    data, by simp only [FileHeader.writeBuffer, ← ne_eq, hF, hE, ha, hz, Option.bind_some,
      Option.map_some], ?_⟩
  intro p hp hfirst hlast
  have hFle : F * sectorSize ≤ position := hF ▸ Nat.div_mul_le_self _ _
  have hFlt : position < (F + 1) * sectorSize := by
    simp only [sectorSize] at *
    omega
  have hElt : position + data.length ≤ (E + 1) * sectorSize := by
    simp only [sectorSize] at *
    omega
  by_cases hin : position ≤ p ∧ p < position + data.length
  · obtain ⟨k, rfl⟩ := Nat.exists_eq_add_of_le hin.1
    have hk : k < data.length := by omega
    have hget : data[k]? = some data[k] := List.getElem?_eq_getElem hk
    rw [overlay_add hget, show position + k - F * sectorSize = position - F * sectorSize + k by omega,
      overlay_add hget]
  · have hold : overlay (contents st σ) position data p = contents st σ p := by
      by_cases hlt : p < position
      · exact overlay_of_lt hlt
      · exact overlay_of_le (by omega)
    have hskip : ∀ m : Memory, overlay m (position - F * sectorSize) data (p - F * sectorSize) =
        m (p - F * sectorSize) := by
      intro m
      by_cases hlt : p < position
      · exact overlay_of_lt (by omega)
      · exact overlay_of_le (by omega)
    rw [hold, hskip]
    have hpiece : ∀ (m : Memory) (G b : ℕ) (l : List Byte), F ≤ G → b = (G - F) * sectorSize →
        l = bytesAt (contents st σ) (G * sectorSize) (min sectorSize (length - G * sectorSize)) →
        G * sectorSize ≤ p → p < (G + 1) * sectorSize →
        overlay m b l (p - F * sectorSize) = contents st σ p := by
      intro m G b l hG hb hl h₁ h₂
      have hk : p - G * sectorSize < min sectorSize (length - G * sectorSize) := by
        simp only [sectorSize] at *
        omega
      have hq : p - F * sectorSize = b + (p - G * sectorSize) := by
        rw [hb, Nat.sub_mul]
        have := Nat.mul_le_mul_right sectorSize hG
        omega
      rw [hq, hl, overlay_add (bytesAt_getElem? hk), Nat.add_sub_cancel' h₁]
    by_cases hlt : p < position
    · have hne : position ≠ F * sectorSize := by omega
      have hpF : p < (F + 1) * sectorSize := hlt.trans hFlt
      have hz' : overlay (overlay junk 0 a) ((E - F) * sectorSize) z (p - F * sectorSize) =
          overlay junk 0 a (p - F * sectorSize) := by
        by_cases hEF : E = F
        · rw [hz₀ (by simp [hEF, hne]), overlay_nil]
        · refine overlay_of_lt ?_
          simp only [sectorSize] at *
          omega
      rw [hz']
      exact hpiece junk F 0 a le_rfl (by simp) (ha₁ hne) hfirst hpF
    · have hEp : E * sectorSize ≤ p := by
        simp only [sectorSize] at *
        omega
      have hFE : F ≤ E := by
        simp only [sectorSize] at *
        omega
      have hend : ¬position + data.length = (E + 1) * sectorSize := by omega
      by_cases hz' : F ≠ E ∨ position = F * sectorSize
      · exact hpiece _ E _ z hFE rfl (hz₁ ⟨hend, hz'⟩) hEp hlast
      · obtain ⟨hEF, hne⟩ := not_or.mp hz'
        obtain rfl := not_not.mp hEF
        rw [hz₀ (by simp [hne]), overlay_nil]
        exact hpiece junk F 0 a le_rfl (by simp) (ha₁ hne) hfirst hlast

/-- Within the length of the file `WriteAt` changes exactly the bytes given. -/
theorem Maps.writeCommon (hm : Maps st h σ n) {length : ℕ} (hlen : h.fileLength = length)
    (hn : length ≤ n * sectorSize) (hpos : 0 < length) (junk : Memory) {data : List Byte}
    {position : ℕ} (hin : position + data.length ≤ length) :
    ∃ st', h.writeCommon st junk data position = some st' ∧
      ∀ p < length, contents st' σ p = overlay (contents st σ) position data p := by
  obtain ⟨buf, hbuf, hbytes⟩ := hm.writeBuffer hlen hn junk data position
  have hlast : (position + data.length - 1) / sectorSize < n := Nat.div_lt_of_lt_mul (by
    rw [Nat.mul_comm]
    omega)
  have hfirst : position / sectorSize ≤ (position + data.length - 1) / sectorSize + 1 := by
    simp only [sectorSize]
    omega
  obtain ⟨st', hst', hsec⟩ := hm.writeSectors buf (position / sectorSize)
    ((position + data.length - 1) / sectorSize + 1 - position / sectorSize) (by omega)
  have hcommon : h.writeCommon st junk data position = some st' := by
    rw [FileHeader.writeCommon, hbuf, Option.bind_some, hst']
  refine ⟨st', hcommon, ?_⟩
  intro p hp
  by_cases hwritten : position / sectorSize ≤ p / sectorSize ∧
      p / sectorSize ≤ (position + data.length - 1) / sectorSize
  · obtain ⟨i, hi⟩ := Nat.exists_eq_add_of_le hwritten.1
    have hdisk := hsec i (by omega)
    rw [← hi] at hdisk
    rw [← hbytes p hp (by simp only [sectorSize] at *; omega) (by simp only [sectorSize] at *; omega),
      contents, hdisk, Sector.byte_ofMemory]
    congr 1
    simp only [sectorSize] at *
    omega
  · obtain ⟨-, -, -, hframe⟩ := writeCommon_frame hcommon
    have hpn : p / sectorSize < n := Nat.div_lt_of_lt_mul (by
      rw [Nat.mul_comm]
      omega)
    have hsame : st'.disk (σ (p / sectorSize)) = st.disk (σ (p / sectorSize)) := by
      refine hframe _ fun i h₁ h₂ w hw he => hwritten ?_
      obtain ⟨w', hw', hσ⟩ := hm.sector i (by omega)
      obtain rfl := Option.some.inj (hw.symm.trans hw')
      have := hm.injective i (by omega) _ hpn (hσ.symm.trans he)
      omega
    rw [contents, hsame]
    by_cases hlt : p < position
    · rw [overlay_of_lt hlt]
      rfl
    · rw [overlay_of_le (by simp only [sectorSize] at *; omega)]
      rfl

@[simp] theorem byteToSector_zero (st : Store) (h : FileHeader) :
    h.byteToSector st 0 = some (h.directDataSectors 0) := rfl

end FileHeader

/-- The test of the first sector against the size of the disk. -/
def Oversized (h : FileHeader) (position size : ℕ) : Prop :=
  (h.directDataSectors 0).toInt + divRoundUp (h.fileLength - position + size) sectorSize >
    sectorSize * totalSectors

instance (h : FileHeader) (position size : ℕ) : Decidable (Oversized h position size) :=
  inferInstanceAs (Decidable (_ > _))

theorem writeAt_oversized {h : FileHeader} {data : List Byte} {position : ℕ}
    (hover : Oversized h position data.length) (depth : ℕ) (st : Store) (junk : Junk) :
    writeAt (depth + 1) st h junk data position = some (0, st, h) := by
  have hover : (h.directDataSectors 0).toInt + divRoundUp (h.fileLength - position + data.length)
      sectorSize > sectorSize * totalSectors := hover
  simp only [writeAt, FileHeader.byteToSector_zero, Option.bind_some, if_pos hover]

/-- The first case of `WriteAt`. -/
theorem writeAt_inside {h : FileHeader} {data : List Byte} {position : ℕ}
    (hin : position + data.length ≤ h.fileLength) (depth : ℕ) (st : Store) (junk : Junk) :
    writeAt (depth + 1) st h junk data position =
      if Oversized h position data.length then some (0, st, h)
      else (h.writeCommon st (junk.buffer 0) data position).map fun st => (data.length, st, h) := by
  simp only [writeAt, FileHeader.byteToSector_zero, Option.bind_some, if_pos hin]
  rfl

/-- The second case: the write starts inside of the file and ends behind it. Only
the bytes up to the old length are written. -/
theorem writeAt_across {h : FileHeader} {data : List Byte} {position : ℕ}
    (hover : ¬Oversized h position data.length) (hout : ¬(position + data.length : ℤ) ≤ h.fileLength)
    (hpos : (position : ℤ) < h.fileLength) (depth : ℕ) (st : Store) (junk : Junk) :
    writeAt (depth + 1) st h junk data position =
      (extendWith (fun st h l => (writeAt depth st h junk.inner l 0).map fun r => r.2.1) st h junk
        (newSectors data.length position) (position + data.length)).bind fun r =>
      if r.1 then
        (r.2.2.writeCommon r.2.1 (junk.buffer 0) (data.take (h.fileLength - position).toNat)
          position).map fun st => ((h.fileLength - position).toNat, st, r.2.2)
      else some (0, r.2) := by
  rw [Oversized] at hover
  simp only [writeAt, FileHeader.byteToSector_zero, Option.bind_some, if_neg hover, if_neg hout,
    if_pos hpos]

/-- The free map on disk has fewer clear bits than a write behind the end of the
file asks for. -/
def Refused (st : Store) (h : FileHeader) (position size : ℕ) : Prop :=
  0 ≤ h.fileLength ∧ h.fileLength < position + size ∧
    ∃ m, fetchFreeMap st (OpenFile.create st 0).hdr = some m ∧
      (m.numClear : ℤ) < if position < h.fileLength then newSectors size position
        else appendSectors size h.fileLength.toNat

theorem extendWith_refused {write : Store → FileHeader → List Byte → Option Store} {st : Store}
    {h : FileHeader} {junk : Junk} {n bytes : ℤ} {m : BitMap}
    (hm : fetchFreeMap st (OpenFile.create st 0).hdr = some m) (hn : (m.numClear : ℤ) < n) :
    extendWith write st h junk n bytes = some (false, st, h) := by
  simp [extendWith, hm, Allocation.extendFile, hn]

/-- A write that is refused changes neither the disk nor the header. -/
theorem writeAt_refused {st : Store} {h : FileHeader} {data : List Byte} {position : ℕ}
    (hr : Refused st h position data.length) (depth : ℕ) (junk : Junk) :
    writeAt (depth + 1) st h junk data position = some (0, st, h) := by
  obtain ⟨h0, hlen, m, hm, hn⟩ := hr
  have hout : ¬position + data.length ≤ h.fileLength := by omega
  have hneg : ¬h.fileLength < 0 := by omega
  simp only [writeAt, FileHeader.byteToSector_zero, Option.bind_some, if_neg hout, if_neg hneg]
  by_cases hpos : (position : ℤ) < h.fileLength
  · rw [if_pos hpos] at hn
    simp [if_pos hpos, extendWith_refused hm hn]
  · rw [if_neg hpos] at hn
    simp [if_neg hpos, extendWith_refused hm hn]

end Nachos.FileSystem
