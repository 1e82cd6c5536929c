import Nachos.LoadedBytes

/-!
# The address space of a new process, without `VM`

The frames are the first clear bits of the memory manager. What the process finds in
them is what `ReadFile` copied over what was there before.
-/
namespace Nachos.Loading
open DemandPaging
open PhysicalFrames (MemoryManager numPhysPages)

variable {A : Type}

/-- The frames are the first clear bits. -/
theorem getPages_eq {m : MemoryManager A} {n : ℕ} (h : n ≤ m.bitMem.clearBits.length) :
    (getPages n m).1 = (m.bitMem.clearBits.take n).map (Nat.cast : ℕ → ℤ) := by
  induction n generalizing m with
  | zero => rfl
  | succ n ih =>
    cases hc : m.bitMem.clearBits with
    | nil =>
      rw [hc] at h
      exact absurd h (Nat.not_succ_le_zero n)
    | cons i rest =>
      have hfind := BitMap.find_of_clearBits hc
      have hrest := BitMap.clearBits_setBit hc
      have hpage : m.getPage = ((i : ℤ), ⟨m.bitMem.setBit i, none⟩) := by
        rw [MemoryManager.getPage, hfind]
      rw [getPages, hpage, List.take_succ_cons, List.map_cons]
      rw [hc, List.length_cons] at h
      have hlen : n ≤ (m.bitMem.setBit i).clearBits.length := by
        rw [hrest]
        omega
      have hih : (getPages n (⟨m.bitMem.setBit i, none⟩ : MemoryManager A)).1 = _ := ih hlen
      rw [hrest] at hih
      exact congrArg (List.cons (i : ℤ)) hih

theorem putFrame_putsBytes {frames : List ℤ} (hnodup : frames.Nodup) :
    PutsBytes (putFrame frames)
      (fun memory a => frames[a / pageSize]?.map fun f => Page.byte (memory f) a) fun _ => True := by
  constructor
  intro s s' vpn offset buffer _ hoff _ hput
  obtain ⟨f, hf, rfl⟩ := Option.map_eq_some_iff.mp hput
  refine ⟨trivial, fun a => ?_⟩
  by_cases hpage : a / pageSize = vpn
  · simp only [hpage, hf, Option.map_some, Function.update_self, byte_merge]
    by_cases hle : offset ≤ a % pageSize
    · rw [if_pos hle, if_pos ((in_rest_iff hoff).2 ⟨hpage, hle⟩)]
      have hsub : a - (vpn * pageSize + offset) = a % pageSize - offset := by
        simp only [pageSize] at *
        omega
      rw [hsub]
    · rw [if_neg hle, if_neg fun h => hle ((in_rest_iff hoff).1 h).2]
  · rw [if_neg fun h => hpage ((in_rest_iff hoff).1 h).1]
    cases hg : frames[a / pageSize]? with
    | none => rfl
    | some g =>
      have hne : g ≠ f := by
        rintro rfl
        have hlt : a / pageSize < frames.length := (List.getElem?_eq_some_iff.mp hg).1
        exact hpage ((List.getElem?_inj hlt hnodup).1 (hg.trans hf.symm))
      rw [Option.map_some, Option.map_some, Function.update_of_ne hne]

/-- The frames that the constructor will take. -/
def Machine.nextFrames (m : Machine A) (n : ℕ) : List ℤ :=
  (m.memory.bitMem.clearBits.take n).map Nat.cast

theorem Machine.nextFrames_nodup (m : Machine A) (n : ℕ) : (m.nextFrames n).Nodup :=
  (m.memory.bitMem.clearBits_nodup.sublist (List.take_sublist _ _)).map Nat.cast_injective

/-- The address space of a new process without `VM`: the segments over what was in its frames. -/
theorem Machine.newSpace_spec {m m' : Machine A} {file : List UInt8} {h : NoffHeader}
    {frames : List ℤ} (hread : NoffHeader.read file = some h)
    (hcode : h.code.Fits file h.numPages) (hinit : h.initData.Fits file h.numPages)
    (hnew : m.newSpace file = some (frames, m')) :
    frames = m.nextFrames h.numPages ∧ frames.length = h.numPages ∧
      ∀ a, h.InFile file a → m'.byteAt frames a = contents file h (m.byteAt frames) a := by
  rw [newSpace, hread, Option.bind_some] at hnew
  split_ifs at hnew with hroom
  obtain ⟨⟨memory, buffer⟩, hsegs, hres⟩ := Option.map_eq_some_iff.mp hnew
  obtain ⟨rfl, rfl⟩ := Prod.mk.inj hres
  have hlen : h.numPages ≤ m.memory.bitMem.clearBits.length := by
    rw [← BitMap.numClear_eq_length]
    exact hroom.2
  have hframes : (getPages h.numPages m.memory).1 = m.nextFrames h.numPages := getPages_eq hlen
  have hcount : (m.nextFrames h.numPages).length = h.numPages := by
    rw [nextFrames, List.length_map, List.length_take, min_eq_left hlen]
  rw [hframes] at hsegs ⊢
  have hpresent : ∀ {seg : Segment}, seg.Fits file h.numPages → 0 < seg.size →
      (m.byteAt (m.nextFrames h.numPages) (seg.virtualAddr.toNat / pageSize * pageSize)).isSome := by
    intro seg hfits hpos
    have hv := hfits.virtualAddr hpos
    have hs := hfits.inSpace hpos
    have hlt : seg.virtualAddr.toNat / pageSize * pageSize / pageSize <
        (m.nextFrames h.numPages).length := by
      rw [hcount]
      simp only [pageSize] at *
      omega
    rw [byteAt, List.getElem?_eq_getElem hlt]
    rfl
  have hspec := readSegments_spec (putFrame_putsBytes (m.nextFrames_nodup _)) (fun _ => rfl) hcode hinit
    trivial (fun hpos => .inr (hpresent hcode hpos)) (fun hpos => .inr (.inl (hpresent hinit hpos)))
    hsegs
  exact ⟨rfl, hcount, hspec.2.1⟩

theorem putFrame_stores (frames : List ℤ) :
    Stores (putFrame frames) frames.length fun _ => True := by
  constructor
  intro s vpn offset buffer _ hvpn
  exact ⟨_, by rw [putFrame, List.getElem?_eq_getElem hvpn, Option.map_some], trivial⟩

theorem Machine.newSpace_returns {m : Machine A} {file : List UInt8} {h : NoffHeader}
    (hread : NoffHeader.read file = some h)
    (hcode : h.code.Fits file h.numPages) (hinit : h.initData.Fits file h.numPages)
    (hroom : h.numPages ≤ numPhysPages ∧ h.numPages ≤ m.memory.freePages.1) :
    ∃ frames m', m.newSpace file = some (frames, m') := by
  have hlen : h.numPages ≤ m.memory.bitMem.clearBits.length := by
    rw [← BitMap.numClear_eq_length]
    exact hroom.2
  have hcount : (getPages h.numPages m.memory).1.length = h.numPages := by
    rw [getPages_eq hlen, List.length_map, List.length_take, min_eq_left hlen]
  have hput := hcount ▸ putFrame_stores (getPages h.numPages m.memory).1
  obtain ⟨memory, buffer, hsegs, -⟩ :=
    readSegments_returns (fun _ rest => rest) hput (fun _ => rfl) hcode hinit m.diskBuffer
      (s := m.mainMemory) trivial
  rw [newSpace, hread, Option.bind_some, if_pos hroom]
  exact ⟨_, _, congrArg (Option.map _) hsegs⟩

/-- An executable without `uninitData` whose numbers are below 256. -/
def executable (code initData : UInt8 × UInt8 × UInt8) (bytes : List UInt8) : List UInt8 :=
  [0xad, 0xdf, 0xba, 0, code.1, 0, 0, 0, code.2.1, 0, 0, 0, code.2.2, 0, 0, 0,
    initData.1, 0, 0, 0, initData.2.1, 0, 0, 0, initData.2.2, 0, 0, 0] ++ List.replicate 12 0 ++ bytes

/-- A machine without `VM` whose storage is all zero. -/
def blank : Machine Bool :=
  ⟨⟨BitMap.create (fun _ => 0) numPhysPages, none⟩, fun _ _ => 0, fun _ => 0⟩

/-- The constructor puts every byte of a segment at its address, whichever frames are free and
wherever the segments start and end in their pages. -/
theorem Machine.newSpace_places {m : Machine A} {file : List UInt8} {h : NoffHeader}
    (hread : NoffHeader.read file = some h)
    (hcode : h.code.Fits file h.numPages) (hinit : h.initData.Fits file h.numPages)
    (habove : h.Above) (hbits : m.memory.bitMem.numBits = numPhysPages)
    (hfree : h.numPages ≤ m.memory.freePages.1) :
    ∃ frames m', m.newSpace file = some (frames, m') ∧
      (∀ i : ℕ, i < h.code.size → ∃ byte, file[h.code.inFileAddr.toNat + i]? = some byte ∧
        m'.byteAt frames (h.code.virtualAddr.toNat + i) = some byte) ∧
      ∀ i : ℕ, i < h.initData.size → ∃ byte, file[h.initData.inFileAddr.toNat + i]? = some byte ∧
        m'.byteAt frames (h.initData.virtualAddr.toNat + i) = some byte := by
  have hroom : h.numPages ≤ numPhysPages := by
    refine hfree.trans (hbits ▸ ?_)
    exact m.memory.bitMem.numClear_le
  obtain ⟨frames, m', hnew⟩ := newSpace_returns hread hcode hinit ⟨hroom, hfree⟩
  obtain ⟨-, -, hbytes⟩ := newSpace_spec hread hcode hinit hnew
  refine ⟨frames, m', hnew, fun i hi => ?_, fun i hi => ?_⟩
  · obtain ⟨hhas, hsource⟩ := hcode.has_add hi
    obtain ⟨hin, -, hlt, hbyte⟩ := contents_code hcode habove hhas
    rw [hbytes _ hin, hbyte, ← hsource]
    exact ⟨_, List.getElem?_eq_getElem hlt, List.getElem?_eq_getElem hlt⟩
  · obtain ⟨hhas, hsource⟩ := hinit.has_add hi
    obtain ⟨hin, -, hlt, hbyte⟩ := contents_initData hinit hhas
    rw [hbytes _ hin, hbyte, ← hsource]
    exact ⟨_, List.getElem?_eq_getElem hlt, List.getElem?_eq_getElem hlt⟩

/-- Code that starts inside of a page, and data behind it in the same page. -/
theorem newSpace_places_shared_page :
    ∃ frames m', blank.newSpace (executable (4, 40, 4) (8, 44, 2) [1, 2, 3, 4, 5, 6]) =
        some (frames, m') ∧ m'.byteAt frames 7 = some 4 ∧ m'.byteAt frames 8 = some 5 := by
  have hread : NoffHeader.read (executable (4, 40, 4) (8, 44, 2) [1, 2, 3, 4, 5, 6]) =
      some ⟨⟨4, 40, 4⟩, ⟨8, 44, 2⟩, ⟨0, 0, 0⟩⟩ := by decide +kernel
  obtain ⟨frames, m', hnew, hcode, hinit⟩ := Machine.newSpace_places (m := blank) hread
    (by constructor <;> decide) (by constructor <;> decide) (fun _ _ => by decide) rfl
    (by decide +kernel)
  obtain ⟨byte, hbyte, hat⟩ := hcode 3 (by decide)
  obtain ⟨byte', hbyte', hat'⟩ := hinit 0 (by decide)
  obtain rfl : byte = 4 := Option.some.inj (hbyte.symm.trans (by decide +kernel))
  obtain rfl : byte' = 5 := Option.some.inj (hbyte'.symm.trans (by decide +kernel))
  exact ⟨frames, m', hnew, hat, hat'⟩

end Nachos.Loading
