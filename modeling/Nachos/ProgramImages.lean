import Nachos.CoffConversion
import Nachos.LoadedFrames
import Nachos.MemoryIsolation

/-!
# From a COFF file to the instructions that are fetched

A program is linked into a COFF file, `coff2noff` makes a NOFF file of it, the constructor of
`AddrSpace` (build without `VM`) copies the NOFF file into frames, and the processor fetches
through the page table. Every byte of a section with code or initialised data is found at its
address in the new process, and the words of the code are the words that the processor fetches.

What is asked of the sections is what the linker gives: at most one for each segment, the data
above the code, and room for both in an address space of the size that the constructor computes.
-/
namespace Nachos.ProgramImages
open CoffConversion Loading
open Nachos.Machine (Reg pcReg PageTable State vpn misaligned)

/-- The bytes in the sections of a kind. -/
def sizeOfKind (kind : Kind) (l : List ScnHdr) : ℤ := ((ofKind kind l).map ScnHdr.sSize).sum

/-- The number of pages of a process with these sections. -/
def numPages (l : List ScnHdr) : ℕ :=
  let size := ((sizeOfKind .text l + sizeOfKind .data l + sizeOfKind .bss l + userStackSize) %
    2 ^ 32).toNat
  size / DemandPaging.pageSize + if size % DemandPaging.pageSize > 0 then 1 else 0

/-- The sections that are copied. -/
def loaded (l : List ScnHdr) : List ScnHdr := ofKind .text l ++ ofKind .data l

/-- The addresses of a section are in a space of `n` pages. -/
structure InSpace (n : ℕ) (s : ScnHdr) : Prop where
  paddr : 0 ≤ s.sPaddr
  size : 0 < s.sSize
  le : s.sPaddr + s.sSize ≤ n * DemandPaging.pageSize

structure Linked (l : List ScnHdr) : Prop where
  foldable : Foldable l
  inSpace : ∀ s ∈ loaded l, InSpace (numPages l) s
  above : ∀ s ∈ ofKind .text l, ∀ d ∈ ofKind .data l, s.sPaddr + s.sSize ≤ d.sPaddr

section converted
variable {file body out : List UInt8} {pos n : ℕ} {seg : Segment} {kind : Kind}

/-- The size of a segment is that of its sections. -/
theorem Folded.size_eq {P : Segment → ScnHdr → Prop}
    (h : Folded P seg (ofKind kind (sections file))) (hP : ∀ s, P seg s → seg.size = s.sSize) :
    toInt32 seg.size = sizeOfKind kind (sections file) := by
  rcases h with ⟨hnil, hzero⟩ | ⟨s, hone, hs⟩
  · rw [sizeOfKind, hnil, hzero]
    rfl
  · have hmem : s ∈ sections file := List.mem_of_mem_filter (hone ▸ List.mem_singleton_self s)
    obtain ⟨-, hlow, hhigh⟩ := sections_range hmem
    rw [sizeOfKind, hone, hP s hs, toInt32_eq hlow hhigh]
    simp

/-- The numbers of a segment were written as they are. -/
theorem Copied.toInts_eq {s : ScnHdr} (h : Copied file body pos seg s) (hs : s ∈ sections file) :
    (toInts seg).virtualAddr = s.sPaddr ∧ (toInts seg).size = s.sSize := by
  obtain ⟨hpaddr, hsize⟩ := sections_range hs
  exact ⟨by rw [toInts, h.virtualAddr, toInt32_eq hpaddr.1 hpaddr.2],
    by rw [toInts, h.size, toInt32_eq hsize.1 hsize.2]⟩

theorem toInts_size_of_zero (h : seg.size = 0) : (toInts seg).size = 0 := by
  rw [toInts, h]
  rfl

/-- A segment of a copied kind is in the NOFF file, and in the space when its section is. -/
theorem Folded.fits (h : Folded (Copied file body pos) seg (ofKind kind (sections file)))
    (hsmall : pos < 2 ^ 31) (noffH : NoffHeader)
    (hspace : ∀ s ∈ ofKind kind (sections file), InSpace n s) :
    (toInts seg).Fits (HostFiles.writeAt 0 body (headerBytes noffH) 0) n := by
  have hplaced := h.placed hsmall noffH
  rcases h with ⟨-, hzero⟩ | ⟨s, hone, hs⟩
  · have hsize := toInts_size_of_zero hzero
    refine ⟨hsize.ge, ?_, ?_, ?_, ?_⟩ <;> exact fun hpos => absurd hsize hpos.ne'
  · have hmem : s ∈ ofKind kind (sections file) := hone ▸ List.mem_singleton_self s
    obtain ⟨hnonneg, hpositive, hroom⟩ := hspace s hmem
    obtain ⟨hva, hsz⟩ := Copied.toInts_eq hs (List.mem_of_mem_filter hmem)
    -- the place of the last byte is inside of the file
    obtain ⟨-, -, hbyte, hsome⟩ := hplaced s hmem (s.sPaddr + s.sSize - 1) (by omega) (by omega)
    rw [← hbyte, byteAt] at hsome
    split_ifs at hsome with hneg
    · cases hsome
    obtain ⟨b, hb⟩ := Option.isSome_iff_exists.mp hsome
    have hlt := (List.getElem?_eq_some_iff.mp hb).1
    obtain ⟨a, ha, -, hend, -⟩ := hs.place
    have hin : (toInts seg).inFileAddr = a := by
      show toInt32 seg.inFileAddr = a
      rw [ha, toInt32_eq (by omega) (by omega)]
    refine ⟨by omega, fun _ => by omega, fun _ => by omega, fun _ => by omega,
      fun _ => by omega⟩

/-- The data of a NOFF file is above its code when the section of data is. -/
theorem above_of_folded {h : NoffHeader}
    (hcode : Folded (Copied file body pos) h.code (ofKind .text (sections file)))
    (hinit : Folded (Copied file body pos) h.initData (ofKind .data (sections file)))
    (habove : ∀ s ∈ ofKind .text (sections file), ∀ d ∈ ofKind .data (sections file),
      s.sPaddr + s.sSize ≤ d.sPaddr) :
    NoffHeader.Above ⟨toInts h.code, toInts h.initData, toInts h.uninitData⟩ := by
  intro hpos hpos'
  rcases hcode with ⟨-, hzero⟩ | ⟨s, hone, hs⟩
  · exact absurd (toInts_size_of_zero hzero) hpos.ne'
  rcases hinit with ⟨-, hzero⟩ | ⟨d, hone', hd⟩
  · exact absurd (toInts_size_of_zero hzero) hpos'.ne'
  have hmem : s ∈ ofKind .text (sections file) := hone ▸ List.mem_singleton_self s
  have hmem' : d ∈ ofKind .data (sections file) := hone' ▸ List.mem_singleton_self d
  obtain ⟨hva, hsz⟩ := Copied.toInts_eq hs (List.mem_of_mem_filter hmem)
  obtain ⟨hva', -⟩ := Copied.toInts_eq hd (List.mem_of_mem_filter hmem')
  show (toInts h.code).virtualAddr + (toInts h.code).size ≤ (toInts h.initData).virtualAddr
  rw [hva, hsz, hva']
  exact habove s hmem d hmem'

/-- What the loader finds in the file that was written. -/
structure Loadable (file out : List UInt8) (h : NoffHeader) : Prop where
  read : NoffHeader.read out = some h
  numPages : h.numPages = numPages (sections file)
  code : h.code.Fits out h.numPages
  initData : h.initData.Fits out h.numPages
  above : h.Above
  text : ∀ s ∈ ofKind .text (sections file), Placed file out h.code s
  data : ∀ s ∈ ofKind .data (sections file), Placed file out h.initData s

theorem loadable_of_linked {host : Host} {stack : NoffHeader}
    (h : coff2noff host stack file = some out) (hl : Linked (sections file)) :
    ∃ noffH, Loadable file out noffH := by
  obtain ⟨w, pos, hw, rfl⟩ := coff2noff_cases h
  have hinv : Inv file (sections file) w := (Inv.initial pos stack).foldlM hl.foldable hw
  have hpages : NoffHeader.numPages
      ⟨toInts w.noffH.code, toInts w.noffH.initData, toInts w.noffH.uninitData⟩ =
        ProgramImages.numPages (sections file) := by
    rw [ProgramImages.numPages, ← Folded.size_eq hinv.code fun _ hs => hs.size,
      ← Folded.size_eq hinv.initData fun _ hs => hs.size,
      ← Folded.size_eq hinv.uninitData fun _ hs => hs.2]
    rfl
  refine ⟨_, by rw [HostFiles.writeAt_zero, read_headerBytes], hpages, ?_, ?_,
    above_of_folded hinv.code hinv.initData hl.above, hinv.code.placed hinv.small _,
    hinv.initData.placed hinv.small _⟩
  · rw [hpages]
    exact Folded.fits hinv.code hinv.small _ fun s hs => hl.inSpace s (List.mem_append_left _ hs)
  · rw [hpages]
    exact Folded.fits hinv.initData hinv.small _ fun s hs =>
      hl.inSpace s (List.mem_append_right _ hs)

end converted

section process
variable {A : Type} {file out : List UInt8} {m m' : Loading.Machine A} {frames : List ℤ}

/-- The main memory of the machine, frame after frame. -/
def mainMemory (m : Loading.Machine A) : ByteMemory.Memory := fun p =>
  (Page.byte (m.mainMemory (p / DemandPaging.pageSize : ℕ)) p).toBitVec

/-- The page table that the constructor makes. -/
def pageTable (frames : List ℤ) : PageTable :=
  frames.map fun f => ⟨BitVec.ofInt 32 f, true, false, false, false⟩

/-- The processor, with any registers, while it runs the new process. -/
def process (m : Loading.Machine A) (frames : List ℤ) (registers : Reg → Word) :
    State := ⟨registers, mainMemory m, pageTable frames⟩

/-- A byte of a segment is where its section of the COFF file says. -/
theorem byteAt_of_placed {seg : Segment} {s : ScnHdr} {n v : ℕ} (hplaced : Placed file out seg s)
    (hfits : seg.Fits out n) (hv : s.sPaddr ≤ v) (hlt : v < s.sPaddr + s.sSize) :
    seg.Has v ∧ out[seg.source v]? = byteAt file (s.sScnptr + (v - s.sPaddr)) ∧
      (byteAt file (s.sScnptr + (v - s.sPaddr))).isSome := by
  obtain ⟨hlow, hhigh, hbyte, hsome⟩ := hplaced v hv hlt
  have hpos : 0 < seg.size := by omega
  have hva := hfits.virtualAddr hpos
  have hin := hfits.inFileAddr hpos
  refine ⟨⟨by omega, by omega⟩, ?_, hsome⟩
  rw [← hbyte, byteAt, if_neg (by omega), Segment.source]
  congr 1
  omega

/-- Every byte of the sections that are copied is at its address in the new process. -/
theorem newSpace_sections (hm : m.memory.bitMem.numBits = PhysicalFrames.numPhysPages)
    {noffH : NoffHeader} (h : Loadable file out noffH)
    (hfree : numPages (sections file) ≤ m.memory.freePages.1) :
    ∃ frames m', m.newSpace out = some (frames, m') ∧
      (∀ f ∈ frames, 0 ≤ f ∧ f < PhysicalFrames.numPhysPages) ∧
      ∀ s ∈ loaded (sections file), ∀ v : ℕ, s.sPaddr ≤ v → v < s.sPaddr + s.sSize →
        m'.byteAt frames v = byteAt file (s.sScnptr + (v - s.sPaddr)) ∧
          (byteAt file (s.sScnptr + (v - s.sPaddr))).isSome := by
  have hroom : noffH.numPages ≤ PhysicalFrames.numPhysPages ∧
      noffH.numPages ≤ m.memory.freePages.1 := by
    rw [h.numPages]
    exact ⟨hfree.trans (hm ▸ m.memory.bitMem.numClear_le), hfree⟩
  obtain ⟨frames, m', hnew⟩ := Machine.newSpace_returns h.read h.code h.initData hroom
  obtain ⟨hframes, -, hbytes⟩ := Machine.newSpace_spec h.read h.code h.initData hnew
  refine ⟨frames, m', hnew, fun f hf => ?_, fun s hs v hv hlt => ?_⟩
  · rw [hframes, Machine.nextFrames] at hf
    obtain ⟨i, hi, rfl⟩ := List.mem_map.mp hf
    have hclear := (BitMap.mem_clearBits.mp (List.mem_of_mem_take hi)).1
    rw [hm] at hclear
    omega
  · rcases List.mem_append.mp hs with htext | hdata
    · obtain ⟨hhas, hbyte, hsome⟩ := byteAt_of_placed (h.text s htext) h.code hv hlt
      obtain ⟨hin, -, -, hcontents⟩ := contents_code h.code h.above hhas
      exact ⟨by rw [hbytes v hin, hcontents, hbyte], hsome⟩
    · obtain ⟨hhas, hbyte, hsome⟩ := byteAt_of_placed (h.data s hdata) h.initData hv hlt
      obtain ⟨hin, -, -, hcontents⟩ := contents_initData h.initData hhas
      exact ⟨by rw [hbytes v hin, hcontents, hbyte], hsome⟩

/-- The physical address of a byte in a frame of the process. -/
def physical (f : ℤ) (a : Word) : Word := BitVec.ofInt 32 f * 128#32 + Nachos.Machine.offset a

theorem toNat_physical {f : ℤ} (hf : 0 ≤ f ∧ f < PhysicalFrames.numPhysPages) (a : Word) :
    (BitVec.ofInt 32 f).toNat < Nachos.Machine.numPhysPages ∧
      (physical f a).toNat = f.toNat * 128 + a.toNat % 128 := by
  have hoffset := Nachos.Machine.offset_toNat a
  simp only [PhysicalFrames.numPhysPages] at hf
  have hframe : (BitVec.ofInt 32 f).toNat = f.toNat := by
    rw [BitVec.toNat_ofInt]
    omega
  have hlt : (BitVec.ofInt 32 f).toNat < Nachos.Machine.numPhysPages := by
    simp only [Nachos.Machine.numPhysPages]
    omega
  exact ⟨hlt, by rw [physical, Nachos.Machine.toNat_frame_add hlt (by omega), hframe, hoffset]⟩

theorem translate_process {a : Word} (haligned : a.toNat % 4 = 0) {f : ℤ}
    (hf : frames[a.toNat / DemandPaging.pageSize]? = some f)
    (hsmall : (BitVec.ofInt 32 f).toNat < Nachos.Machine.numPhysPages) :
    Nachos.Machine.translate (pageTable frames) a 4 false = .ok (physical f a,
      (pageTable frames).set (vpn a)
        ⟨BitVec.ofInt 32 f, true, false, true, false⟩) := by
  have hentry : (pageTable frames)[vpn a]? =
      some ⟨BitVec.ofInt 32 f, true, false, false, false⟩ := by
    rw [Nachos.Machine.vpn_eq, pageTable, List.getElem?_map, hf]
    rfl
  have hmis : misaligned a 4 = false := by
    by_contra hne
    exact (Nachos.Machine.misaligned_iff (Or.inr (Or.inr rfl))).mp (by simpa using hne) haligned
  simp only [Nachos.Machine.translate, hmis, hentry, not_le.mpr hsmall]
  rfl

/-- The processor reads a word of the process through the page table, byte for byte. -/
theorem fetch_process (hframes : ∀ f ∈ frames, 0 ≤ f ∧ f < PhysicalFrames.numPhysPages)
    {registers : Reg → Word} (haligned : (registers pcReg).toNat % 4 = 0)
    (hin : (m.byteAt frames (registers pcReg).toNat).isSome) :
    ∃ w m₁, (process m frames registers).fetch = .ok (w, m₁) ∧
      ∀ k < 4, m.byteAt frames ((registers pcReg).toNat + k) =
        some (UInt8.ofBitVec (ByteMemory.byteOf w k)) := by
  obtain ⟨b, hb⟩ := Option.isSome_iff_exists.mp hin
  obtain ⟨f, hf, -⟩ := Option.map_eq_some_iff.mp hb
  have hrange := hframes f (List.mem_of_getElem? hf)
  obtain ⟨hsmall, hplace⟩ := toNat_physical hrange (registers pcReg)
  refine ⟨_, _, Nachos.Machine.readMem_of_translate (translate_process haligned hf hsmall),
    fun k hk => ?_⟩
  show _ = some (UInt8.ofBitVec (ByteMemory.byteOf (ByteMemory.word (mainMemory m) _) k))
  rw [ByteMemory.byteOf_word _ _ hk, hplace, Loading.Machine.byteAt]
  -- the four bytes are in one page
  have hdiv : ((registers pcReg).toNat + k) / DemandPaging.pageSize =
      (registers pcReg).toNat / DemandPaging.pageSize := by
    simp only [DemandPaging.pageSize]
    omega
  have hframe : ((f.toNat * 128 + (registers pcReg).toNat % 128 + k) / DemandPaging.pageSize : ℕ) =
      f.toNat := by
    simp only [DemandPaging.pageSize]
    omega
  have hbyte : (Fin.ofNat DemandPaging.pageSize
      (f.toNat * 128 + (registers pcReg).toNat % 128 + k)) =
        Fin.ofNat DemandPaging.pageSize ((registers pcReg).toNat + k) := by
    apply Fin.ext
    simp only [Fin.val_ofNat, DemandPaging.pageSize]
    omega
  rw [hdiv, hf, Option.map_some, mainMemory, hframe, Int.toNat_of_nonneg hrange.1, Page.byte,
    Page.byte, hbyte]

/-- A program that was converted and loaded is in the memory of the new process as the COFF file
has it, and the processor fetches the words of its code. -/
theorem program_loaded (host : Host) (stack : NoffHeader) (file out : List UInt8)
    (h : coff2noff host stack file = some out) (hl : Linked (sections file))
    (m : Loading.Machine A) (hm : m.memory.bitMem.numBits = PhysicalFrames.numPhysPages)
    (hfree : numPages (sections file) ≤ m.memory.freePages.1) :
    ∃ frames m', m.newSpace out = some (frames, m') ∧
      (∀ s ∈ loaded (sections file), ∀ v : ℕ, s.sPaddr ≤ v → v < s.sPaddr + s.sSize →
        m'.byteAt frames v = byteAt file (s.sScnptr + (v - s.sPaddr)) ∧
          (byteAt file (s.sScnptr + (v - s.sPaddr))).isSome) ∧
      ∀ s ∈ ofKind .text (sections file), ∀ registers : Reg → Word,
        (registers pcReg).toNat % 4 = 0 → s.sPaddr ≤ (registers pcReg).toNat →
        (registers pcReg).toNat + 4 ≤ s.sPaddr + s.sSize →
        ∃ w m₁, (process m' frames registers).fetch = .ok (w, m₁) ∧
          ∀ k : ℕ, k < 4 →
            byteAt file (s.sScnptr + (((registers pcReg).toNat + k : ℕ) - s.sPaddr)) =
              some (UInt8.ofBitVec (ByteMemory.byteOf w k)) := by
  obtain ⟨noffH, hloadable⟩ := loadable_of_linked h hl
  obtain ⟨frames, m', hnew, hframes, hbytes⟩ := newSpace_sections hm hloadable hfree
  refine ⟨frames, m', hnew, hbytes, fun s hs registers haligned hfrom hto => ?_⟩
  have hbyte := hbytes s (List.mem_append_left _ hs)
  obtain ⟨hpc, hsome⟩ := hbyte _ hfrom (by omega)
  obtain ⟨w, m₁, hfetch, hword⟩ := fetch_process hframes haligned (hpc ▸ hsome)
  refine ⟨w, m₁, hfetch, fun k hk => ?_⟩
  have hk' := (hbyte ((registers pcReg).toNat + k) (by omega) (by omega)).1
  exact hk'.symm.trans (hword k hk)

end process

/-- Code at address 0, data in a page of its own, and a range of uninitialised data. -/
theorem sampleFile_linked : Linked (sections sampleFile) where
  foldable := ⟨by decide +kernel, by decide +kernel, by decide +kernel⟩
  inSpace s hs := by
    have htest : (loaded (sections sampleFile)).all (fun s => decide (0 ≤ s.sPaddr ∧ 0 < s.sSize ∧
        s.sPaddr + s.sSize ≤ numPages (sections sampleFile) * DemandPaging.pageSize)) = true := by
      decide +kernel
    obtain ⟨hpaddr, hsize, hle⟩ := of_decide_eq_true (List.all_eq_true.mp htest s hs)
    exact ⟨hpaddr, hsize, hle⟩
  above := by decide +kernel

/-- The first word that the process of the sample executes is the first word of its code. -/
theorem program_loaded_sample : ∃ out frames m',
    coff2noff sampleHost sampleStack sampleFile = some out ∧
    blank.newSpace out = some (frames, m') ∧
    ∃ w m₁, (process m' frames fun _ => 0).fetch = .ok (w, m₁) ∧
      ByteMemory.byteOf w 0 = 1#8 ∧ ByteMemory.byteOf w 3 = 4#8 := by
  obtain ⟨out, hout⟩ := Option.isSome_iff_exists.mp
    (show (coff2noff sampleHost sampleStack sampleFile).isSome by decide +kernel)
  obtain ⟨frames, m', hnew, -, hfetch⟩ := program_loaded _ _ _ _ hout sampleFile_linked blank rfl
    (by decide +kernel)
  obtain ⟨w, m₁, hw, hbytes⟩ := hfetch ⟨textName ++ [0, 0, 0], 0, 4, 196⟩ (by decide +kernel)
    (fun _ => 0) rfl (by decide) (by decide)
  refine ⟨out, frames, m', hout, hnew, w, m₁, hw, ?_, ?_⟩
  · have hbyte : byteAt sampleFile 196 = some (UInt8.ofBitVec 1#8) := by decide +kernel
    exact UInt8.ofBitVec.inj (Option.some.inj ((hbytes 0 (by decide)).symm.trans hbyte))
  · have hbyte : byteAt sampleFile 199 = some (UInt8.ofBitVec 4#8) := by decide +kernel
    exact UInt8.ofBitVec.inj (Option.some.inj ((hbytes 3 (by decide)).symm.trans hbyte))

end Nachos.ProgramImages
