import Nachos.MemoryIsolation
import Nachos.PhysicalFrames
import Nachos.ProcessManager

/-!
# `AddrSpace::Clone` without `VM`

`Clone` gives the copy one free frame for every page and copies the page into it. The
frames of the parent are in use, so none of them is handed out, and the two page tables
have no frame in common: what one process stores the other never reads. No other thread
runs during the call.
-/
namespace Nachos.SpaceCloning
open ByteMemory Machine
open PhysicalFrames (MemoryManager)

variable {A P : Type}

structure Kernel (A P : Type) where
  memory : MemoryManager A
  mainMemory : Memory
  pm : ProcessTable P

/-- `memcpy` of one frame to another one. -/
def copyFrame (memory : Memory) (target source : ℕ) : Memory := fun q =>
  if q / pageSize = target then memory (source * pageSize + q % pageSize) else memory q

/-- The loop of `Clone`. -/
def cloneLoop : PageTable → Kernel A P → PageTable × Kernel A P
  | [], k => ([], k)
  | e :: rest, k =>
    let r := k.memory.getPage
    let physicalPage : Word := BitVec.ofInt 32 r.1
    let c := cloneLoop rest { k with
      memory := r.2
      mainMemory := copyFrame k.mainMemory physicalPage.toNat e.physicalPage.toNat }
    ({ e with physicalPage := physicalPage } :: c.1, c.2)

/-- `AddrSpace::Clone`: the result, the new page table and the kernel. The new address space has a
control block of its own. -/
def clone (k : Kernel A P) (pageTable : PageTable) (pcb : P) :
    ℕ × Option PageTable × Kernel A P :=
  let r := k.memory.freePages
  if r.1 < pageTable.length then (0, none, { k with memory := r.2 })
  else
    let c := cloneLoop pageTable { k with memory := r.2 }
    let id := c.2.pm.getPID
    (pageTable.length, some c.1, { c.2 with pm := id.2.addProcess pcb id.1 })

/-- The frames of an address space: frames of the machine, in use, and all different. -/
structure Holds (bitMem : BitMap) (pageTable : PageTable) : Prop where
  lt : ∀ e ∈ pageTable, e.physicalPage.toNat < numPhysPages
  marked : ∀ e ∈ pageTable, bitMem.bit e.physicalPage.toNat = true
  distinct : (pageTable.map (·.physicalPage)).Nodup

def flags (e : TranslationEntry) : Bool × Bool × Bool × Bool := (e.valid, e.readOnly, e.use, e.dirty)

/-- The bytes of a frame. -/
def page (memory : Memory) (f : Word) : List Byte := bytesAt memory (f.toNat * pageSize) pageSize

/-- No store through the first table changes what is read through the second one. -/
def Unaffected (stores reads : PageTable) : Prop :=
  ∀ registers memory a size value m', (size = 1 ∨ size = 2 ∨ size = 4) →
    (State.mk registers memory stores).writeMem a size value = .ok m' →
    ∀ b, (State.mk registers m'.mainMemory reads).byteAt b =
      (State.mk registers memory reads).byteAt b

/-- Tables without a common frame. -/
theorem unaffected_of_disjoint {stores reads : PageTable}
    (h : ∀ e ∈ stores, ∀ e' ∈ reads, e.physicalPage ≠ e'.physicalPage) :
    Unaffected stores reads := by
  intro registers memory a size value m' hsize hwrite b
  obtain ⟨p, pt', ht, rfl⟩ := writeMem_eq_ok hwrite
  obtain ⟨e, he⟩ := translates hsize ht
  simp only [State.byteAt]
  cases hq : place reads b with
  | none => rfl
  | some q =>
    obtain ⟨f, hf, hplace⟩ := Option.bind_eq_some_iff.mp hq
    split_ifs at hplace
    obtain rfl := Option.some.inj hplace
    obtain ⟨e', he', hvalid⟩ := Option.bind_eq_some_iff.mp hf
    split_ifs at hvalid
    obtain rfl := Option.some.inj hvalid
    have hne := h e (List.mem_of_getElem? he.entry) e' (List.mem_of_getElem? he')
    have hne' : e.physicalPage.toNat ≠ e'.physicalPage.toNat := fun heq =>
      hne (BitVec.eq_of_toNat_eq heq)
    obtain ⟨hlow, hhigh, -⟩ := he.inside
    simp only [Option.map_some]
    rw [storeBytes_of_not_mem]
    simp only [pageSize] at *
    omega

theorem toNat_ofNat_frame {f : ℕ} (h : f < numPhysPages) : (BitVec.ofNat 32 f).toNat = f := by
  rw [BitVec.toNat_ofNat]
  simp only [numPhysPages] at h
  omega

section loop
variable {k : Kernel A P} {pt : PageTable}

/-- The copy of an entry. -/
def moved (e : TranslationEntry) (f : ℕ) : TranslationEntry :=
  { e with physicalPage := BitVec.ofNat 32 f }

/-- What the loop leaves, page by page: the first free frames, each with the bytes of its page. -/
structure Copied (pt : PageTable) (frames : List ℕ) (before after : Memory) : Prop where
  kept : ∀ q, q / pageSize ∉ frames.take pt.length → after q = before q
  copied : ∀ (i : ℕ) (e : TranslationEntry) (f : ℕ), pt[i]? = some e → frames[i]? = some f →
    ∀ o < pageSize, after (f * pageSize + o) = before (e.physicalPage.toNat * pageSize + o)

theorem div_add {f o : ℕ} (ho : o < pageSize) : (f * pageSize + o) / pageSize = f := by
  simp only [pageSize] at *
  omega

theorem mod_add {f o : ℕ} (ho : o < pageSize) : (f * pageSize + o) % pageSize = o := by
  simp only [pageSize] at *
  omega

theorem Copied.cons {e : TranslationEntry} {f : ℕ} {frames : List ℕ} {before after : Memory}
    (h : Copied pt frames (copyFrame before f e.physicalPage.toNat) after)
    (hf : f ∉ frames) (hsource : ∀ e' ∈ pt, e'.physicalPage.toNat ≠ f) :
    Copied (e :: pt) (f :: frames) before after := by
  constructor
  · intro q hq
    simp only [List.length_cons, List.take_succ_cons, List.mem_cons, not_or] at hq
    rw [h.kept q hq.2, copyFrame, if_neg hq.1]
  · intro i e' f' he hfi o ho
    cases i with
    | zero =>
      obtain rfl := Option.some.inj he
      obtain rfl := Option.some.inj hfi
      have hnot : (f * pageSize + o) / pageSize ∉ frames.take pt.length := by
        rw [div_add ho]
        exact fun hmem => hf (List.mem_of_mem_take hmem)
      rw [h.kept _ hnot, copyFrame, if_pos (div_add ho), mod_add ho]
    | succ i =>
      rw [List.getElem?_cons_succ] at he hfi
      rw [h.copied i e' f' he hfi o ho, copyFrame, if_neg]
      rw [div_add ho]
      exact hsource e' (List.mem_of_getElem? he)

theorem cloneLoop_spec (hlen : pt.length ≤ k.memory.bitMem.clearBits.length)
    (hbits : k.memory.bitMem.numBits = numPhysPages)
    (hheld : ∀ e ∈ pt, e.physicalPage.toNat ∉ k.memory.bitMem.clearBits) :
    (cloneLoop pt k).1 = List.zipWith moved pt k.memory.bitMem.clearBits ∧
      Copied pt k.memory.bitMem.clearBits k.mainMemory (cloneLoop pt k).2.mainMemory := by
  induction pt generalizing k with
  | nil => exact ⟨rfl, fun _ _ => rfl, fun _ _ _ he => nomatch he⟩
  | cons e pt ih =>
    cases hc : k.memory.bitMem.clearBits with
    | nil =>
      rw [hc] at hlen
      exact absurd hlen (Nat.not_succ_le_zero _)
    | cons f rest =>
      have hnodup := k.memory.bitMem.clearBits_nodup
      have hrest := BitMap.clearBits_setBit hc
      have hpage : k.memory.getPage = ((f : ℤ), ⟨k.memory.bitMem.setBit f, none⟩) := by
        rw [MemoryManager.getPage, BitMap.find_of_clearBits hc]
      have hlt : f < numPhysPages := by
        have hmem : f ∈ k.memory.bitMem.clearBits := hc ▸ List.mem_cons_self
        exact hbits ▸ (BitMap.mem_clearBits.mp hmem).1
      rw [hc] at hlen hheld hnodup
      simp only [List.length_cons] at hlen
      simp only [cloneLoop, hpage, BitVec.ofInt_natCast, toNat_ofNat_frame hlt]
      obtain ⟨htable, hcopied⟩ := ih (k := { k with
          memory := ⟨k.memory.bitMem.setBit f, none⟩
          mainMemory := copyFrame k.mainMemory f e.physicalPage.toNat })
        (by rw [hrest]; omega) (by rw [BitMap.setBit_numBits]; exact hbits)
        (fun e' he' => by
          rw [hrest]
          exact fun hmem => hheld e' (List.mem_cons_of_mem _ he') (List.mem_cons_of_mem _ hmem))
      simp only [hrest] at htable hcopied
      refine ⟨congrArg _ htable, ?_⟩
      refine hcopied.cons (List.nodup_cons.mp hnodup).1 fun e' he' heq => ?_
      exact hheld e' (List.mem_cons_of_mem _ he') (heq ▸ List.mem_cons_self)

end loop

section table
variable {k : Kernel A P} {pt : PageTable} {frames : List ℕ}

theorem map_flags_zipWith (h : pt.length ≤ frames.length) :
    (List.zipWith moved pt frames).map flags = pt.map flags := by
  induction pt generalizing frames with
  | nil => rfl
  | cons e pt ih =>
    cases frames with
    | nil => exact absurd h (Nat.not_succ_le_zero _)
    | cons f frames =>
      simp only [List.zipWith_cons_cons, List.map_cons, ih (Nat.le_of_succ_le_succ h)]
      rfl

theorem map_physicalPage_zipWith (h : pt.length ≤ frames.length) :
    (List.zipWith moved pt frames).map (·.physicalPage) =
      (frames.take pt.length).map (BitVec.ofNat 32) := by
  induction pt generalizing frames with
  | nil => rfl
  | cons e pt ih =>
    cases frames with
    | nil => exact absurd h (Nat.not_succ_le_zero _)
    | cons f frames =>
      simp only [List.zipWith_cons_cons, List.map_cons, ih (Nat.le_of_succ_le_succ h),
        List.length_cons, List.take_succ_cons]
      rfl

/-- The pages of the copy have the bytes of the pages of the parent. -/
theorem Copied.pages {before after : Memory} (h : Copied pt frames before after)
    (hlen : pt.length ≤ frames.length) (hlt : ∀ f ∈ frames, f < numPhysPages) :
    (List.zipWith moved pt frames).map (fun e => page after e.physicalPage) =
      pt.map fun e => page before e.physicalPage := by
  apply List.ext_getElem
  · simpa using hlen
  · intro i hi hi'
    rw [List.length_map] at hi'
    have hif : i < frames.length := hi'.trans_le hlen
    simp only [List.getElem_map, List.getElem_zipWith, moved, page,
      toNat_ofNat_frame (hlt _ (List.getElem_mem hif))]
    apply bytesAt_congr
    intro o ho
    exact h.copied i _ _ (List.getElem?_eq_getElem hi') (List.getElem?_eq_getElem hif) o ho

/-- The frames of a copy were free. -/
theorem moved_fresh {b : BitMap} (hbits : b.numBits = numPhysPages)
    (hlen : pt.length ≤ b.clearBits.length) {e : TranslationEntry}
    (he : e ∈ List.zipWith moved pt b.clearBits) :
    e.physicalPage.toNat < numPhysPages ∧ b.bit e.physicalPage.toNat = false := by
  have hmem : e.physicalPage ∈ (List.zipWith moved pt b.clearBits).map (·.physicalPage) :=
    List.mem_map_of_mem he
  rw [map_physicalPage_zipWith hlen] at hmem
  obtain ⟨f, hf, hef⟩ := List.mem_map.mp hmem
  obtain ⟨hlt, hclear⟩ := BitMap.mem_clearBits.mp (List.mem_of_mem_take hf)
  rw [hbits] at hlt
  rw [← hef, toNat_ofNat_frame hlt]
  exact ⟨hlt, hclear⟩

theorem moved_nodup {b : BitMap} (hbits : b.numBits = numPhysPages)
    (hlen : pt.length ≤ b.clearBits.length) :
    ((List.zipWith moved pt b.clearBits).map (·.physicalPage)).Nodup := by
  have hlt : ∀ f ∈ b.clearBits.take pt.length, f < numPhysPages := fun f hf =>
    hbits ▸ (BitMap.mem_clearBits.mp (List.mem_of_mem_take hf)).1
  rw [map_physicalPage_zipWith hlen]
  refine (b.clearBits_nodup.sublist (List.take_sublist _ _)).map_on fun f hf g hg hfg => ?_
  rw [← toNat_ofNat_frame (hlt f hf), hfg, toNat_ofNat_frame (hlt g hg)]

/-- The frames of a table, whatever its other bits. -/
theorem mem_of_map_eq {T U : PageTable} (h : T.map (·.physicalPage) = U.map (·.physicalPage))
    {e : TranslationEntry} (he : e ∈ T) : ∃ e' ∈ U, e'.physicalPage = e.physicalPage := by
  have hmem : e.physicalPage ∈ U.map (·.physicalPage) := h ▸ List.mem_map_of_mem he
  exact List.mem_map.mp hmem

/-- Frames in use and frames that were free, whatever the other bits of the tables. -/
theorem Holds.unaffected {b : BitMap} (h : Holds b pt) {table T U : PageTable}
    (hfresh : ∀ e ∈ table, b.bit e.physicalPage.toNat = false)
    (hT : T.map (·.physicalPage) = pt.map (·.physicalPage))
    (hU : U.map (·.physicalPage) = table.map (·.physicalPage)) :
    Unaffected T U ∧ Unaffected U T := by
  have hapart : ∀ e ∈ T, ∀ u ∈ U, e.physicalPage ≠ u.physicalPage := by
    intro e he u hu heq
    obtain ⟨e', he', hpage⟩ := mem_of_map_eq hT he
    obtain ⟨u', hu', hpage'⟩ := mem_of_map_eq hU hu
    have hclear := hfresh u' hu'
    rw [hpage', ← heq, ← hpage, h.marked e' he'] at hclear
    cases hclear
  exact ⟨unaffected_of_disjoint hapart,
    unaffected_of_disjoint fun u hu e he => (hapart e he u hu).symm⟩

end table

/-- `Clone` of an address space with enough free frames returns a copy in frames that were free and
are all different, page by page with the same bytes and flags, and leaves the parent's memory. From
then on, whatever memory holds and whatever the bits of the two tables are, no store through one of
them changes what the other reads. With too few free frames `Clone` returns 0 and changes nothing. -/
theorem clone_copies (k : Kernel A P) (pt : PageTable) (pcb : P)
    (hbits : k.memory.bitMem.numBits = numPhysPages) (hpt : Holds k.memory.bitMem pt) :
    (pt.length ≤ k.memory.bitMem.numClear → ∃ table k', clone k pt pcb = (pt.length, some table, k') ∧
      table.map flags = pt.map flags ∧
      (∀ e ∈ table, e.physicalPage.toNat < numPhysPages ∧
        k.memory.bitMem.bit e.physicalPage.toNat = false) ∧
      (table.map (·.physicalPage)).Nodup ∧
      table.map (fun e => page k'.mainMemory e.physicalPage) =
        pt.map (fun e => page k.mainMemory e.physicalPage) ∧
      pt.map (fun e => page k'.mainMemory e.physicalPage) =
        pt.map (fun e => page k.mainMemory e.physicalPage) ∧
      ∀ T U : PageTable, T.map (·.physicalPage) = pt.map (·.physicalPage) →
        U.map (·.physicalPage) = table.map (·.physicalPage) → Unaffected T U ∧ Unaffected U T) ∧
    (k.memory.bitMem.numClear < pt.length → ∃ k', clone k pt pcb = (0, none, k') ∧
      k'.memory.bitMem = k.memory.bitMem ∧ k'.mainMemory = k.mainMemory ∧ k'.pm = k.pm) := by
  constructor
  · intro hfree
    have hlen : pt.length ≤ k.memory.bitMem.clearBits.length := by
      rw [← BitMap.numClear_eq_length]
      exact hfree
    have hheld : ∀ e ∈ pt, e.physicalPage.toNat ∉ k.memory.bitMem.clearBits := by
      intro e he hmem
      have hclear := (BitMap.mem_clearBits.mp hmem).2
      rw [hpt.marked e he] at hclear
      cases hclear
    obtain ⟨htable, hcopied⟩ := cloneLoop_spec (k := { k with memory := k.memory.freePages.2 })
      hlen hbits hheld
    change (cloneLoop pt _).1 = List.zipWith moved pt k.memory.bitMem.clearBits at htable
    have hlt : ∀ f ∈ k.memory.bitMem.clearBits, f < numPhysPages := fun f hf =>
      hbits ▸ (BitMap.mem_clearBits.mp hf).1
    refine ⟨_, _, if_neg (not_lt.mpr hfree), ?_⟩
    rw [htable]
    refine ⟨map_flags_zipWith hlen, fun e he => moved_fresh hbits hlen he, moved_nodup hbits hlen,
      hcopied.pages hlen hlt, ?_,
      fun T U hT hU => hpt.unaffected (fun e he => (moved_fresh hbits hlen he).2) hT hU⟩
    -- The frames of the parent are marked, so the loop has not written to them.
    refine List.map_congr_left fun e he => bytesAt_congr fun o ho => hcopied.kept _ ?_
    rw [div_add ho]
    exact fun hmem => hheld e he (List.mem_of_mem_take hmem)
  · intro hfew
    exact ⟨_, if_pos hfew, rfl, rfl, rfl⟩

/-- The frames 5 and 2 are in use. -/
def sampleKernel : Kernel Unit ℕ where
  memory := ⟨((BitMap.create (fun _ => 0) numPhysPages).setBit 5).setBit 2, none⟩
  mainMemory q := BitVec.ofNat 8 q
  pm := .create (fun _ => 0) 16 (fun _ => none) fun _ => 0

def sampleTable : PageTable := [⟨5#32, true, false, true, true⟩, ⟨2#32, true, true, false, false⟩]

theorem clone_copies_two_pages : ∃ table k', clone sampleKernel sampleTable 1 = (2, some table, k') ∧
    table.map flags = sampleTable.map flags ∧ Unaffected sampleTable table ∧
    Unaffected table sampleTable := by
  have hholds : Holds sampleKernel.memory.bitMem sampleTable := by
    constructor
    · decide
    · decide +kernel
    · decide
  obtain ⟨table, k', hclone, hflags, -, -, -, -, hapart⟩ :=
    (clone_copies sampleKernel sampleTable 1 rfl hholds).1 (by decide +kernel)
  exact ⟨table, k', hclone, hflags, hapart sampleTable table rfl rfl⟩

end Nachos.SpaceCloning
