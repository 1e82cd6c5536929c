import Nachos.MipsExecution

/-!
# The memory of a user program

`Translate`, `ReadMem` and `WriteMem` of `machine/translate.cc` over a page table
whose valid entries have frames of their own. A virtual address has one place in main
memory and no two of them share it, so a store is read back and changes nothing else.
-/
namespace Nachos.Machine
open ByteMemory

/-- The frame of a page that is in memory. -/
def frame (pt : PageTable) (i : ℕ) : Option Word :=
  (pt[i]?).bind fun e => if e.valid then some e.physicalPage else none

def DistinctFrames (pt : PageTable) : Prop :=
  ∀ i j f, frame pt i = some f → frame pt j = some f → i = j

/-- The place in main memory of a virtual address. -/
def place (pt : PageTable) (a : Word) : Option ℕ :=
  (frame pt (vpn a)).bind fun f =>
    if f.toNat < numPhysPages then some (f.toNat * pageSize + a.toNat % pageSize) else none

def State.byteAt (m : State) (a : Word) : Option Byte := (place m.pageTable a).map m.mainMemory

/-- The value that is read back after a store of that size; a byte is signed. -/
def stored (size : ℕ) (value : Word) : Word :=
  match size with
  | 1 => (value.setWidth 8).signExtend 32
  | 2 => (value.setWidth 16).setWidth 32
  | _ => value

variable {pt pt' : PageTable} {a p : Word} {size : ℕ} {writing : Bool} {m m' : State}

/-- What a translation says about the table and the physical address. -/
structure Translates (pt : PageTable) (a : Word) (size : ℕ) (writing : Bool) (p : Word)
    (pt' : PageTable) (e : TranslationEntry) : Prop where
  entry : pt[vpn a]? = some e
  valid : e.valid = true
  frame_lt : e.physicalPage.toNat < numPhysPages
  address : p.toNat = e.physicalPage.toNat * pageSize + a.toNat % pageSize
  inPage : a.toNat % pageSize + size ≤ pageSize
  table : pt' = pt.set (vpn a) { e with use := true, dirty := e.dirty || writing }

theorem translates (hsize : size = 1 ∨ size = 2 ∨ size = 4)
    (h : translate pt a size writing = .ok (p, pt')) :
    ∃ e, Translates pt a size writing p pt' e := by
  obtain ⟨hmis, e, hentry, hvalid, -, hframe, rfl, rfl⟩ := translate_eq_ok h
  have hoffset := offset_toNat a
  have haligned : a.toNat % size = 0 := by
    by_contra hne
    rw [(misaligned_iff hsize).mpr hne] at hmis
    cases hmis
  refine ⟨e, hentry, hvalid, hframe, ?_, ?_, rfl⟩
  · rw [toNat_frame_add hframe (by omega), hoffset]
  · simp only [pageSize]
    rcases hsize with rfl | rfl | rfl
    · omega
    · omega
    · omega

namespace Translates
variable {e : TranslationEntry}

/-- The access is inside of its frame, and inside of main memory. -/
theorem inside (h : Translates pt a size writing p pt' e) :
    e.physicalPage.toNat * pageSize ≤ p.toNat ∧
      p.toNat + size ≤ (e.physicalPage.toNat + 1) * pageSize ∧ p.toNat + size ≤ memorySize := by
  have hframe := h.frame_lt
  have haddr := h.address
  have hpage := h.inPage
  simp only [pageSize, numPhysPages, memorySize] at *
  omega

/-- The use and dirty bits do not move a page. -/
theorem frame_eq (h : Translates pt a size writing p pt' e) : frame pt' = frame pt := by
  funext i
  rw [h.table, frame, frame]
  by_cases hi : vpn a = i
  · subst hi
    have hlt : vpn a < pt.length := (List.getElem?_eq_some_iff.mp h.entry).1
    rw [List.getElem?_set_self hlt, h.entry]
    rfl
  · rw [List.getElem?_set_ne hi]

theorem place_eq (h : Translates pt a size writing p pt' e) : place pt' = place pt := by
  funext b
  rw [place, place, h.frame_eq]

/-- The bytes of the access have the places from the physical address on. -/
theorem place_add (h : Translates pt a size writing p pt' e) {k : ℕ} (hk : k < size) :
    (a + BitVec.ofNat 32 k).toNat = a.toNat + k ∧
      place pt (a + BitVec.ofNat 32 k) = some (p.toNat + k) := by
  have hpage := h.inPage
  have hlt := a.isLt
  have hadd : (a + BitVec.ofNat 32 k).toNat = a.toNat + k := by
    rw [BitVec.toNat_add, BitVec.toNat_ofNat]
    simp only [pageSize] at hpage
    omega
  refine ⟨hadd, ?_⟩
  have hvpn : vpn (a + BitVec.ofNat 32 k) = vpn a := by
    rw [vpn_eq, vpn_eq, hadd]
    simp only [pageSize] at hpage
    omega
  have hmod : (a.toNat + k) % pageSize = a.toNat % pageSize + k := by
    simp only [pageSize] at *
    omega
  rw [place, hvpn, frame, h.entry, Option.bind_some, if_pos h.valid, Option.bind_some,
    if_pos h.frame_lt, hadd, hmod, h.address, Nat.add_assoc]

end Translates

/-- Different addresses have different places. -/
theorem place_injective (hpt : DistinctFrames pt) {b : Word} {q : ℕ} (ha : place pt a = some q)
    (hb : place pt b = some q) : a = b := by
  obtain ⟨f, hf, hq⟩ := Option.bind_eq_some_iff.mp ha
  obtain ⟨g, hg, hq'⟩ := Option.bind_eq_some_iff.mp hb
  split_ifs at hq hq'
  obtain rfl := Option.some.inj hq
  have heq := Option.some.inj hq'
  have hfg : f = g := by
    apply BitVec.eq_of_toNat_eq
    simp only [pageSize] at heq
    omega
  subst hfg
  have hvpn := hpt _ _ f hf hg
  rw [vpn_eq, vpn_eq] at hvpn
  apply BitVec.eq_of_toNat_eq
  simp only [pageSize] at heq
  omega

theorem loadBytes_storeBytes (memory : Memory) (p : ℕ) (value : Word)
    (hsize : size = 1 ∨ size = 2 ∨ size = 4) :
    loadBytes (storeBytes memory p size value) p size = stored size value := by
  have hvalue := value_setValue_self memory p size (value.setWidth (8 * size))
  rw [setValue_setWidth] at hvalue
  change ByteMemory.value (storeBytes memory p size value) p size = _ at hvalue
  rcases hsize with rfl | rfl | rfl
  · rw [value_one] at hvalue
    simp only [loadBytes, stored, hvalue]
  · rw [value_two] at hvalue
    simp only [loadBytes, stored, hvalue]
  · rw [value_four] at hvalue
    simp only [loadBytes, stored, hvalue]
    exact BitVec.setWidth_eq value

theorem storeBytes_of_not_mem {memory : Memory} {p q : ℕ} {value : Word}
    (h : ¬(p ≤ q ∧ q < p + size)) : storeBytes memory p size value q = memory q := if_neg h

theorem writeMem_eq_ok {value : Word} (h : m.writeMem a size value = .ok m') :
    ∃ p pt', translate m.pageTable a size true = .ok (p, pt') ∧
      m' = { m with mainMemory := storeBytes m.mainMemory p.toNat size value, pageTable := pt' } := by
  rw [State.writeMem] at h
  split at h
  · cases h
  · rename_i p pt' ht
    exact ⟨p, pt', ht, (Except.ok.inj h).symm⟩

theorem readMem_of_translate (h : translate m.pageTable a size false = .ok (p, pt')) :
    m.readMem a size =
      .ok (loadBytes m.mainMemory p.toNat size, { m with pageTable := pt' }) := by
  rw [State.readMem, h]

/-- A store does not change what other addresses hold. -/
theorem byteAt_writeMem (hpt : DistinctFrames m.pageTable) (hsize : size = 1 ∨ size = 2 ∨ size = 4)
    {value : Word} (h : m.writeMem a size value = .ok m') {b : Word}
    (hb : ¬(a.toNat ≤ b.toNat ∧ b.toNat < a.toNat + size)) : m'.byteAt b = m.byteAt b := by
  obtain ⟨p, pt', ht, rfl⟩ := writeMem_eq_ok h
  obtain ⟨e, he⟩ := translates hsize ht
  simp only [State.byteAt, he.place_eq]
  cases hq : place m.pageTable b with
  | none => rfl
  | some q =>
    simp only [Option.map_some]
    rw [storeBytes_of_not_mem]
    rintro ⟨hle, hlt⟩
    obtain ⟨hadd, hplace⟩ := he.place_add (k := q - p.toNat) (by omega)
    rw [show p.toNat + (q - p.toNat) = q by omega] at hplace
    have hab := place_injective hpt hplace hq
    rw [hab] at hadd
    omega

/-- The stored value is read back. -/
theorem readMem_writeMem (hsize : size = 1 ∨ size = 2 ∨ size = 4) {value : Word}
    (h : m.writeMem a size value = .ok m') :
    ∃ m'', m'.readMem a size = .ok (stored size value, m'') := by
  obtain ⟨p, pt', ht, rfl⟩ := writeMem_eq_ok h
  obtain ⟨hmis, e, hentry, hvalid, -, hframe, rfl, rfl⟩ := translate_eq_ok ht
  have hlt : vpn a < m.pageTable.length := (List.getElem?_eq_some_iff.mp hentry).1
  have hagain : ∀ e' : TranslationEntry, e'.valid = true → e'.physicalPage = e.physicalPage →
      ∃ pt'', translate (m.pageTable.set (vpn a) e') a size false =
        .ok (e.physicalPage * 128#32 + offset a, pt'') := by
    intro e' hvalid' hpage
    unfold translate
    rw [hmis, List.getElem?_set_self hlt]
    simp [hvalid', hpage, Nat.not_le.mpr hframe]
  obtain ⟨pt'', hread⟩ := hagain { e with use := true, dirty := e.dirty || true } hvalid rfl
  have hvalue := readMem_of_translate (m := { m with
    mainMemory := storeBytes m.mainMemory (e.physicalPage * 128#32 + offset a).toNat size value
    pageTable := m.pageTable.set (vpn a) { e with use := true, dirty := e.dirty || true } }) hread
  rw [loadBytes_storeBytes _ _ _ hsize] at hvalue
  exact ⟨_, hvalue⟩

/-- The memory of a user program over a page table whose valid entries have different frames. A
translation that succeeds is inside of one frame of the table and of main memory, and sets bits of
that entry only. A store is read back and leaves the bytes at all other addresses and all of the
memory outside of the frame. An exception leaves everything. -/
theorem memory_isolated (m : State) (hpt : DistinctFrames m.pageTable) (a : Word) (size : ℕ)
    (hsize : size = 1 ∨ size = 2 ∨ size = 4) :
    (∀ writing p pt', translate m.pageTable a size writing = .ok (p, pt') →
      ∃ e, m.pageTable[vpn a]? = some e ∧ e.valid = true ∧
        e.physicalPage.toNat * pageSize ≤ p.toNat ∧
        p.toNat + size ≤ (e.physicalPage.toNat + 1) * pageSize ∧ p.toNat + size ≤ memorySize ∧
        pt' = m.pageTable.set (vpn a) { e with use := true, dirty := e.dirty || writing }) ∧
      (∀ value m', m.writeMem a size value = .ok m' →
        (∃ m'', m'.readMem a size = .ok (stored size value, m'')) ∧
        (∀ b : Word, ¬(a.toNat ≤ b.toNat ∧ b.toNat < a.toNat + size) → m'.byteAt b = m.byteAt b) ∧
        ∃ e, m.pageTable[vpn a]? = some e ∧ ∀ q, q / pageSize ≠ e.physicalPage.toNat →
          m'.mainMemory q = m.mainMemory q) ∧
      ∀ which bad m', (m.readMem a size = .error (.exception which bad m') ∨
        ∃ value, m.writeMem a size value = .error (.exception which bad m')) → m' = m := by
  refine ⟨fun writing p pt' h => ?_, fun value m' h => ?_, fun which bad m' h => ?_⟩
  · obtain ⟨e, he⟩ := translates hsize h
    obtain ⟨hlow, hhigh, hmem⟩ := he.inside
    exact ⟨e, he.entry, he.valid, hlow, hhigh, hmem, he.table⟩
  · refine ⟨readMem_writeMem hsize h, fun b hb => byteAt_writeMem hpt hsize h hb, ?_⟩
    obtain ⟨p, pt', ht, rfl⟩ := writeMem_eq_ok h
    obtain ⟨e, he⟩ := translates hsize ht
    refine ⟨e, he.entry, fun q hq => storeBytes_of_not_mem ?_⟩
    obtain ⟨hlow, hhigh, -⟩ := he.inside
    simp only [pageSize] at *
    omega
  · rcases h with h | ⟨value, h⟩
    · rw [State.readMem] at h
      split at h
      · cases h
        rfl
      · cases h
    · rw [State.writeMem] at h
      split at h
      · cases h
        rfl
      · cases h

/-- A store of two bytes. -/
theorem memory_isolated_short :
    ∃ m', (State.mk (fun _ => 0) (fun _ => 1#8) [⟨3#32, true, false, false, false⟩]).writeMem 6#32 2
        0x18283#32 = .ok m' ∧ (∃ m'', m'.readMem 6#32 2 = .ok (0x8283#32, m'')) ∧
      m'.byteAt 5#32 = some 1#8 := by
  have hpt : DistinctFrames [⟨3#32, true, false, false, false⟩] := by
    intro i j f hi hj
    obtain ⟨e, he, -⟩ := Option.bind_eq_some_iff.mp hi
    obtain ⟨e', he', -⟩ := Option.bind_eq_some_iff.mp hj
    have hlt := (List.getElem?_eq_some_iff.mp he).1
    have hlt' := (List.getElem?_eq_some_iff.mp he').1
    simp only [List.length_singleton] at hlt hlt'
    omega
  refine ⟨_, rfl, ?_⟩
  obtain ⟨-, hwrite, -⟩ := memory_isolated
    (State.mk (fun _ => 0) (fun _ => 1#8) [⟨3#32, true, false, false, false⟩]) hpt 6#32 2 (by decide)
  obtain ⟨hread, hother, -⟩ := hwrite 0x18283#32 _ rfl
  exact ⟨hread, (hother 5#32 (by decide)).trans rfl⟩

end Nachos.Machine
