import Nachos.ProgramLoading

/-!
# What `ReadFile` leaves in an address space

`ReadFile` copies whole rests of pages, so behind the end of a segment it writes the
bytes that follow in the file, and behind the end of the file what was left in the
buffer. `readLoop_spec` says this for both builds, for every way to store a piece of a
page that puts the bytes where they belong (`PutsBytes`).
-/
namespace Nachos.Loading
open DemandPaging

/-- The bytes that `ReadFile` writes: from the start of the segment to the end of the page with
its last byte. -/
def Covers (vaddr size a : ℕ) : Prop :=
  0 < size ∧ vaddr ≤ a ∧ a / pageSize ≤ (vaddr + size - 1) / pageSize

instance (vaddr size a : ℕ) : Decidable (Covers vaddr size a) :=
  inferInstanceAs (Decidable (_ ∧ _ ∧ _))

theorem byte_readAt {file : List UInt8} {n position a : ℕ} (buffer : Page) (hn : n ≤ pageSize)
    (ha : a < n) (hfile : position + a < file.length) :
    some (Page.byte (readAt file n position buffer).2 a) = file[position + a]? := by
  have hmod : a % pageSize = a := Nat.mod_eq_of_lt (by omega)
  have hlt : a % pageSize < min n (file.length - position) := by omega
  rw [Page.byte, readAt]
  show some (if a % pageSize < _ then _ else _) = _
  rw [if_pos hlt]
  show some (file.getD (position + a % pageSize) 0) = _
  rw [hmod, List.getD_eq_getElem?_getD, List.getElem?_eq_getElem hfile, Option.getD_some]

/-- The part of the first turn and what the other turns write. -/
theorem covers_iff {vaddr size r vaddr' a : ℕ} (hsize : size ≠ 0)
    (hr : (r = pageSize - vaddr % pageSize ∧ vaddr' = vaddr + r) ∨
      (r < pageSize - vaddr % pageSize ∧ size ≤ r)) :
    Covers vaddr size a ↔ (vaddr ≤ a ∧ a < vaddr + (pageSize - vaddr % pageSize)) ∨
      Covers vaddr' (size - r) a := by
  simp only [Covers, pageSize] at *
  omega

theorem not_covers {vaddr size r vaddr' a : ℕ}
    (hr : (r = pageSize - vaddr % pageSize ∧ vaddr' = vaddr + r) ∨
      (r < pageSize - vaddr % pageSize ∧ size ≤ r))
    (ha : vaddr ≤ a ∧ a < vaddr + (pageSize - vaddr % pageSize)) :
    ¬Covers vaddr' (size - r) a := by
  simp only [Covers, pageSize] at *
  omega

theorem byte_merge {page buffer : Page} {offset a : ℕ} :
    Page.byte (merge page offset buffer) a =
      if offset ≤ a % pageSize then Page.byte buffer (a % pageSize - offset) else Page.byte page a :=
  rfl

/-- The address is in the part of its page that a copy at `offset` writes. -/
theorem in_rest_iff {vpn offset a : ℕ} (hoff : offset < pageSize) :
    (vpn * pageSize + offset ≤ a ∧ a < (vpn + 1) * pageSize) ↔
      a / pageSize = vpn ∧ offset ≤ a % pageSize := by
  simp only [pageSize] at *
  omega

section loop
variable {σ : Type} {put : σ → (vpn offset : ℕ) → Page → Option σ} {advance : ℕ → ℕ → ℕ}
  {file : List UInt8} {view : σ → ℕ → Option UInt8} {I : σ → Prop}

/-- What one turn may be expected to do: a page that has contents, or a whole page, gets the
buffer at its place. -/
structure PutsBytes (put : σ → (vpn offset : ℕ) → Page → Option σ)
    (view : σ → ℕ → Option UInt8) (I : σ → Prop) : Prop where
  view_eq : ∀ {s s' vpn offset buffer}, I s → offset < pageSize →
    (offset = 0 ∨ (view s (vpn * pageSize)).isSome) → put s vpn offset buffer = some s' →
    I s' ∧ ∀ a, view s' a =
      if vpn * pageSize + offset ≤ a ∧ a < (vpn + 1) * pageSize then
        some (Page.byte buffer (a - (vpn * pageSize + offset)))
      else view s a

theorem readLoop_spec (hput : PutsBytes put view I)
    (hadvance : ∀ n, advance n n = n) {fuel : ℕ} {s t : σ} {buffer buffer' : Page}
    {vaddr size fileAddr : ℕ} (hs : I s)
    (hfirst : 0 < size → vaddr % pageSize = 0 ∨ (view s (vaddr / pageSize * pageSize)).isSome)
    (hin : fileAddr + size ≤ file.length)
    (h : readLoop put advance file fuel s buffer vaddr size fileAddr = some (t, buffer')) :
    I t ∧ (∀ a, ¬Covers vaddr size a → view t a = view s a) ∧
      ∀ a, Covers vaddr size a → (view t a).isSome ∧
        (fileAddr + (a - vaddr) < file.length → view t a = file[fileAddr + (a - vaddr)]?) := by
  induction fuel generalizing s buffer vaddr size fileAddr with
  | zero =>
    rw [readLoop] at h
    split_ifs at h with hsize
    obtain ⟨rfl, rfl⟩ := Prod.mk.inj (Option.some.inj h)
    exact ⟨hs, fun _ _ => rfl, fun a ha => absurd hsize ha.1.ne'⟩
  | succ fuel ih =>
    rw [readLoop] at h
    split_ifs at h with hsize
    · obtain ⟨rfl, rfl⟩ := Prod.mk.inj (Option.some.inj h)
      exact ⟨hs, fun _ _ => rfl, fun a ha => absurd hsize ha.1.ne'⟩
    have hoff : vaddr % pageSize < pageSize := Nat.mod_lt _ (by decide)
    set rest := pageSize - vaddr % pageSize with hrest
    set r := readAt file rest fileAddr buffer with hrdef
    have hrval : r.1 = min rest (file.length - fileAddr) := rfl
    simp only at h
    split_ifs at h with hzero
    obtain ⟨s₁, hs₁, ht⟩ := Option.bind_eq_some_iff.mp h
    have hpage : vaddr / pageSize * pageSize + vaddr % pageSize = vaddr :=
      Nat.div_add_mod' vaddr pageSize
    obtain ⟨hI, hview⟩ := hput.view_eq hs hoff (hfirst (by omega)) hs₁
    have hend : (vaddr / pageSize + 1) * pageSize = vaddr + rest := by
      simp only [pageSize] at *
      omega
    rw [hpage, hend] at hview
    have hcase : (r.1 = rest ∧ vaddr + advance r.1 rest = vaddr + r.1) ∨ (r.1 < rest ∧ size ≤ r.1) := by
      by_cases hlt : r.1 < rest
      · exact .inr ⟨hlt, by omega⟩
      · have heq : r.1 = rest := by omega
        exact .inl ⟨heq, by rw [heq, hadvance]⟩
    have hnext : 0 < size - r.1 → (vaddr + advance r.1 rest) % pageSize = 0 := by
      intro hpos
      rcases hcase with ⟨heq, hadv⟩ | ⟨-, hle⟩
      · rw [hadv, heq]
        simp only [pageSize] at *
        omega
      · omega
    have hleft : fileAddr + r.1 + (size - r.1) ≤ file.length := by
      have hle : r.1 ≤ file.length - fileAddr := hrval ▸ min_le_right _ _
      omega
    obtain ⟨hIt, hkeep, hcopy⟩ := ih hI (fun hpos => .inl (hnext hpos)) hleft ht
    refine ⟨hIt, fun a ha => ?_, fun a ha => ?_⟩
    · rw [covers_iff hsize hcase, not_or] at ha
      rw [hkeep a ha.2, hview, if_neg ha.1]
    · rcases (covers_iff hsize hcase).mp ha with hturn | hlater
      · rw [hkeep a (not_covers hcase hturn), hview, if_pos hturn]
        refine ⟨rfl, fun hfile => ?_⟩
        exact byte_readAt buffer (by omega) (by omega) hfile
      · obtain ⟨hsome, hbyte⟩ := hcopy a hlater
        refine ⟨hsome, fun hfile => ?_⟩
        have hle : vaddr + advance r.1 rest ≤ a := hlater.2.1
        rcases hcase with ⟨-, hadv⟩ | ⟨-, hshort⟩
        · have hpos : fileAddr + r.1 + (a - (vaddr + advance r.1 rest)) = fileAddr + (a - vaddr) := by
            omega
          rw [hpos] at hbyte
          exact hbyte hfile
        · exact absurd hlater.1 (by omega)

end loop

namespace Segment

def Has (seg : Segment) (a : ℕ) : Prop :=
  seg.virtualAddr ≤ a ∧ (a : ℤ) < seg.virtualAddr + seg.size

instance (seg : Segment) (a : ℕ) : Decidable (seg.Has a) := inferInstanceAs (Decidable (_ ∧ _))

/-- The addresses that `ReadFile` writes for the segment. -/
def Covers (seg : Segment) (a : ℕ) : Prop := Loading.Covers seg.virtualAddr.toNat seg.size.toNat a

instance (seg : Segment) (a : ℕ) : Decidable (seg.Covers a) :=
  inferInstanceAs (Decidable (Loading.Covers ..))

/-- The place in the file of the byte for an address. -/
def source (seg : Segment) (a : ℕ) : ℕ := seg.inFileAddr.toNat + (a - seg.virtualAddr.toNat)

/-- The segment is inside of the file and of an address space of `n` pages. -/
structure Fits (seg : Segment) (file : List UInt8) (n : ℕ) : Prop where
  size : 0 ≤ seg.size
  virtualAddr : 0 < seg.size → 0 ≤ seg.virtualAddr
  inFileAddr : 0 < seg.size → 0 ≤ seg.inFileAddr
  inFile : 0 < seg.size → seg.inFileAddr + seg.size ≤ file.length
  inSpace : 0 < seg.size → seg.virtualAddr + seg.size ≤ n * pageSize

variable {seg : Segment} {file : List UInt8} {n a : ℕ}

theorem Fits.covers (h : seg.Fits file n) (ha : seg.Has a) : seg.Covers a := by
  obtain ⟨hle, hlt⟩ := ha
  have hpos : 0 < seg.size := by omega
  have hv := h.virtualAddr hpos
  refine ⟨by omega, by omega, Nat.div_le_div_right ?_⟩
  omega

theorem Fits.source_lt (h : seg.Fits file n) (ha : seg.Has a) : seg.source a < file.length := by
  obtain ⟨hle, hlt⟩ := ha
  have hpos : 0 < seg.size := by omega
  have hv := h.virtualAddr hpos
  have hf := h.inFileAddr hpos
  have hin := h.inFile hpos
  rw [source]
  omega

theorem Fits.has_add (h : seg.Fits file n) {i : ℕ} (hi : i < seg.size) :
    seg.Has (seg.virtualAddr.toNat + i) ∧
      seg.source (seg.virtualAddr.toNat + i) = seg.inFileAddr.toNat + i := by
  have hv := h.virtualAddr (by omega)
  refine ⟨⟨by omega, by omega⟩, ?_⟩
  rw [source, Nat.add_sub_cancel_left]

end Segment

section segments
variable {σ : Type} {put : σ → (vpn offset : ℕ) → Page → Option σ} {advance : ℕ → ℕ → ℕ}
  {file : List UInt8} {view : σ → ℕ → Option UInt8} {I : σ → Prop}

/-- The first page of a segment is written from its start on, or has contents already. -/
def StartsWhole (seg : Segment) (present : ℕ → Prop) : Prop :=
  0 < seg.size → seg.virtualAddr % pageSize = 0 ∨
    present (seg.virtualAddr.toNat / pageSize * pageSize)

theorem readFile_spec (hput : PutsBytes put view I) (hadvance : ∀ n, advance n n = n)
    {seg : Segment} {n : ℕ} (hfits : seg.Fits file n) {s t : σ} {buffer buffer' : Page} (hs : I s)
    (hfirst : StartsWhole seg fun a => (view s a).isSome)
    (h : readFile put advance file seg s buffer = some (t, buffer')) :
    I t ∧ (∀ a, ¬seg.Covers a → view t a = view s a) ∧
      ∀ a, seg.Covers a → (view t a).isSome ∧
        (seg.source a < file.length → view t a = file[seg.source a]?) := by
  rw [readFile] at h
  split_ifs at h with hpos hneg
  · have hv := hfits.virtualAddr hpos
    have hf := hfits.inFileAddr hpos
    have hin := hfits.inFile hpos
    refine readLoop_spec hput hadvance hs (fun _ => ?_) (by omega) h
    refine (hfirst hpos).imp (fun hmod => ?_) id
    simp only [pageSize] at *
    omega
  · obtain ⟨rfl, rfl⟩ := Prod.mk.inj (Option.some.inj h)
    refine ⟨hs, fun _ _ => rfl, fun a ha => ?_⟩
    have := ha.1
    omega

/-- The bytes of the address space after the two segments were read over old contents. -/
def contents (file : List UInt8) (h : NoffHeader) (old : ℕ → Option UInt8) (a : ℕ) : Option UInt8 :=
  if h.initData.Covers a then file[h.initData.source a]?
  else if h.code.Covers a then file[h.code.source a]?
  else old a

/-- The bytes that are written for an address are in the file. -/
def NoffHeader.InFile (h : NoffHeader) (file : List UInt8) (a : ℕ) : Prop :=
  (h.initData.Covers a → h.initData.source a < file.length) ∧
    (¬h.initData.Covers a → h.code.Covers a → h.code.source a < file.length)

/-- `initData` is above `code`. -/
def NoffHeader.Above (h : NoffHeader) : Prop :=
  0 < h.code.size → 0 < h.initData.size → h.code.virtualAddr + h.code.size ≤ h.initData.virtualAddr

theorem contents_initData {file : List UInt8} {h : NoffHeader} {n x : ℕ}
    (hinit : h.initData.Fits file n) (hx : h.initData.Has x) :
    h.InFile file x ∧ h.initData.Covers x ∧ h.initData.source x < file.length ∧
      ∀ old, contents file h old x = file[h.initData.source x]? := by
  have hc := hinit.covers hx
  have hlt := hinit.source_lt hx
  exact ⟨⟨fun _ => hlt, fun hn => absurd hc hn⟩, hc, hlt, fun old => if_pos hc⟩

/-- What is read for `initData` leaves the bytes of `code` below it. -/
theorem contents_code {file : List UInt8} {h : NoffHeader} {n x : ℕ} (hcode : h.code.Fits file n)
    (habove : h.Above) (hx : h.code.Has x) :
    h.InFile file x ∧ h.code.Covers x ∧ h.code.source x < file.length ∧
      ∀ old, contents file h old x = file[h.code.source x]? := by
  have hc := hcode.covers hx
  have hlt := hcode.source_lt hx
  have hn : ¬h.initData.Covers x := by
    rintro ⟨hpos, hle, -⟩
    obtain ⟨hfrom, hto⟩ := hx
    have hab := habove (by omega) (by omega)
    omega
  refine ⟨⟨fun hci => absurd hci hn, fun _ _ => hlt⟩, hc, hlt, fun old => ?_⟩
  rw [contents, if_neg hn, if_pos hc]

namespace NoffHeader

/-- Both segments start with a whole page, or in a page that is there already. -/
def Whole (h : NoffHeader) : Prop :=
  StartsWhole h.code (fun _ => False) ∧ StartsWhole h.initData h.code.Covers

/-- The pages that `ReadFile` writes: their last byte is written. -/
def Touches (h : NoffHeader) (v : ℕ) : Prop :=
  h.code.Covers (v * pageSize + (pageSize - 1)) ∨ h.initData.Covers (v * pageSize + (pageSize - 1))

instance (h : NoffHeader) : DecidablePred h.Touches := fun _ => inferInstanceAs (Decidable (_ ∨ _))

def touched (h : NoffHeader) : ℕ := ((Finset.range h.numPages).filter h.Touches).card

end NoffHeader

theorem readSegments_spec (hput : PutsBytes put view I) (hadvance : ∀ n, advance n n = n)
    {h : NoffHeader} {n : ℕ} (hcode : h.code.Fits file n) (hinit : h.initData.Fits file n)
    {s t : σ} {buffer buffer' : Page} (hs : I s)
    (hfirst : StartsWhole h.code fun a => (view s a).isSome)
    (hsecond : StartsWhole h.initData fun a => (view s a).isSome ∨ h.code.Covers a)
    (hread : readSegments put advance file h s buffer = some (t, buffer')) :
    I t ∧ (∀ a, h.InFile file a → view t a = contents file h (view s) a) ∧
      ∀ a, (view t a).isSome ↔ (view s a).isSome ∨ h.code.Covers a ∨ h.initData.Covers a := by
  obtain ⟨⟨s₁, buffer₁⟩, hs₁, ht⟩ := Option.bind_eq_some_iff.mp hread
  obtain ⟨hI₁, hkeep₁, hcopy₁⟩ := readFile_spec hput hadvance hcode hs hfirst hs₁
  have hsome₁ : ∀ a, (view s₁ a).isSome ↔ (view s a).isSome ∨ h.code.Covers a := by
    intro a
    by_cases hc : h.code.Covers a
    · simp [hc, (hcopy₁ a hc).1]
    · simp [hc, hkeep₁ a hc]
  have hsecond₁ : StartsWhole h.initData fun a => (view s₁ a).isSome := by
    intro hpos
    exact (hsecond hpos).imp id (hsome₁ _).2
  obtain ⟨hI, hkeep, hcopy⟩ := readFile_spec hput hadvance hinit hI₁ hsecond₁ ht
  refine ⟨hI, fun a ha => ?_, fun a => ?_⟩
  · rw [contents]
    by_cases hi : h.initData.Covers a
    · rw [if_pos hi, (hcopy a hi).2 (ha.1 hi)]
    · rw [if_neg hi, hkeep a hi]
      by_cases hc : h.code.Covers a
      · rw [if_pos hc, (hcopy₁ a hc).2 (ha.2 hi hc)]
      · rw [if_neg hc, hkeep₁ a hc]
  · by_cases hi : h.initData.Covers a
    · simp [hi, (hcopy a hi).1]
    · rw [hkeep a hi, hsome₁]
      simp [hi]

end segments

section returns
variable {σ : Type} {put : σ → (vpn offset : ℕ) → Page → Option σ} {advance : ℕ → ℕ → ℕ}
  {file : List UInt8} {I : σ → Prop} {n : ℕ}

/-- Pieces of the first `n` pages can be stored. -/
structure Stores (put : σ → (vpn offset : ℕ) → Page → Option σ) (n : ℕ) (I : σ → Prop) : Prop where
  stored : ∀ {s vpn} offset buffer, I s → vpn < n → ∃ t, put s vpn offset buffer = some t ∧ I t

theorem readLoop_returns (hput : Stores put n I) (hadvance : ∀ n, advance n n = n) {fuel : ℕ} {s : σ}
    {vaddr size fileAddr : ℕ} (buffer : Page) (hfuel : size ≤ fuel) (hs : I s)
    (hin : fileAddr + size ≤ file.length) (hspace : 0 < size → vaddr + size ≤ n * pageSize) :
    ∃ t buffer', readLoop put advance file fuel s buffer vaddr size fileAddr = some (t, buffer') ∧
      I t := by
  induction fuel generalizing s buffer vaddr size fileAddr with
  | zero => exact ⟨s, buffer, if_pos (Nat.le_zero.mp hfuel), hs⟩
  | succ fuel ih =>
    rw [readLoop]
    by_cases hsize : size = 0
    · exact ⟨s, buffer, if_pos hsize, hs⟩
    have hoff : vaddr % pageSize < pageSize := Nat.mod_lt _ (by decide)
    have hroom := hspace (Nat.pos_of_ne_zero hsize)
    have hvpn : vaddr / pageSize < n := Nat.div_lt_of_lt_mul (by rw [Nat.mul_comm]; omega)
    have hr : (readAt file (pageSize - vaddr % pageSize) fileAddr buffer).1 =
      min (pageSize - vaddr % pageSize) (file.length - fileAddr) := rfl
    have hpos : (readAt file (pageSize - vaddr % pageSize) fileAddr buffer).1 ≠ 0 := by
      omega
    obtain ⟨s₁, hs₁, hI⟩ := hput.stored (vaddr % pageSize)
      (readAt file (pageSize - vaddr % pageSize) fileAddr buffer).2 hs hvpn
    simp only [if_neg hsize, if_neg hpos, hs₁, Option.bind_some]
    apply ih _ (by omega) hI (by omega)
    intro hleft
    rw [show advance _ (pageSize - vaddr % pageSize) = pageSize - vaddr % pageSize from ?_]
    · omega
    · rw [show (readAt file (pageSize - vaddr % pageSize) fileAddr buffer).1 =
        pageSize - vaddr % pageSize by omega, hadvance]

theorem readFile_returns (hput : Stores put n I) (hadvance : ∀ n, advance n n = n) {seg : Segment}
    (hfits : seg.Fits file n) {s : σ} (buffer : Page) (hs : I s) :
    ∃ t buffer', readFile put advance file seg s buffer = some (t, buffer') ∧ I t := by
  rw [readFile]
  by_cases hpos : seg.size > 0
  · have hv := hfits.virtualAddr hpos
    have hf := hfits.inFileAddr hpos
    have hin := hfits.inFile hpos
    have hspace := hfits.inSpace hpos
    rw [if_pos hpos, if_neg (by omega)]
    exact readLoop_returns hput hadvance buffer le_rfl hs (by omega) fun _ => by omega
  · rw [if_neg hpos]
    exact ⟨s, buffer, rfl, hs⟩

variable (advance) in
theorem readSegments_returns (hput : Stores put n I) (hadvance : ∀ n, advance n n = n) {h : NoffHeader}
    (hcode : h.code.Fits file n) (hinit : h.initData.Fits file n) {s : σ} (buffer : Page) (hs : I s) :
    ∃ t buffer', readSegments put advance file h s buffer = some (t, buffer') ∧ I t := by
  obtain ⟨s₁, buffer₁, h₁, hI⟩ := readFile_returns hput hadvance hcode buffer hs
  rw [readSegments, h₁, Option.bind_some]
  exact readFile_returns hput hadvance hinit buffer₁ hI

end returns

end Nachos.Loading
