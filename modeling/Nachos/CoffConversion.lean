import Nachos.ProgramLoading
import Nachos.HostFiles

/-!
# From COFF to NOFF (`bin/coff2noff.c`)

The program reads the section headers of a COFF file and folds the sections into the three
segments of a NOFF file. `none` is an exit with status 1, which also deletes the file that
was written so far. The host is little-endian with 32-bit `int`, `long` and `off_t`, so a
file has less than 2 ^ 31 bytes; a negative count makes `read` and `write` return -1, and an
`lseek` to a negative offset fails and leaves the position as it was, which nobody tests.

Of two `.text` sections only the second one is in the header. Two sections of uninitialised
data are folded into one range when the second does *not* begin where the first one ends.
-/
namespace Nachos.CoffConversion
open Loading

/-- The largest file of the host. -/
structure Host where
  maxFile : ℕ
  maxFile_lt : maxFile < 2 ^ 31

/-- A file descriptor of a file that is read. -/
structure Input where
  bytes : List UInt8
  pos : ℕ

/-- A file descriptor of a file that is written. -/
structure Output where
  bytes : List UInt8
  pos : ℕ
  deriving DecidableEq, Repr

/-- An `int` after an addition. -/
def toInt32 (x : ℤ) : ℤ := (BitVec.ofInt 32 x).toInt

/-- A `short` in a file, the low byte first. -/
def shortAt (file : List UInt8) (p : ℕ) : ℕ :=
  (file.getD p 0).toNat + 2 ^ 8 * (file.getD (p + 1) 0).toNat

/-- The bytes of an `int`, the low one first. -/
def intBytes (x : ℤ) : List UInt8 :=
  let n := (x % 2 ^ 32).toNat
  [UInt8.ofNat n, UInt8.ofNat (n / 2 ^ 8), UInt8.ofNat (n / 2 ^ 16), UInt8.ofNat (n / 2 ^ 24)]

namespace Input

/-- `read`: the value returned and the bytes. -/
def read (f : Input) (nBytes : ℤ) : ℤ × List UInt8 × Input :=
  if nBytes < 0 then (-1, [], f)
  else
    let data := HostFiles.readAt f.bytes nBytes.toNat f.pos
    (data.length, data, { f with pos := f.pos + data.length })

/-- `Read` -/
def readAll (f : Input) (nBytes : ℤ) : Option (List UInt8 × Input) :=
  if (f.read nBytes).1 ≠ nBytes then none else some (f.read nBytes).2

def lseek (f : Input) (offset : ℤ) : Input :=
  if offset < 0 then f else { f with pos := offset.toNat }

end Input

namespace Output

/-- `write`: the value returned and the file after it. -/
def write (host : Host) (f : Output) (buf : List UInt8) (nBytes : ℤ) : ℤ × Output :=
  if nBytes < 0 then (-1, f)
  else
    let data := buf.take (min nBytes.toNat (host.maxFile - f.pos))
    (data.length, ⟨HostFiles.writeAt 0 f.bytes data f.pos, f.pos + data.length⟩)

/-- `Write` -/
def writeAll (host : Host) (f : Output) (buf : List UInt8) (nBytes : ℤ) : Option Output :=
  if (f.write host buf nBytes).1 ≠ nBytes then none else some (f.write host buf nBytes).2

end Output

structure ScnHdr where
  sName : List UInt8
  sPaddr : ℤ
  sSize : ℤ
  sScnptr : ℤ
  deriving DecidableEq, Repr

def scnHdrSize : ℕ := 40

def noffHeaderSize : ℕ := 40

/-- The fields of a section header that are used. -/
def scnHdrAt (l : List UInt8) (p : ℕ) : ScnHdr :=
  ⟨HostFiles.readAt l 8 p, wordAt l (p + 8), wordAt l (p + 16), wordAt l (p + 20)⟩

/-- `!strcmp(s_name, text)`. The names compared with are shorter than the field. -/
def ScnHdr.hasName (s : ScnHdr) (text : List Char) : Bool :=
  (text.map (fun c : Char => UInt8.ofNat c.toNat) ++ [0]).isPrefixOf s.sName

inductive Kind where
  | text
  | data
  | bss
  | unknown
  deriving DecidableEq, Repr

def ScnHdr.kind (s : ScnHdr) : Kind :=
  if s.hasName ['.', 't', 'e', 'x', 't'] then .text
  else if s.hasName ['.', 'd', 'a', 't', 'a'] || s.hasName ['.', 'r', 'd', 'a', 't', 'a'] then .data
  else if s.hasName ['.', 'b', 's', 's'] || s.hasName ['.', 's', 'b', 's', 's'] then .bss
  else .unknown

/-- The variables of `main` in its loop. -/
structure Work where
  fdIn : Input
  fdOut : Output
  noffH : NoffHeader
  inNoffFile : ℤ

namespace Work

/-- A section is copied from its place in the COFF file to the end of the NOFF file. -/
def copySection (host : Host) (w : Work) (s : ScnHdr) : Option Work := do
  let r ← (w.fdIn.lseek s.sScnptr).readAll s.sSize
  let o ← w.fdOut.writeAll host r.1 s.sSize
  some { w with fdIn := r.2, fdOut := o, inNoffFile := toInt32 (w.inNoffFile + s.sSize) }

/-- The body of the loop over the sections. -/
def loadSection (host : Host) (w : Work) (s : ScnHdr) : Option Work :=
  if s.sSize = 0 then some w
  else
    match s.kind with
    | .text =>
      copySection host
        { w with noffH := { w.noffH with code := ⟨s.sPaddr, w.inNoffFile, s.sSize⟩ } } s
    | .data =>
      if w.noffH.initData.size ≠ 0 then none
      else
        copySection host
          { w with noffH := { w.noffH with initData := ⟨s.sPaddr, w.inNoffFile, s.sSize⟩ } } s
    | .bss =>
      let seg := w.noffH.uninitData
      if seg.size ≠ 0 then
        if s.sPaddr = toInt32 (seg.virtualAddr + seg.size) then none
        else
          some { w with noffH :=
            { w.noffH with uninitData := { seg with size := toInt32 (seg.size + s.sSize) } } }
      else
        some { w with noffH :=
          { w.noffH with uninitData := { seg with virtualAddr := s.sPaddr, size := s.sSize } } }
    | .unknown => none

end Work

def segmentBytes (seg : Segment) : List UInt8 :=
  intBytes seg.virtualAddr ++ intBytes seg.inFileAddr ++ intBytes seg.size

def headerBytes (h : NoffHeader) : List UInt8 :=
  intBytes 0xbadfad ++ segmentBytes h.code ++ segmentBytes h.initData ++ segmentBytes h.uninitData

/-- The header before the loop; what is not set is what the stack held. -/
def clearSizes (stack : NoffHeader) : NoffHeader where
  code := { stack.code with size := 0 }
  initData := { stack.initData with size := 0 }
  uninitData := { stack.uninitData with size := 0 }

def sectionHeaders (n : ℕ) (l : List UInt8) : List ScnHdr :=
  (List.range n).map fun i => scnHdrAt l (scnHdrSize * i)

/-- `main` for a file that could be opened: the file that is written. -/
def coff2noff (host : Host) (stack : NoffHeader) (file : List UInt8) : Option (List UInt8) := do
  let (fileh, fdIn) ← Input.readAll ⟨file, 0⟩ 20
  guard (shortAt fileh 0 = 0x0162)
  let (systemh, fdIn) ← fdIn.readAll 56
  guard (shortAt systemh 0 = 0o407)
  let numsections := shortAt fileh 2
  let (l, fdIn) ← fdIn.readAll (numsections * scnHdrSize : ℕ)
  let w ← (sectionHeaders numsections l).foldlM (Work.loadSection host)
    ⟨fdIn, ⟨[], noffHeaderSize⟩, clearSizes stack, noffHeaderSize⟩
  let o ← Output.writeAll host { w.fdOut with pos := 0 } (headerBytes w.noffH) noffHeaderSize
  some o.bytes

/-! ### The image -/

/-- The section headers of a COFF file. -/
def sections (file : List UInt8) : List ScnHdr :=
  sectionHeaders (shortAt (HostFiles.readAt file 20 0) 2)
    (HostFiles.readAt file (shortAt (HostFiles.readAt file 20 0) 2 * scnHdrSize) 76)

/-- The byte of a file at a position. -/
def byteAt (file : List UInt8) (p : ℤ) : Option UInt8 := if p < 0 then none else file[p.toNat]?

/-- Every byte of a section is where the segment of the NOFF file says. -/
def Placed (file out : List UInt8) (seg : Segment) (s : ScnHdr) : Prop :=
  ∀ v, s.sPaddr ≤ v → v < s.sPaddr + s.sSize →
    0 ≤ v - seg.virtualAddr ∧ v - seg.virtualAddr < seg.size ∧
    byteAt out (seg.inFileAddr + (v - seg.virtualAddr)) = byteAt file (s.sScnptr + (v - s.sPaddr)) ∧
    (byteAt file (s.sScnptr + (v - s.sPaddr))).isSome

/-- The sections of a kind that are not empty. -/
def ofKind (kind : Kind) (l : List ScnHdr) : List ScnHdr :=
  l.filter fun s => s.kind = kind ∧ s.sSize ≠ 0

/-- The NOFF file describes the image of the COFF file. -/
structure SameImage (file out : List UInt8) (h : NoffHeader) : Prop where
  code : ∀ s ∈ ofKind .text (sections file), Placed file out h.code s
  initData : ∀ s ∈ ofKind .data (sections file), Placed file out h.initData s
  uninitData : ∀ v, h.uninitData.virtualAddr ≤ v ∧
      v < h.uninitData.virtualAddr + h.uninitData.size ↔
    ∃ s ∈ ofKind .bss (sections file), s.sPaddr ≤ v ∧ v < s.sPaddr + s.sSize

/-- No two sections are folded into one segment, and those that are copied have a place in the
file and a size that `read` takes. -/
structure Foldable (l : List ScnHdr) : Prop where
  text : (ofKind .text l).length ≤ 1
  bss : (ofKind .bss l).length ≤ 1
  copied : ∀ s ∈ ofKind .text l ++ ofKind .data l, 0 ≤ s.sScnptr ∧ s.sSize ≠ -1

/-! ### Numbers in files -/

section numbers
variable {x : ℤ}

theorem toInt32_eq (hlow : -2 ^ 31 ≤ x) (hhigh : x < 2 ^ 31) : toInt32 x = x := by
  rw [toInt32, BitVec.toInt_ofInt]
  exact Int.bmod_eq_of_le (by omega) (by omega)

theorem wordAt_range (file : List UInt8) (p : ℕ) :
    -2 ^ 31 ≤ wordAt file p ∧ wordAt file p < 2 ^ 31 := ⟨BitVec.le_toInt _, BitVec.toInt_lt⟩

/-- The four bytes of an `int` are read as this `int`. -/
theorem word_intBytes (x : ℤ) (rest : List UInt8) : wordAt (intBytes x ++ rest) 0 = toInt32 x := by
  have hbyte : ∀ n : ℕ, (UInt8.ofNat n).toNat = n % 2 ^ 8 := fun n => UInt8.toNat_ofNat'
  have hn : ((x % 2 ^ 32).toNat : ℤ) = x % 2 ^ 32 :=
    Int.toNat_of_nonneg (Int.emod_nonneg x (by decide))
  have hlt : (x % 2 ^ 32).toNat < 2 ^ 32 := by omega
  have hsum : (UInt8.ofNat (x % 2 ^ 32).toNat).toNat +
      2 ^ 8 * (UInt8.ofNat ((x % 2 ^ 32).toNat / 2 ^ 8)).toNat +
      2 ^ 16 * (UInt8.ofNat ((x % 2 ^ 32).toNat / 2 ^ 16)).toNat +
      2 ^ 24 * (UInt8.ofNat ((x % 2 ^ 32).toNat / 2 ^ 24)).toNat = (x % 2 ^ 32).toNat := by
    simp only [hbyte]
    omega
  simp only [wordAt, intBytes, List.cons_append, List.nil_append, List.getD_cons_zero, Nat.zero_add,
    List.getD_cons_succ]
  rw [hsum, toInt32]
  congr 1
  apply BitVec.eq_of_toNat_eq
  rw [BitVec.toNat_ofNat, BitVec.toNat_ofInt]
  omega

theorem wordAt_append {l r : List UInt8} (p : ℕ) : wordAt (l ++ r) (l.length + p) = wordAt r p := by
  have hget : ∀ k, (l ++ r).getD (l.length + k) 0 = r.getD k 0 := by
    intro k
    rw [List.getD_eq_getElem?_getD, List.getD_eq_getElem?_getD,
      List.getElem?_append_right (Nat.le_add_right _ _), Nat.add_sub_cancel_left]
  simp only [wordAt, Nat.add_assoc, hget]

/-- The numbers of a sequence are read at multiples of four. -/
theorem wordAt_flatMap {l : List ℤ} {j : ℕ} (hj : l[j]? = some x) (rest : List UInt8) :
    wordAt (l.flatMap intBytes ++ rest) (4 * j) = toInt32 x := by
  induction l generalizing j with
  | nil => cases hj
  | cons y l ih =>
    rw [List.flatMap_cons, List.append_assoc]
    cases j with
    | zero =>
      obtain rfl := Option.some.inj hj
      rw [Nat.mul_zero, word_intBytes]
    | succ j =>
      have hlength : (intBytes y).length = 4 := rfl
      rw [show 4 * (j + 1) = (intBytes y).length + 4 * j by rw [hlength]; omega, wordAt_append]
      exact ih hj

def headerWords (h : NoffHeader) : List ℤ :=
  [0xbadfad, h.code.virtualAddr, h.code.inFileAddr, h.code.size, h.initData.virtualAddr,
    h.initData.inFileAddr, h.initData.size, h.uninitData.virtualAddr, h.uninitData.inFileAddr,
    h.uninitData.size]

/-- A segment whose numbers were written as `int`s. -/
def toInts (seg : Segment) : Segment :=
  ⟨toInt32 seg.virtualAddr, toInt32 seg.inFileAddr, toInt32 seg.size⟩

/-- The loader reads the header that was written. -/
theorem read_headerBytes (h : NoffHeader) (rest : List UInt8) :
    NoffHeader.read (headerBytes h ++ rest) =
      some ⟨toInts h.code, toInts h.initData, toInts h.uninitData⟩ := by
  have hlength : ¬(headerBytes h ++ rest).length < 40 := by
    rw [List.length_append, show (headerBytes h).length = 40 from rfl]
    omega
  have hword : ∀ {j : ℕ} {x : ℤ}, (headerWords h)[j]? = some x →
      wordAt (headerBytes h ++ rest) (4 * j) = toInt32 x := fun hj => wordAt_flatMap hj rest
  have hmagic : wordAt (headerBytes h ++ rest) 0 = 0xbadfad := hword (j := 0) rfl
  rw [NoffHeader.read, if_neg (not_or.mpr ⟨hlength, not_not.mpr hmagic⟩)]
  have hsegment : ∀ {j : ℕ} {seg : Segment}, (headerWords h)[j]? = some seg.virtualAddr →
      (headerWords h)[j + 1]? = some seg.inFileAddr → (headerWords h)[j + 2]? = some seg.size →
      segmentAt (headerBytes h ++ rest) (4 * j) = toInts seg := by
    intro j seg h0 h1 h2
    rw [segmentAt, toInts, hword h0, ← hword h1, ← hword h2]
    rfl
  rw [← hsegment (j := 1) rfl rfl rfl, ← hsegment (j := 4) rfl rfl rfl,
    ← hsegment (j := 7) rfl rfl rfl]

end numbers

/-! ### The loop over the sections -/

theorem readAll_cases {f f' : Input} {n : ℤ} {data : List UInt8}
    (h : f.readAll n = some (data, f')) (hn : n ≠ -1) :
    0 ≤ n ∧ data = HostFiles.readAt f.bytes n.toNat f.pos ∧ data.length = n.toNat ∧
      f' = { f with pos := f.pos + n.toNat } := by
  unfold Input.readAll Input.read at h
  split_ifs at h with hneg hcount hcount
  · exact absurd (not_not.mp hcount).symm hn
  · obtain ⟨rfl, rfl⟩ := Prod.mk.inj (Option.some.inj h)
    have hcount := not_not.mp hcount
    dsimp only at hcount
    have hlength : (HostFiles.readAt f.bytes n.toNat f.pos).length = n.toNat := by omega
    exact ⟨not_lt.mp hneg, rfl, hlength, by rw [hlength]⟩

theorem writeAll_cases {host : Host} {f f' : Output} {buf : List UInt8} {n : ℤ}
    (h : f.writeAll host buf n = some f') (hn : 0 < n) (hbuf : buf.length = n.toNat) :
    f.pos + n.toNat ≤ host.maxFile ∧
      f' = ⟨HostFiles.writeAt 0 f.bytes buf f.pos, f.pos + n.toNat⟩ := by
  unfold Output.writeAll Output.write at h
  rw [if_neg (not_lt.mpr hn.le)] at h
  dsimp only at h
  split_ifs at h with hcount
  have hcount := not_not.mp hcount
  rw [List.length_take, hbuf] at hcount
  obtain rfl := Option.some.inj h
  have htake : buf.take (min n.toNat (host.maxFile - f.pos)) = buf :=
    List.take_of_length_le (by omega)
  exact ⟨by omega, by rw [htake, hbuf]⟩

/-- The segment describes the section, which was copied to a place before `pos`. -/
structure Copied (file out : List UInt8) (pos : ℕ) (seg : Segment) (s : ScnHdr) : Prop where
  virtualAddr : seg.virtualAddr = s.sPaddr
  size : seg.size = s.sSize
  scnptr : 0 ≤ s.sScnptr
  place : ∃ a : ℕ, seg.inFileAddr = a ∧ noffHeaderSize ≤ a ∧ a + s.sSize ≤ pos ∧
    ∀ k : ℕ, (k : ℤ) < s.sSize → ∃ b, out[a + k]? = some b ∧ file[s.sScnptr.toNat + k]? = some b

/-- There is no section for a segment, or there is one and the segment describes it. -/
def Folded (P : Segment → ScnHdr → Prop) (seg : Segment) (l : List ScnHdr) : Prop :=
  (l = [] ∧ seg.size = 0) ∨ ∃ s, l = [s] ∧ P seg s

/-- The files in the loop: `inNoffFile` is the end of what was written. -/
structure Files (file : List UInt8) (w : Work) : Prop where
  fdIn : w.fdIn.bytes = file
  pos : w.inNoffFile = w.fdOut.pos
  header : noffHeaderSize ≤ w.fdOut.pos
  small : w.fdOut.pos < 2 ^ 31

/-- The state of the loop after the sections `done`. -/
structure Inv (file : List UInt8) (done : List ScnHdr) (w : Work) : Prop extends Files file w where
  code : Folded (Copied file w.fdOut.bytes w.fdOut.pos) w.noffH.code (ofKind .text done)
  initData : Folded (Copied file w.fdOut.bytes w.fdOut.pos) w.noffH.initData (ofKind .data done)
  uninitData : Folded (fun seg s => seg.virtualAddr = s.sPaddr ∧ seg.size = s.sSize)
    w.noffH.uninitData (ofKind .bss done)

section loop
variable {host : Host} {file : List UInt8} {done : List ScnHdr} {w w' : Work} {s : ScnHdr}

theorem Folded.imp {P Q : Segment → ScnHdr → Prop} {seg : Segment} {l : List ScnHdr}
    (h : Folded P seg l) (hPQ : ∀ s, P seg s → Q seg s) : Folded Q seg l :=
  h.imp_right fun ⟨s, hl, hs⟩ => ⟨s, hl, hPQ s hs⟩

theorem size_ne_zero {k : Kind} {l : List ScnHdr} (h : s ∈ ofKind k l) : s.sSize ≠ 0 := by
  simp only [ofKind, List.mem_filter, decide_eq_true_eq] at h
  exact h.2.2

section concat
variable {k kind : Kind}

theorem ofKind_concat_self (done : List ScnHdr) (hsize : s.sSize ≠ 0) (hkind : s.kind = k) :
    ofKind k (done ++ [s]) = ofKind k done ++ [s] := by
  simp [ofKind, List.filter_append, hsize, hkind]

theorem ofKind_concat_of_ne (hkind : s.kind = kind) (hne : kind ≠ k) :
    ofKind k (done ++ [s]) = ofKind k done := by
  simp [ofKind, List.filter_append, hkind, hne]

theorem ofKind_concat_empty (k : Kind) (hsize : s.sSize = 0) :
    ofKind k (done ++ [s]) = ofKind k done := by
  simp [ofKind, List.filter_append, hsize]

theorem eq_nil_of_concat {l r : List ScnHdr} (hl : l = r ++ [s]) (hone : l.length ≤ 1) : r = [] := by
  rw [hl, List.length_append, List.length_singleton] at hone
  exact List.eq_nil_of_length_eq_zero (by omega)

end concat

theorem Foldable.of_append {l r : List ScnHdr} (h : Foldable (l ++ r)) : Foldable l := by
  have hsub : ∀ k, (ofKind k l).Sublist (ofKind k (l ++ r)) := fun k =>
    (List.sublist_append_left l r).filter _
  refine ⟨(hsub _).length_le.trans h.text, (hsub _).length_le.trans h.bss, fun s hs => h.copied s ?_⟩
  exact ((hsub .text).append (hsub .data)).subset hs

/-- Bytes that are added at the end leave a section where it was copied to. -/
theorem Copied.extend {out data : List UInt8} {pos : ℕ} {seg : Segment}
    (h : Copied file out pos seg s) (n : ℕ) :
    Copied file (HostFiles.writeAt 0 out data pos) (pos + n) seg s := by
  obtain ⟨a, ha, hheader, hpos, hbytes⟩ := h.place
  refine ⟨h.virtualAddr, h.size, h.scnptr, a, ha, hheader, by omega, fun k hk => ?_⟩
  obtain ⟨b, hout, hfile⟩ := hbytes k hk
  have hlt : a + k < out.length := (List.getElem?_eq_some_iff.mp hout).1
  exact ⟨b, by rw [HostFiles.writeAt_getElem?_of_lt 0 data (by omega) hlt, hout], hfile⟩

theorem Files.withNoff (h : Files file w) (noffH : NoffHeader) :
    Files file { w with noffH := noffH } := ⟨h.fdIn, h.pos, h.header, h.small⟩

/-- What a copy of a section does to the two files. -/
theorem copySection_cases (hsize : s.sSize ≠ 0) (hcopied : 0 ≤ s.sScnptr ∧ s.sSize ≠ -1)
    (hw : w.copySection host s = some w') : ∃ data,
    0 < s.sSize ∧ w.fdOut.pos + s.sSize.toNat ≤ host.maxFile ∧
    data = HostFiles.readAt w.fdIn.bytes s.sSize.toNat s.sScnptr.toNat ∧
    data.length = s.sSize.toNat ∧ w'.fdIn.bytes = w.fdIn.bytes ∧
    w'.fdOut = ⟨HostFiles.writeAt 0 w.fdOut.bytes data w.fdOut.pos, w.fdOut.pos + s.sSize.toNat⟩ ∧
    w'.noffH = w.noffH ∧ w'.inNoffFile = toInt32 (w.inNoffFile + s.sSize) := by
  obtain ⟨⟨data, f⟩, hr, hw⟩ := Option.bind_eq_some_iff.mp hw
  obtain ⟨o, ho, hw⟩ := Option.bind_eq_some_iff.mp hw
  obtain rfl := Option.some.inj hw
  obtain ⟨hnonneg, hdata, hlength, rfl⟩ := readAll_cases hr hcopied.2
  have hseek : w.fdIn.lseek s.sScnptr = { w.fdIn with pos := s.sScnptr.toNat } :=
    if_neg (not_lt.mpr hcopied.1)
  rw [hseek] at hdata
  have hpos : 0 < s.sSize := by omega
  obtain ⟨hfits, rfl⟩ := writeAll_cases ho hpos hlength
  exact ⟨data, hpos, hfits, hdata, hlength, by rw [hseek], rfl, rfl, rfl⟩

/-- After a copy the old segments are as they were, and the new one describes the section. -/
theorem Files.copySection (h : Files file w) (hsize : s.sSize ≠ 0)
    (hcopied : 0 ≤ s.sScnptr ∧ s.sSize ≠ -1) (hw : w.copySection host s = some w') :
    Files file w' ∧ w'.noffH = w.noffH ∧
      Copied file w'.fdOut.bytes w'.fdOut.pos ⟨s.sPaddr, w.inNoffFile, s.sSize⟩ s ∧
      ∀ seg t, Copied file w.fdOut.bytes w.fdOut.pos seg t →
        Copied file w'.fdOut.bytes w'.fdOut.pos seg t := by
  obtain ⟨data, hpos, hfits, hdata, hlength, hin, hout, hnoff, hfile⟩ :=
    copySection_cases hsize hcopied hw
  have hmax := host.maxFile_lt
  have hheader := h.header
  have hend : (w.fdOut.pos : ℤ) + s.sSize = (w.fdOut.pos + s.sSize.toNat : ℕ) := by omega
  rw [hout]
  refine ⟨⟨hin.trans h.fdIn, ?_, ?_, ?_⟩, hnoff,
    ⟨rfl, rfl, hcopied.1, w.fdOut.pos, h.pos, hheader, hend.le, fun k hk => ?_⟩,
    fun seg t ht => ht.extend _⟩
  · rw [hfile, hout, h.pos, toInt32_eq (by omega) (by omega), hend]
  · rw [hout]
    exact hheader.trans (Nat.le_add_right _ _)
  · rw [hout]
    exact hfits.trans_lt hmax
  · have hk : k < data.length := by omega
    refine ⟨data[k], ?_, ?_⟩
    · rw [HostFiles.writeAt_getElem?_add 0 _ hk, List.getElem?_eq_getElem hk]
    · rw [← h.fdIn, ← List.getElem?_eq_getElem hk, hdata,
        HostFiles.readAt_getElem? (by omega)]

theorem Inv.empty (h : Inv file done w) (hsize : s.sSize = 0) : Inv file (done ++ [s]) w := by
  refine ⟨h.toFiles, ?_, ?_, ?_⟩
  · rw [ofKind_concat_empty _ hsize]
    exact h.code
  · rw [ofKind_concat_empty _ hsize]
    exact h.initData
  · rw [ofKind_concat_empty _ hsize]
    exact h.uninitData

theorem Inv.text (h : Inv file done w) (hfold : Foldable (done ++ [s])) (hsize : s.sSize ≠ 0)
    (hkind : s.kind = .text)
    (hw : Work.copySection host
      { w with noffH := { w.noffH with code := ⟨s.sPaddr, w.inNoffFile, s.sSize⟩ } } s = some w') :
    Inv file (done ++ [s]) w' := by
  have hself := ofKind_concat_self done hsize hkind
  have hnone := eq_nil_of_concat hself hfold.text
  have hcopied := hfold.copied s (by rw [hself]; simp)
  obtain ⟨hfiles, hnoff, hnew, hold⟩ := (h.toFiles.withNoff _).copySection hsize hcopied hw
  refine ⟨hfiles, ?_, ?_, ?_⟩
  · rw [hself, hnone, hnoff]
    exact Or.inr ⟨s, rfl, hnew⟩
  · rw [ofKind_concat_of_ne hkind (by decide), hnoff]
    exact h.initData.imp (hold _)
  · rw [ofKind_concat_of_ne hkind (by decide), hnoff]
    exact h.uninitData

/-- A second section of initialised data does not come this far: the size is not 0 then. -/
theorem Inv.data (h : Inv file done w) (hfold : Foldable (done ++ [s])) (hsize : s.sSize ≠ 0)
    (hkind : s.kind = .data) (hempty : w.noffH.initData.size = 0)
    (hw : Work.copySection host
      { w with noffH := { w.noffH with initData := ⟨s.sPaddr, w.inNoffFile, s.sSize⟩ } } s =
        some w') : Inv file (done ++ [s]) w' := by
  have hself := ofKind_concat_self done hsize hkind
  have hnone : ofKind .data done = [] := by
    rcases h.initData with ⟨hnil, -⟩ | ⟨t, ht, hseg⟩
    · exact hnil
    · have hmem : t ∈ ofKind .data done := ht ▸ List.mem_singleton_self t
      exact absurd (hseg.size.symm.trans hempty) (size_ne_zero hmem)
  have hcopied := hfold.copied s (by rw [hself]; simp)
  obtain ⟨hfiles, hnoff, hnew, hold⟩ := (h.toFiles.withNoff _).copySection hsize hcopied hw
  refine ⟨hfiles, ?_, ?_, ?_⟩
  · rw [ofKind_concat_of_ne hkind (by decide), hnoff]
    exact h.code.imp (hold _)
  · rw [hself, hnone, hnoff]
    exact Or.inr ⟨s, rfl, hnew⟩
  · rw [ofKind_concat_of_ne hkind (by decide), hnoff]
    exact h.uninitData

/-- The first section of uninitialised data finds the size 0. -/
theorem Inv.bss_size (h : Inv file done w) (hfold : Foldable (done ++ [s])) (hsize : s.sSize ≠ 0)
    (hkind : s.kind = .bss) : w.noffH.uninitData.size = 0 := by
  have hnone := eq_nil_of_concat (ofKind_concat_self done hsize hkind) hfold.bss
  rcases h.uninitData with ⟨-, hzero⟩ | ⟨t, ht, -⟩
  · exact hzero
  · rw [hnone] at ht
    cases ht

theorem Inv.bss (h : Inv file done w) (hfold : Foldable (done ++ [s])) (hsize : s.sSize ≠ 0)
    (hkind : s.kind = .bss) : Inv file (done ++ [s])
      { w with noffH := { w.noffH with uninitData :=
        { w.noffH.uninitData with virtualAddr := s.sPaddr, size := s.sSize } } } := by
  have hself := ofKind_concat_self done hsize hkind
  refine ⟨h.toFiles.withNoff _, ?_, ?_, ?_⟩
  · rw [ofKind_concat_of_ne hkind (by decide)]
    exact h.code
  · rw [ofKind_concat_of_ne hkind (by decide)]
    exact h.initData
  · rw [hself, eq_nil_of_concat hself hfold.bss]
    exact Or.inr ⟨s, rfl, rfl, rfl⟩

/-- One turn of the loop. -/
theorem Inv.loadSection (h : Inv file done w) (hfold : Foldable (done ++ [s]))
    (hw : w.loadSection host s = some w') : Inv file (done ++ [s]) w' := by
  unfold Work.loadSection at hw
  by_cases hsize : s.sSize = 0
  · rw [if_pos hsize] at hw
    exact Option.some.inj hw ▸ h.empty hsize
  rw [if_neg hsize] at hw
  split at hw
  case h_1 hkind => exact h.text hfold hsize hkind hw
  case h_2 hkind =>
    split_ifs at hw with hdata
    exact h.data hfold hsize hkind (not_not.mp hdata) hw
  case h_3 hkind =>
    dsimp only at hw
    rw [if_neg (not_not.mpr (h.bss_size hfold hsize hkind))] at hw
    exact Option.some.inj hw ▸ h.bss hfold hsize hkind
  case h_4 => cases hw

/-- The whole loop. -/
theorem Inv.foldlM {rest : List ScnHdr} (h : Inv file done w) (hfold : Foldable (done ++ rest))
    (hw : rest.foldlM (Work.loadSection host) w = some w') : Inv file (done ++ rest) w' := by
  induction rest generalizing done w with
  | nil =>
    obtain rfl := Option.some.inj hw
    rwa [List.append_nil]
  | cons s rest ih =>
    rw [List.foldlM_cons] at hw
    obtain ⟨w₁, hone, hw⟩ := Option.bind_eq_some_iff.mp hw
    rw [List.append_cons] at hfold ⊢
    exact ih (h.loadSection hfold.of_append hone) hfold hw

end loop

/-! ### The file that is written -/

section result
variable {host : Host} {stack : NoffHeader} {file out : List UInt8} {w : Work} {s : ScnHdr}

/-- Before the loop nothing was copied. -/
theorem Inv.initial (pos : ℕ) (stack : NoffHeader) :
    Inv file [] ⟨⟨file, pos⟩, ⟨[], noffHeaderSize⟩, clearSizes stack, noffHeaderSize⟩ where
  fdIn := rfl
  pos := rfl
  header := le_rfl
  small := show noffHeaderSize < 2 ^ 31 by decide
  code := Or.inl ⟨rfl, rfl⟩
  initData := Or.inl ⟨rfl, rfl⟩
  uninitData := Or.inl ⟨rfl, rfl⟩

/-- A file that is written comes out of the loop over all sections. -/
theorem coff2noff_cases (h : coff2noff host stack file = some out) : ∃ w pos,
    (sections file).foldlM (Work.loadSection host)
      ⟨⟨file, pos⟩, ⟨[], noffHeaderSize⟩, clearSizes stack, noffHeaderSize⟩ = some w ∧
    out = HostFiles.writeAt 0 w.fdOut.bytes (headerBytes w.noffH) 0 := by
  obtain ⟨⟨fileh, f₁⟩, hr, h⟩ := Option.bind_eq_some_iff.mp h
  obtain ⟨-, rfl, -, rfl⟩ := readAll_cases hr (by decide)
  obtain ⟨-, -, h⟩ := Option.bind_eq_some_iff.mp h
  obtain ⟨⟨systemh, f₂⟩, hr, h⟩ := Option.bind_eq_some_iff.mp h
  obtain ⟨-, rfl, -, rfl⟩ := readAll_cases hr (by decide)
  obtain ⟨-, -, h⟩ := Option.bind_eq_some_iff.mp h
  obtain ⟨⟨l, f₃⟩, hr, h⟩ := Option.bind_eq_some_iff.mp h
  obtain ⟨-, rfl, -, rfl⟩ := readAll_cases hr (by omega)
  obtain ⟨w, hw, h⟩ := Option.bind_eq_some_iff.mp h
  obtain ⟨o, ho, h⟩ := Option.bind_eq_some_iff.mp h
  obtain ⟨-, rfl⟩ := writeAll_cases ho (by decide) rfl
  exact ⟨w, _, hw, (Option.some.inj h).symm⟩

theorem sections_range (hs : s ∈ sections file) :
    (-2 ^ 31 ≤ s.sPaddr ∧ s.sPaddr < 2 ^ 31) ∧ -2 ^ 31 ≤ s.sSize ∧ s.sSize < 2 ^ 31 := by
  obtain ⟨i, -, rfl⟩ := List.mem_map.mp hs
  simp only [scnHdrAt]
  exact ⟨wordAt_range _ _, wordAt_range _ _⟩

/-- A section that was copied is in the file under the header too. -/
theorem Copied.placed {seg : Segment} {body : List UInt8} {pos : ℕ} (h : Copied file body pos seg s)
    (hsmall : pos < 2 ^ 31) (hs : s ∈ sections file) (noffH : NoffHeader) :
    Placed file (HostFiles.writeAt 0 body (headerBytes noffH) 0) (toInts seg) s := by
  obtain ⟨a, ha, hheader, hpos, hbytes⟩ := h.place
  obtain ⟨hpaddr, hsize⟩ := sections_range hs
  intro v hv hend
  have haddr : toInt32 seg.virtualAddr = s.sPaddr := by
    rw [h.virtualAddr, toInt32_eq hpaddr.1 hpaddr.2]
  have hseg : toInt32 seg.size = s.sSize := by rw [h.size, toInt32_eq hsize.1 hsize.2]
  have hplace : toInt32 seg.inFileAddr = a := by rw [ha, toInt32_eq (by omega) (by omega)]
  obtain ⟨k, hk⟩ : ∃ k : ℕ, v - s.sPaddr = k := Int.eq_ofNat_of_zero_le (by omega)
  obtain ⟨b, hout, hfile⟩ := hbytes k (by omega)
  have hin : byteAt file (s.sScnptr + (v - s.sPaddr)) = some b := by
    have hscnptr := h.scnptr
    rw [byteAt, if_neg (by omega), hk, show (s.sScnptr + k).toNat = s.sScnptr.toNat + k by omega,
      hfile]
  have hcopy : byteAt (HostFiles.writeAt 0 body (headerBytes noffH) 0) (a + (v - s.sPaddr)) =
      some b := by
    have hlength : (headerBytes noffH).length = noffHeaderSize := rfl
    rw [byteAt, if_neg (by omega), hk, show ((a : ℤ) + k).toNat = a + k by omega,
      HostFiles.writeAt_getElem?_of_le 0 body (by omega), hout]
  simp only [toInts, haddr, hseg, hplace]
  exact ⟨by omega, by omega, hcopy.trans hin.symm, by rw [hin]; rfl⟩

/-- What the segment of a copied kind says about the sections of this kind. -/
theorem Folded.placed {seg : Segment} {body : List UInt8} {pos : ℕ} {kind : Kind}
    (h : Folded (Copied file body pos) seg (ofKind kind (sections file))) (hsmall : pos < 2 ^ 31)
    (noffH : NoffHeader) : ∀ s ∈ ofKind kind (sections file),
      Placed file (HostFiles.writeAt 0 body (headerBytes noffH) 0) (toInts seg) s := by
  intro s hs
  rcases h with ⟨hnil, -⟩ | ⟨t, ht, hseg⟩
  · rw [hnil] at hs
    cases hs
  · rw [ht] at hs
    obtain rfl := List.mem_singleton.mp hs
    exact hseg.placed hsmall (List.mem_of_mem_filter (ht ▸ hs)) noffH

/-- A file that is written describes the image of the COFF file when no two sections are
folded into one segment. -/
theorem image_preserved (host : Host) (stack : NoffHeader) (file out : List UInt8)
    (h : coff2noff host stack file = some out) (hfold : Foldable (sections file)) :
    ∃ noffH, NoffHeader.read out = some noffH ∧ SameImage file out noffH := by
  obtain ⟨w, pos, hw, rfl⟩ := coff2noff_cases h
  have hinv : Inv file (sections file) w := (Inv.initial pos stack).foldlM hfold hw
  refine ⟨⟨toInts w.noffH.code, toInts w.noffH.initData, toInts w.noffH.uninitData⟩, ?_,
    hinv.code.placed hinv.small _, hinv.initData.placed hinv.small _, fun v => ?_⟩
  · rw [HostFiles.writeAt_zero, read_headerBytes]
  · rcases hinv.uninitData with ⟨hnil, hzero⟩ | ⟨s, hone, hpaddr, hsize⟩
    · rw [hnil]
      simp [toInts, hzero, toInt32]
    · have hs : s ∈ sections file := List.mem_of_mem_filter (hone ▸ List.mem_singleton_self s)
      obtain ⟨hp, hn⟩ := sections_range hs
      rw [hone]
      simp [toInts, hpaddr, hsize, toInt32_eq hp.1 hp.2, toInt32_eq hn.1 hn.2]

/-- The header of a section, with zeros in the fields that are not used. -/
def sectionBytes (name : List UInt8) (paddr size scnptr : ℤ) : List UInt8 :=
  HostFiles.upTo 0 name 8 ++ intBytes paddr ++ intBytes 0 ++ intBytes size ++ intBytes scnptr ++
    List.replicate 16 0

/-- A COFF file with these section headers and these bytes after them. -/
def coffFile (headers : List (List UInt8)) (data : List UInt8) : List UInt8 :=
  [0x62, 0x01, UInt8.ofNat headers.length, 0] ++ List.replicate 16 0 ++ [0x07, 0x01] ++
    List.replicate 54 0 ++ headers.flatten ++ data

def textName : List UInt8 := [0x2e, 0x74, 0x65, 0x78, 0x74]

def rdataName : List UInt8 := [0x2e, 0x72, 0x64, 0x61, 0x74, 0x61]

def bssName : List UInt8 := [0x2e, 0x62, 0x73, 0x73]

def sbssName : List UInt8 := [0x2e, 0x73, 0x62, 0x73, 0x73]

def sampleHost : Host := ⟨4096, by decide⟩

def sampleStack : NoffHeader := ⟨⟨7, 7, 7⟩, ⟨7, 7, 7⟩, ⟨7, 7, 7⟩⟩

/-- Data, code and uninitialised data, in this order. -/
def sampleFile : List UInt8 :=
  coffFile [sectionBytes rdataName 0x80 2 200, sectionBytes textName 0 4 196,
    sectionBytes sbssName 0x100 0x10 0] [1, 2, 3, 4, 5, 6]

theorem image_preserved_sample : ∃ out, coff2noff sampleHost sampleStack sampleFile = some out ∧
    out.drop 40 = [5, 6, 1, 2, 3, 4] ∧ (sections sampleFile).length = 3 ∧
    ∃ noffH, NoffHeader.read out = some noffH ∧ SameImage sampleFile out noffH := by
  have hfold : Foldable (sections sampleFile) :=
    ⟨by decide +kernel, by decide +kernel, by decide +kernel⟩
  obtain ⟨out, hout⟩ := Option.isSome_iff_exists.mp
    (show (coff2noff sampleHost sampleStack sampleFile).isSome by decide +kernel)
  refine ⟨out, hout, ?_, by decide +kernel, image_preserved _ _ _ _ hout hfold⟩
  have hbody : (coff2noff sampleHost sampleStack sampleFile).map (List.drop 40) =
      some [5, 6, 1, 2, 3, 4] := by decide +kernel
  rw [hout] at hbody
  exact Option.some.inj hbody

/-- Two ranges of uninitialised data with a gap between them. -/
def gapFile : List UInt8 :=
  coffFile [sectionBytes bssName 0x1000 0x10 0, sectionBytes sbssName 0x2000 0x10 0] []

/-- Two sections of code. -/
def twoTextsFile : List UInt8 :=
  coffFile [sectionBytes textName 0 2 156, sectionBytes textName 2 2 158] [1, 2, 3, 4]

/-- The range of `gapFile` leaves out the second section, and the code of `twoTextsFile` the
first one. A second section that begins where the first one ends is refused. -/
theorem image_lost :
    (∃ out noffH, coff2noff sampleHost sampleStack gapFile = some out ∧
      NoffHeader.read out = some noffH ∧ noffH.uninitData.virtualAddr = 0x1000 ∧
      noffH.uninitData.size = 0x20 ∧ ¬SameImage gapFile out noffH) ∧
    (∃ out noffH, coff2noff sampleHost sampleStack twoTextsFile = some out ∧
      NoffHeader.read out = some noffH ∧ noffH.code.virtualAddr = 2 ∧ noffH.code.size = 2 ∧
      ¬SameImage twoTextsFile out noffH) ∧
    coff2noff sampleHost sampleStack (coffFile [sectionBytes bssName 0x1000 0x10 0,
      sectionBytes sbssName 0x1010 0x10 0] []) = none := by
  refine ⟨⟨_, _, rfl, rfl, by decide +kernel, by decide +kernel, fun h => ?_⟩,
    ⟨_, _, rfl, rfl, by decide +kernel, by decide +kernel, fun h => ?_⟩, by decide +kernel⟩
  · have hin := (h.uninitData 0x2000).mpr (by decide +kernel)
    revert hin
    decide +kernel
  · have hin := h.code (scnHdrAt (sectionBytes textName 0 2 156) 0) (by decide +kernel) 0
      (by decide +kernel) (by decide +kernel)
    revert hin
    decide +kernel

end result

end Nachos.CoffConversion
