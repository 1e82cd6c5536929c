import Nachos.LoaderAgreement

/-!
# What a new process finds in its memory

`bzero` is commented out in the constructor of `AddrSpace`, and with `VM` the pages for
the stack and `uninitData` get slots in which nothing is written. So a new process sees
zeros outside of its segments if the storage it is given happens to hold zeros, and
if nothing is copied there from the file or from the buffer.
-/
namespace Nachos.Loading
open DemandPaging GuardedRuns
open PhysicalFrames (numPhysPages)

/-- The memory of a new process: its segments over zeros. -/
def image (file : List UInt8) (h : NoffHeader) : ℕ → Option UInt8 := contents file h fun _ => some 0

/-- What `ReadFile` copies is in the file, and behind the segments it is zero. -/
structure NoffHeader.Padded (h : NoffHeader) (file : List UInt8) : Prop where
  inFile : ∀ x, h.InFile file x
  initData : ∀ x, ¬h.code.Has x → ¬h.initData.Has x → h.initData.Covers x →
    file[h.initData.source x]? = some 0
  code : ∀ x, ¬h.code.Has x → ¬h.initData.Covers x → h.code.Covers x →
    file[h.code.source x]? = some 0

/-- The constructor without `VM` gets frames, and they hold zeros where nothing is copied. -/
structure Machine.Cleared {B : Type} (m : Machine B) (h : NoffHeader) : Prop where
  room : h.numPages ≤ numPhysPages ∧ h.numPages ≤ m.memory.freePages.1
  zero : ∀ x < h.numPages * pageSize, ¬h.code.Covers x → ¬h.initData.Covers x →
    m.byteAt (m.nextFrames h.numPages) x = some 0

variable {A : Type} [DecidableEq A]

/-- The constructor with `VM` gets slots, none of the pages before the blank ones is left out, and
the slots for the others hold zeros. -/
structure Cleared (s : State A) (a : A) (pid : ℤ) (h : NoffHeader) : Prop where
  room : Room s a pid h.numPages
  whole : h.Whole
  touches : ∀ v : ℕ, (v : ℤ) < h.firstBlank → h.Touches v
  zero : ∀ i ∈ (s.swap.bitmap.clearBits.take h.numPages).drop h.touched, s.swap.swap i = fun _ => 0

theorem image_isSome {file : List UInt8} {h : NoffHeader} {x : ℕ} (hin : h.InFile file x) :
    ∃ byte, image file h x = some byte := by
  rw [image, contents]
  split_ifs with hi hc
  · exact ⟨_, List.getElem?_eq_getElem (hin.1 hi)⟩
  · exact ⟨_, List.getElem?_eq_getElem (hin.2 hi hc)⟩
  · exact ⟨0, rfl⟩

theorem NoffHeader.Padded.image_eq_zero {file : List UInt8} {h : NoffHeader} (hpad : h.Padded file)
    {x : ℕ} (hcode : ¬h.code.Has x) (hinit : ¬h.initData.Has x) : image file h x = some 0 := by
  rw [image, contents]
  split_ifs with hi hc
  · exact hpad.initData x hcode hinit hi
  · exact hpad.code x hcode hi hc
  · rfl

theorem contents_eq_image {file : List UInt8} {h : NoffHeader} {x : ℕ} {old : ℕ → Option UInt8}
    (hold : ¬h.code.Covers x → ¬h.initData.Covers x → old x = some 0) :
    contents file h old x = image file h x := by
  rw [image, contents, contents]
  split_ifs with hi hc
  · rfl
  · rfl
  · exact hold hc hi

/-- The bytes before a segment in its first page. -/
theorem covers_of_touches {file : List UInt8} {h : NoffHeader} {n x : ℕ} (hcode : h.code.Fits file n)
    (hinit : h.initData.Fits file n) (hwhole : h.Whole) (hx : h.Touches (x / pageSize)) :
    h.code.Covers x ∨ h.initData.Covers x := by
  have hv := hcode.virtualAddr
  have hv' := hinit.virtualAddr
  have hw := hwhole.1
  have hw' := hwhole.2
  simp only [NoffHeader.Touches, Segment.Covers, Covers, StartsWhole, pageSize, or_false] at *
  omega

/-- A program of one page. -/
def onePage : List UInt8 := executable (0, 40, 128) (0, 0, 0) (List.replicate 128 1)

/-- A process has a page of sevens in the swap file and exits. -/
def departed : List (Label Bool) :=
  [.create false 0 1 (fun _ => false), .addPage false 0 (some fun _ => 7), .removePages false]

/-- A program without segments. -/
def noSegments : List UInt8 := executable (0, 0, 0) (0, 0, 0) []

theorem departed_run : (exec step fairTest zeroed departed).any (fun s =>
    (newSpace s (fun _ => 0) true 1 noSegments).any fun r =>
      (step r.1 (.fault true 0)).any fun u => u.read true 0 0 == some 7) = true := by
  decide +kernel

theorem onePage_run : (blank.newSpace onePage).any (fun r =>
    (clearFrames r.2.memory r.1).any fun memory =>
      (Machine.newSpace { r.2 with memory := memory } noSegments).any fun r' =>
        r'.2.byteAt r'.1 0 == some 1) = true := by
  decide +kernel

end Nachos.Loading
