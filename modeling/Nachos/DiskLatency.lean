import Nachos.InterruptQueue

/-!
# The latency of the disk (`machine/disk.cc`)

How long a request takes: the head moves over the tracks, waits for the next boundary
between two sectors, waits for the sector and passes over it. A read from the track on which
the head already is may be served from the track buffer. Divisions and remainders are those
of C, integers are unbounded, and the data of a request is left out.

The specification measures the same time with the position of the disk: at a multiple of
`RotationTime` the head is between two sectors, and the sector it has just passed over is
given by the number of rotations so far.
-/
namespace Nachos.DiskLatency
open GuardedRuns

abbrev sectorsPerTrack : ℤ := 32

abbrev numTracks : ℤ := 32

abbrev numSectors : ℤ := sectorsPerTrack * numTracks

abbrev rotationTime : ℤ := 500

abbrev seekTime : ℤ := 500

structure Disk where
  active : Bool
  lastSector : ℤ
  bufferInit : ℤ
  deriving DecidableEq, Repr

namespace Disk
variable (disk : Disk) (totalTicks newSector : ℤ)

/-- `TimeToSeek`: the time of the seek, and the rest of the sector under the head then. -/
def timeToSeek : ℤ × ℤ :=
  let newTrack := newSector.tdiv sectorsPerTrack
  let oldTrack := disk.lastSector.tdiv sectorsPerTrack
  let seek := |newTrack - oldTrack| * seekTime
  let timeOver := (totalTicks + seek).tmod rotationTime
  (seek, if timeOver > 0 then rotationTime - timeOver else 0)

/-- `ModuloDiff(to, from)` -/
def moduloDiff (target position : ℤ) : ℤ :=
  let toOffset := target.tmod sectorsPerTrack
  let fromOffset := position.tmod sectorsPerTrack
  ((toOffset - fromOffset) + sectorsPerTrack).tmod sectorsPerTrack

def timeAfter : ℤ :=
  totalTicks + (disk.timeToSeek totalTicks newSector).1 + (disk.timeToSeek totalTicks newSector).2

/-- The track buffer applies. -/
def Buffered (writing : Bool) : Prop :=
  writing = false ∧ (disk.timeToSeek totalTicks newSector).1 = 0 ∧
    (disk.timeAfter totalTicks newSector - disk.bufferInit).tdiv rotationTime >
      moduloDiff newSector (disk.bufferInit.tdiv rotationTime)

instance (writing : Bool) : Decidable (disk.Buffered totalTicks newSector writing) :=
  inferInstanceAs (Decidable (_ ∧ _ ∧ _))

def computeLatency (writing : Bool) : ℤ :=
  let (seek, rotation) := disk.timeToSeek totalTicks newSector
  if disk.Buffered totalTicks newSector writing then rotationTime
  else
    let rotation := rotation +
      moduloDiff newSector ((disk.timeAfter totalTicks newSector).tdiv rotationTime) * rotationTime
    seek + rotation + rotationTime

def updateLast : Disk :=
  let (seek, rotate) := disk.timeToSeek totalTicks newSector
  { disk with
    bufferInit := if seek ≠ 0 then totalTicks + seek + rotate else disk.bufferInit
    lastSector := newSector }

end Disk

/-- The disk, with the clock and the interrupts that are pending. -/
structure Machine where
  disk : Disk
  interrupts : InterruptQueue.State
  deriving DecidableEq, Repr

def OnDisk (sector : ℤ) : Prop := 0 ≤ sector ∧ sector < numSectors

instance (sector : ℤ) : Decidable (OnDisk sector) := inferInstanceAs (Decidable (_ ∧ _))

/-- `ReadRequest` and `WriteRequest` with their assertions and the one in `Schedule`. -/
def Machine.request (s : Machine) (sectorNumber : ℤ) (writing : Bool) : Option Machine :=
  let ticks := s.disk.computeLatency s.interrupts.totalTicks sectorNumber writing
  if s.disk.active then none
  else if ¬OnDisk sectorNumber then none
  else
    (s.interrupts.schedule ⟨ticks, .disk⟩).map fun q =>
      ⟨{ s.disk.updateLast s.interrupts.totalTicks sectorNumber with active := true }, q⟩

/-- `HandleInterrupt` -/
def Machine.handleInterrupt (s : Machine) : Machine := { s with disk := { s.disk with active := false } }

inductive Event where
  | request (sectorNumber : ℤ) (writing : Bool)
  | handleInterrupt
  | other (c : InterruptQueue.Call)
  deriving DecidableEq, Repr

def Machine.step (s : Machine) : Event → Option Machine
  | .request sectorNumber writing => s.request sectorNumber writing
  | .handleInterrupt => some s.handleInterrupt
  | .other c => (InterruptQueue.step s.interrupts c).map fun q => { s with interrupts := q }

def Step (s : Machine) (e : Event) (t : Machine) : Prop := s.step e = some t

/-- A new disk on a new machine. -/
def initial : Machine := ⟨⟨false, 0, 0⟩, InterruptQueue.initial⟩

/-! ### The rotational model -/

def track (sector : ℤ) : ℤ := sector / sectorsPerTrack

/-- `SeekTime` for every track that is crossed. -/
def seekFor (lastSector newSector : ℤ) : ℤ := |track newSector - track lastSector| * seekTime

/-- The delays after which the head has just passed over `newSector`, having come to it after
the seek. -/
def Passes (totalTicks seek newSector : ℤ) : Set ℤ :=
  { d | totalTicks + d - rotationTime ≥ totalTicks + seek ∧ rotationTime ∣ totalTicks + d ∧
    (totalTicks + d) / rotationTime - 1 ≡ newSector [ZMOD sectorsPerTrack] }

section latency
variable {disk : Disk} {totalTicks newSector : ℤ}

theorem seekFor_nonneg (lastSector newSector : ℤ) : 0 ≤ seekFor lastSector newSector :=
  mul_nonneg (abs_nonneg _) (by decide)

theorem timeToSeek_seek (totalTicks : ℤ) (hlast : 0 ≤ disk.lastSector) (hnew : 0 ≤ newSector) :
    (disk.timeToSeek totalTicks newSector).1 = seekFor disk.lastSector newSector := by
  simp only [Disk.timeToSeek, seekFor, track, Int.tdiv_eq_ediv_of_nonneg hlast,
    Int.tdiv_eq_ediv_of_nonneg hnew]

/-- After the rest of the sector the head is at the first boundary behind the seek. -/
theorem timeToSeek_rotation (hlast : 0 ≤ disk.lastSector) (hnew : 0 ≤ newSector)
    (ht : 0 ≤ totalTicks) : ∃ boundary,
    disk.timeAfter totalTicks newSector = rotationTime * boundary ∧ 0 ≤ boundary ∧
      totalTicks + seekFor disk.lastSector newSector ≤ rotationTime * boundary ∧
      rotationTime * boundary < totalTicks + seekFor disk.lastSector newSector + rotationTime := by
  have hseek := timeToSeek_seek totalTicks hlast hnew
  have hnonneg := seekFor_nonneg disk.lastSector newSector
  have hrotation : (disk.timeToSeek totalTicks newSector).2 =
      if (totalTicks + seekFor disk.lastSector newSector) % rotationTime > 0 then
        rotationTime - (totalTicks + seekFor disk.lastSector newSector) % rotationTime else 0 := by
    rw [← hseek, ← Int.tmod_eq_emod_of_nonneg (by rw [hseek]; omega)]
    rfl
  have hx : 0 ≤ totalTicks + seekFor disk.lastSector newSector := by omega
  rw [Disk.timeAfter, hseek, hrotation]
  generalize totalTicks + seekFor disk.lastSector newSector = x at *
  simp only [rotationTime] at *
  split_ifs with hover
  · exact ⟨x / 500 + 1, by omega, by omega, by omega, by omega⟩
  · exact ⟨x / 500, by omega, by omega, by omega, by omega⟩

/-- The number of sectors from one position to the next one with the offset of another. -/
theorem moduloDiff_spec {target position : ℤ} (ht : 0 ≤ target) (hp : 0 ≤ position) :
    0 ≤ Disk.moduloDiff target position ∧ Disk.moduloDiff target position < sectorsPerTrack ∧
      (position + Disk.moduloDiff target position) % sectorsPerTrack = target % sectorsPerTrack := by
  have hdiff : Disk.moduloDiff target position =
      ((target % sectorsPerTrack - position % sectorsPerTrack) + sectorsPerTrack) %
        sectorsPerTrack := by
    rw [Disk.moduloDiff, Int.tmod_eq_emod_of_nonneg ht, Int.tmod_eq_emod_of_nonneg hp,
      Int.tmod_eq_emod_of_nonneg (by simp only [sectorsPerTrack]; omega)]
  rw [hdiff]
  simp only [sectorsPerTrack]
  omega

/-- The delay that is computed without the track buffer. -/
theorem latency_isLeast (hlast : 0 ≤ disk.lastSector) (hnew : 0 ≤ newSector)
    (ht : 0 ≤ totalTicks) : ∃ d, seekFor disk.lastSector newSector + rotationTime ≤ d ∧
      IsLeast (Passes totalTicks (seekFor disk.lastSector newSector) newSector) d ∧
      ∀ writing, ¬disk.Buffered totalTicks newSector writing →
        disk.computeLatency totalTicks newSector writing = d := by
  obtain ⟨boundary, hafter, hnonneg, hlow, hhigh⟩ := timeToSeek_rotation hlast hnew ht
  have hposition : (disk.timeAfter totalTicks newSector).tdiv rotationTime = boundary := by
    rw [hafter, Int.mul_tdiv_cancel_left _ (by decide)]
  obtain ⟨hdiff, hdiff', hmod⟩ := moduloDiff_spec hnew hnonneg
  generalize hm : Disk.moduloDiff newSector boundary = m at hdiff hdiff' hmod
  generalize seekFor disk.lastSector newSector = seek at hlow hhigh ⊢
  refine ⟨rotationTime * (boundary + m + 1) - totalTicks, ?_, ⟨⟨?_, ?_, ?_⟩, ?_⟩, ?_⟩
  · simp only [rotationTime] at *
    omega
  · simp only [rotationTime] at *
    omega
  · rw [add_sub_cancel]
    exact dvd_mul_right _ _
  · rw [add_sub_cancel, Int.mul_ediv_cancel_left _ (by decide), add_sub_cancel_right]
    exact hmod
  · -- a later pass over the sector is a whole number of tracks later
    rintro x ⟨hseek, ⟨k, hk⟩, hsector⟩
    rw [hk, Int.mul_ediv_cancel_left _ (by decide)] at hsector
    have hmod' : (k - 1) % sectorsPerTrack = newSector % sectorsPerTrack := hsector
    simp only [rotationTime, sectorsPerTrack] at *
    omega
  · intro writing hbuffered
    have htime := hafter
    rw [Disk.timeAfter] at htime
    simp only [Disk.computeLatency, if_neg hbuffered, hposition, hm]
    simp only [rotationTime] at *
    omega

theorem computeLatency_of_buffered {writing : Bool}
    (h : disk.Buffered totalTicks newSector writing) :
    disk.computeLatency totalTicks newSector writing = rotationTime := by
  simp only [Disk.computeLatency, if_pos h]

theorem computeLatency_pos (hlast : 0 ≤ disk.lastSector) (hnew : 0 ≤ newSector)
    (ht : 0 ≤ totalTicks) (writing : Bool) : 0 < disk.computeLatency totalTicks newSector writing := by
  by_cases hbuffered : disk.Buffered totalTicks newSector writing
  · rw [computeLatency_of_buffered hbuffered]
    decide
  · obtain ⟨d, hd, -, heq⟩ := latency_isLeast hlast hnew ht
    have hseek := seekFor_nonneg disk.lastSector newSector
    rw [heq writing hbuffered]
    simp only [rotationTime] at hd
    omega

end latency

/-! ### Requests -/

/-- What is known of the disk and of the clock. -/
structure Inv (s : Machine) : Prop where
  ready : InterruptQueue.Ready s.interrupts
  ticks : 0 ≤ s.interrupts.totalTicks
  last : OnDisk s.disk.lastSector
  buffer : 0 ≤ s.disk.bufferInit

section requests
variable {s t : Machine} {sector : ℤ}

/-- A request that meets the assertions of the disk also meets the one of `Schedule`. -/
theorem exists_request (ht : 0 ≤ s.interrupts.totalTicks) (hlast : OnDisk s.disk.lastSector)
    (hactive : s.disk.active = false) (hsector : OnDisk sector) (writing : Bool) :
    ∃ t, s.request sector writing = some t := by
  have hpos := computeLatency_pos hlast.1 hsector.1 ht writing
  rw [Machine.request, hactive, if_neg Bool.false_ne_true, if_neg (not_not.mpr hsector),
    InterruptQueue.State.schedule, if_pos hpos]
  exact ⟨_, rfl⟩

theorem request_cases {writing : Bool} (ht : s.request sector writing = some t) :
    OnDisk sector ∧ ∃ q, s.interrupts.schedule
        ⟨s.disk.computeLatency s.interrupts.totalTicks sector writing, .disk⟩ = some q ∧
      t = ⟨{ s.disk.updateLast s.interrupts.totalTicks sector with active := true }, q⟩ := by
  unfold Machine.request at ht
  split_ifs at ht with hactive hsector
  obtain ⟨q, hq, rfl⟩ := Option.map_eq_some_iff.mp ht
  exact ⟨hsector, q, hq, rfl⟩

theorem Inv.updateLast (h : Inv s) (hsector : OnDisk sector) :
    0 ≤ (s.disk.updateLast s.interrupts.totalTicks sector).bufferInit := by
  obtain ⟨boundary, hafter, hboundary, -⟩ := timeToSeek_rotation h.last.1 hsector.1 h.ticks
  rw [Disk.timeAfter] at hafter
  simp only [Disk.updateLast]
  split_ifs
  · rw [hafter]
    exact mul_nonneg (by decide) hboundary
  · exact h.buffer

theorem Inv.step (h : Inv s) {e : Event} (hstep : Step s e t) : Inv t := by
  cases e with
  | request sector writing =>
    obtain ⟨hsector, q, hq, rfl⟩ := request_cases hstep
    have hinv := h.ready.inv.schedule hq
    obtain ⟨-, rfl⟩ := InterruptQueue.schedule_cases hq
    exact ⟨⟨hinv, h.ready.awake⟩, h.ticks, hsector, h.updateLast hsector⟩
  | handleInterrupt =>
    obtain rfl := Option.some.inj hstep
    exact ⟨h.ready, h.ticks, h.last, h.buffer⟩
  | other c =>
    obtain ⟨q, hq, rfl⟩ := Option.map_eq_some_iff.mp hstep
    obtain ⟨hready, hle⟩ := h.ready.step hq
    exact ⟨hready, h.ticks.trans hle, h.last, h.buffer⟩

theorem inv_of_run {events : List Event} (hrun : Run Step Free initial events s) : Inv s :=
  hrun.invariant (I := Inv) ⟨⟨InterruptQueue.initial_inv, by decide⟩, le_rfl, by decide, le_rfl⟩
    fun h _ ht => h.step ht

/-- Whatever was requested before and however the clock went, a request for a sector of the
disk that finds the disk at rest is accepted. -/
theorem request_accepted {events : List Event} (hrun : Run Step Free initial events s)
    (hactive : s.disk.active = false) (hsector : OnDisk sector) (writing : Bool) :
    ∃ t, s.request sector writing = some t :=
  exists_request (inv_of_run hrun).ticks (inv_of_run hrun).last hactive hsector writing

/-- A read behind a write on another track. -/
theorem request_accepted_second : ∃ s t : Machine,
    Run Step Free initial [.request 5 true, .handleInterrupt] s ∧ s.request 900 false = some t := by
  obtain ⟨s, hrun, hactive⟩ := exists_run_of_exec Machine.step initial
    [.request 5 true, .handleInterrupt] (fun s => !s.disk.active) (by decide +kernel)
  obtain ⟨t, ht⟩ := request_accepted hrun (by simpa using hactive) (show OnDisk 900 by decide) false
  exact ⟨s, t, hrun, ht⟩

end requests

/-- Without the track buffer the latency is the least delay after which the head has passed
over the sector, coming to it after the seek. With the track buffer it is `RotationTime`,
which is no more than that. It is positive, so the request is scheduled. -/
theorem latency_exact (disk : Disk) (totalTicks newSector : ℤ) (writing : Bool)
    (ht : 0 ≤ totalTicks) (hlast : OnDisk disk.lastSector) (hnew : OnDisk newSector) :
    (¬disk.Buffered totalTicks newSector writing →
      IsLeast (Passes totalTicks (seekFor disk.lastSector newSector) newSector)
        (disk.computeLatency totalTicks newSector writing)) ∧
    (disk.Buffered totalTicks newSector writing →
      disk.computeLatency totalTicks newSector writing = rotationTime ∧
      ∃ d, IsLeast (Passes totalTicks (seekFor disk.lastSector newSector) newSector) d ∧
        rotationTime ≤ d) ∧
    0 < disk.computeLatency totalTicks newSector writing ∧
    ∀ q : InterruptQueue.State, q.totalTicks = totalTicks →
      ∃ t, Machine.request ⟨{ disk with active := false }, q⟩ newSector writing = some t := by
  obtain ⟨d, hd, hleast, heq⟩ := latency_isLeast hlast.1 hnew.1 ht
  refine ⟨fun hbuffered => ?_, fun hbuffered => ⟨computeLatency_of_buffered hbuffered, d, hleast, ?_⟩,
    computeLatency_pos hlast.1 hnew.1 ht writing, fun q hq => ?_⟩
  · rw [heq writing hbuffered]
    exact hleast
  · have := seekFor_nonneg disk.lastSector newSector
    omega
  · exact exists_request (hq.symm ▸ ht) hlast rfl hnew writing

/-- A seek over one track at time 10, and a read from the track buffer at time 10000. -/
theorem latency_exact_samples :
    IsLeast (Passes 10 500 5) 2990 ∧
    Disk.computeLatency ⟨false, 40, 0⟩ 10 5 false = 2990 ∧
    Disk.computeLatency ⟨false, 0, 0⟩ 10000 3 false = 500 := by
  refine ⟨(latency_exact ⟨false, 40, 0⟩ 10 5 false (by decide) (by decide) (by decide)).1 (by decide),
    by decide, ?_⟩
  exact ((latency_exact ⟨false, 0, 0⟩ 10000 3 false (by decide) (by decide)
    (by decide)).2.1 (by decide)).1

end Nachos.DiskLatency
