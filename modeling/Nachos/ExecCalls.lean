import Nachos.LoadedFrames
import Nachos.ProcessIds

/-!
# What `Exec` reports (build without `VM`)

`Exec` opens the file and constructs the address space. The constructor takes an id and
registers the process first, and then finds out whether there are enough frames. It
returns by the exception `bad_alloc` if not, and `Exec` answers `NULL`, which is the id 0.

Opening a file gives what the constructor makes of it: the header that it reads, if the
assertion about `NOFFMAGIC` passes, and whether the calls of `ReadFile` for its segments
return. `Exec` yields before it returns the id, so that the new process may run before;
the state here is the one in which the process is made.
-/
namespace Nachos.ExecCalls
open GuardedRuns Loading
open PhysicalFrames (MemoryManager numPhysPages)
open ProcessIds (Phase)

structure Executable where
  header : Option NoffHeader
  loads : Bool

structure Kernel (P N A : Type) where
  ids : ProcessIds.State P
  memory : MemoryManager A
  files : N → Option Executable

variable {P N A : Type} [DecidableEq P]

/-- The answer of `Exec` and the kernel after it; `c` is the control block of the new process.
`none` is a call that does not return. -/
def Kernel.exec (k : Kernel P N A) (c : P) (name : N) : Option (ℤ × Kernel P N A) :=
  match k.files name with
  | none => some (-1, k)
  | some executable =>
    executable.header.bind fun noffH =>
    if noffH.numPages > numPhysPages then none
    else
      let r := k.memory.freePages
      if noffH.numPages > r.1 then
        (k.ids.failedExec c).map fun ids => (0, { k with ids := ids, memory := r.2 })
      else if executable.loads then
        let ids := k.ids.newProcess c
        some (ids.pid c, { k with ids := ids, memory := (getPages noffH.numPages r.2).2 })
      else none

/-- The three ways in which `Exec` returns. -/
theorem exec_cases {k k' : Kernel P N A} {c : P} {name : N} {r : ℤ}
    (h : k.exec c name = some (r, k')) :
    (k.files name = none ∧ r = -1 ∧ k' = k) ∨
    ∃ executable noffH, k.files name = some executable ∧ executable.header = some noffH ∧
      ((k.memory.freePages.1 < noffH.numPages ∧ r = 0 ∧ ∃ ids, k.ids.failedExec c = some ids ∧
          k' = { k with ids := ids, memory := k.memory.freePages.2 }) ∨
        (noffH.numPages ≤ k.memory.freePages.1 ∧ r = (k.ids.newProcess c).pid c ∧
          k' = { k with
            ids := k.ids.newProcess c
            memory := (getPages noffH.numPages k.memory.freePages.2).2 })) := by
  rw [Kernel.exec] at h
  split at h
  · rename_i hfile
    obtain ⟨rfl, rfl⟩ := Prod.mk.inj (Option.some.inj h)
    exact .inl ⟨hfile, rfl, rfl⟩
  · rename_i executable hfile
    obtain ⟨noffH, hheader, h⟩ := Option.bind_eq_some_iff.1 h
    refine .inr ⟨executable, noffH, hfile, hheader, ?_⟩
    dsimp only at h
    split_ifs at h with hsize hfree hloads
    · obtain ⟨ids, hids, hk⟩ := Option.map_eq_some_iff.1 h
      obtain ⟨rfl, rfl⟩ := Prod.mk.inj hk
      exact .inl ⟨hfree, rfl, ids, hids, rfl⟩
    · obtain ⟨rfl, rfl⟩ := Prod.mk.inj (Option.some.inj h)
      exact .inr ⟨not_lt.1 hfree, rfl, rfl⟩

/-- For the process manager the call is one of the steps of `Exec`. -/
theorem exec_step {k k' : Kernel P N A} {p c : P} {name : N} {r : ℤ}
    (hp : k.ids.phase p = .running) (hc : k.ids.phase c = .absent)
    (h : k.exec c name = some (r, k')) :
    k' = k ∨ ∃ memory, ProcessIds.Step k.ids (.exec p c memory) k'.ids := by
  rcases exec_cases h with ⟨-, -, rfl⟩ | ⟨_, _, -, -, ⟨-, -, ids, hids, rfl⟩ | ⟨-, -, rfl⟩⟩
  · exact .inl rfl
  · refine .inr ⟨false, ?_⟩
    rw [ProcessIds.Step, ProcessIds.step, if_pos ⟨hp, hc⟩]
    exact hids
  · refine .inr ⟨true, ?_⟩
    rw [ProcessIds.Step, ProcessIds.step, if_pos ⟨hp, hc⟩]
    rfl

omit [DecidableEq P] in
theorem getPages_bitMem (n : ℕ) {m m' : MemoryManager A} (h : m.bitMem = m'.bitMem) :
    (getPages n m).2.bitMem = (getPages n m').2.bitMem := by
  induction n generalizing m m' with
  | zero => exact h
  | succ n ih => exact ih (congrArg (fun b => b.find.2) h)

/-- The frames are those that the constructor takes. -/
theorem exec_newSpace {k : Kernel P N A} {m m' : Machine A} {c : P} {name : N} {file : List UInt8}
    {frames : List ℤ} (hfile : k.files name = some ⟨NoffHeader.read file, true⟩)
    (hmemory : k.memory = m.memory) (h : m.newSpace file = some (frames, m')) :
    ∃ k', k.exec c name = some ((k.ids.newProcess c).pid c, k') ∧
      k'.memory.bitMem = m'.memory.bitMem := by
  obtain ⟨noffH, hread, h⟩ := Option.bind_eq_some_iff.1 h
  split_ifs at h with hroom
  obtain ⟨l, -, hl⟩ := Option.map_eq_some_iff.1 h
  obtain ⟨-, rfl⟩ := Prod.mk.inj hl
  rw [← hmemory] at hroom
  rw [Kernel.exec, hfile]
  simp only [hread, Option.bind_some, not_lt.2 hroom.1, not_lt.2 hroom.2, if_false, gt_iff_lt,
    if_true]
  refine ⟨_, rfl, getPages_bitMem _ ?_⟩
  rw [← hmemory]
  rfl

/-- If there is such a file, an id and the frames for it are free. -/
def Kernel.Supplied (k : Kernel P N A) (name : N) : Prop :=
  ∀ executable, k.files name = some executable → k.ids.pm.processIDs.numClear ≠ 0 ∧
    ∀ noffH, executable.header = some noffH → noffH.numPages ≤ k.memory.freePages.1

/-- Where an id and the frames are free, an answer that is not negative is the id of the process
made, and of no other that lives. For a file that does not exist the answer is negative and
nothing changes. -/
theorem exec_reports (storage : ℕ → Word) (maxProcess : ℕ) (pcbs : ℤ → Option P) (joins : ℤ → ℤ)
    (pid status : P → ℤ) (ls : List (ProcessIds.Label P)) (k : Kernel P N A)
    (hrun : Run ProcessIds.Step ProcessIds.Regular
      (ProcessIds.initial storage maxProcess pcbs joins pid status) ls k.ids)
    {c : P} (hc : k.ids.phase c = .absent) {name : N} (hname : k.Supplied name)
    {r : ℤ} {k' : Kernel P N A} (h : k.exec c name = some (r, k')) :
    (0 ≤ r → k'.ids.phase c = .running ∧ k'.ids.pid c = r ∧ k'.ids.pm.pcbs r = some c ∧
      r < maxProcess ∧ ∀ p, p ≠ c → (k'.ids.phase p).live = true → k'.ids.pid p ≠ r) ∧
    (k.files name = none → r < 0 ∧ k' = k) ∧ (k.files name ≠ none → 0 ≤ r) := by
  have hinv := hrun.invariant (ProcessIds.initial_inv storage maxProcess pcbs joins pid status)
    ProcessIds.step_inv
  have hbits : k.ids.pm.processIDs.numBits = maxProcess :=
    hrun.invariant (I := fun s => s.pm.processIDs.numBits = maxProcess)
      (BitMap.create_numBits storage maxProcess)
      fun hs _ hstep => (ProcessIds.step_numBits hstep).trans hs
  rcases exec_cases h with ⟨hfile, rfl, rfl⟩ | ⟨executable, noffH, hfile, hheader, hcase⟩
  · refine ⟨fun h0 => absurd h0 (by decide), fun _ => ⟨by decide, rfl⟩, fun hne => absurd hfile hne⟩
  · obtain ⟨hfree, hframes⟩ := hname executable hfile
    have hpages := hframes noffH hheader
    rcases hcase with ⟨hlt, -⟩ | ⟨-, rfl, rfl⟩
    · exact absurd hpages (not_le.2 hlt)
    · have hnew := hinv.newProcess hc hfree
      have hphase : (k.ids.newProcess c).phase c = .running := Function.update_self ..
      obtain ⟨hmarked, hpcb⟩ := hnew.owns c (by rw [hphase]; rfl)
      have hrange := hmarked.1
      have hpid : (k.ids.newProcess c).pid c < maxProcess := by
        rw [← hbits, ← ProcessIds.newProcess_numBits k.ids c]
        exact hrange.2
      refine ⟨fun _ => ⟨hphase, rfl, hpcb, hpid, fun p hp hlive heq => hp ?_⟩, ?_, fun _ => hrange.1⟩
      · exact hnew.identified.distinct p c hlive (by rw [hphase]; rfl) heq
      · intro hnone
        rw [hnone] at hfile
        cases hfile

/-- The first `n` processes have been started. -/
def started : ℕ → ProcessIds.State ℕ
  | 0 => ProcessIds.blank
  | n + 1 => (started n).newProcess n

theorem started_phase {n c : ℕ} (h : n ≤ c) : (started n).phase c = .absent := by
  induction n with
  | zero => rfl
  | succ n ih =>
    have hne : c ≠ n := by omega
    exact (Function.update_of_ne hne _ _).trans (ih (by omega))

theorem started_run (n : ℕ) :
    Run ProcessIds.Step Free ProcessIds.blank ((List.range n).map .start) (started n) := by
  induction n with
  | zero => exact .nil _
  | succ n ih =>
    rw [List.range_succ, List.map_append]
    exact ih.append (.cons trivial (if_pos (started_phase le_rfl)) (.nil _))

/-- An executable with so many bytes of code. -/
def program (size : ℤ) : Executable := ⟨some ⟨⟨0, 40, size⟩, ⟨0, 0, 0⟩, ⟨0, 0, 0⟩⟩, true⟩

def sampleKernel (n : ℕ) (frames : Word) (executable : Executable) : Kernel ℕ Unit Unit :=
  ⟨started n, ⟨⟨numPhysPages, fun _ => frames⟩, none⟩, fun _ => some executable⟩

/-- A program of nine pages in a machine with one process and all frames free. -/
theorem exec_reports_first :
    ∃ k', (sampleKernel 1 0 (program 4)).exec 1 () = some (1, k') ∧ k'.ids.pid 1 = 1 ∧
      ∀ p, p ≠ 1 → (k'.ids.phase p).live = true → k'.ids.pid p ≠ 1 := by
  have hrun : Run ProcessIds.Step ProcessIds.Regular ProcessIds.blank [.start 0] (started 1) :=
    .cons (by unfold ProcessIds.Regular; decide) rfl (.nil _)
  have hsupplied : (sampleKernel 1 0 (program 4)).Supplied () := by
    rintro _ ⟨⟩
    refine ⟨by decide +kernel, ?_⟩
    rintro _ ⟨⟩
    decide +kernel
  obtain ⟨⟨r, k'⟩, hexec, hr⟩ : ∃ r, (sampleKernel 1 0 (program 4)).exec 1 () = some r ∧
      decide (r.1 = 1) = true :=
    (Option.any_eq_true _ _).1 (by decide +kernel)
  obtain rfl : r = 1 := of_decide_eq_true hr
  obtain ⟨-, hpid, -, -, hothers⟩ :=
    (exec_reports _ _ _ _ _ _ _ _ hrun rfl hsupplied hexec).1 (by decide)
  exact ⟨k', hexec, hpid, hothers⟩

/-- With all frames in use the answer is 0, the id of process 0, and no process is made. With all
ids in use the answer is negative, but a process is made and has taken frames. A program that is
larger than the memory stops the simulator. -/
theorem exec_misreports :
    (∀ n, Run ProcessIds.Step Free ProcessIds.blank ((List.range n).map .start) (started n)) ∧
    (∃ k', (sampleKernel 1 (-1) (program 4)).exec 1 () = some (0, k') ∧
      k'.ids.phase 1 = .absent ∧ k'.ids.phase 0 = .running ∧ k'.ids.pid 0 = 0) ∧
    (∃ k', (sampleKernel 16 0 (program 4)).exec 16 () = some (-1, k') ∧
      k'.ids.phase 16 = .running ∧ k'.ids.pm.pcbs (-1) = some 16 ∧
      k'.memory.bitMem.bit 0 = true) ∧
    (sampleKernel 1 0 (program 100000)).exec 1 () = none := by
  refine ⟨started_run, ?_, ?_, ?_⟩
  · obtain ⟨⟨r, k'⟩, hexec, hr⟩ : ∃ r, (sampleKernel 1 (-1) (program 4)).exec 1 () = some r ∧
        decide (r.1 = 0 ∧ r.2.ids.phase 1 = .absent ∧ r.2.ids.phase 0 = .running ∧
          r.2.ids.pid 0 = 0) = true :=
      (Option.any_eq_true _ _).1 (by decide +kernel)
    obtain ⟨rfl, hphase⟩ := of_decide_eq_true hr
    exact ⟨k', hexec, hphase⟩
  · obtain ⟨⟨r, k'⟩, hexec, hr⟩ : ∃ r, (sampleKernel 16 0 (program 4)).exec 16 () = some r ∧
        decide (r.1 = -1 ∧ r.2.ids.phase 16 = .running ∧ r.2.ids.pm.pcbs (-1) = some 16 ∧
          r.2.memory.bitMem.bit 0 = true) = true :=
      (Option.any_eq_true _ _).1 (by decide +kernel)
    obtain ⟨rfl, hphase⟩ := of_decide_eq_true hr
    exact ⟨k', hexec, hphase⟩
  · have hfile : (sampleKernel 1 0 (program 100000)).files () = some (program 100000) := rfl
    have hheader : (program 100000).header = some ⟨⟨0, 40, 100000⟩, ⟨0, 0, 0⟩, ⟨0, 0, 0⟩⟩ := rfl
    have hsize : NoffHeader.numPages ⟨⟨0, 40, 100000⟩, ⟨0, 0, 0⟩, ⟨0, 0, 0⟩⟩ > numPhysPages := by
      decide
    simp only [Kernel.exec, hfile, hheader, Option.bind_some, if_pos hsize]

end Nachos.ExecCalls
