import Nachos.ProcessManager
import Mathlib.Data.Finset.Card

/-!
# Process ids under `Exec`, `Fork`, `Join` and `Exit`

The system calls taken one after another. `Join` is two steps, since the
caller waits in between: its call, which counts the join, and its return once
the process it waits for has a status. A process is named by its control
block, which is never deleted, so that a recycled id does not identify it.
-/
namespace Nachos.ProcessIds
open GuardedRuns

inductive Phase where
  | absent
  | running
  | joining (id : ℤ)
  | exited
  deriving DecidableEq, Repr

/-- The process has not called `Exit`. -/
def Phase.live : Phase → Bool
  | .running => true
  | .joining _ => true
  | _ => false

structure State (P : Type*) where
  pm : ProcessTable P
  procs : Finset P
  phase : P → Phase
  pid : P → ℤ
  status : P → ℤ

inductive Label (P : Type*) where
  | start (child : P)
  | exec (caller child : P) (memory : Bool)
  | fork (caller child : P) (memory : Bool)
  | joinCall (caller : P) (id : ℤ)
  | joinReturn (caller : P)
  | exit (caller : P) (status : ℤ)

variable {P : Type*} [DecidableEq P]

namespace State

/-- `pcb = new PCB(pm->GetPID(), ..); pm->AddProcess(pcb)` -/
def newProcess (s : State P) (c : P) : State P :=
  let r := s.pm.getPID
  { pm := r.2.addProcess c r.1
    procs := insert c s.procs
    phase := Function.update s.phase c .running
    pid := Function.update s.pid c r.1
    status := Function.update s.status c (-1) }

/-- The constructor that finds too little memory clears the id and throws. -/
def failedExec (s : State P) (c : P) : Option (State P) :=
  let t := s.newProcess c
  (t.pm.clearPID (t.pid c)).map fun pm =>
    { t with pm := pm, phase := Function.update t.phase c .absent }

/-- What the system call does after `pm->Join(id)`: it is the caller's own id
that is cleared when the count has gone down to zero. -/
def afterJoin (s : State P) (p : P) (id : ℤ) : Option (State P) :=
  (s.pm.decrementJoins id).bind fun pm =>
    (pm.getStatus s.status id).bind fun _ =>
      (pm.getJoins id).bind fun joins =>
        if joins = 0 then (pm.clearPID (s.pid p)).map fun pm => { s with pm := pm }
        else some { s with pm := pm }

def joinCall (s : State P) (p : P) (id : ℤ) : Option (State P) :=
  (s.pm.known id).bind fun marked =>
    if marked then
      some { s with pm := s.pm.countJoin id, phase := Function.update s.phase p (.joining id) }
    else s.afterJoin p id

/-- The loop of `ProcessManager::Join` ends once the status is set. -/
def joinReturn (s : State P) (p : P) : Option (State P) :=
  match s.phase p with
  | .joining id =>
    (s.pm.pcbs id).bind fun q =>
      if s.status q > -1 then
        { s with phase := Function.update s.phase p .running }.afterJoin p id
      else none
  | _ => none

def exit (s : State P) (p : P) (status : ℤ) : Option (State P) :=
  let s := { s with
    phase := Function.update s.phase p .exited
    status := Function.update s.status p (if status < 0 then 0 else status) }
  (s.pm.getJoins (s.pid p)).bind fun joins =>
    if joins = 0 then (s.pm.clearPID (s.pid p)).map fun pm => { s with pm := pm } else some s

end State

/-- `none` is a call that is not made: the caller is not running its own code,
the control block is not new, or an assertion stops the simulator. -/
def step (s : State P) : Label P → Option (State P)
  | .start c => if s.phase c = .absent then some (s.newProcess c) else none
  | .exec p c memory =>
    if s.phase p = .running ∧ s.phase c = .absent then
      if memory then some (s.newProcess c) else s.failedExec c
    else none
  | .fork p c memory =>
    if s.phase p = .running ∧ s.phase c = .absent then
      if memory then some (s.newProcess c) else some s
    else none
  | .joinCall p id => if s.phase p = .running then s.joinCall p id else none
  | .joinReturn p => s.joinReturn p
  | .exit p status => if s.phase p = .running then s.exit p status else none

def Step (s : State P) (l : Label P) (t : State P) : Prop := step s l = some t

def initial (storage : ℕ → Word) (maxProcess : ℕ) (pcbs : ℤ → Option P) (joins : ℤ → ℤ)
    (pid status : P → ℤ) : State P :=
  ⟨.create storage maxProcess pcbs joins, ∅, fun _ => .absent, pid, status⟩

omit [DecidableEq P] in
/-- Ids name processes: a process that has not exited owns its id, and an id
that is in use belongs to such a process or to one that is still joined. -/
structure Identified (s : State P) : Prop where
  owns : ∀ p, (s.phase p).live = true → s.pm.Marked (s.pid p) ∧ s.pm.pcbs (s.pid p) = some p
  distinct : ∀ p q, (s.phase p).live = true → (s.phase q).live = true → s.pid p = s.pid q → p = q
  freed : ∀ q, s.phase q = .exited → (∀ p, s.phase p ≠ .joining (s.pid q)) →
    s.pm.Marked (s.pid q) → ∃ r, (s.phase r).live = true ∧ s.pid r = s.pid q
  used : ∀ i, s.pm.Marked i → ∃ q, s.pid q = i ∧
    ((s.phase q).live = true ∨ (s.phase q = .exited ∧ ∃ p, s.phase p = .joining i))

/-- The calls that do not reach a slip: a free id is there for every `GetPID`,
and a `Join` that returns is not the last one on its process. -/
def Regular (s : State P) : Label P → Prop
  | .start _ => s.pm.processIDs.numClear ≠ 0
  | .exec _ _ _ => s.pm.processIDs.numClear ≠ 0
  | .fork _ _ memory => memory = true → s.pm.processIDs.numClear ≠ 0
  | .joinCall _ _ => True
  | .joinReturn p => ∀ id, s.phase p = .joining id → s.pm.joins id ≠ 1
  | .exit _ _ => True

def joiners (s : State P) (i : ℤ) : Finset P := s.procs.filter fun p => s.phase p = .joining i

structure Inv (s : State P) : Prop where
  started : ∀ p, s.phase p ≠ .absent → p ∈ s.procs
  owns : ∀ p, (s.phase p).live = true → s.pm.Marked (s.pid p) ∧ s.pm.pcbs (s.pid p) = some p
  used : ∀ i, s.pm.Marked i → ∃ q, s.pid q = i ∧ s.pm.pcbs i = some q ∧
    ((s.phase q).live = true ∨ (s.phase q = .exited ∧ (joiners s i).Nonempty))
  joined : ∀ p i, s.phase p = .joining i → s.pm.Marked i
  counted : ∀ i, s.pm.Marked i → s.pm.joins i = (joiners s i).card

omit [DecidableEq P] in
theorem mem_joiners {s : State P} (h : Inv s) {p : P} {i : ℤ} :
    p ∈ joiners s i ↔ s.phase p = .joining i := by
  simp only [joiners, Finset.mem_filter, and_iff_right_iff_imp]
  intro hp
  exact h.started p (by simp [hp])

omit [DecidableEq P] in
theorem Inv.identified {s : State P} (h : Inv s) : Identified s := by
  have hdistinct : ∀ p q, (s.phase p).live = true → (s.phase q).live = true →
      s.pid p = s.pid q → p = q := by
    intro p q hp hq hpid
    have hpcb := (h.owns p hp).2
    rw [hpid, (h.owns q hq).2] at hpcb
    exact (Option.some.inj hpcb).symm
  refine ⟨h.owns, hdistinct, fun q _ hno hmarked => ?_, fun i hi => ?_⟩
  · obtain ⟨r, hr, -, hlive | ⟨-, p, hp⟩⟩ := h.used _ hmarked
    · exact ⟨r, hlive, hr⟩
    · exact absurd ((mem_joiners h).mp hp) (hno p)
  · obtain ⟨q, hq, -, hlive | ⟨hex, p, hp⟩⟩ := h.used i hi
    · exact ⟨q, hq, Or.inl hlive⟩
    · exact ⟨q, hq, Or.inr ⟨hex, p, (mem_joiners h).mp hp⟩⟩

/-- A control block that is no process yet gets a phase of its own. -/
theorem joiners_of_absent {s t : State P} {c : P} {i : ℤ} (hc : s.phase c = .absent)
    (hc' : t.phase c ≠ .joining i) (hprocs : t.procs = insert c s.procs)
    (hphase : ∀ p, p ≠ c → t.phase p = s.phase p) : joiners t i = joiners s i := by
  ext p
  simp only [joiners, Finset.mem_filter, hprocs, Finset.mem_insert]
  by_cases hp : p = c
  · subst hp
    simp [hc, hc']
  · simp [hp, hphase p hp]

theorem Inv.newProcess {s : State P} (h : Inv s) {c : P} (hc : s.phase c = .absent)
    (hfree : s.pm.processIDs.numClear ≠ 0) : Inv (s.newProcess c) := by
  obtain ⟨hnew, hmark, hothers⟩ : ¬ s.pm.Marked s.pm.getPID.1 ∧
      s.pm.getPID.2.Marked s.pm.getPID.1 ∧
      ∀ i, i ≠ s.pm.getPID.1 → (s.pm.getPID.2.Marked i ↔ s.pm.Marked i) :=
    (s.pm.getPID_cases).resolve_right fun hfull => hfree hfull.1
  have hphase : ∀ p, p ≠ c → (s.newProcess c).phase p = s.phase p := fun p hp => by
    simp [State.newProcess, hp]
  have hjoiners : ∀ i, joiners (s.newProcess c) i = joiners s i := fun i =>
    joiners_of_absent hc (by simp [State.newProcess]) rfl hphase
  have hne : ∀ q, s.phase q ≠ .absent → q ≠ c := by
    rintro q hq rfl
    exact hq hc
  have hlive : ∀ q, (s.phase q).live = true → q ≠ c := fun q hq => hne q fun ha => by
    simp [ha, Phase.live] at hq
  constructor
  · intro p hp
    by_cases hpc : p = c
    · simp [State.newProcess, hpc]
    · rw [hphase p hpc] at hp
      exact Finset.mem_insert_of_mem (h.started p hp)
  · intro p hp
    by_cases hpc : p = c
    · subst hpc
      simpa [State.newProcess] using hmark
    · rw [hphase p hpc] at hp
      obtain ⟨hm, hpcb⟩ := h.owns p hp
      have hid : s.pid p ≠ s.pm.getPID.1 := fun he => hnew (he ▸ hm)
      simp only [State.newProcess, ProcessTable.marked_addProcess, Function.update_of_ne hpc]
      exact ⟨(hothers _ hid).mpr hm, by simpa [hid] using hpcb⟩
  · intro i hi
    by_cases hid : i = s.pm.getPID.1
    · refine ⟨c, ?_, ?_, Or.inl ?_⟩
      · simp [State.newProcess, hid]
      · simp [State.newProcess, hid]
      · simp [State.newProcess, Phase.live]
    · have hi' : s.pm.getPID.2.Marked i := by simpa [State.newProcess] using hi
      obtain ⟨q, hq, hpcb, hown⟩ := h.used i ((hothers i hid).mp hi')
      have hqc : q ≠ c := by
        rcases hown with hl | ⟨he, -⟩
        · exact hlive q hl
        · exact hne q (by simp [he])
      refine ⟨q, ?_, ?_, ?_⟩
      · simpa [State.newProcess, hqc] using hq
      · simpa [State.newProcess, hid] using hpcb
      · rw [hphase q hqc, hjoiners i]
        exact hown
  · intro p i hp
    have hpc : p ≠ c := by
      rintro rfl
      simp [State.newProcess] at hp
    rw [hphase p hpc] at hp
    have hm := h.joined p i hp
    have hid : i ≠ s.pm.getPID.1 := fun he => hnew (he ▸ hm)
    simpa [State.newProcess] using (hothers i hid).mpr hm
  · intro i hi
    rw [hjoiners i]
    by_cases hid : i = s.pm.getPID.1
    · have hempty : joiners s i = ∅ := by
        refine Finset.eq_empty_of_forall_notMem fun p hp => hnew ?_
        exact hid ▸ h.joined p i ((mem_joiners h).mp hp)
      rw [hempty]
      simp [State.newProcess, hid]
    · have hi' : s.pm.getPID.2.Marked i := by simpa [State.newProcess] using hi
      have hcount := h.counted i ((hothers i hid).mp hi')
      simpa [State.newProcess, hid] using hcount

omit [DecidableEq P] in
theorem Inv.joiners_eq_empty {s : State P} (h : Inv s) {i : ℤ} (hi : s.pm.Marked i)
    (hj : s.pm.joins i = 0) : joiners s i = ∅ := by
  have hcard := h.counted i hi
  rw [hj] at hcard
  exact Finset.card_eq_zero.mp (by omega)

/-- A running process moves to a phase that is no join. -/
theorem joiners_of_running {s t : State P} {p : P} {i : ℤ} (hp : s.phase p = .running)
    (hp' : t.phase p ≠ .joining i) (hprocs : t.procs = s.procs)
    (hphase : ∀ q, q ≠ p → t.phase q = s.phase q) : joiners t i = joiners s i := by
  ext q
  simp only [joiners, Finset.mem_filter, hprocs]
  by_cases hq : q = p
  · subst hq
    simp [hp, hp']
  · simp [hphase q hq]

/-- The id of a process that stops and that nobody joins is given back. -/
theorem Inv.release {s : State P} (h : Inv s) {p : P} (hp : s.phase p = .running)
    (hj : s.pm.joins (s.pid p) = 0) {f : Phase} (hf : f.live = false) (status : P → ℤ)
    {pm : ProcessTable P} (hpm : s.pm.clearPID (s.pid p) = some pm) :
    Inv { s with pm := pm, phase := Function.update s.phase p f, status := status } := by
  obtain ⟨hm, hpcb⟩ := h.owns p (by simp [hp, Phase.live])
  obtain ⟨pm', hpm', hpcbs, hjoins, hclear, hothers⟩ := ProcessTable.clearPID_marked hm
  obtain rfl : pm = pm' := Option.some.inj (hpm.symm.trans hpm')
  have hmarked : ∀ {i}, pm.Marked i → i ≠ s.pid p ∧ s.pm.Marked i := by
    intro i hi
    have hne : i ≠ s.pid p := by
      rintro rfl
      exact hclear hi
    exact ⟨hne, (hothers i hne).mp hi⟩
  have hnot : ∀ i, f ≠ .joining i := by
    rintro i rfl
    simp [Phase.live] at hf
  have hjoiners : ∀ i, joiners { s with
      pm := pm, phase := Function.update s.phase p f, status := status } i = joiners s i :=
    fun i => joiners_of_running hp (by simpa using hnot i) rfl
      fun q hq => Function.update_of_ne hq ..
  have hno := h.joiners_eq_empty hm hj
  constructor
  · intro q hq
    by_cases hqp : q = p
    · subst hqp
      exact h.started q (by simp [hp])
    · exact h.started q (by simpa [hqp] using hq)
  · intro q hq
    have hqp : q ≠ p := by
      rintro rfl
      simp [hf] at hq
    obtain ⟨hmq, hpcbq⟩ := h.owns q (by simpa [hqp] using hq)
    have hid : s.pid q ≠ s.pid p := by
      intro he
      rw [he, hpcb] at hpcbq
      exact hqp (Option.some.inj hpcbq).symm
    exact ⟨(hothers _ hid).mpr hmq, by simpa [hpcbs, hid] using hpcbq⟩
  · intro i hi
    obtain ⟨hid, hi⟩ := hmarked hi
    obtain ⟨q, hq, hpcbq, hown⟩ := h.used i hi
    have hqp : q ≠ p := by
      rintro rfl
      exact hid hq.symm
    refine ⟨q, hq, by simpa [hpcbs, hid] using hpcbq, ?_⟩
    rw [hjoiners i]
    simpa [hqp] using hown
  · intro q i hq
    have hqp : q ≠ p := by
      rintro rfl
      exact hnot i (by simpa using hq)
    have hq' : s.phase q = .joining i := by simpa [hqp] using hq
    have hid : i ≠ s.pid p := by
      rintro rfl
      have hmem := (mem_joiners h).mpr hq'
      simp [hno] at hmem
    exact (hothers i hid).mpr (h.joined q i hq')
  · intro i hi
    rw [hjoiners i, hjoins]
    exact h.counted i (hmarked hi).2

theorem Inv.failedExec {s t : State P} (h : Inv s) {c : P} (hc : s.phase c = .absent)
    (hfree : s.pm.processIDs.numClear ≠ 0) (ht : s.failedExec c = some t) : Inv t := by
  simp only [State.failedExec, Option.map_eq_some_iff] at ht
  obtain ⟨pm, hpm, rfl⟩ := ht
  refine (h.newProcess hc hfree).release ?_ ?_ rfl _ hpm
  · simp [State.newProcess]
  · simp [State.newProcess]

/-- A process that is joined keeps its id when it exits. -/
theorem Inv.exitJoined {s : State P} (h : Inv s) {p : P} (hp : s.phase p = .running)
    (hj : s.pm.joins (s.pid p) ≠ 0) (status : P → ℤ) :
    Inv { s with phase := Function.update s.phase p .exited, status := status } := by
  obtain ⟨hm, hpcb⟩ := h.owns p (by simp [hp, Phase.live])
  have hne : (joiners s (s.pid p)).Nonempty := by
    rw [Finset.nonempty_iff_ne_empty]
    intro hempty
    exact hj (by simp [h.counted _ hm, hempty])
  have hjoiners : ∀ i, joiners { s with
      phase := Function.update s.phase p .exited, status := status } i = joiners s i :=
    fun i => joiners_of_running hp (by simp) rfl fun q hq => Function.update_of_ne hq ..
  constructor
  · intro q hq
    by_cases hqp : q = p
    · subst hqp
      exact h.started q (by simp [hp])
    · exact h.started q (by simpa [hqp] using hq)
  · intro q hq
    have hqp : q ≠ p := by
      rintro rfl
      simp [Phase.live] at hq
    exact h.owns q (by simpa [hqp] using hq)
  · intro i hi
    obtain ⟨q, hq, hpcbq, hown⟩ := h.used i hi
    refine ⟨q, hq, hpcbq, ?_⟩
    rw [hjoiners i]
    by_cases hqp : q = p
    · subst hqp
      exact Or.inr ⟨Function.update_self .., hq ▸ hne⟩
    · simpa [hqp] using hown
  · intro q i hq
    have hqp : q ≠ p := by
      rintro rfl
      simp at hq
    exact h.joined q i (by simpa [hqp] using hq)
  · intro i hi
    rw [hjoiners i]
    exact h.counted i hi

theorem Inv.exit {s t : State P} (h : Inv s) {p : P} (hp : s.phase p = .running) {status : ℤ}
    (ht : s.exit p status = some t) : Inv t := by
  obtain ⟨hm, hpcb⟩ := h.owns p (by simp [hp, Phase.live])
  have hknown := (ProcessTable.known_eq_true_iff s.pm (s.pid p)).mpr hm
  simp only [State.exit, ProcessTable.getJoins, hknown, Option.map_some, Option.bind_some,
    if_true] at ht
  by_cases hj : s.pm.joins (s.pid p) = 0
  · rw [if_pos hj] at ht
    obtain ⟨pm, hpm, rfl⟩ := Option.map_eq_some_iff.mp ht
    exact h.release hp hj rfl _ hpm
  · rw [if_neg hj] at ht
    obtain rfl := Option.some.inj ht
    exact h.exitJoined hp hj _

omit [DecidableEq P] in
theorem afterJoin_unmarked {s : State P} {p : P} {id : ℤ} (hk : s.pm.known id = some false) :
    s.afterJoin p id = some s := by
  simp [State.afterJoin, ProcessTable.decrementJoins, ProcessTable.getStatus,
    ProcessTable.getJoins, hk]

/-- A process enters or leaves a join. -/
theorem Inv.rephase {s : State P} (h : Inv s) {p : P} (hp : (s.phase p).live = true) {f : Phase}
    (hf : f.live = true) {pm : ProcessTable P} (hids : pm.processIDs = s.pm.processIDs)
    (hpcbs : pm.pcbs = s.pm.pcbs) (hjoin : ∀ i, f = .joining i → s.pm.Marked i)
    (hkept : ∀ i, (joiners s i).Nonempty →
      (joiners { s with pm := pm, phase := Function.update s.phase p f } i).Nonempty)
    (hcount : ∀ i, s.pm.Marked i → pm.joins i =
      (joiners { s with pm := pm, phase := Function.update s.phase p f } i).card) :
    Inv { s with pm := pm, phase := Function.update s.phase p f } := by
  have hmarked : ∀ i, pm.Marked i ↔ s.pm.Marked i := fun i => ProcessTable.marked_congr hids
  constructor
  · intro q hq
    by_cases hqp : q = p
    · subst hqp
      exact h.started q fun ha => by simp [ha, Phase.live] at hp
    · exact h.started q (by simpa [hqp] using hq)
  · intro q hq
    have hq' : (s.phase q).live = true := by
      by_cases hqp : q = p
      · subst hqp
        exact hp
      · simpa [hqp] using hq
    simpa only [hmarked, hpcbs] using h.owns q hq'
  · intro i hi
    obtain ⟨q, hq, hpcbq, hown⟩ := h.used i ((hmarked i).mp hi)
    refine ⟨q, hq, by simpa only [hpcbs] using hpcbq, ?_⟩
    by_cases hqp : q = p
    · subst hqp
      exact Or.inl (by simpa using hf)
    · rcases hown with hl | ⟨he, hne⟩
      · exact Or.inl (by simpa [hqp] using hl)
      · exact Or.inr ⟨by simpa [hqp] using he, hkept i hne⟩
  · intro q i hq
    refine (hmarked i).mpr ?_
    by_cases hqp : q = p
    · subst hqp
      exact hjoin i (by simpa using hq)
    · exact h.joined q i (by simpa [hqp] using hq)
  · intro i hi
    exact hcount i ((hmarked i).mp hi)

theorem Inv.enterJoin {s : State P} (h : Inv s) {p : P} (hp : s.phase p = .running) {id : ℤ}
    (hm : s.pm.Marked id) : Inv { s with
      pm := s.pm.countJoin id, phase := Function.update s.phase p (.joining id) } := by
  have hin : ∀ i, joiners { s with
      pm := s.pm.countJoin id, phase := Function.update s.phase p (.joining id) } i =
      if i = id then insert p (joiners s id) else joiners s i := by
    intro i
    ext q
    by_cases hqp : q = p
    · subst hqp
      have hq : q ∈ s.procs := h.started q (by simp [hp])
      by_cases hi : i = id
      · simp [joiners, hq, hi]
      · simp [joiners, hp, hi, Ne.symm hi]
    · by_cases hi : i = id
      · subst hi
        simp [joiners, hqp]
      · simp [joiners, hqp, hi]
  refine h.rephase (by simp [hp, Phase.live]) rfl rfl rfl ?_ ?_ ?_
  · rintro i ⟨⟩
    exact hm
  · intro i hne
    rw [hin]
    split_ifs with hi
    · exact Finset.insert_nonempty _ _
    · exact hne
  · intro i hi
    rw [hin]
    split_ifs with hid
    · subst hid
      have hnot : p ∉ joiners s i := by
        rw [mem_joiners h, hp]
        simp
      rw [Finset.card_insert_of_notMem hnot]
      simp [ProcessTable.countJoin, h.counted i hi]
    · simp [ProcessTable.countJoin, hid, h.counted i hi]

theorem Inv.joinCall {s t : State P} (h : Inv s) {p : P} (hp : s.phase p = .running) {id : ℤ}
    (ht : s.joinCall p id = some t) : Inv t := by
  simp only [State.joinCall, Option.bind_eq_some_iff] at ht
  obtain ⟨marked, hk, ht⟩ := ht
  cases marked with
  | false =>
    rw [if_neg (by decide), afterJoin_unmarked hk] at ht
    obtain rfl := Option.some.inj ht
    exact h
  | true =>
    have hm := (ProcessTable.known_eq_true_iff s.pm id).mp hk
    obtain rfl := Option.some.inj ht
    exact h.enterJoin hp hm

/-- A join that is not the last one leaves the id to the others. -/
theorem Inv.leaveJoin {s : State P} (h : Inv s) {p : P} {id : ℤ} (hp : s.phase p = .joining id)
    (hlast : s.pm.joins id ≠ 1) : 1 < s.pm.joins id ∧ Inv { s with
      pm := s.pm.uncountJoin id, phase := Function.update s.phase p .running } := by
  have hm := h.joined p id hp
  have hmem : p ∈ joiners s id := (mem_joiners h).mpr hp
  have hcount := h.counted id hm
  have hpos : 0 < (joiners s id).card := Finset.card_pos.mpr ⟨p, hmem⟩
  have hmany : 1 < s.pm.joins id := by omega
  have hout : ∀ i, joiners { s with
      pm := s.pm.uncountJoin id, phase := Function.update s.phase p .running } i =
      if i = id then (joiners s id).erase p else joiners s i := by
    intro i
    ext q
    by_cases hqp : q = p
    · subst hqp
      by_cases hi : i = id
      · simp [joiners, hi]
      · simp [joiners, hp, hi, Ne.symm hi]
    · by_cases hi : i = id
      · subst hi
        simp [joiners, hqp]
      · simp [joiners, hqp, hi]
  refine ⟨hmany, h.rephase (by simp [hp, Phase.live]) rfl ?_ ?_ (by simp) ?_ ?_⟩
  · simp
  · simp
  · intro i hne
    rw [hout]
    split_ifs with hi
    · rw [← Finset.card_pos, Finset.card_erase_of_mem hmem]
      omega
    · exact hne
  · intro i hi
    rw [hout]
    have hdec : s.pm.joins id > 0 := by omega
    split_ifs with hid
    · subst hid
      rw [Finset.card_erase_of_mem hmem]
      simp only [ProcessTable.uncountJoin, hdec, if_true, Function.update_self]
      omega
    · simp [ProcessTable.uncountJoin, hdec, hid, h.counted i hi]

theorem Inv.joinReturn {s t : State P} (h : Inv s) {p : P}
    (hlast : ∀ id, s.phase p = .joining id → s.pm.joins id ≠ 1)
    (ht : s.joinReturn p = some t) : Inv t := by
  unfold State.joinReturn at ht
  split at ht
  · rename_i id hp
    obtain ⟨q, hq, ht⟩ := Option.bind_eq_some_iff.mp ht
    split_ifs at ht with hst
    have hm := h.joined p id hp
    have hk := (ProcessTable.known_eq_true_iff s.pm id).mpr hm
    have hk' : (s.pm.uncountJoin id).known id = some true :=
      (ProcessTable.known_eq_true_iff _ id).mpr (by simpa using hm)
    obtain ⟨hmany, hinv⟩ := h.leaveJoin hp (hlast id hp)
    have hj : (s.pm.uncountJoin id).joins id ≠ 0 := by
      have hdec : s.pm.joins id > 0 := by omega
      simp only [ProcessTable.uncountJoin, hdec, if_true, Function.update_self]
      omega
    simp only [State.afterJoin, ProcessTable.decrementJoins, hk, Option.map_some,
      Option.bind_some, if_true, ProcessTable.getStatus, hk', ProcessTable.pcbs_uncountJoin, hq,
      ProcessTable.getJoins, hj, if_false] at ht
    obtain rfl := Option.some.inj ht
    exact hinv
  · cases ht

theorem step_inv {s t : State P} {l : Label P} (h : Inv s) (hg : Regular s l)
    (hst : Step s l t) : Inv t := by
  unfold Step step at hst
  cases l with
  | start c =>
    simp only at hst
    split_ifs at hst with hc
    obtain rfl := Option.some.inj hst
    exact h.newProcess hc hg
  | exec p c memory =>
    simp only at hst
    split_ifs at hst with hc hmem
    · obtain rfl := Option.some.inj hst
      exact h.newProcess hc.2 hg
    · exact h.failedExec hc.2 hg hst
  | fork p c memory =>
    simp only at hst
    split_ifs at hst with hc hmem
    · obtain rfl := Option.some.inj hst
      exact h.newProcess hc.2 (hg hmem)
    · obtain rfl := Option.some.inj hst
      exact h
  | joinCall p id =>
    simp only at hst
    split_ifs at hst with hp
    exact h.joinCall hp hst
  | joinReturn p => exact h.joinReturn hg hst
  | exit p status =>
    simp only at hst
    split_ifs at hst with hp
    exact h.exit hp hst

theorem newProcess_numBits (s : State P) (c : P) :
    (s.newProcess c).pm.processIDs.numBits = s.pm.processIDs.numBits :=
  BitMap.find_numBits _

omit [DecidableEq P] in
theorem afterJoin_numBits {s t : State P} {p : P} {id : ℤ} (h : s.afterJoin p id = some t) :
    t.pm.processIDs.numBits = s.pm.processIDs.numBits := by
  obtain ⟨pm, hpm, h⟩ := Option.bind_eq_some_iff.1 h
  obtain ⟨-, -, h⟩ := Option.bind_eq_some_iff.1 h
  obtain ⟨joins, -, h⟩ := Option.bind_eq_some_iff.1 h
  have hids := (ProcessTable.decrementJoins_frame hpm).1
  split_ifs at h
  · obtain ⟨pm', hpm', rfl⟩ := Option.map_eq_some_iff.1 h
    rw [ProcessTable.clearPID_numBits hpm', hids]
  · obtain rfl := Option.some.inj h
    rw [hids]

/-- The number of ids stays what it was when the manager was made. -/
theorem step_numBits {s t : State P} {l : Label P} (h : Step s l t) :
    t.pm.processIDs.numBits = s.pm.processIDs.numBits := by
  rw [Step, step.eq_def] at h
  cases l with
  | start c =>
    dsimp only at h
    split_ifs at h
    obtain rfl := Option.some.inj h
    exact newProcess_numBits s c
  | exec p c memory =>
    dsimp only at h
    split_ifs at h
    · obtain rfl := Option.some.inj h
      exact newProcess_numBits s c
    · obtain ⟨pm, hpm, rfl⟩ := Option.map_eq_some_iff.1 h
      exact (ProcessTable.clearPID_numBits hpm).trans (newProcess_numBits s c)
  | fork p c memory =>
    dsimp only at h
    split_ifs at h
    · obtain rfl := Option.some.inj h
      exact newProcess_numBits s c
    · obtain rfl := Option.some.inj h
      rfl
  | joinCall p id =>
    dsimp only at h
    split_ifs at h
    obtain ⟨marked, -, h⟩ := Option.bind_eq_some_iff.1 h
    split_ifs at h
    · obtain rfl := Option.some.inj h
      rfl
    · exact afterJoin_numBits h
  | joinReturn p =>
    dsimp only [State.joinReturn] at h
    split at h
    · obtain ⟨q, -, h⟩ := Option.bind_eq_some_iff.1 h
      split_ifs at h
      have hbits := afterJoin_numBits h
      exact hbits
    · cases h
  | exit p status =>
    dsimp only at h
    split_ifs at h
    obtain ⟨joins, -, h⟩ := Option.bind_eq_some_iff.1 h
    by_cases hj : joins = 0
    · rw [if_pos hj] at h
      obtain ⟨pm, hpm, rfl⟩ := Option.map_eq_some_iff.1 h
      exact ProcessTable.clearPID_numBits hpm
    · rw [if_neg hj] at h
      obtain rfl := Option.some.inj h
      rfl

omit [DecidableEq P] in
theorem initial_inv (storage : ℕ → Word) (maxProcess : ℕ) (pcbs : ℤ → Option P) (joins : ℤ → ℤ)
    (pid status : P → ℤ) : Inv (initial storage maxProcess pcbs joins pid status) := by
  have hno := ProcessTable.create_not_marked storage maxProcess pcbs joins
  constructor
  · intro p hp
    exact absurd rfl hp
  · intro p hp
    simp [initial, Phase.live] at hp
  · exact fun i hi => absurd hi (hno i)
  · intro p i hp
    simp [initial] at hp
  · exact fun i hi => absurd hi (hno i)

/-- Along every sequence of calls that meets the condition, ids identify the
processes that have not exited, and an id is in use only for such a process or
for one on which a `Join` has not returned. -/
theorem ids_identify (storage : ℕ → Word) (maxProcess : ℕ) (pcbs : ℤ → Option P) (joins : ℤ → ℤ)
    (pid status : P → ℤ) (ls : List (Label P)) (s : State P)
    (hrun : Run Step Regular (initial storage maxProcess pcbs joins pid status) ls s) :
    Identified s :=
  (hrun.invariant (initial_inv storage maxProcess pcbs joins pid status) step_inv).identified

/-- Zeroed storage and sixteen ids, for runs on given inputs. -/
def blank : State ℕ := initial (fun _ => 0) 16 (fun _ => none) (fun _ => 0) (fun _ => 0) fun _ => 0

/-- Process 0 joins and its child exits while joined by another one as well. -/
theorem ids_identify_two_joins :
    ∃ s, Run Step Regular blank [.start 0, .exec 0 1 true, .fork 0 2 true, .joinCall 0 1,
      .joinCall 2 1, .exit 1 7, .joinReturn 2] s ∧ s.pm.Marked 1 ∧ Identified s := by
  have hrun : Run Step Regular blank [.start 0, .exec 0 1 true, .fork 0 2 true, .joinCall 0 1,
      .joinCall 2 1, .exit 1 7, .joinReturn 2] _ :=
    .cons (by unfold Regular; decide) rfl (.cons (by unfold Regular; decide) rfl
      (.cons (fun _ => by decide) rfl (.cons trivial rfl (.cons trivial rfl (.cons trivial rfl
        (.cons (by rintro id ⟨⟩; decide) rfl (.nil _)))))))
  exact ⟨_, hrun, by decide, ids_identify _ _ _ _ _ _ _ _ hrun⟩

/-- The last join on process 1 clears the id of its caller, process 0. -/
theorem join_clears_caller :
    ∃ s, Run Step Free blank
      [.start 0, .exec 0 1 true, .joinCall 0 1, .exit 1 7, .joinReturn 0] s ∧ ¬ Identified s := by
  obtain ⟨s, hrun, hs⟩ := exists_run_of_exec step blank
    [.start 0, .exec 0 1 true, .joinCall 0 1, .exit 1 7, .joinReturn 0]
    (fun s => decide (s.phase 0 = .running ∧ s.pid 0 = 0 ∧ ¬ s.pm.Marked 0)) (by decide)
  obtain ⟨hphase, hpid, hclear⟩ := of_decide_eq_true hs
  refine ⟨s, hrun, fun h => hclear ?_⟩
  rw [← hpid]
  exact (h.owns 0 (by simp [hphase, Phase.live])).1

end Nachos.ProcessIds
