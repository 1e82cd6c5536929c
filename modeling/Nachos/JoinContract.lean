import Nachos.LockOrder

/-!
# What `Join` returns

A `Join` that was meant for a child, because `Exec` returned the id of that
child to the caller, should return the status with which that child exits. It
does so as long as the entry of the child is there when `Join` tests the id,
and `ClearPID` does not take it away before the status is read.
-/
namespace Nachos.ProcessThreads
open GuardedRuns

variable {P : Type*}

/-- The child that is being added to the tables. -/
@[simp] def Pc.adds : Pc P → Option P
  | .enter (.add c _) => some c
  | .inside (.add c _) => some c
  | _ => none

/-- The id whose entry `ClearPID` is taking out, under both locks or after. -/
@[simp] def Pc.clearing : Pc P → Option ℤ
  | .locked (.clear pid _) => some pid
  | .clearEnd pid _ => some pid
  | _ => none

@[simp] def Pc.cleared : Pc P → Option ℤ
  | .clearEnd pid _ => some pid
  | _ => none

/-- Past the test of `Join`, up to the read of the status. -/
@[simp] def Pc.joins : Pc P → Option (ℤ × P)
  | .lock (.join pid target) => target.map (pid, ·)
  | .locked (.join pid target) => target.map (pid, ·)
  | .enter (.loop pid target) => target.map (pid, ·)
  | .inside (.loop pid target) => target.map (pid, ·)
  | .joinWait pid target => target.map (pid, ·)
  | .asleep pid target _ _ => target.map (pid, ·)
  | .woken pid target _ => target.map (pid, ·)
  | .joinLeave pid target => target.map (pid, ·)
  | .enter (.decrement pid target) => target.map (pid, ·)
  | .inside (.decrement pid target) => target.map (pid, ·)
  | .enter (.getStatus pid target) => target.map (pid, ·)
  | .inside (.getStatus pid target) => target.map (pid, ·)
  | .statusRead pid target => target.map (pid, ·)
  | _ => none

/-- Past the loop of `Join`. -/
@[simp] def Pc.past : Pc P → Option P
  | .joinLeave _ target => target
  | .enter (.decrement _ target) => target
  | .inside (.decrement _ target) => target
  | .enter (.getStatus _ target) => target
  | .inside (.getStatus _ target) => target
  | .statusRead _ target => target
  | _ => none

@[simp] def Caller.result : Caller P → Option (P × ℤ)
  | .join target value => target.map (·, value)
  | _ => none

/-- The value that `Join` has read and will return. -/
@[simp] def Pc.result : Pc P → Option (P × ℤ)
  | .enter (.getJoins _ k) => k.result
  | .inside (.getJoins _ k) => k.result
  | .joinsRead _ k => k.result
  | .enter (.nested (.clear _ k)) => k.result
  | .inside (.nested (.clear _ k)) => k.result
  | .lock (.clear _ k) => k.result
  | .locked (.clear _ k) => k.result
  | .clearEnd _ k => k.result
  | _ => none

@[simp] def Caller.exits : Caller P → Bool
  | .exit => true
  | _ => false

/-- In `ExitProcess`, or finished. -/
@[simp] def Pc.exits : Pc P → Bool
  | .finished => true
  | .enter (.nested (.broadcast _)) => true
  | .inside (.nested (.broadcast _)) => true
  | .lock (.broadcast _) => true
  | .locked (.broadcast _) => true
  | .broadcastUnlock _ => true
  | .broadcastEnd _ => true
  | .enter (.getJoins _ k) => k.exits
  | .inside (.getJoins _ k) => k.exits
  | .joinsRead _ k => k.exits
  | .enter (.nested (.clear _ k)) => k.exits
  | .inside (.nested (.clear _ k)) => k.exits
  | .lock (.clear _ k) => k.exits
  | .locked (.clear _ k) => k.exits
  | .clearEnd _ k => k.exits
  | _ => false

/-- The id and the child that `Join` is about to test for. -/
def Pc.tests : Pc P → Option (ℤ × P)
  | .inside (.nested (.join pid target)) => target.map (pid, ·)
  | _ => none

/-- The id whose entry `ClearPID` is about to empty. -/
def Pc.empties : Pc P → Option ℤ
  | .locked (.clear pid _) => some pid
  | _ => none

/-- The steps that do not lose a status: the entry of the child is there when
its parent's `Join` tests the id, and `ClearPID` takes out no entry that such a
`Join` still needs. -/
def Kept (s : State P) : Label P → Prop
  | .next p =>
    (∀ x ∈ (s.pc p).tests, s.table.Marked x.1 ∧ s.table.pcbs x.1 = some x.2) ∧
      ∀ pid ∈ (s.pc p).empties, ∀ q, ∀ x ∈ (s.pc q).joins, x.1 ≠ pid
  | _ => True

instance [Fintype P] [DecidableEq P] (s : State P) : (l : Label P) → Decidable (Kept s l)
  | .exec _ _ _ => isTrue trivial
  | .join _ _ _ => isTrue trivial
  | .exit _ _ => isTrue trivial
  | .next _ => inferInstanceAs (Decidable (_ ∧ _))

/-- `c` has called `ExitProcess`, and `value` is the status it passed. -/
def ExitedWith (s : State P) (c : P) (value : ℤ) : Prop :=
  ∃ status, s.exitArg c = some status ∧ value = exitStatus status

/-- What the tables hold: an id that is not in use has no entry, nor has one
that was handed out and is not added yet, and no two ids are handed out twice;
an entry that is being taken out is there and then empty; a `Join` past its
test finds its child. -/
structure Entries (s : State P) : Prop where
  unmarked : ∀ i, ¬ s.table.Marked i → i ≠ -1 → s.table.pcbs i = none ∧ s.locks i = none
  pending : ∀ p c, (s.pc p).adds = some c → s.pid c ≠ -1 →
    s.table.Marked (s.pid c) ∧ s.table.pcbs (s.pid c) = none ∧ s.locks (s.pid c) = none
  distinct : ∀ p q c d, (s.pc p).adds = some c → (s.pc q).adds = some d → s.pid c = s.pid d →
    s.pid c ≠ -1 → p = q
  started : ∀ p c, (s.pc p).adds = some c → s.pc c ≠ .absent
  clearing : ∀ p i, (s.pc p).clearing = some i → s.locks i ≠ none
  cleared : ∀ p i, (s.pc p).cleared = some i → s.table.pcbs i = none
  joins : ∀ p i c, (s.pc p).joins = some (i, c) → s.table.Marked i ∧ s.table.pcbs i = some c

/-- What the statuses say: they are set by `ExitProcess` only, a `Join` past
its loop was meant for a process that has exited, and what it has read or
returned is the status of that process. -/
structure Statuses (s : State P) : Prop where
  exited : ∀ p status, s.exitArg p = some status →
    (s.pc p).exits = true ∧ s.status p = exitStatus status
  running : ∀ p, s.exitArg p = none → s.status p = -1
  past : ∀ p c, (s.pc p).past = some c → s.exitArg c ≠ none
  result : ∀ p c v, (s.pc p).result = some (c, v) → ExitedWith s c v
  returned : ∀ p c v, (p, some c, v) ∈ s.returned → ExitedWith s c v

/-- `p` can go on to `c` as far as the tables are concerned: each thing the new
point needs was needed at the old one, or is there. -/
structure EntryReady (s : State P) (p : P) (c : Pc P) : Prop where
  present : c ≠ .absent
  adds : ∀ d, c.adds = some d → (s.pc p).adds = some d
  clearing : ∀ i, c.clearing = some i → (s.pc p).clearing = some i ∨ s.locks i ≠ none
  cleared : ∀ i, c.cleared = some i → (s.pc p).cleared = some i
  joins : ∀ i d, c.joins = some (i, d) →
    (s.pc p).joins = some (i, d) ∨ (s.table.Marked i ∧ s.table.pcbs i = some d)

structure StatusReady (s : State P) (p : P) (c : Pc P) : Prop where
  exits : (s.pc p).exits = true → c.exits = true
  past : ∀ d, c.past = some d → (s.pc p).past = some d ∨ s.exitArg d ≠ none
  result : ∀ d v, c.result = some (d, v) → (s.pc p).result = some (d, v) ∨ ExitedWith s d v

theorem Entries.move {s t : State P} (h : Entries s) {p : P} (hp : EntryReady s p (t.pc p))
    (hpc : ∀ q, q ≠ p → t.pc q = s.pc q) (hids : t.table.processIDs = s.table.processIDs)
    (hpcbs : t.table.pcbs = s.table.pcbs) (hlocks : t.locks = s.locks) (hpid : t.pid = s.pid) :
    Entries t := by
  have hmarked : ∀ i, t.table.Marked i ↔ s.table.Marked i := fun i =>
    ProcessTable.marked_congr hids
  have hadds : ∀ q c, (t.pc q).adds = some c → (s.pc q).adds = some c := by
    intro q c hq
    by_cases hqp : q = p
    · subst hqp
      exact hp.adds c hq
    · rwa [hpc q hqp] at hq
  constructor
  · intro i
    rw [hmarked, hpcbs, hlocks]
    exact h.unmarked i
  · intro q c hq
    rw [hpid, hmarked, hpcbs, hlocks]
    exact h.pending q c (hadds q c hq)
  · intro q r c d hq hr
    rw [hpid]
    exact h.distinct q r c d (hadds q c hq) (hadds r d hr)
  · intro q c hq
    by_cases hc : c = p
    · subst hc
      exact hp.present
    · rw [hpc c hc]
      exact h.started q c (hadds q c hq)
  · intro q i hq
    rw [hlocks]
    by_cases hqp : q = p
    · subst hqp
      exact (hp.clearing i hq).elim (h.clearing q i) id
    · rw [hpc q hqp] at hq
      exact h.clearing q i hq
  · intro q i hq
    rw [hpcbs]
    by_cases hqp : q = p
    · subst hqp
      exact h.cleared q i (hp.cleared i hq)
    · rw [hpc q hqp] at hq
      exact h.cleared q i hq
  · intro q i c hq
    rw [hmarked, hpcbs]
    by_cases hqp : q = p
    · subst hqp
      exact (hp.joins i c hq).elim (h.joins q i c) id
    · rw [hpc q hqp] at hq
      exact h.joins q i c hq

theorem Statuses.move {s t : State P} (h : Statuses s) {p : P} (hp : StatusReady s p (t.pc p))
    (hpc : ∀ q, q ≠ p → t.pc q = s.pc q) (hstatus : t.status = s.status)
    (hexit : t.exitArg = s.exitArg)
    (hret : ∀ q c v, (q, some c, v) ∈ t.returned →
      (q, some c, v) ∈ s.returned ∨ ExitedWith s c v) : Statuses t := by
  constructor
  · intro q status hq
    rw [hexit] at hq
    rw [hstatus]
    obtain ⟨hex, hst⟩ := h.exited q status hq
    refine ⟨?_, hst⟩
    by_cases hqp : q = p
    · subst hqp
      exact hp.exits hex
    · rwa [hpc q hqp]
  · rw [hexit, hstatus]
    exact h.running
  · intro q c hq
    rw [hexit]
    by_cases hqp : q = p
    · subst hqp
      exact (hp.past c hq).elim (h.past q c) id
    · rw [hpc q hqp] at hq
      exact h.past q c hq
  · intro q c v hq
    unfold ExitedWith
    rw [hexit]
    by_cases hqp : q = p
    · subst hqp
      exact (hp.result c v hq).elim (h.result q c v) id
    · rw [hpc q hqp] at hq
      exact h.result q c v hq
  · intro q c v hq
    unfold ExitedWith
    rw [hexit]
    exact (hret q c v hq).elim (h.returned q c v) id

section wake
variable {s : State P}

/-- A thread that is woken needs what it needed asleep. -/
theorem Entries.wakeAll (h : Entries s) (condition : ℕ) : Entries (s.wakeAll condition) := by
  have hadds : ∀ q, ((s.wakeAll condition).pc q).adds = (s.pc q).adds := fun q => by
    rcases wakeAll_pc s condition q with hq | ⟨i, target, g, hq, hq'⟩ <;> simp [*]
  have habsent : ∀ q, s.pc q ≠ .absent → (s.wakeAll condition).pc q ≠ .absent := fun q hne => by
    rcases wakeAll_pc s condition q with hq | ⟨i, target, g, hq, hq'⟩ <;> simp [*]
  have hclearing : ∀ q, ((s.wakeAll condition).pc q).clearing = (s.pc q).clearing := fun q => by
    rcases wakeAll_pc s condition q with hq | ⟨i, target, g, hq, hq'⟩ <;> simp [*]
  have hcleared : ∀ q, ((s.wakeAll condition).pc q).cleared = (s.pc q).cleared := fun q => by
    rcases wakeAll_pc s condition q with hq | ⟨i, target, g, hq, hq'⟩ <;> simp [*]
  have hjoins : ∀ q, ((s.wakeAll condition).pc q).joins = (s.pc q).joins := fun q => by
    rcases wakeAll_pc s condition q with hq | ⟨i, target, g, hq, hq'⟩ <;> simp [*]
  exact ⟨h.unmarked, fun q c hq => h.pending q c (hadds q ▸ hq),
    fun q r c d hq hr => h.distinct q r c d (hadds q ▸ hq) (hadds r ▸ hr),
    fun q c hq => habsent c (h.started q c (hadds q ▸ hq)),
    fun q i hq => h.clearing q i (hclearing q ▸ hq), fun q i hq => h.cleared q i (hcleared q ▸ hq),
    fun q i c hq => h.joins q i c (hjoins q ▸ hq)⟩

theorem Statuses.wakeAll (h : Statuses s) (condition : ℕ) : Statuses (s.wakeAll condition) := by
  have hexits : ∀ q, ((s.wakeAll condition).pc q).exits = (s.pc q).exits := fun q => by
    rcases wakeAll_pc s condition q with hq | ⟨i, target, g, hq, hq'⟩ <;> simp [*]
  have hpast : ∀ q, ((s.wakeAll condition).pc q).past = (s.pc q).past := fun q => by
    rcases wakeAll_pc s condition q with hq | ⟨i, target, g, hq, hq'⟩ <;> simp [*]
  have hresult : ∀ q, ((s.wakeAll condition).pc q).result = (s.pc q).result := fun q => by
    rcases wakeAll_pc s condition q with hq | ⟨i, target, g, hq, hq'⟩ <;> simp [*]
  refine ⟨fun q status hq => ?_, h.running, fun q c hq => h.past q c (hpast q ▸ hq),
    fun q c v hq => h.result q c v (hresult q ▸ hq), h.returned⟩
  rw [hexits]
  exact h.exited q status hq

end wake

section entries
variable [DecidableEq P] {s t : State P} {p : P} {c : Pc P}

omit [DecidableEq P] in
/-- Nobody else is taking an entry out while `p` has `pm_lock`. -/
theorem clearing_of_holdsPm (hl : LockInv False s) (hp : (s.pc p).holdsPm = true) {q : P}
    (hq : q ≠ p) : (s.pc q).clearing = none := by
  have hnot : (s.pc q).holdsPm = false := by
    rw [Bool.eq_false_iff]
    intro hhold
    exact hq (Option.some.inj (((hl.pm q).mpr hhold).symm.trans ((hl.pm p).mpr hp)))
  cases hpc : s.pc q with
  | locked n => simp [hpc, Pc.holdsPm] at hnot
  | clearEnd i k => simp [hpc, Pc.holdsPm] at hnot
  | _ => rfl

omit [DecidableEq P] in
theorem Pc.clearing_of_cleared {i : ℤ} (h : c.cleared = some i) : c.clearing = some i := by
  cases c with
  | clearEnd j k => exact h
  | _ => cases h

/-- A point that needs nothing of the tables. -/
def Pc.idle (c : Pc P) : Prop :=
  c ≠ .absent ∧ c.adds = none ∧ c.clearing = none ∧ c.joins = none

/-- `p` has `pm_lock`, changes the tables and goes on to a point that needs
nothing of them. What the others need has to stay. -/
theorem Entries.change (h : Entries s) (hl : LockInv False s) (hheld : (s.pc p).holdsPm = true)
    (hpcs : t.pc = Function.update s.pc p c) (hc : c.idle) (hpid : t.pid = s.pid)
    (hunmarked : ∀ i, ¬ t.table.Marked i → i ≠ -1 → t.table.pcbs i = none ∧ t.locks i = none)
    (hpending : ∀ q e, q ≠ p → (s.pc q).adds = some e → s.pid e ≠ -1 →
      t.table.Marked (s.pid e) ∧ t.table.pcbs (s.pid e) = none ∧ t.locks (s.pid e) = none)
    (hjoins : ∀ q i e, q ≠ p → (s.pc q).joins = some (i, e) →
      t.table.Marked i ∧ t.table.pcbs i = some e) : Entries t := by
  obtain ⟨habsent, hadds, hclear, hjoin⟩ := hc
  have hpnew : t.pc p = c := by simp [hpcs]
  have hothers : ∀ q, q ≠ p → t.pc q = s.pc q := fun q hq => by simp [hpcs, hq]
  have hadds' : ∀ {q e}, (t.pc q).adds = some e → q ≠ p ∧ (s.pc q).adds = some e := by
    intro q e hq
    have hqp : q ≠ p := by
      rintro rfl
      rw [hpnew, hadds] at hq
      cases hq
    exact ⟨hqp, hothers q hqp ▸ hq⟩
  have hnone : ∀ q, (t.pc q).clearing = none := by
    intro q
    by_cases hqp : q = p
    · rw [hqp, hpnew, hclear]
    · rw [hothers q hqp, clearing_of_holdsPm hl hheld hqp]
  constructor
  · exact hunmarked
  · intro q e hq hne
    rw [hpid] at hne ⊢
    exact hpending q e (hadds' hq).1 (hadds' hq).2 hne
  · intro q r e f hq hr
    rw [hpid]
    exact h.distinct q r e f (hadds' hq).2 (hadds' hr).2
  · intro q e hq
    by_cases hep : e = p
    · rwa [hep, hpnew]
    · rw [hothers e hep]
      exact h.started q e (hadds' hq).2
  · intro q i hq
    rw [hnone q] at hq
    cases hq
  · intro q i hq
    have hq' := Pc.clearing_of_cleared hq
    rw [hnone q] at hq'
    cases hq'
  · intro q i e hq
    by_cases hqp : q = p
    · rw [hqp, hpnew, hjoin] at hq
      cases hq
    · exact hjoins q i e hqp (hothers q hqp ▸ hq)

/-- `AddProcess` writes to an entry that nobody uses. -/
theorem Entries.addEntry (h : Entries s) (hl : LockInv False s) {d : P} {memory : Bool}
    (hpc : s.pc p = .inside (.add d memory)) {g : ℕ}
    (htable : t.table = s.table.addProcess d (s.pid d))
    (hlocks : t.locks = Function.update s.locks (s.pid d) (some g))
    (hpcs : t.pc = Function.update s.pc p c) (hc : c.idle) (hpid : t.pid = s.pid) :
    Entries t := by
  have hself : (s.pc p).adds = some d := by simp [hpc]
  have hmarked : ∀ i, t.table.Marked i ↔ s.table.Marked i := fun i => by
    rw [htable, ProcessTable.marked_addProcess]
  have hrest : ∀ i, i ≠ s.pid d → t.table.pcbs i = s.table.pcbs i ∧ t.locks i = s.locks i :=
    fun i hi => by simp [htable, hlocks, hi]
  refine h.change hl (by simp [hpc, Pc.holdsPm]) hpcs hc hpid ?_ ?_ ?_
  · intro i hi hne
    rw [hmarked] at hi
    have hid : i ≠ s.pid d := by
      rintro rfl
      exact hi (h.pending p d hself hne).1
    rw [(hrest i hid).1, (hrest i hid).2]
    exact h.unmarked i hi hne
  · intro q e hqp hq hne
    have hid : s.pid e ≠ s.pid d := fun he => hqp (h.distinct q p e d hq hself he hne)
    rw [hmarked, (hrest _ hid).1, (hrest _ hid).2]
    exact h.pending q e hq hne
  · intro q i e _ hq
    obtain ⟨hm, hpcb⟩ := h.joins q i e hq
    have hid : i ≠ s.pid d := by
      rintro rfl
      by_cases hne : s.pid d = -1
      · exact absurd (hne ▸ hm.1.1 : (0 : ℤ) ≤ -1) (by decide)
      · rw [(h.pending p d hself hne).2.1] at hpcb
        cases hpcb
    rw [hmarked, (hrest i hid).1]
    exact ⟨hm, hpcb⟩

/-- `ClearPID` empties the entry, then gives the id back. -/
theorem Entries.clearEnd (h : Entries s) (hl : LockInv False s) {pid : ℤ} {k : Caller P}
    (hpc : s.pc p = .clearEnd pid k) {table : ProcessTable P}
    (hclear : s.table.clearID pid = some table) (htable : t.table = table)
    (hlocks : t.locks = Function.update s.locks pid none)
    (hpcs : t.pc = Function.update s.pc p c) (hc : c.idle) (hpid : t.pid = s.pid) :
    Entries t := by
  obtain ⟨hpcbs, -, hmarked⟩ := ProcessTable.clearID_cases hclear
  have hempty := h.cleared p pid (by simp [hpc])
  have hthere := h.clearing p pid (by simp [hpc])
  refine h.change hl (by simp [hpc, Pc.holdsPm]) hpcs hc hpid ?_ ?_ ?_
  · intro i hi hne
    rw [htable, hmarked] at hi
    rw [htable, hpcbs, hlocks]
    by_cases hip : i = pid
    · rw [hip]
      exact ⟨hempty, Function.update_self ..⟩
    · simpa [hip] using h.unmarked i (fun hm => hi ⟨hm, hip⟩) hne
  · intro q e _ hq hne
    obtain ⟨hm, hpcb, hlock⟩ := h.pending q e hq hne
    have hid : s.pid e ≠ pid := by
      rintro rfl
      exact hthere hlock
    rw [htable, hmarked, hpcbs, hlocks]
    simp [hid, hm, hpcb, hlock]
  · intro q i e _ hq
    obtain ⟨hm, hpcb⟩ := h.joins q i e hq
    have hid : i ≠ pid := by
      rintro rfl
      rw [hempty] at hpcb
      cases hpcb
    rw [htable, hmarked, hpcbs]
    exact ⟨⟨hm, hid⟩, hpcb⟩

theorem Entries.dropPCB (h : Entries s) {pid : ℤ} {k : Caller P}
    (hpc : s.pc p = .locked (.clear pid k))
    (hguard : ∀ q i d, (s.pc q).joins = some (i, d) → i ≠ pid)
    (htable : t.table = s.table.dropPCB pid) (hlocks : t.locks = s.locks)
    (hpcs : t.pc = Function.update s.pc p (.clearEnd pid k)) (hpid : t.pid = s.pid) :
    Entries t := by
  have hothers : ∀ q, q ≠ p → t.pc q = s.pc q := fun q hq => by simp [hpcs, hq]
  have hpnew : t.pc p = .clearEnd pid k := by simp [hpcs]
  have hmarked : ∀ i, t.table.Marked i ↔ s.table.Marked i := fun i => by
    rw [htable, ProcessTable.marked_dropPCB]
  have hnone : ∀ i, s.table.pcbs i = none → t.table.pcbs i = none := fun i hi => by
    by_cases hip : i = pid <;> simp [htable, ProcessTable.dropPCB, hip, hi]
  have hadds : ∀ q, (t.pc q).adds = (s.pc q).adds := fun q => by
    by_cases hqp : q = p
    · simp [hqp, hpnew, hpc]
    · rw [hothers q hqp]
  constructor
  · intro i hi hne
    rw [hmarked] at hi
    rw [hlocks]
    exact ⟨hnone i (h.unmarked i hi hne).1, (h.unmarked i hi hne).2⟩
  · intro q e hq hne
    rw [hadds] at hq
    rw [hpid] at hne ⊢
    obtain ⟨hm, hpcb, hlock⟩ := h.pending q e hq hne
    rw [hmarked, hlocks]
    exact ⟨hm, hnone _ hpcb, hlock⟩
  · intro q r e f hq hr
    rw [hadds] at hq hr
    rw [hpid]
    exact h.distinct q r e f hq hr
  · intro q e hq
    rw [hadds] at hq
    by_cases hep : e = p
    · simp [hep, hpnew]
    · rw [hothers e hep]
      exact h.started q e hq
  · intro q i hq
    rw [hlocks]
    by_cases hqp : q = p
    · subst hqp
      exact h.clearing q i (by simpa [hpnew, hpc] using hq)
    · exact h.clearing q i (hothers q hqp ▸ hq)
  · intro q i hq
    by_cases hqp : q = p
    · obtain rfl : pid = i := by simpa [hqp, hpnew] using hq
      simp [htable, ProcessTable.dropPCB]
    · exact hnone i (h.cleared q i (hothers q hqp ▸ hq))
  · intro q i e hq
    have hqp : q ≠ p := by
      rintro rfl
      simp [hpnew] at hq
    rw [hothers q hqp] at hq
    have hip := hguard q i e hq
    rw [hmarked]
    simpa [htable, ProcessTable.dropPCB, hip] using h.joins q i e hq

theorem exec_pc_caller (s : State P) (p d : P) (memory : Bool) :
    (s.exec p d memory).pc p = .enter (.add d memory) := by
  simp [State.exec, State.goto]

theorem exec_pc_new {d : P} (hp : s.pc p = .user) (hd : s.pc d = .absent) (memory : Bool) :
    (s.exec p d memory).pc d = .starting := by
  have hne : d ≠ p := by
    rintro rfl
    rw [hp] at hd
    cases hd
  simp [State.exec, State.goto, hne]

theorem exec_pc_other (s : State P) (p d : P) (memory : Bool) (q : P) (hqp : q ≠ p)
    (hqd : q ≠ d) : (s.exec p d memory).pc q = s.pc q := by
  simp [State.exec, State.goto, hqp, hqd]

/-- `GetPID` hands out an id that nobody uses. -/
theorem Entries.exec (h : Entries s) {d : P} (hp : s.pc p = .user) (hd : s.pc d = .absent)
    (memory : Bool) : Entries (s.exec p d memory) := by
  have hpnew := exec_pc_caller s p d memory
  have hdnew := exec_pc_new hp hd memory
  have hothers := exec_pc_other s p d memory
  have hmono : ∀ i, s.table.Marked i → (s.exec p d memory).table.Marked i := by
    intro i hi
    rcases s.table.getPID_cases with ⟨hnew, -, hrest⟩ | ⟨-, hfull⟩
    · exact (hrest i fun he => hnew (he ▸ hi)).mpr hi
    · simpa [State.exec, hfull] using hi
  have hold : ∀ {q e}, (s.pc q).adds = some e → e ≠ d ∧ q ≠ p ∧ q ≠ d := by
    intro q e hq
    refine ⟨?_, ?_, ?_⟩
    · rintro rfl
      exact h.started q e hq hd
    · rintro rfl
      simp [hp] at hq
    · rintro rfl
      simp [hd] at hq
  have hadds : ∀ {q e}, ((s.exec p d memory).pc q).adds = some e →
      (q = p ∧ e = d) ∨ (s.pc q).adds = some e := by
    intro q e hq
    by_cases hqp : q = p
    · left
      rw [hqp, hpnew] at hq
      exact ⟨hqp, (Option.some.inj hq).symm⟩
    · by_cases hqd : q = d
      · rw [hqd, hdnew] at hq
        cases hq
      · exact Or.inr (hothers q hqp hqd ▸ hq)
  have hpidnew : (s.exec p d memory).pid d = s.table.getPID.1 := by simp [State.exec]
  have hpid : ∀ {e}, e ≠ d → (s.exec p d memory).pid e = s.pid e := fun he => by
    simp [State.exec, he]
  have hsame : ∀ {q}, (((s.exec p d memory).pc q).clearing ≠ none ∨
      ((s.exec p d memory).pc q).joins ≠ none) → (s.exec p d memory).pc q = s.pc q := by
    intro q hq
    by_cases hqp : q = p
    · simp [hqp, hpnew] at hq
    · by_cases hqd : q = d
      · simp [hqd, hdnew] at hq
      · exact hothers q hqp hqd
  constructor
  · intro i hi hneg
    exact h.unmarked i (fun hm => hi (hmono i hm)) hneg
  · intro q e hq hneg
    rcases hadds hq with ⟨rfl, rfl⟩ | hq
    · rw [hpidnew] at hneg ⊢
      rcases s.table.getPID_cases with ⟨hnew, hmark, -⟩ | ⟨-, hfull⟩
      · exact ⟨hmark, h.unmarked _ hnew hneg⟩
      · exact absurd (by rw [hfull]) hneg
    · rw [hpid (hold hq).1] at hneg ⊢
      obtain ⟨hm, hrest⟩ := h.pending q e hq hneg
      exact ⟨hmono _ hm, hrest⟩
  · intro q r e f hq hr heq hneg
    have hfresh : ∀ {q' e'}, (s.pc q').adds = some e' → s.pid e' = s.table.getPID.1 →
        s.pid e' ≠ -1 → False := by
      intro q' e' hq' heq' hneg'
      have hm := (h.pending q' e' hq' hneg').1
      rcases s.table.getPID_cases with ⟨hnew, -, -⟩ | ⟨-, hfull⟩
      · exact hnew (heq' ▸ hm)
      · exact hneg' (by rw [heq', hfull])
    rcases hadds hq with ⟨hqp, rfl⟩ | hq' <;> rcases hadds hr with ⟨hrp, rfl⟩ | hr'
    · rw [hqp, hrp]
    · rw [hpidnew, hpid (hold hr').1] at heq
      rw [hpidnew] at hneg
      exact (hfresh hr' heq.symm (heq ▸ hneg)).elim
    · rw [hpidnew, hpid (hold hq').1] at heq
      rw [hpid (hold hq').1] at hneg
      exact (hfresh hq' heq hneg).elim
    · rw [hpid (hold hq').1] at heq hneg
      rw [hpid (hold hr').1] at heq
      exact h.distinct q r e f hq' hr' heq hneg
  · intro q e hq
    rcases hadds hq with ⟨rfl, rfl⟩ | hq
    · simp [hdnew]
    · by_cases hep : e = p
      · simp [hep, hpnew]
      · rw [hothers e hep (hold hq).1]
        exact h.started q e hq
  · intro q i hq
    rw [hsame (q := q) (Or.inl (hq ▸ Option.some_ne_none i))] at hq
    exact h.clearing q i hq
  · intro q i hq
    rw [hsame (q := q) (Or.inl (Pc.clearing_of_cleared hq ▸ Option.some_ne_none i))] at hq
    exact h.cleared q i hq
  · intro q i e hq
    rw [hsame (q := q) (Or.inr (hq ▸ Option.some_ne_none (i, e)))] at hq
    obtain ⟨hm, hpcb⟩ := h.joins q i e hq
    exact ⟨hmono i hm, hpcb⟩

end entries

structure JoinInv (s : State P) : Prop where
  locks : LockInv False s
  entries : Entries s
  statuses : Statuses s

section moves
variable [DecidableEq P] {s t : State P} {p : P} {c : Pc P}

/-- A lock changes hands, nothing else. -/
theorem release_eq (s : State P) (p : P) (l : LockName) :
    ∃ owner, s.release p l = { s with owner := owner } := by
  unfold State.release
  split_ifs
  · exact ⟨_, rfl⟩
  · exact ⟨s.owner, rfl⟩

theorem release_goto_eq (s : State P) (p : P) (l : LockName) (c : Pc P) :
    ∃ owner, (s.release p l).goto p c =
      { s with owner := owner, pc := Function.update s.pc p c } := by
  obtain ⟨owner, hs⟩ := release_eq s p l
  exact ⟨owner, by rw [hs]; rfl⟩

theorem acquire_eq {l : LockName} (ht : s.acquire p l c = some t) :
    ∃ owner, t = { s with owner := owner, pc := Function.update s.pc p c } :=
  ⟨_, (acquire_cases ht).2⟩

/-- The end of a system call: its result joins the history. -/
theorem finish_eq (s : State P) (p : P) (k : Caller P) :
    ∃ c returned, s.finish p k =
        { s with pc := Function.update s.pc p c, returned := returned } ∧
      c.idle ∧ c.exits = k.exits ∧ c.past = none ∧ c.result = none ∧
      ∀ q d v, (q, some d, v) ∈ returned →
        (q, some d, v) ∈ s.returned ∨ k.result = some (d, v) := by
  cases k with
  | exec => exact ⟨.user, s.returned, rfl, by simp [Pc.idle], rfl, rfl, rfl, fun q d v h => Or.inl h⟩
  | exit =>
    exact ⟨.finished, s.returned, rfl, by simp [Pc.idle], rfl, rfl, rfl, fun q d v h => Or.inl h⟩
  | join target value =>
    refine ⟨.user, (p, target, value) :: s.returned, rfl, by simp [Pc.idle], rfl, rfl, rfl, ?_⟩
    intro q d v hmem
    rcases List.mem_cons.mp hmem with heq | hmem
    · obtain ⟨-, rfl, rfl⟩ := by simpa using heq
      exact Or.inr rfl
    · exact Or.inl hmem

/-- `p` goes on to `c`, possibly with another set of locks. -/
theorem JoinInv.goto (h : JoinInv s) (hl : LockInv False t) (hentry : EntryReady s p c)
    (hstatus : StatusReady s p c)
    (ht : ∃ owner, t = { s with owner := owner, pc := Function.update s.pc p c }) :
    JoinInv t := by
  obtain ⟨owner, rfl⟩ := ht
  refine ⟨hl, h.entries.move (p := p) (by simpa using hentry) (fun q hq => by simp [hq])
    rfl rfl rfl rfl, h.statuses.move (p := p) (by simpa using hstatus) (fun q hq => by simp [hq])
    rfl rfl fun q d v hq => Or.inl hq⟩

omit [DecidableEq P] in
theorem eq_some_of_none_or {α : Type*} {x y : Option α} {a : α} (h : x = none ∨ x = y)
    (ha : x = some a) : y = some a := by
  rcases h with rfl | rfl
  · cases ha
  · exact ha

/-- The new point needs nothing that the old one did not need. -/
def Pc.Keeps (c d : Pc P) : Prop :=
  d ≠ .absent ∧ (d.adds = none ∨ d.adds = c.adds) ∧
  (d.clearing = none ∨ d.clearing = c.clearing) ∧ (d.cleared = none ∨ d.cleared = c.cleared) ∧
  (d.joins = none ∨ d.joins = c.joins) ∧ (c.exits = true → d.exits = true) ∧
  (d.past = none ∨ d.past = c.past) ∧ (d.result = none ∨ d.result = c.result)

theorem JoinInv.keep (h : JoinInv s) (hl : LockInv False t) (hc : (s.pc p).Keeps c)
    (ht : ∃ owner, t = { s with owner := owner, pc := Function.update s.pc p c }) :
    JoinInv t := by
  obtain ⟨habsent, hadds, hclear, hcleared, hjoins, hexits, hpast, hresult⟩ := hc
  exact h.goto hl
    ⟨habsent, fun d hd => eq_some_of_none_or hadds hd,
      fun i hi => Or.inl (eq_some_of_none_or hclear hi),
      fun i hi => eq_some_of_none_or hcleared hi,
      fun i d hd => Or.inl (eq_some_of_none_or hjoins hd)⟩
    ⟨hexits, fun d hd => Or.inl (eq_some_of_none_or hpast hd),
      fun d v hd => Or.inl (eq_some_of_none_or hresult hd)⟩ ht

omit [DecidableEq P] in
theorem Pc.idle.entryReady (hc : c.idle) : EntryReady s p c := by
  obtain ⟨habsent, hadds, hclear, hjoins⟩ := hc
  refine ⟨habsent, fun d hd => ?_, fun i hi => ?_, fun i hi => ?_, fun i d hd => ?_⟩
  · rw [hadds] at hd
    cases hd
  · rw [hclear] at hi
    cases hi
  · rw [Pc.clearing_of_cleared hi] at hclear
    cases hclear
  · rw [hjoins] at hd
    cases hd

/-- The end of a system call that carries a result which is right. -/
theorem JoinInv.finish (h : JoinInv s) {k : Caller P}
    (hresult : ∀ d v, k.result = some (d, v) → ExitedWith s d v)
    (hexits : (s.pc p).exits = true → k.exits = true) {owner : LockName → Option P}
    (hl : LockInv False ({ s with owner := owner }.finish p k)) :
    JoinInv ({ s with owner := owner }.finish p k) := by
  obtain ⟨c, returned, heq, hidle, hc, hpast, hres, hret⟩ :=
    finish_eq { s with owner := owner } p k
  rw [heq] at hl ⊢
  refine ⟨hl, h.entries.move (p := p) (by simpa using hidle.entryReady)
    (fun q hq => by simp [hq]) rfl rfl rfl rfl, h.statuses.move (p := p) ?_
    (fun q hq => by simp [hq]) rfl rfl fun q d v hq => (hret q d v hq).imp_right (hresult d v)⟩
  simp only [Function.update_self]
  refine ⟨fun hx => hc ▸ hexits hx, fun d hd => ?_, fun d v hd => ?_⟩
  · rw [hpast] at hd
    cases hd
  · rw [hres] at hd
    cases hd

theorem JoinInv.afterJoins (h : JoinInv s) {k : Caller P} {joins : ℤ}
    (hresult : ∀ d v, k.result = some (d, v) → ExitedWith s d v)
    (hexits : (s.pc p).exits = true → k.exits = true) {owner : LockName → Option P}
    (hl : LockInv False ({ s with owner := owner }.afterJoins p k joins)) :
    JoinInv ({ s with owner := owner }.afterJoins p k joins) := by
  unfold State.afterJoins at hl ⊢
  split_ifs at hl ⊢
  · refine h.goto (p := p) (c := .enter (.nested (.clear (s.pid p) k))) hl ?_ ?_ ⟨owner, rfl⟩
    · constructor <;> simp
    · exact ⟨hexits, by simp, fun d v hd => Or.inr (hresult d v hd)⟩
  · exact h.finish hresult hexits hl

theorem addProcess_eq (s : State P) (p d : P) (memory : Bool) :
    ∃ c owner parent, s.addProcess p d memory = { s with
        table := s.table.addProcess d (s.pid d)
        conditions := Function.update s.conditions (s.pid d) (some s.fresh)
        locks := Function.update s.locks (s.pid d) (some s.fresh)
        fresh := s.fresh + 1
        owner := owner
        pc := Function.update s.pc p c
        parent := parent } ∧
      c.idle ∧ c.past = none ∧ c.result = none := by
  obtain ⟨owner, hs⟩ := release_eq { s with
    table := s.table.addProcess d (s.pid d)
    conditions := Function.update s.conditions (s.pid d) (some s.fresh)
    locks := Function.update s.locks (s.pid d) (some s.fresh)
    fresh := s.fresh + 1 } p .pm
  cases memory with
  | true =>
    refine ⟨.user, owner, Function.update s.parent d (some p), ?_, by simp [Pc.idle], rfl, rfl⟩
    simp only [State.addProcess, State.leave, hs, if_true]
    rfl
  | false =>
    refine ⟨.enter (.nested (.clear (s.pid d) .exec)), owner, s.parent, ?_, by simp [Pc.idle],
      rfl, rfl⟩
    simp only [State.addProcess, State.leave, hs, Bool.false_eq_true, if_false]
    rfl

theorem JoinInv.addProcess (h : JoinInv s) {d : P} {memory : Bool}
    (hpc : s.pc p = .inside (.add d memory)) (hl : LockInv False (s.addProcess p d memory)) :
    JoinInv (s.addProcess p d memory) := by
  obtain ⟨c, owner, parent, heq, hidle, hpast, hres⟩ := addProcess_eq s p d memory
  rw [heq] at hl ⊢
  refine ⟨hl, h.entries.addEntry h.locks hpc rfl rfl rfl hidle rfl,
    h.statuses.move (p := p) ?_ (fun q hq => by simp [hq]) rfl rfl fun q d v hq => Or.inl hq⟩
  simp only [Function.update_self]
  refine ⟨fun hx => by simp [hpc] at hx, fun e he => ?_, fun e v he => ?_⟩
  · rw [hpast] at he
    cases he
  · rw [hres] at he
    cases he

theorem JoinInv.unknown (h : JoinInv s) {n : Nested P} (hpc : s.pc p = .inside (.nested n))
    (hguard : Kept s (.next p)) (hunmarked : ¬ s.table.Marked n.pid)
    (hl : LockInv False (s.unknown p n)) : JoinInv (s.unknown p n) := by
  cases n with
  | clear pid k =>
    obtain ⟨owner, hs⟩ := release_eq s p .pm
    simp only [State.unknown, hs] at hl ⊢
    exact h.finish (fun d v hk => h.statuses.result p d v (by simpa [hpc] using hk))
      (by simp [hpc]) hl
  | broadcast pid =>
    exact h.keep hl (by simp [Pc.Keeps, hpc]) (release_goto_eq s p .pm _)
  | join pid target =>
    have hnone : target = none := by
      cases target with
      | none => rfl
      | some c =>
        exact absurd (hguard.1 (pid, c) (by simp [hpc, Pc.tests])).1 hunmarked
    subst hnone
    exact h.keep hl (by simp [Pc.Keeps, hpc]) (release_goto_eq s p .pm _)

omit [DecidableEq P] in
/-- The status that `Join` tests is that of its child. -/
theorem JoinInv.exited_of_status (h : JoinInv s) {i : ℤ} {d q : P} {r : P}
    (hj : (s.pc r).joins = some (i, d)) (hq : s.table.pcbs i = some q) :
    q = d ∧ (s.status q > -1 → s.exitArg d ≠ none) := by
  obtain rfl : q = d := Option.some.inj (hq.symm.trans (h.entries.joins r i d hj).2)
  refine ⟨rfl, fun hst hnone => ?_⟩
  rw [h.statuses.running q hnone] at hst
  exact absurd hst (by decide)

theorem JoinInv.body (h : JoinInv s) {r : Routine P} (hpc : s.pc p = .inside r)
    (hguard : Kept s (.next p)) (ht : s.body p r = some t) (hl : LockInv False t) :
    JoinInv t := by
  cases r with
  | add d memory =>
    obtain rfl := Option.some.inj ht
    exact h.addProcess hpc hl
  | nested n =>
    simp only [State.body, Option.map_eq_some_iff] at ht
    obtain ⟨marked, hknown, rfl⟩ := ht
    cases marked with
    | false =>
      rw [if_neg (by decide)] at hl ⊢
      exact h.unknown hpc hguard (ProcessTable.not_marked_of_known_false hknown) hl
    | true =>
      rw [if_pos rfl] at hl ⊢
      cases n with
      | clear pid k =>
        exact h.keep hl (by simp [Pc.Keeps, hpc]) ⟨s.owner, rfl⟩
      | broadcast pid =>
        exact h.keep hl (by simp [Pc.Keeps, hpc]) ⟨s.owner, rfl⟩
      | join pid target =>
        refine h.goto (p := p) hl ⟨by simp, by simp, by simp, by simp, ?_⟩ ?_ ⟨s.owner, rfl⟩
        · intro i d hd
          obtain ⟨e, rfl, heq⟩ := Option.map_eq_some_iff.mp hd
          obtain ⟨rfl, rfl⟩ := Prod.mk.inj heq
          exact Or.inr (hguard.1 (pid, e) (by simp [hpc, Pc.tests]))
        · constructor <;> simp [hpc]
  | getJoins pid k =>
    simp only [State.body, Option.map_eq_some_iff] at ht
    obtain ⟨marked, -, rfl⟩ := ht
    have hresult : ∀ d v, k.result = some (d, v) → ExitedWith s d v := fun d v hk =>
      h.statuses.result p d v (by simpa [hpc] using hk)
    cases marked with
    | true =>
      rw [if_pos rfl] at hl ⊢
      exact h.keep hl (by simp [Pc.Keeps, hpc]) (release_goto_eq s p .pm _)
    | false =>
      obtain ⟨owner, hs⟩ := release_eq s p .pm
      rw [if_neg (by decide), hs] at hl ⊢
      exact h.afterJoins hresult (by simp [hpc]) hl
  | loop pid target =>
    simp only [State.body, Option.bind_eq_some_iff] at ht
    obtain ⟨q, hq, ht⟩ := ht
    split_ifs at ht with hst
    · obtain ⟨g, -, rfl⟩ := Option.map_eq_some_iff.mp ht
      refine h.goto (p := p) hl ⟨by simp, by simp, by simp, by simp, ?_⟩ ⟨by simp [hpc], ?_, by simp⟩
        (release_goto_eq s p _ _)
      · exact fun i d hd => Or.inl (by simpa [hpc] using hd)
      · rintro d rfl
        exact Or.inr ((h.exited_of_status (r := p) (by simp [hpc]) hq).2 hst)
    · obtain rfl := Option.some.inj ht
      exact h.keep hl (by simp [Pc.Keeps, hpc]) (release_goto_eq s p .pm _)
  | decrement pid target =>
    simp only [State.body, Option.map_eq_some_iff] at ht
    obtain ⟨table, htable, rfl⟩ := ht
    obtain ⟨hids, hpcbs⟩ := ProcessTable.decrementJoins_frame htable
    have hs : JoinInv { s with table := table } :=
      ⟨h.locks.congr rfl rfl rfl rfl,
        h.entries.move (p := p) ⟨by simp [hpc], fun d hd => hd, fun i hi => Or.inl hi,
          fun i hi => hi, fun i d hd => Or.inl hd⟩ (fun q hq => rfl) hids hpcbs rfl rfl,
        h.statuses.move (p := p) ⟨id, fun d hd => Or.inl hd, fun d v hd => Or.inl hd⟩
          (fun q hq => rfl) rfl rfl fun q d v hq => Or.inl hq⟩
    exact hs.keep (p := p) hl (by simp [Pc.Keeps, hpc]) (release_goto_eq _ p .pm _)
  | getStatus pid target =>
    simp only [State.body, Option.map_eq_some_iff] at ht
    obtain ⟨marked, hknown, rfl⟩ := ht
    cases marked with
    | true =>
      rw [if_pos rfl] at hl ⊢
      exact h.keep hl (by simp [Pc.Keeps, hpc]) (release_goto_eq s p .pm _)
    | false =>
      have hnone : target = none := by
        cases target with
        | none => rfl
        | some c =>
          exact absurd (h.entries.joins p pid c (by simp [hpc])).1
            (ProcessTable.not_marked_of_known_false hknown)
      subst hnone
      rw [if_neg (by decide)] at hl ⊢
      exact h.keep hl (by simp [Pc.Keeps, hpc]) (release_goto_eq s p .pm _)

theorem JoinInv.nestedBody (h : JoinInv s) {n : Nested P} (hpc : s.pc p = .locked n)
    (hguard : Kept s (.next p)) (ht : s.nestedBody p n = some t) (hl : LockInv False t) :
    JoinInv t := by
  cases n with
  | clear pid k =>
    simp only [State.nestedBody, Option.map_eq_some_iff] at ht
    obtain ⟨g, -, rfl⟩ := ht
    have hfree := fun q i d hd => hguard.2 pid (by simp [hpc, Pc.empties]) q (i, d) hd
    obtain ⟨owner, heq⟩ := release_goto_eq { s with
      table := s.table.dropPCB pid
      conditions := Function.update s.conditions pid none } p (.pcb g) (.clearEnd pid k)
    rw [heq] at hl ⊢
    refine ⟨hl, h.entries.dropPCB hpc hfree rfl rfl rfl rfl, h.statuses.move (p := p) ?_
      (fun q hq => by simp [hq]) rfl rfl fun q d v hq => Or.inl hq⟩
    simp only [Function.update_self]
    exact ⟨by simp [hpc], by simp, fun d v hd => Or.inl (by simpa [hpc] using hd)⟩
  | broadcast pid =>
    simp only [State.nestedBody, Option.map_eq_some_iff] at ht
    obtain ⟨cond, -, rfl⟩ := ht
    have hp : (s.wakeAll cond).pc p = s.pc p := by simp [State.wakeAll, hpc]
    have hs : JoinInv (s.wakeAll cond) :=
      ⟨h.locks.wakeAll cond, h.entries.wakeAll cond, h.statuses.wakeAll cond⟩
    exact hs.keep (p := p) hl (by simp [Pc.Keeps, hp, hpc]) ⟨_, rfl⟩
  | join pid target =>
    obtain rfl := Option.some.inj ht
    have hs : JoinInv { s with table := s.table.countJoin pid } :=
      ⟨h.locks.congr rfl rfl rfl rfl,
        h.entries.move (p := p) ⟨by simp [hpc], fun d hd => hd, fun i hi => Or.inl hi,
          fun i hi => hi, fun i d hd => Or.inl hd⟩ (fun q hq => rfl) rfl rfl rfl rfl,
        h.statuses.move (p := p) ⟨id, fun d hd => Or.inl hd, fun d v hd => Or.inl hd⟩
          (fun q hq => rfl) rfl rfl fun q d v hq => Or.inl hq⟩
    exact hs.keep (p := p) hl (by simp [Pc.Keeps, hpc]) (release_goto_eq _ p .pm _)

theorem JoinInv.clearEnd (h : JoinInv s) {pid : ℤ} {k : Caller P} {table : ProcessTable P}
    (hpc : s.pc p = .clearEnd pid k) (htable : s.table.clearID pid = some table)
    (hl : LockInv False (({ s with
      table := table, locks := Function.update s.locks pid none }.release p .pm).finish p k)) :
    JoinInv (({ s with
      table := table, locks := Function.update s.locks pid none }.release p .pm).finish p k) := by
  obtain ⟨owner, hs⟩ := release_eq { s with
    table := table, locks := Function.update s.locks pid none } p .pm
  obtain ⟨c, returned, heq, hidle, hc, hpast, hres, hret⟩ := finish_eq { s with
    table := table, locks := Function.update s.locks pid none, owner := owner } p k
  rw [hs, heq] at hl ⊢
  refine ⟨hl, h.entries.clearEnd h.locks hpc htable rfl rfl rfl hidle rfl,
    h.statuses.move (p := p) ?_ (fun q hq => by simp [hq]) rfl rfl ?_⟩
  · simp only [Function.update_self]
    refine ⟨fun hx => hc ▸ (by simpa [hpc] using hx), fun d hd => ?_, fun d v hd => ?_⟩
    · rw [hpast] at hd
      cases hd
    · rw [hres] at hd
      cases hd
  · intro q d v hq
    exact (hret q d v hq).imp_right fun hk => h.statuses.result p d v (by simpa [hpc] using hk)

theorem JoinInv.next (h : JoinInv s) (hguard : Kept s (.next p)) (ht : s.next p = some t) :
    JoinInv t := by
  have hl : LockInv False t := h.locks.next False.elim ht
  unfold State.next at ht
  split at ht
  · rename_i hpc
    split_ifs at ht
    obtain rfl := Option.some.inj ht
    exact h.keep hl (by simp [Pc.Keeps, hpc]) ⟨s.owner, rfl⟩
  · rename_i r hpc
    refine h.keep hl ?_ (acquire_eq ht)
    cases r with
    | nested n => cases n <;> simp [Pc.Keeps, hpc]
    | _ => simp [Pc.Keeps, hpc]
  · rename_i r hpc
    exact h.body hpc hguard ht hl
  · rename_i n hpc
    obtain ⟨g, hg, ht⟩ := Option.bind_eq_some_iff.mp ht
    cases n with
    | clear pid k =>
      refine h.goto hl ⟨by simp, by simp, ?_, by simp, by simp⟩ ?_ (acquire_eq ht)
      · intro i hi
        obtain rfl : pid = i := by simpa using hi
        exact Or.inr (hg ▸ Option.some_ne_none g)
      · exact ⟨by simp [hpc], by simp, fun d v hd => Or.inl (by simpa [hpc] using hd)⟩
    | broadcast pid => exact h.keep hl (by simp [Pc.Keeps, hpc]) (acquire_eq ht)
    | join pid target => exact h.keep hl (by simp [Pc.Keeps, hpc]) (acquire_eq ht)
  · rename_i n hpc
    exact h.nestedBody hpc hguard ht hl
  · rename_i pid k hpc
    obtain ⟨table, htable, rfl⟩ := Option.map_eq_some_iff.mp ht
    exact h.clearEnd hpc htable hl
  · rename_i pid hpc
    obtain ⟨g, -, rfl⟩ := Option.map_eq_some_iff.mp ht
    exact h.keep hl (by simp [Pc.Keeps, hpc]) (release_goto_eq s p _ _)
  · rename_i pid hpc
    obtain rfl := Option.some.inj ht
    exact h.keep hl (by simp [Pc.Keeps, hpc]) (release_goto_eq s p _ _)
  · rename_i pid k hpc
    obtain rfl := Option.some.inj ht
    have hl' : LockInv False ({ s with owner := s.owner }.afterJoins p k _) := hl
    exact h.afterJoins (fun d v hk => h.statuses.result p d v (by simpa [hpc] using hk))
      (by simp [hpc]) hl'
  · rename_i pid target hpc
    obtain rfl := Option.some.inj ht
    exact h.keep hl (by simp [Pc.Keeps, hpc]) (release_goto_eq s p _ _)
  · rename_i pid target hpc
    obtain ⟨cond, -, ht⟩ := Option.bind_eq_some_iff.mp ht
    obtain ⟨g, -, rfl⟩ := Option.map_eq_some_iff.mp ht
    split_ifs at hl ⊢
    · exact h.keep hl (by simp [Pc.Keeps, hpc]) (release_goto_eq s p _ _)
    · exact h.keep hl (by simp [Pc.Keeps, hpc]) ⟨s.owner, rfl⟩
  · rename_i pid target g hpc
    split_ifs at ht
    exact h.keep hl (by simp [Pc.Keeps, hpc]) (acquire_eq ht)
  · rename_i pid target hpc
    obtain ⟨q, hq, rfl⟩ := Option.map_eq_some_iff.mp ht
    refine h.goto hl (Pc.idle.entryReady (by simp [Pc.idle])) ⟨by simp [hpc], by simp, ?_⟩
      ⟨s.owner, rfl⟩
    intro d v hd
    obtain ⟨e, rfl, heq⟩ := Option.map_eq_some_iff.mp hd
    obtain ⟨rfl, rfl⟩ := Prod.mk.inj heq
    obtain ⟨rfl, -⟩ := h.exited_of_status (r := p) (d := e) (by simp [hpc]) hq
    obtain ⟨status, hstatus⟩ := Option.ne_none_iff_exists'.mp
      (h.statuses.past p q (by simp [hpc]))
    exact Or.inr ⟨status, hstatus, (h.statuses.exited q status hstatus).2⟩
  · cases ht

theorem Statuses.exec (h : Statuses s) {d : P} (hp : s.pc p = .user) (hd : s.pc d = .absent)
    (memory : Bool) : Statuses (s.exec p d memory) := by
  have hpnew := exec_pc_caller s p d memory
  have hdnew := exec_pc_new hp hd memory
  have hothers := exec_pc_other s p d memory
  constructor
  · intro q status hq
    obtain ⟨hex, hst⟩ := h.exited q status hq
    have hqp : q ≠ p := by
      rintro rfl
      simp [hp] at hex
    have hqd : q ≠ d := by
      rintro rfl
      simp [hd] at hex
    rw [hothers q hqp hqd]
    exact ⟨hex, by simpa [State.exec, hqd] using hst⟩
  · intro q hq
    by_cases hqd : q = d
    · simp [State.exec, hqd]
    · simpa [State.exec, hqd] using h.running q hq
  · intro q e hq
    have hqp : q ≠ p := by
      rintro rfl
      simp [hpnew] at hq
    have hqd : q ≠ d := by
      rintro rfl
      simp [hdnew] at hq
    exact h.past q e (hothers q hqp hqd ▸ hq)
  · intro q e v hq
    have hqp : q ≠ p := by
      rintro rfl
      simp [hpnew] at hq
    have hqd : q ≠ d := by
      rintro rfl
      simp [hdnew] at hq
    exact h.result q e v (hothers q hqp hqd ▸ hq)
  · exact h.returned

theorem Statuses.exit (h : Statuses s) (hp : s.pc p = .user) (status : ℤ) :
    Statuses (s.exit p status) := by
  have hnone : s.exitArg p = none := by
    cases hx : s.exitArg p with
    | none => rfl
    | some st => simpa [hp] using (h.exited p st hx).1
  have hothers : ∀ q, q ≠ p → (s.exit p status).pc q = s.pc q := fun q hq => by
    simp [State.exit, State.goto, hq]
  have hpnew : (s.exit p status).pc p = .enter (.nested (.broadcast (s.pid p))) := by
    simp [State.exit, State.goto]
  have hkeep : ∀ {d v}, ExitedWith s d v → ExitedWith (s.exit p status) d v := by
    rintro d v ⟨st, hst, hv⟩
    have hne : d ≠ p := by
      rintro rfl
      rw [hnone] at hst
      cases hst
    exact ⟨st, by simpa [State.exit, hne] using hst, hv⟩
  constructor
  · intro q st hq
    by_cases hqp : q = p
    · subst hqp
      obtain rfl : status = st := by simpa [State.exit] using hq
      exact ⟨by simp [hpnew], by simp [State.exit]⟩
    · rw [hothers q hqp]
      simpa [State.exit, hqp] using h.exited q st (by simpa [State.exit, hqp] using hq)
  · intro q hq
    have hqp : q ≠ p := by
      rintro rfl
      simp [State.exit] at hq
    simpa [State.exit, hqp] using h.running q (by simpa [State.exit, hqp] using hq)
  · intro q d hq
    have hqp : q ≠ p := by
      rintro rfl
      simp [hpnew] at hq
    by_cases hdp : d = p
    · simp [State.exit, hdp]
    · simpa [State.exit, hdp] using h.past q d (hothers q hqp ▸ hq)
  · intro q d v hq
    have hqp : q ≠ p := by
      rintro rfl
      simp [hpnew] at hq
    exact hkeep (h.result q d v (hothers q hqp ▸ hq))
  · exact fun q d v hq => hkeep (h.returned q d v hq)

theorem JoinInv.step {l : Label P} (h : JoinInv s) (hguard : Kept s l) (hst : Step s l t) :
    JoinInv t := by
  have hl : LockInv False t := h.locks.step False.elim hst
  unfold Step ProcessThreads.step at hst
  cases l with
  | exec q d memory =>
    simp only at hst
    split_ifs at hst with hpc
    obtain rfl := Option.some.inj hst
    exact ⟨hl, h.entries.exec hpc.1 hpc.2 memory, h.statuses.exec hpc.1 hpc.2 memory⟩
  | join q id target =>
    simp only at hst
    split_ifs at hst with hpc
    obtain rfl := Option.some.inj hst
    exact h.keep hl (by simp [Pc.Keeps, hpc.1]) ⟨s.owner, rfl⟩
  | exit q status =>
    simp only at hst
    split_ifs at hst with hpc
    obtain rfl := Option.some.inj hst
    refine ⟨hl, h.entries.move (p := q) ?_ (fun r hr => by simp [State.exit, State.goto, hr])
      rfl rfl rfl rfl, h.statuses.exit hpc status⟩
    refine Pc.idle.entryReady ?_
    simp [State.exit, State.goto, Pc.idle]
  | next q => exact h.next hguard hst

theorem initial_joinInv (storage : ℕ → Word) (maxProcess : ℕ) (joins : ℤ → ℤ) (pid : P → ℤ)
    (root : P) : JoinInv (initial storage maxProcess joins pid root) := by
  have hpc : ∀ q, (initial storage maxProcess joins pid root).pc q = .user ∨
      (initial storage maxProcess joins pid root).pc q = .absent := by
    intro q
    simp only [initial]
    split_ifs
    · exact Or.inl rfl
    · exact Or.inr rfl
  refine ⟨initial_lockInv storage maxProcess joins pid root, ?_, ?_⟩
  · refine ⟨fun i hi hneg => ?_, fun q => ?_, fun q => ?_, fun q => ?_, fun q => ?_, fun q => ?_,
      fun q => ?_⟩
    · have hroot : i ≠
          (ProcessTable.create (P := P) storage maxProcess (fun _ => none) joins).getPID.1 := by
        rintro rfl
        rcases ProcessTable.getPID_cases
            (ProcessTable.create (P := P) storage maxProcess (fun _ => none) joins) with
          ⟨-, hmark, -⟩ | ⟨-, hfull⟩
        · exact hi (by simpa [initial] using hmark)
        · exact hneg (by rw [hfull])
      simp [initial, hroot]
    all_goals rcases hpc q with hq | hq <;> simp [hq]
  · refine ⟨fun q st hq => ?_, fun q _ => rfl, fun q => ?_, fun q => ?_, fun q d v hq => ?_⟩
    · simp [initial] at hq
    · rcases hpc q with hq | hq <;> simp [hq]
    · rcases hpc q with hq | hq <;> simp [hq]
    · simp [initial] at hq

end moves

/-- In a run whose steps lose no status, every `Join` that was meant for a
child returns after that child has called `Exit`, with the status it passed. -/
theorem join_returns_status [DecidableEq P] (storage : ℕ → Word) (maxProcess : ℕ) (joins : ℤ → ℤ)
    (pid : P → ℤ) (root : P) (ls : List (Label P)) (s : State P)
    (hrun : Run Step Kept (initial storage maxProcess joins pid root) ls s) (p c : P) (v : ℤ)
    (hret : (p, some c, v) ∈ s.returned) : ExitedWith s c v :=
  (hrun.invariant (initial_joinInv storage maxProcess joins pid root)
    JoinInv.step).statuses.returned p c v hret

/-- Process `false` alone on zeroed storage with sixteen ids. -/
def alone : State Bool := initial (fun _ => 0) 16 (fun _ => 0) (fun _ => 0) false

/-- The parent joins a child that has set its status and not yet told anyone. -/
theorem join_returns_status_seven :
    ∃ s, Run Step Kept alone ([.exec false true true, .next false, .next false, .next true,
        .exit true 7, .join false 1 (some true)] ++ List.replicate 20 (.next false)) s ∧
      (false, some true, 7) ∈ s.returned ∧ ExitedWith s true 7 := by
  obtain ⟨s, hrun, hs⟩ := exists_guarded_run_of_exec step Kept alone
    ([.exec false true true, .next false, .next false, .next true,
      .exit true 7, .join false 1 (some true)] ++ List.replicate 20 (.next false))
    (fun s => decide ((false, some true, 7) ∈ s.returned)) (by decide +kernel)
  have hret : (false, some true, 7) ∈ s.returned := of_decide_eq_true hs
  exact ⟨s, hrun, hret, join_returns_status _ _ _ _ _ _ s hrun false true 7 hret⟩

/-- A child that exits before anybody joins it takes its entry with it, and the
`Join` of its parent returns `-1`. -/
theorem early_exit_loses_status :
    ∃ s, Run Step Free alone ([.exec false true true, .next false, .next false, .next true,
        .exit true 7] ++ List.replicate 14 (.next true) ++ [.join false 1 (some true)] ++
        List.replicate 8 (.next false)) s ∧
      (false, some true, -1) ∈ s.returned ∧ ¬ ExitedWith s true (-1) := by
  obtain ⟨s, hrun, hs⟩ := exists_run_of_exec step alone
    ([.exec false true true, .next false, .next false, .next true, .exit true 7] ++
      List.replicate 14 (.next true) ++ [.join false 1 (some true)] ++
      List.replicate 8 (.next false))
    (fun s => decide ((false, some true, -1) ∈ s.returned ∧ s.exitArg true = some 7))
    (by decide +kernel)
  obtain ⟨hret, harg⟩ := of_decide_eq_true hs
  refine ⟨s, hrun, hret, ?_⟩
  rintro ⟨status, hstatus, hv⟩
  obtain rfl : 7 = status := Option.some.inj (harg.symm.trans hstatus)
  exact absurd hv (by decide)

end Nachos.ProcessThreads
