import Nachos.GuardedRuns

/-!
# Simulated interrupts (`machine/interrupt.cc`)

Pending interrupts are kept in a list sorted by the time they are due. `OneTick`
advances the clock and calls the handlers of all interrupts that are due; `Idle`
moves the clock to the first of them. A handler may schedule further interrupts,
so each call of `CheckIfDue` is given the list of what the handler it calls
schedules, and a loop over `CheckIfDue` one such list for every handler.

`calls` records the handlers with the time of the call, the last one first; the
number `id` tells the interrupts apart. Times are unbounded. The interrupt level
and `yieldOnReturn` are left out: the scan of `OneTick` is over before it yields.
-/
namespace Nachos.InterruptQueue
open GuardedRuns

inductive IntType where
  | timer
  | disk
  | consoleWrite
  | consoleRead
  | networkSend
  | networkRecv
  deriving DecidableEq, Repr

inductive MachineStatus where
  | idle
  | system
  | user
  deriving DecidableEq, Repr

structure PendingInterrupt where
  id : ℕ
  when : ℤ
  type : IntType
  deriving DecidableEq, Repr

/-- The arguments of `Schedule`. -/
structure Request where
  fromNow : ℤ
  type : IntType
  deriving DecidableEq, Repr

structure State where
  pending : List PendingInterrupt
  status : MachineStatus
  totalTicks : ℤ
  idleTicks : ℤ
  systemTicks : ℤ
  userTicks : ℤ
  halted : Bool
  next : ℕ
  calls : List (PendingInterrupt × ℤ)
  deriving DecidableEq, Repr

def initial : State := ⟨[], .system, 0, 0, 0, 0, false, 0, []⟩

/-- `List::SortedInsert`: behind the items with the same key. -/
def sortedInsert (p : PendingInterrupt) : List PendingInterrupt → List PendingInterrupt
  | [] => [p]
  | q :: l => if p.when < q.when then p :: q :: l else q :: sortedInsert p l

namespace State

/-- `Schedule` with its assertion. -/
def schedule (s : State) (r : Request) : Option State :=
  if 0 < r.fromNow then
    some { s with
      pending := sortedInsert ⟨s.next, s.totalTicks + r.fromNow, r.type⟩ s.pending
      next := s.next + 1 }
  else none

/-- The handler of `p` is called and schedules `rs`. -/
def call (s : State) (p : PendingInterrupt) (rs : List Request) : Option State :=
  (rs.foldlM schedule { s with status := .system, calls := (p, s.totalTicks) :: s.calls }).map
    fun t => { t with status := s.status }

/-- The clock is advanced to a time that is still to come. -/
def advanceTo (s : State) (time : ℤ) : State :=
  if time > s.totalTicks then
    { s with idleTicks := s.idleTicks + (time - s.totalTicks), totalTicks := time }
  else s

/-- The rest of `CheckIfDue` after `p` was taken out and the clock was set. -/
def fire (s : State) (p : PendingInterrupt) (rest : List PendingInterrupt) (rs : List Request) :
    Option (Bool × State) :=
  if s.status = .idle ∧ p.type = .timer ∧ rest = [] then
    some (false, { s with pending := sortedInsert p rest })
  else (call { s with pending := rest } p rs).map fun t => (true, t)

def checkIfDue (advanceClock : Bool) (rs : List Request) (s : State) : Option (Bool × State) :=
  match s.pending with
  | [] => some (false, s)
  | p :: rest =>
    if p.when > s.totalTicks ∧ advanceClock = false then
      some (false, { s with pending := sortedInsert p rest })
    else (s.advanceTo p.when).fire p rest rs

/-- `while (CheckIfDue(FALSE))`, with what each handler schedules. -/
def scan : List (List Request) → State → Option State
  | [], s => (s.checkIfDue false []).bind fun r => if r.1 then none else some r.2
  | rs :: acts, s => (s.checkIfDue false rs).bind fun r => if r.1 then scan acts r.2 else none

/-- `OneTick` advances the clock by `SystemTick` or `UserTick`. -/
def tick (s : State) : State :=
  if s.status = .system then
    { s with totalTicks := s.totalTicks + 10, systemTicks := s.systemTicks + 10 }
  else { s with totalTicks := s.totalTicks + 1, userTicks := s.userTicks + 1 }

def oneTick (acts : List (List Request)) (s : State) : Option State := s.tick.scan acts

def idle (acts : List (List Request)) (s : State) : Option State :=
  match acts with
  | [] => (checkIfDue true [] { s with status := .idle }).bind fun r =>
      if r.1 then none else some { r.2 with halted := true }
  | rs :: acts => (checkIfDue true rs { s with status := .idle }).bind fun r =>
      if r.1 then (scan acts r.2).map fun t => { t with status := .system } else none

end State

inductive Call where
  | schedule (r : Request)
  | oneTick (acts : List (List Request))
  | idle (acts : List (List Request))
  | setStatus (user : Bool)
  deriving DecidableEq, Repr

def step (s : State) (c : Call) : Option State :=
  if s.halted then none
  else
    match c with
    | .schedule r => s.schedule r
    | .oneTick acts => s.oneTick acts
    | .idle acts => s.idle acts
    | .setStatus user => some { s with status := if user then .user else .system }

def Step (s : State) (c : Call) (t : State) : Prop := step s c = some t

theorem sortedInsert_perm (p : PendingInterrupt) (l : List PendingInterrupt) :
    (sortedInsert p l).Perm (p :: l) := by
  induction l with
  | nil => exact List.Perm.refl _
  | cons q l ih =>
    unfold sortedInsert
    split_ifs
    · exact List.Perm.refl _
    · exact (ih.cons q).trans (List.Perm.swap p q l)

/-- Sorted by the time they are due. -/
abbrev Sorted (l : List PendingInterrupt) : Prop := l.Pairwise fun p q => p.when ≤ q.when

theorem Sorted.insert {l : List PendingInterrupt} (hl : Sorted l) (p : PendingInterrupt) :
    Sorted (sortedInsert p l) := by
  induction l with
  | nil => exact List.pairwise_singleton _ _
  | cons q l ih =>
    obtain ⟨hq, hl'⟩ := List.pairwise_cons.mp hl
    unfold sortedInsert
    split_ifs with hpq
    · refine List.pairwise_cons.mpr ⟨?_, hl⟩
      intro r hr
      rcases List.mem_cons.mp hr with rfl | hr
      · exact hpq.le
      · exact hpq.le.trans (hq r hr)
    · refine List.pairwise_cons.mpr ⟨?_, ih hl'⟩
      intro r hr
      rcases List.mem_cons.mp ((sortedInsert_perm p l).mem_iff.mp hr) with rfl | hr
      · exact not_lt.mp hpq
      · exact hq r hr

/-- The interrupts that are pending and those whose handlers were called. -/
def State.ids (s : State) : List ℕ :=
  s.pending.map PendingInterrupt.id ++ s.calls.map fun c => c.1.id

structure Inv (s : State) : Prop where
  sorted : Sorted s.pending
  nodup : s.ids.Nodup
  lt_next : ∀ i ∈ s.ids, i < s.next
  due : ∀ c ∈ s.calls, c.1.when ≤ c.2
  ordered : s.calls.Pairwise fun later earlier => earlier.1.when ≤ later.1.when
  past : ∀ c ∈ s.calls, c.1.when ≤ s.totalTicks
  future : ∀ c ∈ s.calls, ∀ p ∈ s.pending, c.1.when ≤ p.when
  total : s.totalTicks = s.idleTicks + s.systemTicks + s.userTicks

variable {s t : State} {p : PendingInterrupt} {rest : List PendingInterrupt}

theorem initial_inv : Inv initial where
  sorted := List.Pairwise.nil
  nodup := List.nodup_nil
  lt_next := by simp [initial, State.ids]
  due := by simp [initial]
  ordered := List.Pairwise.nil
  past := by simp [initial]
  future := by simp [initial]
  total := rfl

theorem schedule_cases {r : Request} (ht : s.schedule r = some t) : 0 < r.fromNow ∧
    t = { s with
      pending := sortedInsert ⟨s.next, s.totalTicks + r.fromNow, r.type⟩ s.pending
      next := s.next + 1 } := by
  unfold State.schedule at ht
  split_ifs at ht with hpos
  exact ⟨hpos, (Option.some.inj ht).symm⟩

theorem Inv.schedule {r : Request} (h : Inv s) (ht : s.schedule r = some t) : Inv t := by
  obtain ⟨hpos, rfl⟩ := schedule_cases ht
  generalize hq : PendingInterrupt.mk s.next (s.totalTicks + r.fromNow) r.type = q
  have hperm := sortedInsert_perm q s.pending
  have hids : ((sortedInsert q s.pending).map PendingInterrupt.id ++ s.calls.map fun c => c.1.id).Perm
      (s.next :: s.ids) := by
    refine ((hperm.map PendingInterrupt.id).append_right _).trans ?_
    rw [List.map_cons, List.cons_append, ← hq]
    exact List.Perm.refl _
  refine ⟨h.sorted.insert q, ?_, ?_, h.due, h.ordered, h.past, ?_, h.total⟩
  · refine hids.nodup_iff.mpr (List.nodup_cons.mpr ⟨?_, h.nodup⟩)
    exact fun hmem => (h.lt_next _ hmem).false
  · intro i hi
    rcases List.mem_cons.mp (hids.mem_iff.mp hi) with rfl | hi
    · exact Nat.lt_succ_self _
    · exact (h.lt_next i hi).trans (Nat.lt_succ_self _)
  · intro c hc p hp
    rcases List.mem_cons.mp (hperm.mem_iff.mp hp) with rfl | hp
    · have := h.past c hc
      rw [← hq]
      show c.1.when ≤ s.totalTicks + r.fromNow
      omega
    · exact h.future c hc p hp

/-- The first interrupt is taken out and its handler called. -/
theorem Inv.fire (h : Inv s) (hp : s.pending = p :: rest) (hnow : p.when ≤ s.totalTicks)
    (status : MachineStatus) :
    Inv { s with pending := rest, status := status, calls := (p, s.totalTicks) :: s.calls } := by
  have hids : (rest.map PendingInterrupt.id ++
      ((p, s.totalTicks) :: s.calls).map fun c => c.1.id).Perm s.ids := by
    rw [State.ids, hp, List.map_cons, List.map_cons, List.cons_append]
    exact List.perm_middle
  have hsorted := h.sorted
  have hfuture := h.future
  rw [hp] at hsorted hfuture
  obtain ⟨hfirst, hrest⟩ := List.pairwise_cons.mp hsorted
  refine ⟨hrest, hids.nodup_iff.mpr h.nodup, fun i hi => h.lt_next i (hids.mem_iff.mp hi), ?_, ?_, ?_,
    ?_, h.total⟩
  · intro c hc
    rcases List.mem_cons.mp hc with rfl | hc
    · exact hnow
    · exact h.due c hc
  · refine List.pairwise_cons.mpr ⟨?_, h.ordered⟩
    intro c hc
    exact hfuture c hc p List.mem_cons_self
  · intro c hc
    rcases List.mem_cons.mp hc with rfl | hc
    · exact hnow
    · exact h.past c hc
  · intro c hc q hq
    rcases List.mem_cons.mp hc with rfl | hc
    · exact hfirst q hq
    · exact hfuture c hc q (List.mem_cons_of_mem _ hq)

/-- The first interrupt is taken out and put back. -/
theorem Inv.putBack (h : Inv s) (hp : s.pending = p :: rest) :
    Inv { s with pending := sortedInsert p rest } := by
  have hperm : (sortedInsert p rest).Perm s.pending := hp ▸ sortedInsert_perm p rest
  have hids := (hperm.map PendingInterrupt.id).append_right (s.calls.map fun c => c.1.id)
  have hsorted := h.sorted
  rw [hp] at hsorted
  exact ⟨Sorted.insert (List.pairwise_cons.mp hsorted).2 p, hids.nodup_iff.mpr h.nodup,
    fun i hi => h.lt_next i (hids.mem_iff.mp hi), h.due, h.ordered, h.past,
    fun c hc q hq => h.future c hc q (hperm.mem_iff.mp hq), h.total⟩

theorem advanceTo_totalTicks (s : State) (time : ℤ) :
    s.totalTicks ≤ (s.advanceTo time).totalTicks ∧ time ≤ (s.advanceTo time).totalTicks := by
  unfold State.advanceTo
  split_ifs with h
  · exact ⟨h.le, le_rfl⟩
  · exact ⟨le_rfl, not_lt.mp h⟩

theorem advanceTo_of_le {time : ℤ} (h : time ≤ s.totalTicks) : s.advanceTo time = s :=
  if_neg (not_lt.mpr h)

theorem advanceTo_frame (s : State) (time : ℤ) : (s.advanceTo time).pending = s.pending ∧
    (s.advanceTo time).status = s.status ∧ (s.advanceTo time).halted = s.halted := by
  unfold State.advanceTo
  split_ifs <;> exact ⟨rfl, rfl, rfl⟩

theorem Inv.advanceTo (h : Inv s) (time : ℤ) : Inv (s.advanceTo time) := by
  unfold State.advanceTo
  split_ifs with htime
  · refine ⟨h.sorted, h.nodup, h.lt_next, h.due, h.ordered, ?_, h.future, ?_⟩
    · intro c hc
      exact (h.past c hc).trans htime.le
    · have := h.total
      show time = s.idleTicks + (time - s.totalTicks) + s.systemTicks + s.userTicks
      omega
  · exact h

/-- What handlers schedule does not change the clock, and it is not due yet. -/
structure Scheduled (s t : State) : Prop where
  inv : Inv s → Inv t
  totalTicks : t.totalTicks = s.totalTicks
  status : t.status = s.status
  halted : t.halted = s.halted
  overdue : t.pending.countP (fun p => p.when ≤ t.totalTicks) =
    s.pending.countP (fun p => p.when ≤ s.totalTicks)

theorem scheduled_of_foldlM {rs : List Request} (ht : rs.foldlM State.schedule s = some t) :
    Scheduled s t := by
  induction rs generalizing s with
  | nil =>
    obtain rfl := Option.some.inj ht
    exact ⟨id, rfl, rfl, rfl, rfl⟩
  | cons r rs ih =>
    obtain ⟨u, hu, ht⟩ := Option.bind_eq_some_iff.mp ht
    have hrest := ih ht
    obtain ⟨hpos, heq⟩ := schedule_cases hu
    refine ⟨fun h => hrest.inv (h.schedule hu), hrest.totalTicks.trans (by rw [heq]),
      hrest.status.trans (by rw [heq]), hrest.halted.trans (by rw [heq]), hrest.overdue.trans ?_⟩
    rw [heq, (sortedInsert_perm _ _).countP_eq, List.countP_cons_of_neg]
    simpa using hpos

/-- The four ways through `CheckIfDue`. -/
inductive Checked (s : State) (advanceClock : Bool) : Bool → State → Prop
  | empty : s.pending = [] → Checked s advanceClock false s
  | early {p : PendingInterrupt} {rest : List PendingInterrupt} : s.pending = p :: rest →
      s.totalTicks < p.when → advanceClock = false →
      Checked s advanceClock false { s with pending := sortedInsert p rest }
  | quit {p : PendingInterrupt} : s.pending = [p] → s.status = .idle → p.type = .timer →
      (p.when ≤ s.totalTicks ∨ advanceClock = true) →
      Checked s advanceClock false { s.advanceTo p.when with pending := [p] }
  | fired {p : PendingInterrupt} {rest : List PendingInterrupt} {u : State} : s.pending = p :: rest →
      (p.when ≤ s.totalTicks ∨ advanceClock = true) →
      Scheduled { s.advanceTo p.when with
        pending := rest
        status := .system
        calls := (p, (s.advanceTo p.when).totalTicks) :: (s.advanceTo p.when).calls } u →
      Checked s advanceClock true { u with status := s.status }

theorem checkIfDue_cases {advanceClock r : Bool} {rs : List Request}
    (h : s.checkIfDue advanceClock rs = some (r, t)) : Checked s advanceClock r t := by
  unfold State.checkIfDue at h
  split at h
  · rename_i hp
    obtain ⟨rfl, rfl⟩ := Prod.mk.inj (Option.some.inj h)
    exact .empty hp
  · rename_i p rest hp
    split_ifs at h with hearly
    · obtain ⟨rfl, rfl⟩ := Prod.mk.inj (Option.some.inj h)
      exact .early hp hearly.1 hearly.2
    · have htime : p.when ≤ s.totalTicks ∨ advanceClock = true := by
        rw [not_and_or, not_lt, Bool.not_eq_false] at hearly
        exact hearly
      unfold State.fire at h
      split_ifs at h with hquit
      · obtain ⟨rfl, rfl⟩ := Prod.mk.inj (Option.some.inj h)
        obtain ⟨hstatus, htype, rfl⟩ := hquit
        rw [(advanceTo_frame s p.when).2.1] at hstatus
        exact .quit hp hstatus htype htime
      · obtain ⟨u, hu, hr⟩ := Option.map_eq_some_iff.mp h
        obtain ⟨rfl, rfl⟩ := Prod.mk.inj hr
        obtain ⟨v, hv, rfl⟩ := Option.map_eq_some_iff.mp hu
        have hfired := Checked.fired hp htime (scheduled_of_foldlM hv)
        rwa [← (advanceTo_frame s p.when).2.1] at hfired

theorem Checked.inv {advanceClock r : Bool} (hc : Checked s advanceClock r t) (h : Inv s) : Inv t := by
  cases hc with
  | empty => exact h
  | early hp => exact h.putBack hp
  | @quit p hp =>
    have hadv := h.advanceTo p.when
    have hpending := (advanceTo_frame s p.when).1.trans hp
    exact hadv.putBack hpending
  | @fired p rest u hp htime hs =>
    have hadv := h.advanceTo p.when
    have hfired := hs.inv (hadv.fire ((advanceTo_frame s p.when).1.trans hp)
      (advanceTo_totalTicks s p.when).2 .system)
    exact ⟨hfired.sorted, hfired.nodup, hfired.lt_next, hfired.due, hfired.ordered, hfired.past,
      hfired.future, hfired.total⟩

theorem Checked.totalTicks {advanceClock r : Bool} (hc : Checked s advanceClock r t) :
    s.totalTicks ≤ t.totalTicks := by
  cases hc with
  | empty => exact le_rfl
  | early => exact le_rfl
  | @quit p hp => exact (advanceTo_totalTicks s p.when).1
  | @fired p rest u hp htime hs =>
    show s.totalTicks ≤ u.totalTicks
    rw [hs.totalTicks]
    exact (advanceTo_totalTicks s p.when).1

theorem Checked.status {advanceClock r : Bool} (hc : Checked s advanceClock r t) :
    t.status = s.status ∧ t.halted = s.halted := by
  cases hc with
  | empty => exact ⟨rfl, rfl⟩
  | early => exact ⟨rfl, rfl⟩
  | @quit p => exact (advanceTo_frame s p.when).2
  | @fired p rest u hp htime hs => exact ⟨rfl, hs.halted.trans (advanceTo_frame s p.when).2.2⟩

/-- Nothing is overdue but a timer interrupt that is alone, when the machine is idle. -/
def Settled (s : State) : Prop :=
  ∀ p ∈ s.pending, p.when ≤ s.totalTicks → s.status = .idle ∧ p.type = .timer ∧ s.pending = [p]

/-- The scan ends in a settled state. -/
theorem Checked.settled {r : Bool} (hc : Checked s false r t) (hr : r = false) (h : Inv s) :
    Settled t := by
  cases hc with
  | empty hp =>
    intro p hmem
    rw [hp] at hmem
    cases hmem
  | @early p rest hp htime =>
    have hsorted := h.sorted
    rw [hp] at hsorted
    intro q hq hdue
    exfalso
    rcases List.mem_cons.mp ((sortedInsert_perm p rest).mem_iff.mp hq) with rfl | hq
    · exact absurd hdue (not_le.mpr htime)
    · have := (List.pairwise_cons.mp hsorted).1 q hq
      have : q.when ≤ s.totalTicks := hdue
      omega
  | @quit p hp hstatus htype htime =>
    intro q hq _
    obtain rfl := List.mem_singleton.mp hq
    exact ⟨(advanceTo_frame s q.when).2.1.trans hstatus, htype, rfl⟩
  | fired => cases hr

/-- One interrupt that is due less. -/
theorem Checked.overdue (hc : Checked s false true t) :
    t.pending.countP (fun p => p.when ≤ t.totalTicks) + 1 =
      s.pending.countP (fun p => p.when ≤ s.totalTicks) := by
  cases hc with
  | @fired p rest u hp htime hs =>
    have hdue : p.when ≤ s.totalTicks := htime.resolve_right (by simp)
    have hcount := hs.overdue
    simp only [advanceTo_of_le hdue] at hcount
    rw [hp, List.countP_cons_of_pos (by simpa using hdue)]
    exact congrArg (· + 1) hcount

structure Scanned (s t : State) : Prop where
  inv : Inv t
  totalTicks : s.totalTicks ≤ t.totalTicks
  status : t.status = s.status
  halted : t.halted = s.halted
  settled : Settled t

theorem scan_cases {acts : List (List Request)} (h : Inv s) (ht : s.scan acts = some t) :
    Scanned s t := by
  induction acts generalizing s with
  | nil =>
    obtain ⟨⟨r, u⟩, hu, hr⟩ := Option.bind_eq_some_iff.mp ht
    cases r with
    | true => cases hr
    | false =>
      obtain rfl := Option.some.inj hr
      have hc := checkIfDue_cases hu
      exact ⟨hc.inv h, hc.totalTicks, hc.status.1, hc.status.2, hc.settled rfl h⟩
  | cons rs acts ih =>
    obtain ⟨⟨r, u⟩, hu, hr⟩ := Option.bind_eq_some_iff.mp ht
    cases r with
    | false => cases hr
    | true =>
      have hc := checkIfDue_cases hu
      have hrest := ih (hc.inv h) hr
      exact ⟨hrest.inv, hc.totalTicks.trans hrest.totalTicks, hrest.status.trans hc.status.1,
        hrest.halted.trans hc.status.2, hrest.settled⟩

/-- What a handler schedules meets the assertion of `Schedule`. -/
abbrev Positive (rs : List Request) : Prop := ∀ r ∈ rs, 0 < r.fromNow

theorem exists_foldlM_schedule {rs : List Request} (hrs : Positive rs) (s : State) :
    ∃ t, rs.foldlM State.schedule s = some t := by
  induction rs generalizing s with
  | nil => exact ⟨s, rfl⟩
  | cons r rs ih =>
    obtain ⟨hr, hrs⟩ := List.forall_mem_cons.mp hrs
    obtain ⟨t, ht⟩ := ih hrs _
    exact ⟨t, by rw [List.foldlM_cons, State.schedule, if_pos hr]; exact ht⟩

theorem exists_checkIfDue {rs : List Request} (hrs : Positive rs) (advanceClock : Bool) (s : State) :
    ∃ r t, s.checkIfDue advanceClock rs = some (r, t) := by
  unfold State.checkIfDue
  split
  · exact ⟨_, _, rfl⟩
  · rename_i p rest _
    split_ifs
    · exact ⟨_, _, rfl⟩
    · unfold State.fire
      split_ifs
      · exact ⟨_, _, rfl⟩
      · obtain ⟨t, ht⟩ := exists_foldlM_schedule hrs _
        exact ⟨_, _, by rw [State.call, ht]; rfl⟩

/-- Without a call of a handler it does not matter what it would schedule. -/
theorem checkIfDue_nil {advanceClock : Bool} {rs : List Request}
    (h : s.checkIfDue advanceClock rs = some (false, t)) :
    s.checkIfDue advanceClock [] = some (false, t) := by
  unfold State.checkIfDue at h ⊢
  split at h
  · exact h
  · split_ifs at h ⊢ with hearly
    · exact h
    · unfold State.fire at h ⊢
      split_ifs at h ⊢ with hquit
      · exact h
      · simp at h

/-- Whatever the handlers schedule, the scan ends. -/
theorem exists_scan {f : ℕ → List Request} (hf : ∀ n, Positive (f n)) (s : State) :
    ∃ n t, s.scan ((List.range n).map f) = some t := by
  generalize hk : s.pending.countP (fun p => p.when ≤ s.totalTicks) = k
  induction k generalizing s f with
  | zero =>
    obtain ⟨r, t, ht⟩ := exists_checkIfDue (hf 0) false s
    cases r with
    | false => exact ⟨0, t, by simp [State.scan, checkIfDue_nil ht]⟩
    | true =>
      have := (checkIfDue_cases ht).overdue
      omega
  | succ k ih =>
    obtain ⟨r, u, hu⟩ := exists_checkIfDue (hf 0) false s
    cases r with
    | false => exact ⟨0, u, by simp [State.scan, checkIfDue_nil hu]⟩
    | true =>
      have hcount := (checkIfDue_cases hu).overdue
      obtain ⟨n, t, ht⟩ := ih (fun n => hf (n + 1)) u (by omega)
      refine ⟨n + 1, t, ?_⟩
      rw [List.range_succ_eq_map, List.map_cons, List.map_map, State.scan, hu]
      exact ht

theorem exists_idle {f : ℕ → List Request} (hf : ∀ n, Positive (f n)) (s : State) :
    ∃ n t, s.idle ((List.range n).map f) = some t := by
  obtain ⟨r, u, hu⟩ := exists_checkIfDue (hf 0) true { s with status := .idle }
  cases r with
  | false => exact ⟨0, { u with halted := true }, by simp [State.idle, checkIfDue_nil hu]⟩
  | true =>
    obtain ⟨n, t, ht⟩ := exists_scan (fun n => hf (n + 1)) u
    refine ⟨n + 1, { t with status := .system }, ?_⟩
    rw [List.range_succ_eq_map, List.map_cons, List.map_map, State.idle, hu, Option.bind_some,
      if_pos rfl]
    exact congrArg (Option.map _) ht

theorem Inv.tick (h : Inv s) : Inv s.tick := by
  have htotal := h.total
  unfold State.tick
  split_ifs
  · refine ⟨h.sorted, h.nodup, h.lt_next, h.due, h.ordered, ?_, h.future, ?_⟩
    · intro c hc
      exact (h.past c hc).trans (by simp)
    · show s.totalTicks + 10 = s.idleTicks + (s.systemTicks + 10) + s.userTicks
      omega
  · refine ⟨h.sorted, h.nodup, h.lt_next, h.due, h.ordered, ?_, h.future, ?_⟩
    · intro c hc
      exact (h.past c hc).trans (by simp)
    · show s.totalTicks + 1 = s.idleTicks + s.systemTicks + (s.userTicks + 1)
      omega

theorem tick_frame (s : State) :
    s.totalTicks ≤ s.tick.totalTicks ∧ s.tick.status = s.status ∧ s.tick.halted = s.halted := by
  unfold State.tick
  split_ifs <;> simp

theorem Inv.setStatus (h : Inv s) (status : MachineStatus) : Inv { s with status := status } :=
  ⟨h.sorted, h.nodup, h.lt_next, h.due, h.ordered, h.past, h.future, h.total⟩

/-- The list is empty or has a timer interrupt alone in it. -/
def OnlyTimer (l : List PendingInterrupt) : Prop := l = [] ∨ ∃ p : PendingInterrupt, p.type = .timer ∧ l = [p]

/-- What `Idle` leaves behind. -/
structure Idled (s t : State) : Prop where
  inv : Inv t
  totalTicks : s.totalTicks ≤ t.totalTicks
  awake : t.halted = false → t.status = .system
  settled : t.halted = false →
    ∀ p ∈ t.pending, p.when ≤ t.totalTicks → p.type = .timer ∧ t.pending = [p]
  halted : t.halted = true → OnlyTimer s.pending

theorem idle_cases {acts : List (List Request)} (h : Inv s) (hrunning : s.halted = false)
    (ht : s.idle acts = some t) : Idled s t := by
  have hidle := h.setStatus .idle
  cases acts with
  | nil =>
    obtain ⟨⟨r, u⟩, hu, hr⟩ := Option.bind_eq_some_iff.mp ht
    cases r with
    | true => cases hr
    | false =>
      obtain rfl := Option.some.inj hr
      have hc := checkIfDue_cases hu
      have hinv := hc.inv hidle
      refine ⟨⟨hinv.sorted, hinv.nodup, hinv.lt_next, hinv.due, hinv.ordered, hinv.past, hinv.future,
        hinv.total⟩, hc.totalTicks, by simp, by simp, ?_⟩
      intro _
      cases hc with
      | empty hp => exact Or.inl hp
      | early _ _ hclock => cases hclock
      | quit hp _ htype => exact Or.inr ⟨_, htype, hp⟩
  | cons rs acts =>
    obtain ⟨⟨r, u⟩, hu, hr⟩ := Option.bind_eq_some_iff.mp ht
    cases r with
    | false => cases hr
    | true =>
      obtain ⟨v, hv, rfl⟩ := Option.map_eq_some_iff.mp hr
      have hc := checkIfDue_cases hu
      have hscan := scan_cases (hc.inv hidle) hv
      have hhalted : v.halted = false := (hscan.halted.trans hc.status.2).trans hrunning
      refine ⟨hscan.inv.setStatus .system, hc.totalTicks.trans hscan.totalTicks, fun _ => rfl, ?_, ?_⟩
      · intro _ p hp hdue
        exact (hscan.settled p hp hdue).2
      · intro htrue
        rw [show v.halted = true from htrue] at hhalted
        cases hhalted

/-- Between the calls the machine is not idle, unless it was halted. -/
structure Ready (s : State) : Prop where
  inv : Inv s
  awake : s.halted = false → s.status ≠ .idle

theorem Ready.step {c : Call} (h : Ready s) (ht : Step s c t) :
    Ready t ∧ s.totalTicks ≤ t.totalTicks := by
  unfold Step InterruptQueue.step at ht
  split_ifs at ht with hrunning
  have hawake := h.awake (by simpa using hrunning)
  cases c with
  | schedule r =>
    have hinv := h.inv.schedule ht
    obtain ⟨-, rfl⟩ := schedule_cases ht
    exact ⟨⟨hinv, fun _ => hawake⟩, le_rfl⟩
  | oneTick acts =>
    have hscan := scan_cases h.inv.tick ht
    obtain ⟨hle, hstatus, -⟩ := tick_frame s
    refine ⟨⟨hscan.inv, fun _ => ?_⟩, hle.trans hscan.totalTicks⟩
    rw [hscan.status, hstatus]
    exact hawake
  | idle acts =>
    have hidle := idle_cases h.inv (by simpa using hrunning) ht
    refine ⟨⟨hidle.inv, fun hh => ?_⟩, hidle.totalTicks⟩
    rw [hidle.awake hh]
    decide
  | setStatus user =>
    obtain rfl := Option.some.inj ht
    refine ⟨⟨h.inv.setStatus _, fun _ => ?_⟩, le_rfl⟩
    cases user with
    | false => exact MachineStatus.noConfusion
    | true => exact MachineStatus.noConfusion

theorem ready_of_run {calls : List Call} (hrun : Run Step Free initial calls s) : Ready s :=
  hrun.invariant (I := Ready) ⟨initial_inv, by decide⟩ fun h _ ht => (h.step ht).1

theorem Ready.oneTick {acts : List (List Request)} (h : Ready s) (ht : Step s (.oneTick acts) t) :
    ∀ p ∈ t.pending, t.totalTicks < p.when := by
  unfold Step InterruptQueue.step at ht
  split_ifs at ht with hrunning
  have hscan := scan_cases h.inv.tick ht
  intro p hp
  by_contra hdue
  have hidle := (hscan.settled p hp (not_lt.mp hdue)).1
  rw [hscan.status, (tick_frame s).2.1] at hidle
  exact h.awake (by simpa using hrunning) hidle

theorem Ready.idle {acts : List (List Request)} (h : Ready s) (ht : Step s (.idle acts) t) :
    Idled s t := by
  unfold Step InterruptQueue.step at ht
  split_ifs at ht with hrunning
  exact idle_cases h.inv (by simpa using hrunning) ht

/-- In every state that is reached: the handler of an interrupt was called at most
once, not before it was due, and in the order in which they were due; the ticks
add up and time never goes back. After `OneTick` nothing is overdue, after `Idle`
at most a timer interrupt that is alone, and `Idle` halts the machine only with
nothing else pending. Both come to an end whatever the handlers schedule. -/
theorem interrupts_fire_in_order {calls : List Call} (hrun : Run Step Free initial calls s) :
    (s.calls.map fun c => c.1.id).Nodup ∧ (∀ c ∈ s.calls, c.1.when ≤ c.2) ∧
    (s.calls.Pairwise fun later earlier => earlier.1.when ≤ later.1.when) ∧
    s.totalTicks = s.idleTicks + s.systemTicks + s.userTicks ∧
    (∀ c t, Step s c t → s.totalTicks ≤ t.totalTicks) ∧
    (∀ acts t, Step s (.oneTick acts) t → ∀ p ∈ t.pending, t.totalTicks < p.when) ∧
    (∀ acts t, Step s (.idle acts) t → if t.halted then OnlyTimer s.pending else
      ∀ p ∈ t.pending, p.when ≤ t.totalTicks → p.type = .timer ∧ t.pending = [p]) ∧
    (s.halted = false → ∀ f : ℕ → List Request, (∀ n, Positive (f n)) →
      (∃ n t, Step s (.oneTick ((List.range n).map f)) t) ∧
      ∃ n t, Step s (.idle ((List.range n).map f)) t) := by
  have h := ready_of_run hrun
  refine ⟨(List.nodup_append.mp h.inv.nodup).2.1, h.inv.due, h.inv.ordered, h.inv.total, ?_, ?_, ?_, ?_⟩
  · intro c t ht
    exact (h.step ht).2
  · intro acts t ht
    exact h.oneTick ht
  · intro acts t ht
    have hidle := h.idle ht
    split_ifs with hh
    · exact hidle.halted hh
    · exact hidle.settled (by simpa using hh)
  · intro hrunning f hf
    have hnot : ¬s.halted = true := by simp [hrunning]
    obtain ⟨n, t, ht⟩ := exists_scan hf s.tick
    obtain ⟨m, u, hu⟩ := exists_idle hf s
    exact ⟨⟨n, t, (if_neg hnot).trans ht⟩, m, u, (if_neg hnot).trans hu⟩

/-- A timer and a disk; the handler of the disk asks for another interrupt. -/
theorem interrupts_fire_in_order_timer_and_disk :
    let calls : List Call := [.schedule ⟨100, .timer⟩, .schedule ⟨5, .disk⟩, .oneTick [[⟨3, .disk⟩]],
      .idle [[]], .idle []]
    ∃ s, Run Step Free initial calls s ∧ s.calls = [(⟨2, 13, .disk⟩, 13), (⟨1, 5, .disk⟩, 10)] ∧
      (s.calls.map fun c => c.1.id).Nodup ∧ s.totalTicks = 100 ∧
      s.totalTicks = s.idleTicks + s.systemTicks + s.userTicks ∧ s.halted = true := by
  obtain ⟨s, hrun, hs⟩ := exists_run_of_exec step initial
    [.schedule ⟨100, .timer⟩, .schedule ⟨5, .disk⟩, .oneTick [[⟨3, .disk⟩]], .idle [[]], .idle []]
    (fun s => s.calls = [(⟨2, 13, .disk⟩, 13), (⟨1, 5, .disk⟩, 10)] ∧ s.totalTicks = 100 ∧
      s.halted = true) (by decide)
  obtain ⟨hcalls, htotal, hhalted⟩ := of_decide_eq_true hs
  obtain ⟨hnodup, -, -, hticks, -⟩ := interrupts_fire_in_order hrun
  exact ⟨s, hrun, hcalls, hnodup, htotal, hticks, hhalted⟩

end Nachos.InterruptQueue
