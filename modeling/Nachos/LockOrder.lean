import Nachos.ProcessThreads

/-!
# The two levels of locks in the process manager

`ClearPID`, `Broadcast` and the head of `Join` ask for the lock of an id while
they hold `pm_lock`; the loop of `Join` asks for `pm_lock` while it holds the
lock of an id. Threads wait for each other in a circle exactly when two of
them do this with the same id.
-/
namespace Nachos.ProcessThreads
open GuardedRuns

variable {P : Type*} {strict : Prop}

def Pc.holdsPm : Pc P → Bool
  | .inside _ => true
  | .lock _ => true
  | .locked _ => true
  | .clearEnd _ _ => true
  | .broadcastUnlock _ => true
  | .broadcastEnd _ => true
  | .joinLeave _ _ => true
  | _ => false

/-- The id whose lock a process has at that point. -/
def Pc.holdsPcb : Pc P → Option ℤ
  | .locked n => some n.pid
  | .broadcastUnlock pid => some pid
  | .enter (.loop pid _) => some pid
  | .inside (.loop pid _) => some pid
  | .joinWait pid _ => some pid
  | _ => none

/-- At the top of the loop of `Join`, before `pm_lock->Acquire()`. -/
def Pc.atLoop : Pc P → Bool
  | .enter (.loop _ _) => true
  | _ => false

/-- The lock the process is about to acquire. -/
def State.wants (s : State P) (p : P) : Option LockName :=
  match s.pc p with
  | .enter _ => some .pm
  | .lock n => (s.locks n.pid).map .pcb
  | .woken pid _ g => if s.locks pid = some g then some (.pcb g) else none
  | _ => none

def Waits (s : State P) (p q : P) : Prop :=
  ∃ l, s.wants p = some l ∧ s.owner l = some q ∧ q ≠ p

def Deadlocked (s : State P) (threads : Set P) : Prop :=
  threads.Nonempty ∧ ∀ p ∈ threads, ∃ q ∈ threads, Waits s p q

/-- The steps that keep the order of the two levels: a routine under `pm_lock`
asks for the lock of an id only if no process at the top of the loop of `Join`
has it, and a woken process takes that lock back only if no routine under
`pm_lock` asks for it. -/
def Ordered (s : State P) : Label P → Prop
  | .next p =>
    match s.pc p with
    | .inside (.nested n) => s.table.Marked n.pid → ∀ g q, s.locks n.pid = some g →
        s.owner (.pcb g) = some q → (s.pc q).atLoop = false
    | .woken _ _ g => ∀ q n, s.pc q = .lock n → s.locks n.pid ≠ some g
    | _ => True
  | _ => True

/-- Who owns which lock. When the steps keep the order, a lock that is asked
for under `pm_lock` is not owned at the top of a loop. -/
structure LockInv (strict : Prop) (s : State P) : Prop where
  pm : ∀ p, s.owner .pm = some p ↔ (s.pc p).holdsPm = true
  pcb : ∀ i g p, s.locks i = some g → s.owner (.pcb g) = some p → (s.pc p).holdsPcb = some i
  inj : ∀ i j g, s.locks i = some g → s.locks j = some g → i = j
  fresh : ∀ i g, s.locks i = some g → g < s.fresh
  unowned : ∀ g, s.fresh ≤ g → s.owner (.pcb g) = none
  order : strict → ∀ p n g q, s.pc p = .lock n → s.locks n.pid = some g →
    s.owner (.pcb g) = some q → (s.pc q).atLoop = false

/-- A process that holds `pm_lock` can only wait for the lock of an id. -/
theorem wants_of_holdsPm {s : State P} {p : P} {l : LockName} (hpm : (s.pc p).holdsPm = true)
    (h : s.wants p = some l) :
    ∃ n g, s.pc p = .lock n ∧ s.locks n.pid = some g ∧ l = .pcb g := by
  unfold State.wants at h
  split at h
  · rename_i hpc
    simp [hpc, Pc.holdsPm] at hpm
  · rename_i n hpc
    obtain ⟨g, hg, rfl⟩ := Option.map_eq_some_iff.mp h
    exact ⟨n, g, hpc, hg, rfl⟩
  · rename_i hpc
    simp [hpc, Pc.holdsPm] at hpm
  · cases h

/-- A process that holds the lock of an id can only wait for `pm_lock`. -/
theorem wants_of_holdsPcb {s : State P} {p : P} {l : LockName} {i : ℤ}
    (hpcb : (s.pc p).holdsPcb = some i) (h : s.wants p = some l) :
    (s.pc p).atLoop = true ∧ l = .pm := by
  unfold State.wants at h
  split at h
  · rename_i r hpc
    rw [hpc] at hpcb
    refine ⟨?_, (Option.some.inj h).symm⟩
    cases r with
    | loop pid target => simp [hpc, Pc.atLoop]
    | _ => simp [Pc.holdsPcb] at hpcb
  · rename_i hpc
    simp [hpc, Pc.holdsPcb] at hpcb
  · rename_i hpc
    simp [hpc, Pc.holdsPcb] at hpcb
  · cases h

theorem exists_lock_of_wants {s : State P} {p : P} {g : ℕ} (h : s.wants p = some (.pcb g)) :
    ∃ i, s.locks i = some g := by
  unfold State.wants at h
  split at h
  · cases h
  · rename_i n _
    obtain ⟨g', hg, heq⟩ := Option.map_eq_some_iff.mp h
    obtain rfl := LockName.pcb.inj heq
    exact ⟨n.pid, hg⟩
  · rename_i pid _ g' _
    split_ifs at h with hg
    obtain rfl := LockName.pcb.inj (Option.some.inj h)
    exact ⟨pid, hg⟩
  · cases h

theorem LockInv.not_deadlocked {s : State P} (h : LockInv True s) (threads : Set P) :
    ¬ Deadlocked s threads := by
  rintro ⟨⟨p, hp⟩, hwait⟩
  have hpm : ∀ q ∈ threads, s.owner .pm ≠ some q := by
    intro q hq hown
    obtain ⟨r, hr, l, hwants, howner, -⟩ := hwait q hq
    obtain ⟨n, g, hpc, hg, rfl⟩ := wants_of_holdsPm ((h.pm q).mp hown) hwants
    obtain ⟨_, _, _, hwants', _⟩ := hwait r hr
    have hloop := (wants_of_holdsPcb (h.pcb n.pid g r hg howner) hwants').1
    rw [h.order trivial q n g r hpc hg howner] at hloop
    cases hloop
  obtain ⟨q, hq, l, hwants, howner, -⟩ := hwait p hp
  cases l with
  | pm => exact hpm q hq howner
  | pcb g =>
    obtain ⟨i, hi⟩ := exists_lock_of_wants hwants
    obtain ⟨r, hr, l, hwants', howner', -⟩ := hwait q hq
    obtain ⟨-, rfl⟩ := wants_of_holdsPcb (h.pcb i g q hi howner) hwants'
    exact hpm r hr howner'

/-- One process moves and the objects stay. What is left to show is about that
process alone. -/
theorem LockInv.update {s t : State P} (h : LockInv strict s) {p : P}
    (hpc : ∀ q, q ≠ p → t.pc q = s.pc q) (hlocks : t.locks = s.locks) (hfresh : t.fresh = s.fresh)
    (howner : ∀ l q, q ≠ p → (t.owner l = some q ↔ s.owner l = some q))
    (hpm : t.owner .pm = some p ↔ (t.pc p).holdsPm = true)
    (hpcb : ∀ i g, s.locks i = some g → t.owner (.pcb g) = some p → (t.pc p).holdsPcb = some i)
    (hnew : ∀ g, s.fresh ≤ g → t.owner (.pcb g) ≠ some p)
    (hlock : strict → ∀ n g q, t.pc p = .lock n → s.locks n.pid = some g →
      t.owner (.pcb g) = some q → (t.pc q).atLoop = false)
    (hloop : strict → (t.pc p).atLoop = true → ∀ q n g, q ≠ p → s.pc q = .lock n →
      s.locks n.pid = some g → t.owner (.pcb g) ≠ some p) : LockInv strict t := by
  constructor
  · intro q
    by_cases hq : q = p
    · subst hq
      exact hpm
    · rw [howner _ q hq, hpc q hq]
      exact h.pm q
  · intro i g q hi hown
    rw [hlocks] at hi
    by_cases hq : q = p
    · subst hq
      exact hpcb i g hi hown
    · rw [hpc q hq]
      exact h.pcb i g q hi ((howner _ q hq).mp hown)
  · rw [hlocks]
    exact h.inj
  · rw [hlocks, hfresh]
    exact h.fresh
  · intro g hg
    rw [hfresh] at hg
    refine Option.eq_none_iff_forall_ne_some.mpr fun q hq => ?_
    by_cases hqp : q = p
    · subst hqp
      exact hnew g hg hq
    · have hnone := h.unowned g hg
      rw [(howner _ q hqp).mp hq] at hnone
      cases hnone
  · intro hs q n g r hq hg hr
    rw [hlocks] at hg
    by_cases hqp : q = p
    · subst hqp
      exact hlock hs n g r hq hg hr
    · rw [hpc q hqp] at hq
      by_cases hrp : r = p
      · subst hrp
        cases hat : (t.pc r).atLoop with
        | false => rfl
        | true => exact absurd hr (hloop hs hat q n g hqp hq hg)
      · rw [hpc r hrp]
        exact h.order hs q n g r hq hg ((howner _ r hrp).mp hr)

theorem LockInv.congr {s t : State P} (h : LockInv strict s) (hpc : t.pc = s.pc)
    (hlocks : t.locks = s.locks) (hfresh : t.fresh = s.fresh) (howner : t.owner = s.owner) :
    LockInv strict t := by
  constructor
  · rw [howner, hpc]
    exact h.pm
  · rw [howner, hpc, hlocks]
    exact h.pcb
  · rw [hlocks]
    exact h.inj
  · rw [hlocks, hfresh]
    exact h.fresh
  · rw [howner, hfresh]
    exact h.unowned
  · rw [howner, hpc, hlocks]
    exact h.order

/-- A process without the lock of an id owns none of the objects in use. -/
theorem LockInv.owns_none {s : State P} (h : LockInv strict s) {p : P} (hp : (s.pc p).holdsPcb = none)
    {i : ℤ} {g : ℕ} (hi : s.locks i = some g) : s.owner (.pcb g) ≠ some p := by
  intro hown
  rw [h.pcb i g p hi hown] at hp
  cases hp

theorem LockInv.new_unowned {s : State P} (h : LockInv strict s) (p : P) {g : ℕ} (hg : s.fresh ≤ g) :
    s.owner (.pcb g) ≠ some p := by
  rw [h.unowned g hg]
  simp

section moves
variable [DecidableEq P] {s t : State P} {p : P} {c : Pc P}

/-- A step that touches no lock. -/
theorem LockInv.goto (h : LockInv strict s) (hpm : c.holdsPm = (s.pc p).holdsPm)
    (hpcb : (s.pc p).holdsPcb = none ∨ c.holdsPcb = (s.pc p).holdsPcb)
    (hlock : strict → ∀ n g q, c = .lock n → s.locks n.pid = some g →
      s.owner (.pcb g) = some q → (s.pc q).atLoop = false)
    (hloop : c.atLoop = true → ∀ i g, s.locks i = some g → s.owner (.pcb g) ≠ some p) :
    LockInv strict (s.goto p c) := by
  have hp : (s.goto p c).pc p = c := by simp [State.goto]
  have hq : ∀ q, q ≠ p → (s.goto p c).pc q = s.pc q := fun q hq => by simp [State.goto, hq]
  refine h.update hq rfl rfl (fun l q _ => Iff.rfl) ?_ ?_ (fun g hg => h.new_unowned p hg) ?_ ?_
  · rw [hp, hpm]
    exact h.pm p
  · intro i g hi hown
    rw [hp]
    rcases hpcb with hnone | hsame
    · exact absurd hown (h.owns_none hnone hi)
    · rw [hsame]
      exact h.pcb i g p hi hown
  · intro hs n g q hc hg hown
    rw [hp] at hc
    have hloop' := hlock hs n g q hc hg hown
    by_cases hqp : q = p
    · subst hqp
      rw [hp, hc]
      rfl
    · rw [hq q hqp]
      exact hloop'
  · intro _ hat q n g _ _ hg
    rw [hp] at hat
    exact hloop hat n.pid g hg

/-- A step that gives `pm_lock` back: then nobody is at the lock of an id. -/
theorem LockInv.leave (h : LockInv strict s) (hheld : (s.pc p).holdsPm = true)
    (hc : c.holdsPm = false)
    (hpcb : (s.pc p).holdsPcb = none ∨ c.holdsPcb = (s.pc p).holdsPcb) :
    LockInv strict (s.leave p c) := by
  have hown := (h.pm p).mpr hheld
  have hp : (s.leave p c).pc p = c := by simp [State.leave, State.goto]
  have hq : ∀ q, q ≠ p → (s.leave p c).pc q = s.pc q := fun q hq => by
    simp [State.leave, State.goto, State.release, hown, hq]
  have howner : (s.leave p c).owner = Function.update s.owner .pm none := by
    simp [State.leave, State.goto, State.release, hown]
  have hfields : (s.leave p c).locks = s.locks ∧ (s.leave p c).fresh = s.fresh := by
    simp [State.leave, State.goto, State.release, hown]
  refine h.update hq hfields.1 hfields.2 ?_ ?_ ?_ ?_ ?_ ?_
  · intro l q hqp
    rw [howner]
    by_cases hl : l = .pm
    · subst hl
      simp [hown, Ne.symm hqp]
    · simp [hl]
  · rw [howner, hp, hc]
    simp
  · intro i g hi ho
    rw [hp]
    have ho' : s.owner (.pcb g) = some p := by simpa [howner] using ho
    rcases hpcb with hnone | hsame
    · exact absurd ho' (h.owns_none hnone hi)
    · rw [hsame]
      exact h.pcb i g p hi ho'
  · intro g hg
    simpa [howner] using h.new_unowned p hg
  · intro _ n g q hlock
    rw [hp] at hlock
    rw [hlock] at hc
    cases hc
  · intro _ _ q n g hqp hlock
    have hq' := (h.pm q).mpr (by simp [hlock, Pc.holdsPm])
    exact absurd (Option.some.inj (hq'.symm.trans hown)) hqp

theorem acquire_cases {l : LockName} (ht : s.acquire p l c = some t) :
    (s.owner l = none ∨ s.owner l = some p) ∧
      t = { s.goto p c with owner := Function.update s.owner l (some p) } := by
  unfold State.acquire at ht
  split_ifs at ht with hfree
  exact ⟨hfree, (Option.some.inj ht).symm⟩

omit [DecidableEq P] in
theorem owner_acquire {l m : LockName} {q : P} (hfree : s.owner l = none ∨ s.owner l = some p)
    (hq : q ≠ p) : Function.update s.owner l (some p) m = some q ↔ s.owner m = some q := by
  by_cases hm : m = l
  · subst hm
    rcases hfree with hfree | hfree <;> simp [hfree, hq.symm]
  · simp [hm]

theorem LockInv.acquirePm (h : LockInv strict s) {r : Routine P} (hpc : s.pc p = .enter r)
    (ht : s.acquire p .pm (.inside r) = some t) : LockInv strict t := by
  obtain ⟨hfree, rfl⟩ := acquire_cases ht
  have hsame : (Pc.inside r).holdsPcb = (s.pc p).holdsPcb := by
    rw [hpc]
    cases r <;> rfl
  refine h.update (p := p) (fun q hq => by simp [State.goto, hq]) rfl rfl
    (fun l q hq => owner_acquire hfree hq) ?_ ?_ ?_ ?_ ?_
  · simp [State.goto, Pc.holdsPm]
  · intro i g hi ho
    simp only [State.goto, Function.update_self, hsame]
    exact h.pcb i g p hi (by simpa using ho)
  · intro g hg
    simpa using h.new_unowned p hg
  · simp [State.goto]
  · simp [State.goto, Pc.atLoop]

/-- Taking the lock of an id, from one of the points that have none. -/
theorem LockInv.acquirePcb (h : LockInv strict s) {i : ℤ} {g : ℕ} (hi : s.locks i = some g)
    (hpm : c.holdsPm = (s.pc p).holdsPm) (hnone : (s.pc p).holdsPcb = none)
    (hc : c.holdsPcb = some i) (hlock : ∀ n, c ≠ .lock n)
    (hloop : strict → c.atLoop = true → ∀ q n, s.pc q = .lock n → s.locks n.pid ≠ some g)
    (ht : s.acquire p (.pcb g) c = some t) : LockInv strict t := by
  obtain ⟨hfree, rfl⟩ := acquire_cases ht
  have howns : ∀ {j g'}, s.locks j = some g' →
      Function.update s.owner (.pcb g) (some p) (.pcb g') = some p → g' = g := by
    intro j g' hj ho
    by_contra hne
    exact h.owns_none hnone hj (by simpa [hne] using ho)
  refine h.update (p := p) (fun q hq => by simp [State.goto, hq]) rfl rfl
    (fun l q hq => owner_acquire hfree hq) ?_ ?_ ?_ ?_ ?_
  · simp only [State.goto, Function.update_self, hpm]
    exact h.pm p
  · intro j g' hj ho
    obtain rfl := howns hj ho
    simpa [State.goto, h.inj j i g' hj hi] using hc
  · intro g' hg
    have hne : g' ≠ g := by
      rintro rfl
      exact absurd (h.fresh i g' hi) (by omega)
    simpa [hne] using h.new_unowned p hg
  · intro _ n g' q hn
    exact absurd (by simpa [State.goto] using hn) (hlock n)
  · intro hs hat q n g' _ hq hg ho
    have hat' : c.atLoop = true := by simpa [State.goto] using hat
    exact hloop hs hat' q n hq (howns hg ho ▸ hg)

theorem release_owner {l m : LockName} {q : P} :
    (s.release p l).owner m = some q ↔ s.owner m = some q ∧ ¬ (m = l ∧ q = p) := by
  unfold State.release
  split_ifs with ho
  · by_cases hm : m = l
    · subst hm
      simp only [Function.update_self, ho, Option.some.injEq, true_and]
      constructor
      · simp
      · rintro ⟨rfl, hne⟩
        exact absurd rfl hne
    · simp [hm]
  · constructor
    · refine fun hm => ⟨hm, ?_⟩
      rintro ⟨rfl, rfl⟩
      exact ho hm
    · exact And.left

theorem release_fields (s : State P) (p : P) (l : LockName) :
    (s.release p l).pc = s.pc ∧ (s.release p l).locks = s.locks ∧
      (s.release p l).fresh = s.fresh := by
  unfold State.release
  split_ifs <;> exact ⟨rfl, rfl, rfl⟩

/-- Giving the lock of the id back. -/
theorem LockInv.releasePcb (h : LockInv strict s) {i : ℤ} {g : ℕ} (hi : s.locks i = some g)
    (hheld : (s.pc p).holdsPcb = some i) (hpm : c.holdsPm = (s.pc p).holdsPm)
    (hlock : ∀ n, c ≠ .lock n) (hloop : c.atLoop = false) :
    LockInv strict ((s.release p (.pcb g)).goto p c) := by
  obtain ⟨hpcs, hlocks, hfresh⟩ := release_fields s p (.pcb g)
  have hp : ((s.release p (.pcb g)).goto p c).pc p = c := by simp [State.goto]
  refine h.update (p := p) (fun q hq => by simp [State.goto, hpcs, hq]) hlocks hfresh
    (fun l q hq => ?_) ?_ ?_ ?_ ?_ ?_
  · rw [State.goto, release_owner]
    simp [hq]
  · rw [State.goto, release_owner]
    simpa [hpm] using h.pm p
  · intro j g' hj ho
    rw [State.goto, release_owner] at ho
    have hij : j = i := Option.some.inj ((h.pcb j g' p hj ho.1).symm.trans hheld)
    subst hij
    obtain rfl : g' = g := Option.some.inj (hj.symm.trans hi)
    simp at ho
  · intro g' hg ho
    rw [State.goto, release_owner] at ho
    exact h.new_unowned p hg ho.1
  · intro _ n g' q hn
    exact absurd (hp ▸ hn) (hlock n)
  · intro _ hat
    rw [hp, hloop] at hat
    cases hat

omit [DecidableEq P] in
/-- `AddProcess` makes a new lock, which nobody owns. -/
theorem LockInv.newLock (h : LockInv strict s) {i : ℤ}
    (hlocks : t.locks = Function.update s.locks i (some s.fresh)) (hfresh : t.fresh = s.fresh + 1)
    (hpc : t.pc = s.pc) (howner : t.owner = s.owner) : LockInv strict t := by
  have hnew := h.unowned s.fresh le_rfl
  have hold : ∀ {j g}, t.locks j = some g → s.owner (.pcb g) ≠ none → s.locks j = some g := by
    intro j g hj hown
    rw [hlocks] at hj
    by_cases hji : j = i
    · subst hji
      obtain rfl : s.fresh = g := by simpa using hj
      exact absurd hnew hown
    · simpa [hji] using hj
  constructor
  · rw [howner, hpc]
    exact h.pm
  · intro j g p hj hown
    rw [howner] at hown
    rw [hpc]
    exact h.pcb j g p (hold hj (by simp [hown])) hown
  · intro j k g hj hk
    rw [hlocks] at hj hk
    by_cases hji : j = i <;> by_cases hki : k = i
    · rw [hji, hki]
    · obtain rfl : s.fresh = g := by simpa [hji] using hj
      exact absurd (h.fresh k _ (by simpa [hki] using hk)) (by omega)
    · obtain rfl : s.fresh = g := by simpa [hki] using hk
      exact absurd (h.fresh j _ (by simpa [hji] using hj)) (by omega)
    · exact h.inj j k g (by simpa [hji] using hj) (by simpa [hki] using hk)
  · intro j g hj
    rw [hlocks] at hj
    rw [hfresh]
    by_cases hji : j = i
    · obtain rfl : s.fresh = g := by simpa [hji] using hj
      omega
    · have := h.fresh j g (by simpa [hji] using hj)
      omega
  · intro g hg
    rw [howner]
    exact h.unowned g (by omega)
  · intro hs p n g q hp hg hq
    rw [howner] at hq
    rw [hpc] at hp ⊢
    exact h.order hs p n g q hp (hold hg (by simp [hq])) hq

omit [DecidableEq P] in
/-- `ClearPID` deletes a lock. -/
theorem LockInv.dropLock (h : LockInv strict s) {i : ℤ} (hlocks : t.locks = Function.update s.locks i none)
    (hfresh : t.fresh = s.fresh) (hpc : t.pc = s.pc) (howner : t.owner = s.owner) :
    LockInv strict t := by
  have hold : ∀ {j g}, t.locks j = some g → s.locks j = some g := by
    intro j g hj
    rw [hlocks] at hj
    by_cases hji : j = i
    · simp [hji] at hj
    · simpa [hji] using hj
  constructor
  · rw [howner, hpc]
    exact h.pm
  · intro j g p hj
    rw [howner, hpc]
    exact h.pcb j g p (hold hj)
  · exact fun j k g hj hk => h.inj j k g (hold hj) (hold hk)
  · intro j g hj
    rw [hfresh]
    exact h.fresh j g (hold hj)
  · rw [howner, hfresh]
    exact h.unowned
  · intro hs p n g q hp hg
    rw [howner, hpc] at *
    exact h.order hs p n g q hp (hold hg)

theorem LockInv.finishLeave (h : LockInv strict s) (hheld : (s.pc p).holdsPm = true)
    (hpcb : (s.pc p).holdsPcb = none) (k : Caller P) :
    LockInv strict ((s.release p .pm).finish p k) := by
  cases k with
  | exec => exact h.leave hheld rfl (Or.inl hpcb)
  | exit => exact h.leave hheld rfl (Or.inl hpcb)
  | join target value => exact (h.leave (c := .user) hheld rfl (Or.inl hpcb)).congr rfl rfl rfl rfl

/-- The points between two routines. -/
theorem LockInv.gotoPlain (h : LockInv strict s) (hpm : (s.pc p).holdsPm = false)
    (hpcb : (s.pc p).holdsPcb = none) (hc : c.holdsPm = false) (hloop : c.atLoop = false) :
    LockInv strict (s.goto p c) := by
  refine h.goto (hc.trans hpm.symm) (Or.inl hpcb) ?_ ?_
  · rintro - n g q rfl
    cases hc
  · intro hat
    rw [hloop] at hat
    cases hat

theorem LockInv.afterJoins (h : LockInv strict s) (hpm : (s.pc p).holdsPm = false)
    (hpcb : (s.pc p).holdsPcb = none) (k : Caller P) (joins : ℤ) :
    LockInv strict (s.afterJoins p k joins) := by
  unfold State.afterJoins
  split_ifs
  · exact h.gotoPlain hpm hpcb rfl rfl
  · cases k with
    | exec => exact h.gotoPlain hpm hpcb rfl rfl
    | exit => exact h.gotoPlain hpm hpcb rfl rfl
    | join target value => exact (h.gotoPlain (c := .user) hpm hpcb rfl rfl).congr rfl rfl rfl rfl

theorem LockInv.addProcess (h : LockInv strict s) {child : P} {memory : Bool}
    (hpc : s.pc p = .inside (.add child memory)) : LockInv strict (s.addProcess p child memory) := by
  have hnew : LockInv strict { s with
      table := s.table.addProcess child (s.pid child)
      conditions := Function.update s.conditions (s.pid child) (some s.fresh)
      locks := Function.update s.locks (s.pid child) (some s.fresh)
      fresh := s.fresh + 1 } := h.newLock rfl rfl rfl rfl
  have hheld : (s.pc p).holdsPm = true := by simp [hpc, Pc.holdsPm]
  have hnone : (s.pc p).holdsPcb = none := by simp [hpc, Pc.holdsPcb]
  unfold State.addProcess
  dsimp only
  split_ifs
  · exact (hnew.leave (c := .user) hheld rfl (Or.inl hnone)).congr rfl rfl rfl rfl
  · exact hnew.leave hheld rfl (Or.inl hnone)

theorem LockInv.unknown (h : LockInv strict s) {n : Nested P} (hpc : s.pc p = .inside (.nested n)) :
    LockInv strict (s.unknown p n) := by
  have hheld : (s.pc p).holdsPm = true := by simp [hpc, Pc.holdsPm]
  have hnone : (s.pc p).holdsPcb = none := by simp [hpc, Pc.holdsPcb]
  cases n with
  | clear pid k => exact h.finishLeave hheld hnone k
  | broadcast pid => exact h.leave hheld rfl (Or.inl hnone)
  | join pid target => exact h.leave hheld rfl (Or.inl hnone)

theorem LockInv.body (h : LockInv strict s) {r : Routine P} (hpc : s.pc p = .inside r)
    (hg : strict → Ordered s (.next p)) (ht : s.body p r = some t) : LockInv strict t := by
  have hheld : (s.pc p).holdsPm = true := by simp [hpc, Pc.holdsPm]
  cases r with
  | add child memory =>
    obtain rfl := Option.some.inj ht
    exact h.addProcess hpc
  | nested n =>
    simp only [State.body, Option.map_eq_some_iff] at ht
    obtain ⟨marked, hknown, rfl⟩ := ht
    split_ifs with hm
    · subst hm
      have hmarked := (s.table.known_eq_true_iff n.pid).mp hknown
      simp only [Ordered, hpc] at hg
      refine h.goto (by simp [hpc, Pc.holdsPm]) (Or.inl (by simp [hpc, Pc.holdsPcb])) ?_
        (by simp [Pc.atLoop])
      rintro hs m g q ⟨⟩ hlock hown
      exact hg hs hmarked g q hlock hown
    · exact h.unknown hpc
  | getJoins pid k =>
    simp only [State.body, Option.map_eq_some_iff] at ht
    obtain ⟨marked, -, rfl⟩ := ht
    have hnone : (s.pc p).holdsPcb = none := by simp [hpc, Pc.holdsPcb]
    split_ifs
    · exact h.leave hheld rfl (Or.inl hnone)
    · exact h.finishLeave hheld hnone k
  | loop pid target =>
    simp only [State.body, Option.bind_eq_some_iff] at ht
    obtain ⟨q, -, ht⟩ := ht
    split_ifs at ht
    · obtain ⟨g, hlock, rfl⟩ := Option.map_eq_some_iff.mp ht
      exact h.releasePcb hlock (by simp [hpc, Pc.holdsPcb]) (by simp [hpc, Pc.holdsPm])
        (by simp) rfl
    · obtain rfl := Option.some.inj ht
      exact h.leave hheld rfl (Or.inr (by simp [hpc, Pc.holdsPcb]))
  | decrement pid target =>
    simp only [State.body, Option.map_eq_some_iff] at ht
    obtain ⟨table, -, rfl⟩ := ht
    have ht : LockInv strict { s with table := table } := h.congr rfl rfl rfl rfl
    exact ht.leave hheld rfl (Or.inl (by simp [hpc, Pc.holdsPcb]))
  | getStatus pid target =>
    simp only [State.body, Option.map_eq_some_iff] at ht
    obtain ⟨marked, -, rfl⟩ := ht
    have hnone : (s.pc p).holdsPcb = none := by simp [hpc, Pc.holdsPcb]
    split_ifs
    · exact h.leave hheld rfl (Or.inl hnone)
    · exact h.leave hheld rfl (Or.inl hnone)

omit [DecidableEq P] in
theorem wakeAll_pc (s : State P) (condition : ℕ) (q : P) :
    (s.wakeAll condition).pc q = s.pc q ∨ ∃ pid target g,
      s.pc q = .asleep pid target condition g ∧
      (s.wakeAll condition).pc q = .woken pid target g := by
  simp only [State.wakeAll]
  split
  · rename_i pid target cond g hpc
    split_ifs with hc
    · subst hc
      exact Or.inr ⟨pid, target, g, hpc, rfl⟩
    · exact Or.inl rfl
  · exact Or.inl rfl

omit [DecidableEq P] in
/-- A thread that is woken still holds nothing. -/
theorem LockInv.wakeAll (h : LockInv strict s) (condition : ℕ) : LockInv strict (s.wakeAll condition) := by
  have hpm : ∀ q, ((s.wakeAll condition).pc q).holdsPm = (s.pc q).holdsPm := by
    intro q
    rcases wakeAll_pc s condition q with hq | ⟨pid, target, g, hq, hq'⟩
    · rw [hq]
    · rw [hq, hq']
      rfl
  have hpcb : ∀ q, ((s.wakeAll condition).pc q).holdsPcb = (s.pc q).holdsPcb := by
    intro q
    rcases wakeAll_pc s condition q with hq | ⟨pid, target, g, hq, hq'⟩
    · rw [hq]
    · rw [hq, hq']
      rfl
  have hloop : ∀ q, ((s.wakeAll condition).pc q).atLoop = (s.pc q).atLoop := by
    intro q
    rcases wakeAll_pc s condition q with hq | ⟨pid, target, g, hq, hq'⟩
    · rw [hq]
    · rw [hq, hq']
      rfl
  refine ⟨fun q => ?_, fun i g q hi hown => ?_, h.inj, h.fresh, h.unowned, ?_⟩
  · rw [hpm]
    exact h.pm q
  · rw [hpcb]
    exact h.pcb i g q hi hown
  · intro hs q n g r hq hg hr
    rw [hloop]
    rcases wakeAll_pc s condition q with hq' | ⟨pid, target, g', -, hq'⟩
    · exact h.order hs q n g r (hq'.symm.trans hq) hg hr
    · rw [hq'] at hq
      cases hq

theorem LockInv.nestedBody (h : LockInv strict s) {n : Nested P} (hpc : s.pc p = .locked n)
    (ht : s.nestedBody p n = some t) : LockInv strict t := by
  have hheld : (s.pc p).holdsPm = true := by simp [hpc, Pc.holdsPm]
  cases n with
  | clear pid k =>
    simp only [State.nestedBody, Option.map_eq_some_iff] at ht
    obtain ⟨g, hg, rfl⟩ := ht
    have hdrop : LockInv strict { s with
        table := s.table.dropPCB pid
        conditions := Function.update s.conditions pid none } := h.congr rfl rfl rfl rfl
    exact hdrop.releasePcb hg (by simp [hpc, Pc.holdsPcb, Nested.pid]) (by simp [hpc, Pc.holdsPm])
      (by simp) rfl
  | broadcast pid =>
    simp only [State.nestedBody, Option.map_eq_some_iff] at ht
    obtain ⟨cond, -, rfl⟩ := ht
    have hp : (s.wakeAll cond).pc p = s.pc p := by simp [State.wakeAll, hpc]
    refine (h.wakeAll cond).goto ?_ (Or.inr ?_) (by simp) (by simp [Pc.atLoop])
    · simp [hp, hpc, Pc.holdsPm]
    · simp [hp, hpc, Pc.holdsPcb, Nested.pid]
  | join pid target =>
    obtain rfl := Option.some.inj ht
    have hcount : LockInv strict { s with table := s.table.countJoin pid } := h.congr rfl rfl rfl rfl
    exact hcount.leave hheld rfl (Or.inr (by simp [hpc, Pc.holdsPcb, Nested.pid]))

theorem LockInv.joinWait (h : LockInv strict s) {pid : ℤ} {target : Option P} {cond g : ℕ}
    (hpc : s.pc p = .joinWait pid target) (hg : s.locks pid = some g) :
    LockInv strict (if s.owner (.pcb g) = some p then
      (s.release p (.pcb g)).goto p (.asleep pid target cond g)
      else s.goto p (.enter (.loop pid target))) := by
  have hheld : (s.pc p).holdsPcb = some pid := by simp [hpc, Pc.holdsPcb]
  split_ifs with hown
  · exact h.releasePcb hg hheld (by simp [hpc, Pc.holdsPm]) (by simp) rfl
  · refine h.goto (by simp [hpc, Pc.holdsPm]) (Or.inr (by simp [hpc, Pc.holdsPcb])) (by simp) ?_
    intro _ i g' hi ho
    obtain rfl : pid = i := Option.some.inj (hheld.symm.trans (h.pcb i g' p hi ho))
    obtain rfl : g = g' := Option.some.inj (hg.symm.trans hi)
    exact hown ho

theorem LockInv.next (h : LockInv strict s) (hg : strict → Ordered s (.next p)) (ht : s.next p = some t) :
    LockInv strict t := by
  unfold State.next at ht
  split at ht
  · rename_i hpc
    split_ifs at ht
    obtain rfl := Option.some.inj ht
    exact h.gotoPlain (by simp [hpc, Pc.holdsPm]) (by simp [hpc, Pc.holdsPcb]) rfl rfl
  · rename_i r hpc
    exact h.acquirePm hpc ht
  · rename_i r hpc
    exact h.body hpc hg ht
  · rename_i n hpc
    obtain ⟨g, hlock, ht⟩ := Option.bind_eq_some_iff.mp ht
    exact h.acquirePcb hlock (by simp [hpc, Pc.holdsPm]) (by simp [hpc, Pc.holdsPcb]) rfl
      (by simp) (by simp [Pc.atLoop]) ht
  · rename_i n hpc
    exact h.nestedBody hpc ht
  · rename_i pid k hpc
    obtain ⟨table, -, rfl⟩ := Option.map_eq_some_iff.mp ht
    have hdrop : LockInv strict { s with
        table := table, locks := Function.update s.locks pid none } := h.dropLock rfl rfl rfl rfl
    exact hdrop.finishLeave (by simp [hpc, Pc.holdsPm]) (by simp [hpc, Pc.holdsPcb]) k
  · rename_i pid hpc
    obtain ⟨g, hlock, rfl⟩ := Option.map_eq_some_iff.mp ht
    exact h.releasePcb hlock (by simp [hpc, Pc.holdsPcb]) (by simp [hpc, Pc.holdsPm])
      (by simp) rfl
  · rename_i pid hpc
    obtain rfl := Option.some.inj ht
    exact h.leave (by simp [hpc, Pc.holdsPm]) rfl (Or.inl (by simp [hpc, Pc.holdsPcb]))
  · rename_i pid k hpc
    obtain rfl := Option.some.inj ht
    exact h.afterJoins (by simp [hpc, Pc.holdsPm]) (by simp [hpc, Pc.holdsPcb]) k _
  · rename_i pid target hpc
    obtain rfl := Option.some.inj ht
    exact h.leave (by simp [hpc, Pc.holdsPm]) rfl (Or.inl (by simp [hpc, Pc.holdsPcb]))
  · rename_i pid target hpc
    obtain ⟨cond, -, ht⟩ := Option.bind_eq_some_iff.mp ht
    obtain ⟨g, hlock, rfl⟩ := Option.map_eq_some_iff.mp ht
    exact h.joinWait hpc hlock
  · rename_i pid target g hpc
    split_ifs at ht with hlock
    simp only [Ordered, hpc] at hg
    exact h.acquirePcb hlock (by simp [hpc, Pc.holdsPm]) (by simp [hpc, Pc.holdsPcb]) rfl
      (by simp) (fun hs _ => hg hs) ht
  · rename_i pid target hpc
    obtain ⟨q, -, rfl⟩ := Option.map_eq_some_iff.mp ht
    exact h.gotoPlain (by simp [hpc, Pc.holdsPm]) (by simp [hpc, Pc.holdsPcb]) rfl rfl
  · cases ht

theorem LockInv.step {l : Label P} (h : LockInv strict s) (hg : strict → Ordered s l) (hst : Step s l t) :
    LockInv strict t := by
  unfold Step ProcessThreads.step at hst
  cases l with
  | exec q child memory =>
    simp only at hst
    split_ifs at hst with hpc
    obtain rfl := Option.some.inj hst
    have hne : q ≠ child := by
      rintro rfl
      simp [hpc.1] at hpc
    have hchild : LockInv strict (s.goto child .starting) :=
      h.gotoPlain (by simp [hpc.2, Pc.holdsPm]) (by simp [hpc.2, Pc.holdsPcb]) rfl rfl
    have hq : (s.goto child .starting).pc q = .user := by simpa [State.goto, hne] using hpc.1
    exact (hchild.gotoPlain (p := q) (c := .enter (.add child memory)) (by simp [hq, Pc.holdsPm])
      (by simp [hq, Pc.holdsPcb]) rfl rfl).congr rfl rfl rfl rfl
  | join q id target =>
    simp only at hst
    split_ifs at hst with hpc
    obtain rfl := Option.some.inj hst
    exact h.gotoPlain (by simp [hpc.1, Pc.holdsPm]) (by simp [hpc.1, Pc.holdsPcb]) rfl rfl
  | exit q status =>
    simp only at hst
    split_ifs at hst with hpc
    obtain rfl := Option.some.inj hst
    exact (h.gotoPlain (p := q) (c := .enter (.nested (.broadcast (s.pid q))))
      (by simp [hpc, Pc.holdsPm]) (by simp [hpc, Pc.holdsPcb]) rfl rfl).congr rfl rfl rfl rfl
  | next q => exact h.next hg hst

theorem initial_lockInv (storage : ℕ → Word) (maxProcess : ℕ) (joins : ℤ → ℤ) (pid : P → ℤ)
    (root : P) : LockInv strict (initial storage maxProcess joins pid root) := by
  have hlocks : ∀ {i g}, (initial storage maxProcess joins pid root).locks i = some g →
      g = 0 ∧ i = (ProcessTable.create (P := P) storage maxProcess (fun _ => none) joins).getPID.1 := by
    intro i g hi
    simp only [initial] at hi
    by_cases hroot :
        i = (ProcessTable.create (P := P) storage maxProcess (fun _ => none) joins).getPID.1
    · subst hroot
      simpa [eq_comm] using hi
    · simp [hroot] at hi
  constructor
  · intro p
    simp only [initial]
    split_ifs <;> simp [Pc.holdsPm]
  · intro i g p _ hown
    simp [initial] at hown
  · intro i j g hi hj
    rw [(hlocks hi).2, (hlocks hj).2]
  · intro i g hi
    simp [(hlocks hi).1, initial]
  · intro g _
    rfl
  · intro _ p n g q _ _ hown
    simp [initial] at hown

end moves

/-- Process 0 alone on zeroed storage with sixteen ids. -/
def blank : State ℕ := initial (fun _ => 0) 16 (fun _ => 0) (fun _ => 0) 0

end Nachos.ProcessThreads
