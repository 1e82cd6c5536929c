import Nachos.ThreadViews
import Mathlib.Data.Set.Card

/-!
# `SynchList`

The list of `threads/synchlist.cc`: a `List` with a lock and the condition
`listEmpty`. Its calls run on the kernel of `KernelThreads` together with
threads that do anything else except that they cannot use the two private
objects. Simulated time advances only when interrupts are enabled again, so the
code between two calls of the kernel and the call that follows are one step: the
test of the loop with `Wait`, `List::Append` with `Signal`, and `List::Remove`
with `Release`.
-/
namespace Nachos.SynchList
open GuardedRuns KernelThreads

/-- How far a thread has got: `append` and `remove` are at the `Acquire`, `leave`
is at the `Release` of `Append`, `wait` is at the `Wait` of the loop. -/
inductive Point (α : Type*) where
  | outside
  | append (item : Option α)
  | leave
  | remove
  | wait
  deriving DecidableEq, Repr

/-- The items are pointers, `none` is `NULL`. -/
structure State (α T S L C : Type*) where
  kernel : Kernel T S L C
  list : List (Option α)
  point : T → Point α
  appended : List (Option α)
  removed : List (Option α)
  failed : Bool

inductive Call (α T S L C : Type*) where
  | append (item : Option α)
  | remove
  | goOn
  | other (a : Label T S L C)

variable {α T S L C : Type*}

/-- `List::Remove` -/
def listRemove : List (Option α) → Option α × List (Option α)
  | [] => (none, [])
  | item :: rest => (item, rest)

variable [DecidableEq T] [DecidableEq S] [DecidableEq L] [DecidableEq C]

/-- Calls of the kernel on the private objects of the list. -/
def usesList (lock : L) (listEmpty : C) : Label T S L C → Bool
  | .acquire l => l = lock
  | .release l => l = lock
  | .wait c l => c = listEmpty ∨ l = lock
  | .signal c l => c = listEmpty ∨ l = lock
  | .broadcast c l => c = listEmpty ∨ l = lock
  | _ => false

namespace State
variable (lock : L) (listEmpty : C) (σ : State α T S L C)

/-- A call of the kernel by `t`, which is then at `p`. -/
def call (t : T) (p : Point α) (a : Label T S L C) : Option (State α T S L C) :=
  (σ.kernel.step a).map fun k => { σ with kernel := k, point := Function.update σ.point t p }

/-- The first `Acquire` of `Append` and `Remove`. -/
def enter (p : Point α) : Option (State α T S L C) :=
  match σ.kernel.currentThread with
  | none => none
  | some t =>
    match σ.kernel.cont t, σ.point t with
    | .user, .outside => σ.call t p (.acquire lock)
    | _, _ => none

/-- `while (list->IsEmpty()) listEmpty->Wait(lock)` and what follows. -/
def test (t : T) : Option (State α T S L C) :=
  if σ.list.isEmpty then σ.call t .wait (.wait listEmpty lock)
  else
    let (item, rest) := listRemove σ.list
    if item.isNone then some { σ with failed := true }
    else { σ with list := rest, removed := σ.removed ++ [item] }.call t .outside (.release lock)

/-- The running thread goes on in `Append`, in `Remove` or in the second half of
`Condition::Wait`. -/
def goOn : Option (State α T S L C) :=
  match σ.kernel.currentThread with
  | none => none
  | some t =>
    match σ.kernel.cont t, σ.point t with
    | .user, .append item =>
      { σ with list := σ.list ++ [item], appended := σ.appended ++ [item] }.call t .leave
        (.signal listEmpty lock)
    | .user, .leave => σ.call t .outside (.release lock)
    | .user, .remove => σ.test lock listEmpty t
    | .user, .wait => σ.test lock listEmpty t
    | .woken _ _, .wait => σ.call t .wait (.acquire lock)
    | _, _ => none

/-- Steps outside of the list: preemption, interrupts, and the calls of threads
that are in no call of the list. -/
def allowed : Label T S L C → Bool
  | .yield => true
  | .handlerV _ => true
  | .idleReturn => true
  | a =>
    match σ.kernel.currentThread with
    | none => false
    | some t =>
      match σ.point t with
      | .outside => !usesList lock listEmpty a
      | _ => false

def step : Call α T S L C → Option (State α T S L C)
  | a =>
    if σ.failed then none
    else
      match a with
      | .append item => σ.enter lock (.append item)
      | .remove => σ.enter lock .remove
      | .goOn => σ.goOn lock listEmpty
      | .other a =>
        if σ.allowed lock listEmpty a then (σ.kernel.step a).map fun k => { σ with kernel := k }
        else none

end State

def Step (lock : L) (listEmpty : C) (σ : State α T S L C) (a : Call α T S L C)
    (σ' : State α T S L C) : Prop :=
  σ.step lock listEmpty a = some σ'

/-- The items that are appended are not `NULL`. -/
def NonNull (_ : State α T S L C) : Call α T S L C → Prop
  | .append item => item ≠ none
  | _ => True

instance (σ : State α T S L C) : (a : Call α T S L C) → Decidable (NonNull σ a)
  | .append none => .isFalse fun h => h rfl
  | .append (some _) => .isTrue (by simp [NonNull])
  | .remove => .isTrue trivial
  | .goOn => .isTrue trivial
  | .other _ => .isTrue trivial

def start (main : T) (value : S → ℤ) (currentTh : L → Option T) : State α T S L C where
  kernel := initial main value currentTh
  list := []
  point := fun _ => .outside
  appended := []
  removed := []
  failed := false

section protocol
variable {lock : L} {listEmpty : C} {k k' : Kernel T S L C} {point : T → Point α} {t : T}
  {p : Point α} {a : Label T S L C}

/-- What a thread in a call of the list can be doing. -/
def Engaged (lock : L) (listEmpty : C) (v : View S L C) : Prop :=
  Locking lock none v ∨ Locking lock (some listEmpty) v ∨
    v.cont = .wait listEmpty lock ∨ v.cont = .woken listEmpty lock

omit [DecidableEq S] [DecidableEq C] in
theorem Engaged.goes {v v' : View S L C} (h : Engaged lock listEmpty v) (hg : View.Goes v v') :
    Engaged lock listEmpty v' := by
  rcases h with h | h | h | h
  · exact Or.inl (h.goes hg)
  · exact Or.inr (Or.inl (h.goes hg))
  · cases hg with
    | waitReturn =>
      obtain ⟨rfl, rfl⟩ := Cont.wait.inj h
      exact Or.inr (Or.inr (Or.inr rfl))
    | _ => cases h
  · cases hg <;> cases h

/-- The part of the invariant that is about the threads. -/
structure Protocol (lock : L) (listEmpty : C) (k : Kernel T S L C) (point : T → Point α) :
    Prop where
  sound : Sound k
  engaged : ∀ t, point t ≠ .outside → Engaged lock listEmpty (view k t)
  forked : ∀ t, point t ≠ .outside → k.status t ≠ .justCreated
  sleeping : ∀ t ∈ k.queue (.condition listEmpty), point t = .wait

namespace Protocol

omit [DecidableEq S] in
theorem inside (h : Protocol lock listEmpty k point) (hcont : k.cont t = .user)
    (hp : point t ≠ .outside) : KernelThreads.inside t lock k.history = true := by
  have hne : ∀ {c : Cont S L C}, (view k t).cont = c → c ≠ .user → False :=
    fun hc hne => hne (hc.symm.trans hcont)
  rcases h.engaged t hp with (⟨-, hin⟩ | hc) | (⟨-, hin⟩ | hc) | hc | hc
  · exact hin
  · exact (hne hc (by simp)).elim
  · exact hin
  · exact (hne hc (by simp)).elim
  · exact (hne hc (by simp)).elim
  · exact (hne hc (by simp)).elim

omit [DecidableEq S] in
theorem woken (h : Protocol lock listEmpty k point) {c : C} {l : L} (hcont : k.cont t = .woken c l)
    (hp : point t ≠ .outside) : c = listEmpty ∧ l = lock := by
  have hne : ∀ {d : Cont S L C}, (view k t).cont = d → d = .woken c l :=
    fun hd => hd.symm.trans hcont
  rcases h.engaged t hp with (⟨hd, -⟩ | hd) | (⟨hd, -⟩ | hd) | hd | hd
  · cases hne hd
  · cases hne hd
  · cases hne hd
  · cases hne hd
  · cases hne hd
  · simpa [eq_comm] using hne hd

/-- A call of the kernel by `t` on the objects of the list. -/
theorem call (h : Protocol lock listEmpty k point) (hcur : k.currentThread = some t)
    (hstep : k.step a = some k') (hself : p ≠ .outside → Engaged lock listEmpty (view k' t))
    (hqueue : ∀ u ∈ k'.queue (.condition listEmpty),
      u ∈ k.queue (.condition listEmpty) ∨ u = t ∧ p = .wait) :
    Protocol lock listEmpty k' (Function.update point t p) := by
  refine ⟨h.sound.step hstep, fun u hu => ?_, fun u hu => ?_, fun u hu => ?_⟩
  · by_cases hut : u = t
    · rw [hut] at hu ⊢
      exact hself (by simpa using hu)
    · rw [Function.update_of_ne hut] at hu
      refine step_view Engaged.goes hstep (fun hcur' => ?_) (h.forked u hu) (h.engaged u hu)
      exact absurd (Option.some.inj (hcur'.symm.trans hcur)) hut
  · by_cases hut : u = t
    · refine step_forked hstep ?_
      rw [hut]
      exact h.sound.current_forked hcur
    · rw [Function.update_of_ne hut] at hu
      exact step_forked hstep (h.forked u hu)
  · rcases hqueue u hu with hu | ⟨rfl, rfl⟩
    · have hut : u ≠ t := by
        rintro rfl
        exact h.sound.placed.current_notMem hcur _ hu
      rw [Function.update_of_ne hut]
      exact h.sleeping u hu
    · exact Function.update_self _ _ _

/-- A step that makes no call of `t` on `listEmpty` but one with the lock held. -/
theorem queue (h : Protocol lock listEmpty k point) (hstep : k.step a = some k')
    (ha : ∀ l, a = .wait listEmpty l ∨ a = .signal listEmpty l ∨ a = .broadcast listEmpty l →
      RunsInside k l) :
    k'.queue (.condition listEmpty) = conditionQueue k listEmpty a :=
  step_conditionQueue h.sound.conditions h.sound.locks listEmpty ha hstep

theorem enter (h : Protocol lock listEmpty k point) (hcur : k.currentThread = some t)
    (hcont : k.cont t = .user) (hstep : k.step (.acquire lock) = some k') :
    Protocol lock listEmpty k' (Function.update point t p) := by
  refine h.call hcur hstep (fun _ => ?_) fun u hu => Or.inl ?_
  · obtain rfl : k.acquireLoop Kernel.sleep t lock none = k' := by
      simpa [Kernel.step, hcur, hcont, Kernel.call] using hstep
    exact Or.inl (acquireLoop_locking hcur (h.sound.current_forked hcur) (Or.inl ⟨hcont, rfl⟩))
  · rwa [h.queue hstep (by simp)] at hu

theorem reenter (h : Protocol lock listEmpty k point) (hcur : k.currentThread = some t)
    {c : C} {l : L} (hcont : k.cont t = .woken c l) (hp : point t = .wait)
    (hstep : k.step (.acquire lock) = some k') :
    Protocol lock listEmpty k' (Function.update point t .wait) := by
  obtain ⟨rfl, rfl⟩ := h.woken hcont (by simp [hp])
  refine h.call hcur hstep (fun _ => ?_) fun u hu => Or.inl ?_
  · obtain rfl : k.acquireLoop Kernel.sleep t l (some c) = k' := by
      simpa [Kernel.step, hcur, hcont, Kernel.callWoken] using hstep
    refine Or.inr (Or.inl (acquireLoop_locking hcur ?_ (Or.inr (Or.inl ⟨c, hcont, rfl⟩))))
    exact h.forked t (by simp [hp])
  · rwa [h.queue hstep (by simp)] at hu

theorem release (h : Protocol lock listEmpty k point) (hcur : k.currentThread = some t)
    (hstep : k.step (.release lock) = some k') :
    Protocol lock listEmpty k' (Function.update point t .outside) := by
  refine h.call hcur hstep (fun hne => absurd rfl hne) fun u hu => Or.inl ?_
  rwa [h.queue hstep (by simp)] at hu

theorem signal (h : Protocol lock listEmpty k point) (hcur : k.currentThread = some t)
    (hcont : k.cont t = .user) (hp : point t ≠ .outside)
    (hstep : k.step (.signal listEmpty lock) = some k') :
    Protocol lock listEmpty k' (Function.update point t p) ∧
      k'.queue (.condition listEmpty) = (k.queue (.condition listEmpty)).tail := by
  have hin := h.inside hcont hp
  have hqueue : k'.queue (.condition listEmpty) = (k.queue (.condition listEmpty)).tail := by
    rw [h.queue hstep ?_, conditionQueue, if_pos rfl]
    intro l hl u hu
    obtain rfl : l = lock := by simpa [eq_comm] using hl
    rwa [← Option.some.inj (hcur.symm.trans hu)]
  refine ⟨h.call hcur hstep (fun _ => ?_) fun u hu => Or.inl ?_, hqueue⟩
  · obtain rfl : k.signal t listEmpty lock = k' := by
      simpa [Kernel.step, hcur, hcont, Kernel.call] using hstep
    have hview : view (k.signal t listEmpty lock) t = view k t := by
      rw [h.sound.conditions.signal (h.sound.locks.isHeldBy hin)]
      split_ifs
      · rfl
      · refine (wakeWaiter_own (a := .yield) listEmpty).view t (fun _ => trivial) (h.forked t hp)
    rw [hview]
    exact h.engaged t hp
  · rw [hqueue] at hu
    exact List.mem_of_mem_tail hu

theorem wait (h : Protocol lock listEmpty k point) (hcur : k.currentThread = some t)
    (hcont : k.cont t = .user) (hp : point t ≠ .outside)
    (hstep : k.step (.wait listEmpty lock) = some k') :
    Protocol lock listEmpty k' (Function.update point t .wait) := by
  have hin := h.inside hcont hp
  have hheld := h.sound.locks.isHeldBy hin
  refine h.call hcur hstep (fun _ => ?_) fun u hu => ?_
  · obtain rfl : (k.waitBlock t listEmpty lock).sleep = k' := by
      simpa [Kernel.step, hcur, hcont, Kernel.call, Kernel.wait, hheld] using hstep
    have hm := Move.wait (c := listEmpty) hcur hcont hheld
    refine (sleep_resumes waitBlock_currentThread).view Engaged.goes
      (hm.forked (h.forked t hp)) ?_
    exact Or.inr (Or.inr (Or.inl
      ((congrFun waitBlock_cont t).trans (Function.update_self _ _ _))))
  · rw [h.queue hstep ?_, conditionQueue, if_pos rfl, hcur] at hu
    · simpa using hu
    · intro l hl u hu
      obtain rfl : l = lock := by simpa [eq_comm] using hl
      rwa [← Option.some.inj (hcur.symm.trans hu)]

/-- Calls of threads outside of the list, preemption and interrupts. -/
theorem other (h : Protocol lock listEmpty k point)
    (ha : Passive a ∨ ∃ t, k.currentThread = some t ∧ point t = .outside ∧
      usesList lock listEmpty a = false) (hstep : k.step a = some k') :
    Protocol lock listEmpty k' point ∧
      k'.queue (.condition listEmpty) = k.queue (.condition listEmpty) := by
  have hnot : ∀ l, a ≠ .wait listEmpty l ∧ a ≠ .signal listEmpty l ∧ a ≠ .broadcast listEmpty l := by
    intro l
    refine ⟨?_, ?_, ?_⟩
    all_goals
      rintro rfl
      rcases ha with ha | ⟨-, -, -, ha⟩
      · exact ha
      · simp [usesList] at ha
  have hqueue : k'.queue (.condition listEmpty) = k.queue (.condition listEmpty) := by
    rw [h.queue hstep fun l hl => ?_, conditionQueue_eq hnot]
    rcases hl with hl | hl | hl
    · exact absurd hl (hnot l).1
    · exact absurd hl (hnot l).2.1
    · exact absurd hl (hnot l).2.2
  refine ⟨⟨h.sound.step hstep, fun u hu => ?_, fun u hu => step_forked hstep (h.forked u hu),
    fun u hu => h.sleeping u (by rwa [hqueue] at hu)⟩, hqueue⟩
  refine step_view Engaged.goes hstep (fun hcur => ?_) (h.forked u hu) (h.engaged u hu)
  rcases ha with ha | ⟨t, hcur', ht, -⟩
  · exact ha
  · exact absurd (Option.some.inj (hcur'.symm.trans hcur) ▸ ht) hu

end Protocol
end protocol

section runs
variable {lock : L} {listEmpty : C} {σ σ' : State α T S L C} {t : T}

/-- While threads sleep on `listEmpty` there are `n` others that were woken and
have not tested the list since. -/
def Covered (listEmpty : C) (k : Kernel T S L C) (point : T → Point α) (n : ℕ) : Prop :=
  k.queue (.condition listEmpty) ≠ [] → ∃ ws : Finset T, n ≤ ws.card ∧
    ∀ w ∈ ws, point w = .wait ∧ w ∉ k.queue (.condition listEmpty)

structure ListInv (lock : L) (listEmpty : C) (σ : State α T S L C) : Prop where
  protocol : Protocol lock listEmpty σ.kernel σ.point
  fifo : σ.appended = σ.removed ++ σ.list
  nonNull : ∀ item ∈ σ.list, item ≠ none
  pending : ∀ t item, σ.point t = .append item → item ≠ none
  running : σ.failed = false
  covered : Covered listEmpty σ.kernel σ.point σ.list.length

omit [DecidableEq T] [DecidableEq S] [DecidableEq L] [DecidableEq C] in
theorem Covered.frame {k k' : Kernel T S L C} {point point' : T → Point α} {n : ℕ}
    (h : Covered listEmpty k point n)
    (hqueue : k'.queue (.condition listEmpty) = k.queue (.condition listEmpty))
    (hpoint : ∀ u, point u = .wait → point' u = .wait) : Covered listEmpty k' point' n := by
  intro hne
  rw [hqueue] at hne ⊢
  obtain ⟨ws, hcard, hws⟩ := h hne
  exact ⟨ws, hcard, fun w hw => ⟨hpoint w (hws w hw).1, (hws w hw).2⟩⟩

omit [DecidableEq S] [DecidableEq L] [DecidableEq C] in
theorem update_wait {point : T → Point α} {p : Point α} (ht : point t ≠ .wait) {u : T}
    (hu : point u = .wait) : Function.update point t p u = .wait := by
  have hut : u ≠ t := by
    rintro rfl
    exact ht hu
  rwa [Function.update_of_ne hut]

omit [DecidableEq S] in
theorem ListInv.update_append (h : ListInv lock listEmpty σ) {p : Point α}
    (hp : ∀ item, p = .append item → item ≠ none) (u : T) (item : Option α)
    (hu : Function.update σ.point t p u = .append item) : item ≠ none := by
  by_cases hut : u = t
  · rw [hut, Function.update_self] at hu
    exact hp item hu
  · rw [Function.update_of_ne hut] at hu
    exact h.pending u item hu

theorem call_eq {p : Point α} {a : Label T S L C} (h : σ.call t p a = some σ') :
    ∃ k', σ.kernel.step a = some k' ∧
      σ' = { σ with kernel := k', point := Function.update σ.point t p } := by
  obtain ⟨k', hk, rfl⟩ := Option.map_eq_some_iff.mp h
  exact ⟨k', hk, rfl⟩

theorem ListInv.enter {p : Point α} (h : ListInv lock listEmpty σ)
    (hp : ∀ item, p = .append item → item ≠ none)
    (hstep : σ.enter lock p = some σ') : ListInv lock listEmpty σ' := by
  unfold State.enter at hstep
  split at hstep
  · cases hstep
  · rename_i t hcur
    split at hstep
    · rename_i hcont hpoint
      obtain ⟨k', hk, rfl⟩ := call_eq hstep
      have hqueue := h.protocol.queue hk (by simp)
      exact ⟨h.protocol.enter hcur hcont hk, h.fifo, h.nonNull, h.update_append hp, h.running,
        h.covered.frame hqueue fun u => update_wait (by simp [hpoint])⟩
    · cases hstep

/-- `List::Append` and `Signal`: the thread that `Signal` wakes covers the item. -/
theorem ListInv.append {item : Option α} (h : ListInv lock listEmpty σ)
    (hcur : σ.kernel.currentThread = some t) (hcont : σ.kernel.cont t = .user)
    (hpoint : σ.point t = .append item) {k' : Kernel T S L C}
    (hk : σ.kernel.step (.signal listEmpty lock) = some k') :
    ListInv lock listEmpty { σ with
      kernel := k'
      list := σ.list ++ [item]
      appended := σ.appended ++ [item]
      point := Function.update σ.point t .leave } := by
  obtain ⟨hprotocol, hqueue⟩ := h.protocol.signal (p := .leave) hcur hcont (by simp [hpoint]) hk
  refine ⟨hprotocol, ?_, ?_, h.update_append (by simp), h.running, fun hne => ?_⟩
  · simp [h.fifo]
  · intro x hx
    rcases List.mem_append.mp hx with hx | hx
    · exact h.nonNull x hx
    · rw [List.mem_singleton.mp hx]
      exact h.pending t item hpoint
  · dsimp only at hne ⊢
    rw [hqueue] at hne ⊢
    cases hq : σ.kernel.queue (.condition listEmpty) with
    | nil => simp [hq] at hne
    | cons w ws =>
      have hnodup := h.protocol.sound.placed.nodup (.condition listEmpty)
      rw [hq, List.nodup_cons] at hnodup
      have hw : σ.point w = .wait := h.protocol.sleeping w (by simp [hq])
      obtain ⟨vs, hcard, hvs⟩ := h.covered (by simp [hq])
      have hnot : w ∉ vs := fun hmem => (hvs w hmem).2 (by simp [hq])
      refine ⟨insert w vs, ?_, fun v hv => ?_⟩
      · rw [Finset.card_insert_of_notMem hnot, List.length_append]
        exact Nat.succ_le_succ hcard
      · rcases Finset.mem_insert.mp hv with rfl | hv
        · exact ⟨update_wait (by simp [hpoint]) hw, hnodup.1⟩
        · refine ⟨update_wait (by simp [hpoint]) (hvs v hv).1, fun hmem => (hvs v hv).2 ?_⟩
          rw [hq]
          exact List.mem_cons_of_mem w hmem

theorem ListInv.leave (h : ListInv lock listEmpty σ)
    (hcur : σ.kernel.currentThread = some t) (hpoint : σ.point t = .leave) {k' : Kernel T S L C}
    (hk : σ.kernel.step (.release lock) = some k') :
    ListInv lock listEmpty
      { σ with kernel := k', point := Function.update σ.point t .outside } :=
  ⟨h.protocol.release hcur hk, h.fifo, h.nonNull, h.update_append (by simp), h.running,
    h.covered.frame (h.protocol.queue hk (by simp)) fun _ => update_wait (by simp [hpoint])⟩

/-- The test of the loop. A thread that takes an item without having slept makes
one item less to cover. -/
theorem ListInv.test (h : ListInv lock listEmpty σ) (hcur : σ.kernel.currentThread = some t)
    (hcont : σ.kernel.cont t = .user) (hpoint : σ.point t ≠ .outside)
    (hstep : σ.test lock listEmpty t = some σ') : ListInv lock listEmpty σ' := by
  cases hlist : σ.list with
  | nil =>
    simp only [State.test, hlist, List.isEmpty_nil, if_true] at hstep
    obtain ⟨k', hk, rfl⟩ := call_eq hstep
    exact ⟨h.protocol.wait hcur hcont hpoint hk, h.fifo, h.nonNull, h.update_append (by simp),
      h.running, fun _ => ⟨∅, by simp [hlist], by simp⟩⟩
  | cons item rest =>
    have hitem : item.isNone = false := by
      have hne := h.nonNull item (by simp [hlist])
      cases item with
      | none => exact absurd rfl hne
      | some x => rfl
    simp only [State.test, hlist, List.isEmpty_cons, listRemove, hitem, Bool.false_eq_true,
      if_false] at hstep
    obtain ⟨k', hk, rfl⟩ := call_eq hstep
    have hqueue : k'.queue (.condition listEmpty) = σ.kernel.queue (.condition listEmpty) :=
      h.protocol.queue hk (by simp)
    refine ⟨h.protocol.release hcur hk, ?_, fun x hx => ?_, h.update_append (by simp), h.running,
      fun hne => ?_⟩
    · simp [h.fifo, hlist]
    · exact h.nonNull x (by simp only [hlist, List.mem_cons]; exact Or.inr hx)
    · dsimp only at hne ⊢
      rw [hqueue] at hne ⊢
      obtain ⟨ws, hcard, hws⟩ := h.covered hne
      rw [hlist, List.length_cons] at hcard
      refine ⟨ws.erase t, ?_, fun w hw => ?_⟩
      · have hle := Finset.pred_card_le_card_erase (s := ws) (a := t)
        omega
      · obtain ⟨hwt, hw⟩ := Finset.mem_erase.mp hw
        rw [Function.update_of_ne hwt]
        exact hws w hw

theorem ListInv.other {a : Label T S L C} (h : ListInv lock listEmpty σ)
    (ha : σ.allowed lock listEmpty a = true) {k' : Kernel T S L C}
    (hk : σ.kernel.step a = some k') : ListInv lock listEmpty { σ with kernel := k' } := by
  have hcases : Passive a ∨ ∃ t, σ.kernel.currentThread = some t ∧ σ.point t = .outside ∧
      usesList lock listEmpty a = false := by
    unfold State.allowed at ha
    split at ha
    · exact Or.inl trivial
    · exact Or.inl trivial
    · exact Or.inl trivial
    · split at ha
      · cases ha
      · rename_i t hcur
        split at ha
        · rename_i hpoint
          exact Or.inr ⟨t, hcur, hpoint, by simpa using ha⟩
        · cases ha
  obtain ⟨hprotocol, hqueue⟩ := h.protocol.other hcases hk
  exact ⟨hprotocol, h.fifo, h.nonNull, h.pending, h.running,
    h.covered.frame hqueue fun _ hu => hu⟩

theorem ListInv.goOn (h : ListInv lock listEmpty σ)
    (hstep : σ.goOn lock listEmpty = some σ') : ListInv lock listEmpty σ' := by
  unfold State.goOn at hstep
  split at hstep
  · cases hstep
  · rename_i t hcur
    split at hstep
    · rename_i item hcont hpoint
      obtain ⟨k', hk, rfl⟩ := call_eq hstep
      exact h.append hcur hcont hpoint hk
    · rename_i hcont hpoint
      obtain ⟨k', hk, rfl⟩ := call_eq hstep
      exact h.leave hcur hpoint hk
    · rename_i hcont hpoint
      exact h.test hcur hcont (by simp [hpoint]) hstep
    · rename_i hcont hpoint
      exact h.test hcur hcont (by simp [hpoint]) hstep
    · rename_i c l hcont hpoint
      obtain ⟨k', hk, rfl⟩ := call_eq hstep
      have hself : Function.update σ.point t .wait = σ.point := by
        rw [← hpoint, Function.update_eq_self]
      rw [hself]
      have hprotocol := h.protocol.reenter hcur hcont hpoint hk
      rw [hself] at hprotocol
      exact ⟨hprotocol, h.fifo, h.nonNull, h.pending, h.running,
        h.covered.frame (h.protocol.queue hk (by simp)) fun _ hu => hu⟩
    · cases hstep

theorem ListInv.step {a : Call α T S L C} (h : ListInv lock listEmpty σ) (ha : NonNull σ a)
    (hstep : Step lock listEmpty σ a σ') : ListInv lock listEmpty σ' := by
  unfold Step State.step at hstep
  rw [if_neg (by simp [h.running])] at hstep
  cases a with
  | append item =>
    refine h.enter (fun x hx => ?_) hstep
    rw [← Point.append.inj hx]
    exact ha
  | remove => exact h.enter (by simp) hstep
  | goOn => exact h.goOn hstep
  | other a =>
    dsimp only at hstep
    split_ifs at hstep with hallowed
    obtain ⟨k', hk, rfl⟩ := Option.map_eq_some_iff.mp hstep
    exact h.other hallowed hk

/-- The calls of the kernel that the code of the list makes. -/
def OnList (lock : L) (listEmpty : C) (a : Label T S L C) : Prop :=
  a = .acquire lock ∨ a = .release lock ∨ a = .signal listEmpty lock ∨ a = .wait listEmpty lock

theorem enter_eq {p : Point α} (hstep : σ.enter lock p = some σ')
    (hcur : σ.kernel.currentThread = some t) :
    ∃ k', σ.kernel.step (.acquire lock) = some k' ∧ σ.kernel.cont t = .user ∧
      σ.point t = .outside ∧
      σ' = { σ with kernel := k', point := Function.update σ.point t p } := by
  unfold State.enter at hstep
  rw [hcur] at hstep
  dsimp only at hstep
  split at hstep
  · rename_i hcont hpoint
    obtain ⟨k', hk, rfl⟩ := call_eq hstep
    exact ⟨k', hk, hcont, hpoint, rfl⟩
  · cases hstep

theorem goOn_inside (hstep : σ.goOn lock listEmpty = some σ')
    (hcur : σ.kernel.currentThread = some t) : σ.point t ≠ .outside := by
  intro hpoint
  unfold State.goOn at hstep
  simp [hcur, hpoint] at hstep

/-- Only a thread in `Wait` goes on elsewhere than in the code of the list. -/
theorem goOn_cont (hstep : σ.goOn lock listEmpty = some σ')
    (hcur : σ.kernel.currentThread = some t) (hpoint : σ.point t ≠ .wait) :
    σ.kernel.cont t = .user := by
  simp only [State.goOn, hcur] at hstep
  split at hstep
  case h_1 hcont _ => exact hcont
  case h_2 hcont _ => exact hcont
  case h_3 hcont _ => exact hcont
  case h_4 hcont _ => exact hcont
  case h_5 hwait => exact absurd hwait hpoint
  case h_6 => cases hstep

theorem goOn_append {item : Option α} (hstep : σ.goOn lock listEmpty = some σ')
    (hcur : σ.kernel.currentThread = some t) (hpoint : σ.point t = .append item) :
    ∃ k', σ.kernel.step (.signal listEmpty lock) = some k' ∧ σ' = { σ with
      kernel := k'
      list := σ.list ++ [item]
      appended := σ.appended ++ [item]
      point := Function.update σ.point t .leave } := by
  simp only [State.goOn, hcur, goOn_cont hstep hcur (by simp [hpoint]), hpoint] at hstep
  obtain ⟨k', hk, rfl⟩ := call_eq hstep
  exact ⟨k', hk, rfl⟩

theorem goOn_leave (hstep : σ.goOn lock listEmpty = some σ')
    (hcur : σ.kernel.currentThread = some t) (hpoint : σ.point t = .leave) :
    ∃ k', σ.kernel.step (.release lock) = some k' ∧
      σ' = { σ with kernel := k', point := Function.update σ.point t .outside } := by
  simp only [State.goOn, hcur, goOn_cont hstep hcur (by simp [hpoint]), hpoint] at hstep
  obtain ⟨k', hk, rfl⟩ := call_eq hstep
  exact ⟨k', hk, rfl⟩

/-- What a thread in `Remove` does: it waits for an item or takes the first one. -/
def Removes (lock : L) (listEmpty : C) (σ : State α T S L C) (t : T) (σ' : State α T S L C) : Prop :=
  ∃ a k', OnList lock listEmpty a ∧ σ.kernel.step a = some k' ∧
    (σ' = { σ with kernel := k', point := Function.update σ.point t .wait } ∨
      ∃ x rest, σ.list = some x :: rest ∧ σ' = { σ with
        kernel := k'
        list := rest
        removed := σ.removed ++ [some x]
        point := Function.update σ.point t .outside })

theorem ListInv.test_removes (h : ListInv lock listEmpty σ)
    (htest : σ.test lock listEmpty t = some σ') : Removes lock listEmpty σ t σ' := by
  cases hlist : σ.list with
  | nil =>
    simp only [State.test, hlist, List.isEmpty_nil, if_true] at htest
    obtain ⟨k', hk, rfl⟩ := call_eq htest
    exact ⟨_, k', Or.inr (Or.inr (Or.inr rfl)), hk, Or.inl (by rw [hlist])⟩
  | cons item rest =>
    cases item with
    | none => exact absurd rfl (h.nonNull none (by simp [hlist]))
    | some x =>
      simp only [State.test, hlist, List.isEmpty_cons, listRemove, Option.isNone_some,
        Bool.false_eq_true, if_false] at htest
      obtain ⟨k', hk, rfl⟩ := call_eq htest
      exact ⟨_, k', Or.inr (Or.inl rfl), hk, Or.inr ⟨x, rest, hlist, rfl⟩⟩

theorem ListInv.goOn_remove (h : ListInv lock listEmpty σ)
    (hstep : σ.goOn lock listEmpty = some σ') (hcur : σ.kernel.currentThread = some t)
    (hpoint : σ.point t = .remove ∨ σ.point t = .wait) : Removes lock listEmpty σ t σ' := by
  simp only [State.goOn, hcur] at hstep
  split at hstep
  case h_1 heq => simp [heq] at hpoint
  case h_2 heq => simp [heq] at hpoint
  case h_3 => exact h.test_removes hstep
  case h_4 => exact h.test_removes hstep
  case h_5 =>
    obtain ⟨k', hk, rfl⟩ := call_eq hstep
    exact ⟨_, k', Or.inl rfl, hk, Or.inl rfl⟩
  case h_6 => cases hstep

/-- In every state of a run in which no `NULL` is appended: the assertion has not
failed, the items that were removed and then those in the list are the items that
were appended, in order; a thread that goes on in a call of the list with the
processor holds the lock; and while a `Remove` sleeps, the list has at most as
many items as there are removers that were woken and have not tested the list
again. -/
theorem synchList_fifo (lock : L) (listEmpty : C) (main : T) (value : S → ℤ)
    (currentTh : L → Option T) (as : List (Call α T S L C)) (σ : State α T S L C)
    (hrun : Run (Step lock listEmpty) NonNull (start main value currentTh) as σ) :
    σ.failed = false ∧ σ.appended = σ.removed ++ σ.list ∧
    (∀ t, σ.kernel.cont t = .user → σ.point t ≠ .outside →
      inside t lock σ.kernel.history = true) ∧
    (σ.kernel.queue (.condition listEmpty) ≠ [] → (σ.list.length : ℕ∞) ≤
      {t | σ.point t = .wait ∧ t ∉ σ.kernel.queue (.condition listEmpty)}.encard) := by
  have hstart : ListInv lock listEmpty (start main value currentTh : State α T S L C) :=
    ⟨⟨initial_sound main value currentTh, fun t ht => absurd rfl ht, fun t ht => absurd rfl ht,
      fun t ht => absurd ht List.not_mem_nil⟩, rfl, by simp [start], by simp [start], rfl,
      fun hne => absurd rfl hne⟩
  have h := hrun.invariant hstart fun h ha hstep => h.step ha hstep
  refine ⟨h.running, h.fifo, fun t hcont hpoint => h.protocol.inside hcont hpoint, fun hne => ?_⟩
  obtain ⟨ws, hcard, hws⟩ := h.covered hne
  have hsub : (ws : Set T) ⊆
      {t | σ.point t = .wait ∧ t ∉ σ.kernel.queue (.condition listEmpty)} := fun w hw => hws w hw
  calc (σ.list.length : ℕ∞) ≤ ws.card := by exact_mod_cast hcard
    _ = (ws : Set T).encard := (Set.encard_coe_eq_coe_finsetCard ws).symm
    _ ≤ _ := Set.encard_le_encard hsub

end runs

/-- Threads 1 and 2 sleep in `Remove`, then main appends an item: 2 still sleeps, and
the item is there for 1, which was woken. -/
theorem synchList_fifo_two_sleepers :
    ∃ σ : State ℕ ℕ Unit Unit Unit,
      Run (Step () ()) NonNull (start 0 (fun _ => 0) fun _ => none)
        [.other (.fork 1), .other (.fork 2), .other .yield, .remove, .goOn, .remove, .goOn,
          .append (some 7), .goOn] σ ∧
      σ.kernel.queue (.condition ()) = [2] ∧ σ.list = [some 7] ∧
      σ.appended = σ.removed ++ σ.list ∧
      1 ≤ {t | σ.point t = .wait ∧ t ∉ σ.kernel.queue (.condition ())}.encard := by
  obtain ⟨σ, hrun, hk⟩ := exists_guarded_run_of_exec (State.step () ()) NonNull
    (start 0 (fun _ => 0) fun _ => none : State ℕ ℕ Unit Unit Unit)
    [.other (.fork 1), .other (.fork 2), .other .yield, .remove, .goOn, .remove, .goOn,
      .append (some 7), .goOn]
    (fun σ => σ.kernel.queue (.condition ()) = [2] ∧ σ.list = [some 7]) (by decide)
  obtain ⟨hq, hl⟩ := of_decide_eq_true hk
  obtain ⟨-, hfifo, -, hcovered⟩ := synchList_fifo () () 0 _ _ _ σ hrun
  exact ⟨σ, hrun, hq, hl, hfifo, by simpa [hl] using hcovered (by simp [hq])⟩

end Nachos.SynchList
