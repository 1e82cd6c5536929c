import Nachos.ThreadQueues

/-!
# Counting semaphores

`V` puts one sleeper on the ready list and adds one to the value; the thread it
wakes has to test the value again and a newcomer may take the unit first. A
thread that was woken and has not tested yet stands on the ready list inside of
`P`, or is being dispatched. As long as somebody sleeps there is one such thread
for every free unit.
-/
namespace Nachos.KernelThreads
open GuardedRuns

variable {T S L C : Type*}

/-- Completed calls of `V`. -/
def ups [DecidableEq S] (s : S) : List (Event T S L C) → ℕ
  | [] => 0
  | .upped s' :: h => if s' = s then ups s h + 1 else ups s h
  | _ :: h => ups s h

/-- Completed calls of `P`. -/
def downs [DecidableEq S] (s : S) : List (Event T S L C) → ℕ
  | [] => 0
  | .downed _ s' :: h => if s' = s then downs s h + 1 else downs s h
  | _ :: h => downs s h

variable [DecidableEq T] [DecidableEq S] [DecidableEq L] [DecidableEq C]

/-- The threads taken from the queue of `s` that have not tested its value since. -/
def retesters (k : Kernel T S L C) (s : S) : Finset T :=
  ((k.currentThread.toList ++ k.queue .ready).filter fun t => k.cont t = .p s).toFinset

section moves
variable {k k' : Kernel T S L C} {t : T} {s : S} {value : S → ℤ}

@[simp] theorem mem_retesters {w : T} : w ∈ retesters k s ↔ Due k (.p s) w := by
  simp [retesters, Due, or_comm, or_and_right]

structure SemaphoreInv (value : S → ℤ) (k : Kernel T S L C) : Prop where
  nonneg : ∀ s, 0 ≤ k.value s
  balance : ∀ s, k.value s = value s + ups s k.history - downs s k.history
  claimed : ∀ s, k.queue (.semaphore s) ≠ [] → k.value s ≤ (retesters k s).card

/-- A change that leaves the semaphores alone and loses no woken thread. -/
theorem SemaphoreInv.frame (h : SemaphoreInv value k) (hvalue : k'.value = k.value)
    (hups : ∀ s, ups s k'.history = ups s k.history)
    (hdowns : ∀ s, downs s k'.history = downs s k.history)
    (hq : ∀ s, k'.queue (.semaphore s) = k.queue (.semaphore s))
    (hdue : ∀ s w, Due k (.p s) w → Due k' (.p s) w) : SemaphoreInv value k' := by
  refine ⟨fun s => ?_, fun s => ?_, fun s hne => ?_⟩
  · rw [hvalue]
    exact h.nonneg s
  · rw [hvalue, hups, hdowns]
    exact h.balance s
  · rw [hq] at hne
    have hsub : retesters k s ⊆ retesters k' s := by
      intro w hw
      rw [mem_retesters] at hw ⊢
      exact hdue s w hw
    have hle := Finset.card_le_card hsub
    have hclaimed := h.claimed s hne
    rw [hvalue]
    omega

@[simp] theorem ups_wake (k : Kernel T S L C) (q : Queue S L C) :
    ups s (k.wake q).history = ups s k.history := by
  rcases wake_history k q with h | ⟨u, h⟩ <;> simp [h, ups]

@[simp] theorem downs_wake (k : Kernel T S L C) (q : Queue S L C) :
    downs s (k.wake q).history = downs s k.history := by
  rcases wake_history k q with h | ⟨u, h⟩ <;> simp [h, downs]

theorem SemaphoreInv.wake (h : SemaphoreInv value k) {q : Queue S L C} (hready : q ≠ .ready)
    (hsem : ∀ s, q ≠ .semaphore s) : SemaphoreInv value (k.wake q) :=
  h.frame (by simp) (fun s => by simp) (fun s => by simp)
    (fun s => wake_queue_of_ne k q (hsem s).symm (by simp)) fun s w hw => hw.wake hready

theorem SemaphoreInv.release (h : SemaphoreInv value k) (t : T) (l : L) :
    SemaphoreInv value (k.release t l) := by
  have hrec : SemaphoreInv value (k.record (.released t l)) :=
    h.frame rfl (fun s => rfl) (fun s => rfl) (fun s => rfl) fun s w hw => hw
  cases hheld : k.isHeldBy l t with
  | true =>
    rw [release_eq hheld]
    exact (hrec.wake (q := .lock l) (by simp) (by simp)).frame rfl (fun s => rfl) (fun s => rfl)
      (fun s => rfl) fun s w hw => hw
  | false =>
    rw [release_eq_record hheld]
    exact hrec

theorem SemaphoreInv.block (h : SemaphoreInv value k) (hcur : k.currentThread = some t)
    (hcont : ∀ s, k.cont t ≠ .p s) {q : Queue S L C} (hready : q ≠ .ready)
    (hsem : ∀ s, q ≠ .semaphore s) (c : Cont S L C) : SemaphoreInv value (k.block t q c) := by
  refine h.frame rfl (fun s => rfl) (fun s => rfl) (fun s => ?_) fun s w hw => ?_
  · simp [Kernel.block, Kernel.setCont, Kernel.setQueue, (hsem s).symm]
  · refine hw.block hcur ?_ hready c
    rintro rfl
    exact hcont s hw.2

/-- The running thread moves on without having waited for a semaphore. -/
theorem SemaphoreInv.setCont (h : SemaphoreInv value k) (hcont : ∀ s, k.cont t ≠ .p s)
    (c : Cont S L C) : SemaphoreInv value (k.setCont t c) := by
  refine h.frame rfl (fun s => rfl) (fun s => rfl) (fun s => rfl) fun s w hw => hw.setCont ?_ c
  rintro rfl
  exact hcont s hw.2

/-- The caller takes a unit: it was either woken and counts as one of those that
test again, or a newcomer. -/
theorem SemaphoreInv.down (h : SemaphoreInv value k) (hcont : k.cont t = .user ∨ k.cont t = .p s)
    (hv : k.value s ≠ 0) : SemaphoreInv value (k.down t s) := by
  have hpos := h.nonneg s
  have hdue : ∀ {s' w}, w ≠ t → Due k (.p s') w → Due (k.down t s) (.p s') w :=
    fun hne hw => hw.setCont hne .user
  refine ⟨fun s' => ?_, fun s' => ?_, fun s' hne => ?_⟩
  · by_cases hs : s' = s
    · subst hs
      simp only [Kernel.down, Kernel.record, Kernel.setCont, Function.update_self]
      omega
    · simpa [Kernel.down, Kernel.record, Kernel.setCont, hs] using h.nonneg s'
  · have hb := h.balance s'
    by_cases hs : s' = s
    · subst hs
      simp only [Kernel.down, Kernel.record, Kernel.setCont, Function.update_self, ups, downs,
        if_true]
      push_cast
      omega
    · simpa [Kernel.down, Kernel.record, Kernel.setCont, ups, downs, hs, Ne.symm hs] using hb
  · have hclaimed := h.claimed s' hne
    by_cases hs : s' = s
    · subst hs
      have hsub : retesters k s' ⊆ insert t (retesters (k.down t s') s') := by
        intro w hw
        rw [Finset.mem_insert, mem_retesters]
        by_cases hwt : w = t
        · exact Or.inl hwt
        · exact Or.inr (hdue hwt (mem_retesters.mp hw))
      have hle := (Finset.card_le_card hsub).trans (Finset.card_insert_le _ _)
      simp only [Kernel.down, Kernel.record, Kernel.setCont, Function.update_self] at hle ⊢
      omega
    · have hsub : retesters k s' ⊆ retesters (k.down t s) s' := by
        intro w hw
        rw [mem_retesters] at hw ⊢
        refine hdue ?_ hw
        rintro rfl
        rcases hcont with hc | hc
        · exact absurd (hw.2.symm.trans hc) (by simp)
        · exact hs (by simpa using hw.2.symm.trans hc)
      have hle := Finset.card_le_card hsub
      have hval : (k.down t s).value s' = k.value s' := by
        simp [Kernel.down, Kernel.record, Kernel.setCont, hs]
      rw [hval]
      omega

/-- The caller goes to sleep, so there is no free unit. -/
theorem SemaphoreInv.blockP (h : SemaphoreInv value k) (hcur : k.currentThread = some t)
    (hcont : k.cont t = .user ∨ k.cont t = .p s) (hv : k.value s = 0) :
    SemaphoreInv value (k.block t (.semaphore s) (.p s)) := by
  refine ⟨h.nonneg, h.balance, fun s' hne => ?_⟩
  by_cases hs : s' = s
  · subst hs
    have hval : (k.block t (.semaphore s') (.p s')).value s' = 0 := hv
    rw [hval]
    exact Int.natCast_nonneg _
  · have hq : (k.block t (.semaphore s) (.p s)).queue (.semaphore s') = k.queue (.semaphore s') := by
      simp [Kernel.block, Kernel.setCont, Kernel.setQueue, hs]
    rw [hq] at hne
    have hsub : retesters k s' ⊆ retesters (k.block t (.semaphore s) (.p s)) s' := by
      intro w hw
      rw [mem_retesters] at hw ⊢
      refine hw.block hcur ?_ (by simp) _
      rintro rfl
      rcases hcont with hc | hc
      · exact absurd (hw.2.symm.trans hc) (by simp)
      · exact hs (by simpa using hw.2.symm.trans hc)
    have hle := Finset.card_le_card hsub
    have hclaimed := h.claimed s' hne
    have hval : (k.block t (.semaphore s) (.p s)).value s' = k.value s' := rfl
    rw [hval]
    omega

/-- `V` adds a unit and, if somebody sleeps, a thread that will test again. -/
theorem SemaphoreInv.v (h : SemaphoreInv value k) (hp : Placed k) (s : S) :
    SemaphoreInv value (k.v s) := by
  have hv : ∀ s', (k.v s).value s' = if s' = s then k.value s + 1 else k.value s' := by
    intro s'
    by_cases hs : s' = s
    · subst hs
      simp [Kernel.v, Kernel.record]
    · simp [Kernel.v, Kernel.record, hs]
  have hdue : ∀ {s' w}, Due k (.p s') w → Due (k.v s) (.p s') w :=
    fun hw => hw.wake (q := .semaphore s) (by simp)
  have hsub : ∀ s', retesters k s' ⊆ retesters (k.v s) s' := by
    intro s' w hw
    rw [mem_retesters] at hw ⊢
    exact hdue hw
  refine ⟨fun s' => ?_, fun s' => ?_, fun s' hne => ?_⟩
  · have hs := h.nonneg s
    have hs' := h.nonneg s'
    rw [hv]
    split_ifs <;> omega
  · have hb := h.balance s'
    have hdown : downs s' (k.v s).history = downs s' k.history := by
      simp [Kernel.v, Kernel.record, downs]
    have hup : ups s' (k.v s).history = if s = s' then ups s' k.history + 1 else ups s' k.history := by
      simp [Kernel.v, Kernel.record, ups]
    rw [hv, hdown, hup]
    by_cases hs : s' = s
    · subst hs
      simp only [if_true]
      push_cast
      omega
    · simpa [hs, Ne.symm hs] using hb
  · rw [hv]
    by_cases hs : s' = s
    · subst hs
      have hq : (k.v s').queue (.semaphore s') = (k.queue (.semaphore s')).tail :=
        wake_queue k _ (by simp)
      rw [hq] at hne
      obtain ⟨w, ts, hw⟩ : ∃ w ts, k.queue (.semaphore s') = w :: ts :=
        List.exists_cons_of_ne_nil fun hnil => hne (by rw [hnil]; rfl)
      have hmem : w ∈ k.queue (.semaphore s') := by simp [hw]
      have hnot : w ∉ retesters k s' := by
        rw [mem_retesters]
        rintro ⟨hplace | hplace, -⟩
        · simpa using hp.queue_eq hmem hplace
        · exact hp.current_notMem hplace _ hmem
      have hnew : w ∈ retesters (k.v s') s' := mem_retesters.mpr
        (due_of_wake (q := .semaphore s') (by simp) (by simp [hw]) (hp.fits _ w hmem).1)
      have hle := Finset.card_le_card (Finset.insert_subset hnew (hsub s'))
      rw [Finset.card_insert_of_notMem hnot] at hle
      have hclaimed := h.claimed s' (by simp [hw])
      rw [if_pos rfl]
      omega
    · have hq : (k.v s).queue (.semaphore s') = k.queue (.semaphore s') :=
        wake_queue_of_ne k _ (by simpa using hs) (by simp)
      rw [hq] at hne
      have hle := Finset.card_le_card (hsub s')
      have hclaimed := h.claimed s' hne
      rw [if_neg hs]
      omega

omit [DecidableEq T] [DecidableEq S] [DecidableEq L] [DecidableEq C] in
theorem InAcquire.cont_ne_p {l : L} {c : Option C} (h : InAcquire k t l c) (s : S) :
    k.cont t ≠ .p s := by
  rcases h with ⟨h, -⟩ | ⟨d, h, -⟩ | h <;> simp [h]

theorem SemaphoreInv.move (h : SemaphoreInv value k) (hp : Placed k) (hm : Move k k') :
    SemaphoreInv value k' := by
  cases hm with
  | @run t ts hcur hq =>
    obtain ⟨hist, d, hrun, hhist⟩ := run_eq k t ts
    refine h.frame ?_ (fun s => ?_) (fun s => ?_) (fun s => ?_) fun s w hw => hw.run hcur hq
    · rw [hrun]
    · rw [hrun]
      rcases hhist with rfl | ⟨v, rfl⟩ <;> rfl
    · rw [hrun]
      rcases hhist with rfl | ⟨v, rfl⟩ <;> rfl
    · simp
  | start hcur hcont => exact h.setCont (by simp [hcont]) _
  | waitReturn hcur hcont => exact h.setCont (by simp [hcont]) _
  | down hcur hcont hv => exact h.down hcont hv
  | blockP hcur hcont hv => exact h.blockP hcur hcont hv
  | @take t l c hcur hin hfree =>
    have hk := h.setCont hin.cont_ne_p .user
    cases c with
    | none => exact hk.frame rfl (fun s => rfl) (fun s => rfl) (fun s => rfl) fun s w hw => hw
    | some c => exact hk.frame rfl (fun s => rfl) (fun s => rfl) (fun s => rfl) fun s w hw => hw
  | blockAcquire hcur hin hheld htaken => exact h.block hcur hin.cont_ne_p (by simp) (by simp) _
  | v s => exact h.v hp s
  | @release t l hcur => exact h.release t l
  | @wait t c l hcur hcont hheld =>
    have hrec : SemaphoreInv value (k.record (.waits t c)) :=
      h.frame rfl (fun s => rfl) (fun s => rfl) (fun s => rfl) fun s w hw => hw
    have hblock := hrec.block (q := .condition c) hcur (by simp [Kernel.record, hcont])
      (by simp) (by simp) (.wait c l)
    refine SemaphoreInv.release ?_ t l
    exact hblock.frame rfl (fun s => rfl) (fun s => rfl) (fun s => rfl) fun s w hw => hw
  | @wakeWaiter c hw =>
    refine SemaphoreInv.wake ?_ (by simp) (by simp)
    exact h.frame rfl (fun s => rfl) (fun s => rfl) (fun s => rfl) fun s w hw => hw
  | yield hcur =>
    refine h.frame rfl (fun s => rfl) (fun s => rfl) (fun s => ?_) fun s w hw => hw.yieldReady hcur
    simp [Kernel.yieldReady, Kernel.readyToRun, Kernel.setQueue]
  | fork hu =>
    refine h.frame rfl (fun s => rfl) (fun s => rfl) (fun s => ?_) fun s w hw => hw.fork hp hu
    simp [Kernel.fork, Kernel.readyToRun, Kernel.setQueue, Kernel.setCont]
  | finish hcur hcont =>
    refine h.frame rfl (fun s => rfl) (fun s => rfl) (fun s => rfl) fun s w hw =>
      hw.finishBlock hcur ?_
    rintro rfl
    exact absurd (hw.2.symm.trans hcont) (by simp)

theorem initial_semaphoreInv (main : T) (hvalue : ∀ s, 0 ≤ value s) (currentTh : L → Option T) :
    SemaphoreInv value (initial main value currentTh : Kernel T S L C) :=
  ⟨hvalue, fun s => by simp [initial, ups, downs], fun s hne => absurd rfl hne⟩

/-- In every reachable state the value of a semaphore is not negative and is the
initial value with the completed calls added and taken off. While threads sleep
there are at least as many threads that `V` took from the queue and that have
not tested the value since as there are free units. -/
theorem semaphore_counts (main : T) (hvalue : ∀ s, 0 ≤ value s) (currentTh : L → Option T)
    (as : List (Label T S L C)) (k : Kernel T S L C)
    (hrun : Run Step Free (initial main value currentTh) as k) (s : S) :
    0 ≤ k.value s ∧ k.value s = value s + ups s k.history - downs s k.history ∧
    (k.queue (.semaphore s) ≠ [] → k.value s ≤
      ((k.queue .ready).filter fun t => k.cont t = .p s ∧ t ∉ k.queue (.semaphore s)).length) := by
  obtain ⟨hp, hs, h⟩ := run_invariant hrun (initial_placed main value currentTh)
    (initial_settled main value currentTh) (initial_semaphoreInv main hvalue currentTh)
    fun hp hk hm => hk.move hp hm
  refine ⟨h.nonneg s, h.balance s, fun hne => (h.claimed s hne).trans ?_⟩
  have hsub : retesters k s ⊆ ((k.queue .ready).filter
      fun t => k.cont t = .p s ∧ t ∉ k.queue (.semaphore s)).toFinset := by
    intro w hw
    obtain ⟨hplace, hcont⟩ := mem_retesters.mp hw
    have hready : w ∈ k.queue .ready := hplace.resolve_right fun hcur => by
      simpa [hcont, Cont.asleep] using hs w hcur
    have hnot : w ∉ k.queue (.semaphore s) := fun hq => by simpa using hp.queue_eq hready hq
    simp [hready, hcont, hnot]
  exact_mod_cast (Finset.card_le_card hsub).trans (List.toFinset_card_le _)

end moves

/-- Threads 1 and 2 sleep, an interrupt handler calls `V` once: one unit is free,
2 still sleeps and 1 has to test again. -/
theorem semaphore_counts_two_sleepers :
    ∃ k : Kernel ℕ Unit Unit Unit,
      Run Step Free (initial 0 (fun _ => 0) fun _ => none)
        [.fork 1, .fork 2, .yield, .p (), .p (), .handlerV ()] k ∧
      k.queue (.semaphore ()) = [2] ∧ k.value () = 1 ∧ k.value () ≤
        ((k.queue .ready).filter fun t => k.cont t = .p () ∧ t ∉ k.queue (.semaphore ())).length := by
  obtain ⟨k, hrun, hk⟩ := exists_run_of_exec Kernel.step
    (initial 0 (fun _ => 0) fun _ => none : Kernel ℕ Unit Unit Unit)
    [.fork 1, .fork 2, .yield, .p (), .p (), .handlerV ()]
    (fun k => k.queue (.semaphore ()) = [2] ∧ k.value () = 1) (by decide)
  obtain ⟨hq, hv⟩ := of_decide_eq_true hk
  refine ⟨k, hrun, hq, hv, ?_⟩
  exact (semaphore_counts 0 (fun _ => le_rfl) _ _ k hrun ()).2.2 (by simp [hq])

end Nachos.KernelThreads
