import Nachos.ManagerCalls

/-!
# What the routines of the managers keep

The routines are followed branch by branch, with one of the managers' locks and the size of
the bit map of process ids in view. From this come the two results about whole runs: which
ids stop the process manager, and which arguments leave a manager with its lock taken.
-/
namespace Nachos.ManagerCalls
open GuardedRuns LockedRoutines OpenFileTable
open PhysicalFrames (numPhysPages)

section meets
variable {P N F : Type} {maxProcess : ℕ} {σ : Spec LockName (Store P N F) ℤ Stop}
  {held inside : Bool} {pid : ℤ} {k : Routine P N F}

/-- The id is one of the arrays and of the bit map, or the routine may stop at it. -/
def Admits (maxProcess : ℕ) (σ : Spec LockName (Store P N F) ℤ Stop) (pid : ℤ) : Prop :=
  (0 ≤ pid ∧ pid < maxProcess ∧ ∀ s, σ.data s → s.table.processIDs.numBits = maxProcess) ∨
    (σ.stops .outside ∧ σ.stops (.assertion .processes))

/-- Requirements that the code can be checked against from `held` on: a routine that has
released its lock may return. -/
structure Fits (maxProcess : ℕ) (σ : Spec LockName (Store P N F) ℤ Stop) (held : Bool) : Prop where
  lock : ∀ n, LockName.pcb n ≠ σ.lock
  data : ∀ s s', s'.table.processIDs.numBits = s.table.processIDs.numBits → σ.data s → σ.data s'
  null : σ.stops .null
  others : ∀ m, m ≠ .processes → σ.stops (.assertion m)
  returns : σ.returns held ∧ σ.returns false
  turns : ∀ pid, Admits maxProcess σ pid → σ.turns pid held ∧ σ.turns pid false

/-- Whether the lock in view is held inside a routine of manager `m`. -/
abbrev within (σ : Spec LockName (Store P N F) ℤ Stop) (m : Manager) (held : Bool) : Bool :=
  held || decide (LockName.own m = σ.lock)

/-- Whether it is held after the routine's `Release`. -/
abbrev after (σ : Spec LockName (Store P N F) ℤ Stop) (m : Manager) (held : Bool) : Bool :=
  within σ m held && !decide (LockName.own m = σ.lock)

theorem after_cases (σ : Spec LockName (Store P N F) ℤ Stop) (m : Manager) (held : Bool) :
    after σ m held = held ∨ after σ m held = false := by
  by_cases h : LockName.own m = σ.lock
  · exact .inr (by simp [after, within, h])
  · exact .inl (by simp [after, within, h])

theorem Fits.returns_after (h : Fits maxProcess σ held) (m : Manager) :
    σ.returns (after σ m held) := by
  rcases after_cases σ m held with heq | heq
  · rw [heq]
    exact h.returns.1
  · rw [heq]
    exact h.returns.2

theorem Fits.turns_after (h : Fits maxProcess σ held) (hpid : Admits maxProcess σ pid)
    (m : Manager) : σ.turns pid (after σ m held) := by
  rcases after_cases σ m held with heq | heq
  · rw [heq]
    exact (h.turns pid hpid).1
  · rw [heq]
    exact (h.turns pid hpid).2

theorem Fits.acquire_pcb (h : Fits maxProcess σ held) {n : ℕ} (hk : Meets σ k inside) :
    Meets σ (.acquire (.pcb n) k) inside := by
  show Meets σ k (inside || decide (LockName.pcb n = σ.lock))
  simpa [h.lock n] using hk

theorem Fits.release_pcb (h : Fits maxProcess σ held) {n : ℕ} (hk : Meets σ k inside) :
    Meets σ (.release (.pcb n) k) inside := by
  show Meets σ k (inside && !decide (LockName.pcb n = σ.lock))
  simpa [h.lock n] using hk

theorem meets_read {k : Store P N F → Routine P N F} (hk : ∀ s, σ.data s → Meets σ (k s) inside) :
    Meets σ (.act id k) inside := fun s hs => ⟨hs, hk s hs⟩

theorem Fits.change (h : Fits maxProcess σ held) {f : Store P N F → Store P N F}
    {k : Store P N F → Routine P N F}
    (hf : ∀ s, (f s).table.processIDs.numBits = s.table.processIDs.numBits)
    (hk : ∀ s, σ.data s → Meets σ (k s) inside) : Meets σ (.act f k) inside := fun s hs =>
  ⟨h.data s (f s) (hf s) hs, hk s hs⟩

theorem meets_index (h : Admits maxProcess σ pid) (hk : Meets σ k inside) :
    Meets σ (index maxProcess pid k) inside := by
  rw [index]
  split_ifs with hin
  · exact hk
  · rcases h with ⟨h0, hlt, -⟩ | ⟨hstop, -⟩
    · exact absurd ⟨h0, hlt⟩ hin
    · exact hstop

theorem Admits.inRange (h : Admits maxProcess σ pid) {s : Store P N F} (hs : σ.data s) :
    s.table.processIDs.InRange pid ∨ σ.stops (.assertion .processes) := by
  rcases h with ⟨h0, hlt, hbits⟩ | ⟨-, hstop⟩
  · exact .inl ⟨h0, by rw [hbits s hs]; exact hlt⟩
  · exact .inr hstop

theorem meets_test (h : Admits maxProcess σ pid) {k : Bool → Routine P N F}
    (hk : ∀ marked, Meets σ (k marked) inside) : Meets σ (test pid k) inside := by
  refine meets_read fun s hs => ?_
  rw [BitMap.test]
  split_ifs with hin
  · exact hk _
  · exact (h.inRange hs).resolve_left hin

theorem Fits.pointer (h : Fits maxProcess σ held) (hpid : Admits maxProcess σ pid)
    {array : Store P N F → ℤ → Option ℕ} {k : ℕ → Routine P N F}
    (hk : ∀ n, Meets σ (k n) inside) : Meets σ (pointer maxProcess pid array k) inside := by
  refine meets_index hpid (meets_read fun s _ => ?_)
  cases array s pid with
  | none => exact h.null
  | some n => exact hk n

theorem Fits.clearID (h : Fits maxProcess σ held) (hpid : Admits maxProcess σ pid)
    (hk : Meets σ k inside) : Meets σ (clearID pid k) inside := by
  refine h.change (fun s => ?_) fun s hs => ?_
  · show ((s.table.clearID pid).getD s.table).processIDs.numBits = _
    rw [ProcessTable.clearID, BitMap.clear]
    split_ifs <;> rfl
  · split_ifs with hsome
    · exact hk
    · refine (hpid.inRange hs).resolve_left fun hin => hsome ?_
      rw [ProcessTable.clearID, BitMap.clear, if_pos hin]
      rfl

theorem meets_checked (hpid : pid > maxProcess ∨ Admits maxProcess σ pid)
    {refused accepted : Routine P N F} (hrefused : Meets σ refused (after σ .processes held))
    (haccepted : Admits maxProcess σ pid → Meets σ accepted (within σ .processes held)) :
    Meets σ (checked maxProcess pid refused accepted) held := by
  show Meets σ _ (within σ .processes held)
  split_ifs with hmax
  · exact hrefused
  · have hadmits := hpid.resolve_left hmax
    refine meets_test hadmits fun marked => ?_
    split_ifs
    · exact haccepted hadmits
    · exact hrefused

theorem Fits.clearPID (h : Fits maxProcess σ held)
    (hpid : pid > maxProcess ∨ Admits maxProcess σ pid) :
    Meets σ (clearPID maxProcess pid) held := by
  refine meets_checked hpid (h.returns_after _) fun hadmits => h.pointer hadmits fun l => ?_
  refine h.acquire_pcb (meets_index hadmits ?_)
  refine h.change (fun _ => rfl) fun _ _ => h.change (fun _ => rfl) fun _ _ => ?_
  refine h.pointer hadmits fun l => h.release_pcb (h.change (fun _ => rfl) fun _ _ => ?_)
  exact h.clearID hadmits (h.returns_after _)

theorem Fits.join (h : Fits maxProcess σ held)
    (hpid : pid > maxProcess ∨ Admits maxProcess σ pid) : Meets σ (join maxProcess pid) held := by
  refine meets_checked hpid (h.returns_after _) fun hadmits => h.pointer hadmits fun l => ?_
  refine h.acquire_pcb (meets_index hadmits (h.change (fun _ => rfl) fun _ _ => ?_))
  exact h.turns_after hadmits _

theorem Fits.joinTurn (h : Fits maxProcess σ held) (hpid : Admits maxProcess σ pid) :
    Meets σ (joinTurn maxProcess pid) held := by
  refine meets_index hpid (meets_read fun s _ => ?_)
  cases s.table.pcbs pid with
  | none => exact h.null
  | some pcb =>
    dsimp only
    split_ifs
    · exact h.pointer hpid fun l => h.release_pcb (h.returns_after _)
    · refine h.pointer hpid fun c => h.pointer hpid fun l => ⟨h.turns_after hpid _, ?_⟩
      rw [decide_eq_false (h.lock l), Bool.or_false]
      exact h.turns_after hpid _

theorem Fits.getJoins (h : Fits maxProcess σ held)
    (hpid : pid > maxProcess ∨ Admits maxProcess σ pid) :
    Meets σ (getJoins maxProcess pid) held := by
  refine meets_checked hpid (h.returns_after _) fun hadmits => meets_index hadmits ?_
  exact meets_read fun _ _ => h.returns_after _

theorem Fits.decrementJoins (h : Fits maxProcess σ held)
    (hpid : pid > maxProcess ∨ Admits maxProcess σ pid) :
    Meets σ (decrementJoins maxProcess pid) held := by
  refine meets_checked hpid (h.returns_after _) fun hadmits => ?_
  refine meets_test hadmits fun marked => ?_
  split_ifs
  · refine meets_index hadmits (h.change (fun s => ?_) fun _ _ => h.returns_after _)
    exact congrArg BitMap.numBits ProcessTable.processIDs_uncountJoin
  · exact h.returns_after _

theorem Fits.broadcast (h : Fits maxProcess σ held)
    (hpid : pid > maxProcess ∨ Admits maxProcess σ pid) :
    Meets σ (broadcast maxProcess pid) held := by
  refine meets_checked hpid (h.returns_after _) fun hadmits => h.pointer hadmits fun l => ?_
  refine h.acquire_pcb (h.pointer hadmits fun c => h.pointer hadmits fun l => ?_)
  exact h.pointer hadmits fun l => h.release_pcb (h.returns_after _)

theorem Fits.getStatus (h : Fits maxProcess σ held)
    (hpid : pid > maxProcess ∨ Admits maxProcess σ pid) :
    Meets σ (getStatus maxProcess pid) held := by
  refine meets_checked hpid (h.returns_after _) fun hadmits => meets_index hadmits ?_
  refine meets_read fun s _ => ?_
  cases s.table.pcbs pid with
  | none => exact h.null
  | some pcb => exact h.returns_after _

/-- The call without a process returns inside of the lock. -/
theorem Fits.addProcess (h : Fits maxProcess σ held) {pcb : Option P}
    (hpcb : pcb ≠ none ∨ ∀ b, σ.returns b) : Meets σ (addProcess pcb) held := by
  cases pcb with
  | none => exact hpcb.resolve_left (fun hne => hne rfl) _
  | some c => exact h.change (fun _ => rfl) fun _ _ => h.returns_after _

theorem Fits.getPID (h : Fits maxProcess σ held) : Meets σ getPID held :=
  h.change (fun s => BitMap.find_numBits s.table.processIDs) fun _ _ => h.returns.1

theorem Fits.getPage (h : Fits maxProcess σ held) : Meets σ getPage held :=
  h.change (fun _ => rfl) fun _ _ => h.returns_after _

/-- So does the call for a page that does not exist. -/
theorem Fits.clearPage (h : Fits maxProcess σ held) {i : ℤ}
    (hi : (0 ≤ i ∧ i ≤ numPhysPages) ∨ ∀ b, σ.returns b) : Meets σ (clearPage i) held := by
  show Meets σ _ (within σ .memory held)
  split_ifs with hout
  · refine hi.resolve_left (fun hin => ?_) _
    omega
  · refine h.change (fun _ => rfl) fun s _ => ?_
    split_ifs
    · exact h.returns_after _
    · exact h.others _ (by decide)

theorem Fits.freePages (h : Fits maxProcess σ held) : Meets σ freePages held :=
  meets_read fun _ _ => h.returns_after _

theorem Fits.add (h : Fits maxProcess σ held) (f : Option (SysOpenFile N F)) :
    Meets σ (add f) held := by
  refine h.change (fun _ => rfl) fun s _ => ?_
  dsimp only
  split_ifs
  · exact h.returns_after _
  · cases f with
    | none => exact h.null
    | some f => exact h.change (fun _ => rfl) fun _ _ => h.returns_after _

theorem Fits.get [DecidableEq N] (h : Fits maxProcess σ held) (fileName : Option N) :
    Meets σ (get fileName) held := by
  refine meets_read fun s _ => ?_
  cases fileName with
  | none =>
    dsimp only
    split_ifs
    · exact h.null
    · exact h.returns_after _
  | some name =>
    dsimp only
    cases s.files.getByName name with
    | none => exact h.returns_after _
    | some i => exact meets_read fun _ _ => h.returns_after _

theorem Fits.testFile (h : Fits maxProcess σ held) {i : ℤ} {k : Bool → Routine P N F}
    (hk : ∀ marked, Meets σ (k marked) inside) : Meets σ (testFile i k) inside := by
  refine meets_read fun s _ => ?_
  cases s.files.bitMap.test i with
  | none => exact h.others _ (by decide)
  | some marked => exact hk marked

theorem Fits.getIndex (h : Fits maxProcess σ held) (i : ℤ) : Meets σ (getIndex i) held := by
  show Meets σ _ (within σ .files held)
  split_ifs
  · exact h.returns_after _
  · refine h.testFile fun marked => ?_
    split_ifs
    · exact meets_read fun _ _ => h.returns_after _
    · exact h.returns_after _

theorem Fits.close (h : Fits maxProcess σ held) (i : ℤ) : Meets σ (close i) held := by
  show Meets σ _ (within σ .files held)
  split_ifs
  · exact h.returns_after _
  · refine h.testFile fun marked => ?_
    split_ifs
    · exact h.change (fun _ => rfl) fun _ _ => h.returns_after _
    · exact h.returns_after _

end meets

variable {T P N F : Type} [DecidableEq T] [DecidableEq P] [DecidableEq N]

/-- The arguments of the calls, seen from the requirements. -/
def Proper (maxProcess : ℕ) (σ : Spec LockName (Store P N F) ℤ Stop) : Call P N F → Prop
  | .clearPID pid | .join pid | .getJoins pid | .decrementJoins pid | .broadcast pid
  | .getStatus pid => pid > maxProcess ∨ Admits maxProcess σ pid
  | .addProcess pcb => pcb ≠ none ∨ ∀ b, σ.returns b
  | .clearPage i => (0 ≤ i ∧ i ≤ numPhysPages) ∨ ∀ b, σ.returns b
  | _ => True

theorem Fits.entry {maxProcess : ℕ} {σ : Spec LockName (Store P N F) ℤ Stop} {held : Bool}
    (h : Fits maxProcess σ held) {q : Call P N F} (hq : Proper maxProcess σ q) :
    Meets σ ((program maxProcess).entry q) held := by
  cases q with
  | getPage => exact h.getPage
  | clearPage i => exact h.clearPage hq
  | freePages => exact h.freePages
  | addProcess pcb => exact h.addProcess hq
  | getPID => exact h.getPID
  | clearPID pid => exact h.clearPID hq
  | join pid => exact h.join hq
  | getJoins pid => exact h.getJoins hq
  | decrementJoins pid => exact h.decrementJoins hq
  | broadcast pid => exact h.broadcast hq
  | getStatus pid => exact h.getStatus hq
  | add f => exact h.add f
  | get name => exact h.get name
  | getIndex i => exact h.getIndex i
  | close i => exact h.close i
  | setStatus pcb status => exact h.change (fun _ => rfl) fun _ _ => h.returns.1

/-! ### The locks -/

/-- The routine of manager `m` returns with its lock released. -/
def released (m : Manager) : Spec LockName (Store P N F) ℤ Stop where
  lock := .own m
  data _ := True
  returns held := held = false
  stops _ := True
  turns _ held := held = false

/-- A process for `AddProcess`, and a page up to `mem_size` for `clearPage`. -/
def Valid : Call P N F → Prop
  | .addProcess pcb => pcb ≠ none
  | .clearPage i => 0 ≤ i ∧ i ≤ numPhysPages
  | _ => True

instance : DecidablePred (Valid : Call P N F → Prop)
  | .addProcess none => isFalse fun h => h rfl
  | .addProcess (some _) => isTrue nofun
  | .clearPage i => inferInstanceAs (Decidable (0 ≤ i ∧ i ≤ (numPhysPages : ℤ)))
  | .getPage | .freePages | .getPID | .clearPID _ | .join _ | .getJoins _ | .decrementJoins _
  | .broadcast _ | .getStatus _ | .add _ | .get _ | .getIndex _ | .close _ | .setStatus _ _ =>
    isTrue trivial

omit [DecidableEq P] [DecidableEq N] in
theorem fits_released (maxProcess : ℕ) (m : Manager) :
    Fits maxProcess (released m : Spec LockName (Store P N F) ℤ Stop) false where
  lock _ := by simp [released]
  data _ _ _ _ := trivial
  null := trivial
  others _ _ := trivial
  returns := ⟨rfl, rfl⟩
  turns _ _ := ⟨rfl, rfl⟩

omit [DecidableEq P] [DecidableEq N] in
theorem Valid.proper {maxProcess : ℕ} {m : Manager} {q : Call P N F} (h : Valid q) :
    Proper maxProcess (released m) q := by
  have hpid : ∀ pid : ℤ, pid > maxProcess ∨
      Admits maxProcess (released m : Spec LockName (Store P N F) ℤ Stop) pid :=
    fun pid => .inr (.inr ⟨trivial, trivial⟩)
  cases q with
  | clearPID pid | join pid | getJoins pid | decrementJoins pid | broadcast pid
  | getStatus pid => exact hpid pid
  | addProcess pcb => exact .inl h
  | clearPage i => exact .inl h
  | _ => trivial

theorem sound_released (maxProcess : ℕ) (m : Manager) :
    (released m).Sound (program maxProcess : Program (Call P N F) _ _ _ _ _ _) Valid where
  entry q held hq hheld := by
    obtain rfl : held = false := hheld
    exact (fits_released maxProcess m).entry hq.proper
  turn r held hheld := by
    obtain rfl : held = false := hheld
    exact (fits_released maxProcess m).joinTurn (.inr ⟨trivial, trivial⟩)

/-- Between its calls no thread holds the lock of a manager, and a lock that is taken is held by
a thread inside a routine. -/
theorem manager_locks_released (maxProcess : ℕ) (storage : Store P N F)
    (currentTh : LockName → Option T) {as : List (Label T (Call P N F))} {s : State T P N F}
    (h : Run (Step (program maxProcess)) (Only Valid) (initial maxProcess storage currentTh) as s)
    (m : Manager) :
    (∀ t, s.thread t = .idle → s.holds (.own m) t = false) ∧
      (s.lockTaken (.own m) = true → ∃ t, s.holds (.own m) t = true ∧ s.thread t ≠ .idle) := by
  have hinit : Kept (released m) (initial maxProcess storage currentTh) := by
    refine ⟨trivial, fun htaken => (nomatch htaken), fun t => ?_⟩
    show LockedRoutines.State.holds _ _ t = false
    rfl
  have hkept := hinit.run (sound_released maxProcess m) h
  have hidle : ∀ t, s.thread t = .idle → s.holds (.own m) t = false := by
    intro t ht
    have hmeets := hkept.threads t
    rw [ht] at hmeets
    exact hmeets
  refine ⟨hidle, fun htaken => ?_⟩
  obtain ⟨t, ht⟩ := hkept.owned htaken
  have hholds : s.holds (.own m) t = true := by
    have howner : s.currentTh (.own m) = some t := ht
    simp [LockedRoutines.State.holds, htaken, howner]
  refine ⟨t, hholds, fun h0 => ?_⟩
  rw [hidle t h0] at hholds
  cases hholds

/-- A store whose tables are empty. -/
def emptyStore : Store Unit Unit Unit where
  bitMem := ⟨0, fun _ => 0#32⟩
  table := ⟨⟨0, fun _ => 0#32⟩, fun _ => none, fun _ => 0⟩
  locks _ := none
  conditions _ := none
  fresh := 0
  pid _ := 0
  status _ := -1
  files := ⟨fun _ => ⟨(), none, 0, 0⟩, ⟨0, fun _ => 0#32⟩⟩

def newManagers : State Bool Unit Unit Unit := initial 16 emptyStore fun _ => none

/-- `clearPage(5)` -/
theorem manager_locks_released_page :
    ∃ s, Run (Step (program 16)) (Only Valid) newManagers
      [.call true (.clearPage 5), .next true, .next true, .next true, .next true] s ∧
      s.thread true = .idle ∧ s.holds (.own .memory) true = false := by
  have hidle : ∀ a : Activity LockName ℕ (Store Unit Unit Unit) ℤ (Answer Unit Unit) Stop,
      a.isIdle = true → a = .idle := fun a ha => by
    cases a with
    | idle => rfl
    | _ => cases ha
  obtain ⟨s, hrun, hs⟩ : ∃ s, Run (Step (program 16)) (Only Valid) newManagers
      [.call true (.clearPage 5), .next true, .next true, .next true, .next true] s ∧
      (s.thread true).isIdle = true :=
    exists_guarded_run_of_exec (fun s a => s.step (program 16) a) (Only Valid) newManagers _ _ rfl
  exact ⟨s, hrun, hidle _ hs,
    (manager_locks_released 16 emptyStore _ hrun .memory).1 true (hidle _ hs)⟩

/-- After `AddProcess(NULL)` and after `clearPage(-1)` the caller has the lock, and no other
thread gets into a routine of the manager. -/
theorem manager_locks_kept :
    (∃ s, Run (Step (program 16)) (fun _ _ => True) newManagers
        [.call true (.addProcess none), .next true, .next true] s ∧
      s.thread true = .idle ∧ s.holds (.own .processes) true = true ∧
      (s.call (program 16) false (.getStatus 0)).bind (·.next (program 16) false) = none) ∧
    ∃ s, Run (Step (program 16)) (fun _ _ => True) newManagers
        [.call true (.clearPage (-1)), .next true, .next true] s ∧
      s.thread true = .idle ∧ s.holds (.own .memory) true = true ∧
      (s.call (program 16) false .freePages).bind (·.next (program 16) false) = none :=
  ⟨⟨_, .cons trivial rfl (.cons trivial rfl (.cons trivial rfl (.nil _))), rfl, rfl, rfl⟩,
    ⟨_, .cons trivial rfl (.cons trivial rfl (.cons trivial rfl (.nil _))), rfl, rfl, rfl⟩⟩

/-! ### The process ids -/

/-- The routines of the process manager that are given an id. -/
def Call.argument : Call P N F → Option ℤ
  | .clearPID pid | .join pid | .getJoins pid | .decrementJoins pid | .broadcast pid
  | .getStatus pid => some pid
  | _ => none

/-- No assertion of the process manager fails, and its arrays are accessed inside. -/
def inside (maxProcess : ℕ) : Spec LockName (Store P N F) ℤ Stop where
  lock := .own .processes
  data s := s.table.processIDs.numBits = maxProcess
  returns _ := True
  stops b := b ≠ .assertion .processes ∧ b ≠ .outside
  turns pid _ := 0 ≤ pid ∧ pid < maxProcess

/-- An id that is not negative, and not `MAX_PROCESS` itself. -/
def Bounded (maxProcess : ℕ) (q : Call P N F) : Prop :=
  ∀ pid, q.argument = some pid → 0 ≤ pid ∧ pid ≠ maxProcess

omit [DecidableEq P] [DecidableEq N] in
theorem admits_inside {maxProcess : ℕ} {pid : ℤ} (h : 0 ≤ pid ∧ pid < maxProcess) :
    Admits maxProcess (inside maxProcess : Spec LockName (Store P N F) ℤ Stop) pid :=
  .inl ⟨h.1, h.2, fun _ hs => hs⟩

omit [DecidableEq P] [DecidableEq N] in
theorem fits_inside (maxProcess : ℕ) (held : Bool) :
    Fits maxProcess (inside maxProcess : Spec LockName (Store P N F) ℤ Stop) held where
  lock _ := by simp [inside]
  data _ _ hsame hs := hsame.trans hs
  null := ⟨by decide, by decide⟩
  others m hm := ⟨fun h => hm (Stop.assertion.inj h), by simp⟩
  returns := ⟨trivial, trivial⟩
  turns pid hpid := by
    rcases hpid with ⟨h0, hlt, -⟩ | ⟨hstop, -⟩
    · exact ⟨⟨h0, hlt⟩, ⟨h0, hlt⟩⟩
    · exact absurd rfl hstop.2

omit [DecidableEq P] [DecidableEq N] in
theorem Bounded.proper {maxProcess : ℕ} {q : Call P N F} (h : Bounded maxProcess q) :
    Proper maxProcess (inside maxProcess) q := by
  have hpid : ∀ pid : ℤ, q.argument = some pid → pid > maxProcess ∨
      Admits maxProcess (inside maxProcess : Spec LockName (Store P N F) ℤ Stop) pid := by
    intro pid harg
    obtain ⟨h0, hne⟩ := h pid harg
    by_cases hlt : pid < maxProcess
    · exact .inr (admits_inside ⟨h0, hlt⟩)
    · exact .inl (by omega)
  cases q with
  | clearPID pid | join pid | getJoins pid | decrementJoins pid | broadcast pid
  | getStatus pid => exact hpid pid rfl
  | addProcess pcb => exact .inr fun _ => trivial
  | clearPage i => exact .inr fun _ => trivial
  | _ => trivial

theorem sound_inside (maxProcess : ℕ) :
    (inside maxProcess).Sound (program maxProcess : Program (Call P N F) _ _ _ _ _ _)
      (Bounded maxProcess) where
  entry _ held hq _ := (fits_inside maxProcess held).entry hq.proper
  turn _ held hr := (fits_inside maxProcess held).joinTurn (admits_inside hr)

/-- The six routines begin with the same tests. -/
theorem entry_checked (maxProcess : ℕ) {q : Call P N F} {pid : ℤ} (h : q.argument = some pid) :
    ∃ a accepted, (program maxProcess).entry q = checked maxProcess pid (.ret a) accepted := by
  cases q with
  | clearPID _ | join _ | getJoins _ | decrementJoins _ | broadcast _ | getStatus _ =>
    obtain rfl := Option.some.inj h
    exact ⟨_, _, rfl⟩
  | _ => cases h

omit [DecidableEq P] [DecidableEq N] in
theorem acquires_checked {maxProcess : ℕ} {pid : ℤ} {s : Store P N F}
    (hbits : s.table.processIDs.numBits = maxProcess) (hknown : s.table.known pid = some false)
    (owns : LockName → Bool) (a : Answer N F) (accepted : Routine P N F) :
    (checked maxProcess pid (.ret a) accepted).acquires owns s = [.own .processes] := by
  rw [ProcessTable.known, hbits] at hknown
  rw [checked, Code.acquires]
  by_cases hmax : pid > maxProcess
  · rw [if_pos hmax]
    rfl
  · rw [if_neg hmax] at hknown ⊢
    simp [test, Code.acquires, hknown]

/-- With ids that are not negative and not `MAX_PROCESS`, no routine of the process manager ever
fails an assertion or uses a cell outside of the arrays. A call with an id that is not in use
returns, once it has the lock, and leaves all tables as they are. -/
theorem process_ids_safe (maxProcess : ℕ) (storage : Store P N F)
    (currentTh : LockName → Option T) {as : List (Label T (Call P N F))} {s : State T P N F}
    (h : Run (Step (program maxProcess)) (Only (Bounded maxProcess))
      (initial maxProcess storage currentTh) as s) :
    (∀ t b, s.thread t = .runs (.stop b) → b ≠ .assertion .processes ∧ b ≠ .outside) ∧
      ∀ (t : T) (q : Call P N F) (pid : ℤ) (s₁ : State T P N F), q.argument = some pid →
        0 ≤ pid ∧ pid ≠ maxProcess → ¬s.data.table.Marked pid →
        s.call (program maxProcess) t q = some s₁ →
        (s.lockTaken (.own .processes) = true → s.currentTh (.own .processes) = some t) →
        ∃ s', Reaches (program maxProcess) t s₁ s' ∧ s'.thread t = .idle ∧ s'.data = s.data := by
  have hinit : Kept (inside maxProcess) (initial maxProcess storage currentTh) := by
    refine ⟨BitMap.create_numBits _ _, fun htaken => (nomatch htaken), fun t => trivial⟩
  have hkept := hinit.run (sound_inside maxProcess) h
  have hbits : s.data.table.processIDs.numBits = maxProcess := hkept.data
  constructor
  · intro t b ht
    have hmeets := hkept.threads t
    rw [ht] at hmeets
    exact hmeets
  · intro t q pid s₁ hq hpid hm hcall hlock
    have hknown : s.data.table.known pid = some false :=
      (known_cases hbits hpid.1 hpid.2).resolve_left fun hk => hm hk.2
    obtain ⟨a, accepted, hentry⟩ := entry_checked (P := P) (N := N) (F := F) maxProcess hq
    obtain rfl : s₁ = s.goOn t (checked maxProcess pid (.ret a) accepted) := by
      rw [LockedRoutines.State.call] at hcall
      split at hcall
      · rw [← hentry]
        exact (Option.some.inj hcall).symm
      · cases hcall
    have hperform : (checked maxProcess pid (.ret a) accepted).perform
        (fun l => decide (s.currentTh l = some t)) s.data = (.returned a, s.data) :=
      perform_checked hbits hknown (.ret a) accepted
    obtain ⟨s', hreach, hdata, hthread⟩ := reaches_perform (p := program maxProcess)
      (s := s.goOn t (checked maxProcess pid (.ret a) accepted)) (Function.update_self ..)
      fun l hl htaken => by
        change l ∈ Code.acquires _ _ s.data at hl
        rw [acquires_checked hbits hknown, List.mem_singleton] at hl
        subst hl
        exact hlock htaken
    exact ⟨s', hreach, hthread.trans (congrArg (fun r => r.1.activity) hperform),
      hdata.trans (congrArg Prod.snd hperform)⟩

/-- `GetStatus(3)` and `GetStatus(40)` in a new process manager. -/
theorem process_ids_safe_new :
    (∃ s', Reaches (program 16) true (newManagers.goOn true (getStatus 16 3)) s' ∧
      s'.thread true = .idle ∧ s'.data = newManagers.data) ∧
    ∃ s', Reaches (program 16) true (newManagers.goOn true (getStatus 16 40)) s' ∧
      s'.thread true = .idle ∧ s'.data = newManagers.data := by
  have hrefused : ∀ pid : ℤ, 0 ≤ pid ∧ pid ≠ (16 : ℕ) →
      ∃ s', Reaches (program 16) true (newManagers.goOn true (getStatus 16 pid)) s' ∧
        s'.thread true = .idle ∧ s'.data = newManagers.data := fun pid hpid =>
    (process_ids_safe 16 emptyStore (fun _ => none) (.nil newManagers)).2 true
      (.getStatus pid) pid _ rfl hpid
      (ProcessTable.create_not_marked _ 16 (fun _ => none) (fun _ => 0) pid) rfl
      fun htaken => (nomatch htaken)
  exact ⟨hrefused 3 (by decide), hrefused 40 (by decide)⟩

/-- `Join(-1)` and `Join(MAX_PROCESS)` fail the assertion of `BitMap::Test`. -/
theorem process_ids_stop :
    (∃ s, Run (Step (program 16)) (fun _ _ => True) newManagers
        [.call true (.join (-1)), .next true, .next true] s ∧
      s.thread true = .runs (.stop (.assertion .processes))) ∧
    ∃ s, Run (Step (program 16)) (fun _ _ => True) newManagers
        [.call true (.join 16), .next true, .next true] s ∧
      s.thread true = .runs (.stop (.assertion .processes)) :=
  ⟨⟨_, .cons trivial rfl (.cons trivial rfl (.cons trivial rfl (.nil _))), rfl⟩,
    ⟨_, .cons trivial rfl (.cons trivial rfl (.cons trivial rfl (.nil _))), rfl⟩⟩

end Nachos.ManagerCalls
