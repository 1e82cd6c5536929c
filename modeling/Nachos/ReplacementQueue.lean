import Nachos.DemandPaging

/-!
# The replacement list as a queue

What `LRU` of `vm/VMManager.cc` is for is a queue of pages with their process ids, most
recent first. `QueueStep` says what the three calls do to it and to the set of used
frames. A call of `RemovePage` leaves a wrong `tail`, except when it removes nothing or
everything or when the oldest node stays and comes right behind the last node removed;
`Remove_LRU_Page` follows a null pointer when there is one node only. Runs without such
calls keep the list and the queue together.
-/
namespace Nachos.ReplacementList
open GuardedRuns LinkedCells PhysicalFrames DemandPaging

/-- The calls; `frame` gives the `physicalPage` fields at the time of the call. -/
inductive Call (V : Type) where
  | addPage (page : V) (pid : ℤ)
  | removePage (pid : ℤ) (frame : V → Fin numPhysPages)
  | removeLRUPage

/-- The list and the manager of the frames. -/
structure Manager (A V : Type) where
  lru : LRU V
  memory : MemoryManager A

/-- `none` is the simulator stopped on a bad pointer. -/
def Manager.call {A V : Type} (s : Manager A V) : Call V → Option (Manager A V)
  | .addPage page pid => (s.lru.addPage page pid).map fun lru => { s with lru := lru }
  | .removePage pid frame =>
    (s.lru.removePage pid).bind fun r =>
    (clearFrames s.memory (r.2.map fun v => ((frame v : ℕ) : ℤ))).map fun m => ⟨r.1, m⟩
  | .removeLRUPage => s.lru.removeLRUPage.map fun lru => { s with lru := lru }

/-- The queue, most recent page first, and the frames in use. -/
structure Queue (V : Type) where
  pages : List (Entry V)
  used : ℕ → Prop

inductive QueueStep {V : Type} : Queue V → Call V → Queue V → Prop
  | addPage (q : Queue V) (page : V) (pid : ℤ) :
      QueueStep q (.addPage page pid) { q with pages := ⟨page, pid⟩ :: q.pages }
  | removePage (q : Queue V) (pid : ℤ) (frame : V → Fin numPhysPages) :
      QueueStep q (.removePage pid frame)
        ⟨q.pages.filter fun e => e.pid ≠ pid,
          fun j => q.used j ∧ ¬ ∃ e ∈ q.pages, e.pid = pid ∧ (frame e.value : ℕ) = j⟩
  | removeLRUPage (q : Queue V) :
      QueueStep q .removeLRUPage { q with pages := q.pages.dropLast }

/-- A call that leaves the right tail. -/
def Handled {V : Type} (q : Queue V) : Call V → Prop
  | .addPage _ _ => True
  | .removePage pid _ => (∀ e ∈ q.pages, e.pid ≠ pid) ∨ (∀ e ∈ q.pages, e.pid = pid) ∨
    ∃ es d e, q.pages = es ++ [d, e] ∧ d.pid = pid ∧ e.pid ≠ pid
  | .removeLRUPage => 2 ≤ q.pages.length

/-- The list is the queue: both chains visit its pages, in opposite orders, both ends are null
for the empty queue only, and what is read through `tail` is the oldest page. -/
structure Shows {A V : Type} (s : Manager A V) (q : Queue V) : Prop where
  chains : ∃ l, l.map Cell.payload = q.pages ∧ Visits s.lru.heap Node.next s.lru.head l ∧
    Visits s.lru.heap Node.prev s.lru.tail l.reverse
  head : s.lru.head = none ↔ q.pages = []
  tail : s.lru.tail = none ↔ q.pages = []
  oldest : ∀ e, q.pages.getLast? = some e →
    s.lru.getLRU = some e.value ∧ s.lru.tailPid = some e.pid
  frames : ∀ j < numPhysPages, s.memory.bitMem.bit j = true ↔ q.used j

namespace LRU
variable {V : Type} {lru : LRU V} {l : List (Cell (Entry V))} {pid : ℤ} {t : Option ℕ}

theorem tailAfter_of_kept (h : ∀ c ∈ l, c.payload.pid ≠ pid) : tailAfter pid t l = t := by
  induction l with
  | nil => rfl
  | cons c l ih =>
    rw [List.forall_mem_cons] at h
    rw [tailAfter, if_neg h.1]
    exact ih h.2

theorem tailAfter_of_dropped (h : ∀ c ∈ l, c.payload.pid = pid) (hl : l ≠ []) :
    tailAfter pid t l = none := by
  induction l generalizing t with
  | nil => exact absurd rfl hl
  | cons c l ih =>
    rw [List.forall_mem_cons] at h
    rw [tailAfter, if_pos h.1]
    cases l with
    | nil => rfl
    | cons d l => exact ih h.2 (List.cons_ne_nil d l)

/-- The last node removed has the last node as its successor. -/
theorem tailAfter_of_last {d e : Cell (Entry V)} (hd : d.payload.pid = pid)
    (he : e.payload.pid ≠ pid) : tailAfter pid t (l ++ [d, e]) = some e.addr := by
  induction l generalizing t with
  | nil => simp [tailAfter, hd, he]
  | cons c l ih =>
    rw [List.cons_append, tailAfter]
    split_ifs
    · exact ih
    · exact ih

theorem tailAfter_last (h : (∀ c ∈ l, c.payload.pid ≠ pid) ∨ (∀ c ∈ l, c.payload.pid = pid) ∨
    ∃ cs d e, l = cs ++ [d, e] ∧ d.payload.pid = pid ∧ e.payload.pid ≠ pid) :
    tailAfter pid (last none l) l = last none (kept pid l) := by
  rcases h with h | h | ⟨cs, d, e, rfl, hd, he⟩
  · have hkept : kept pid l = l := by simpa [kept] using h
    rw [hkept, tailAfter_of_kept h]
  · have hkept : kept pid l = [] := by simpa [kept] using h
    rw [hkept]
    by_cases hl : l = []
    · rw [hl]
      rfl
    · exact tailAfter_of_dropped h hl
  · have hkept : kept pid (cs ++ [d, e]) = kept pid cs ++ [e] := by simp [kept, hd, he]
    rw [hkept, tailAfter_of_last hd he, last_append_singleton]

end LRU

theorem clearFrames_eq {A : Type} {m : MemoryManager A} (hbits : m.bitMem.numBits = numPhysPages)
    (fs : List (Fin numPhysPages)) :
    ∃ m', clearFrames m (fs.map fun f : Fin numPhysPages => ((f : ℕ) : ℤ)) = some m' ∧
      m'.bitMem.numBits = numPhysPages ∧
      ∀ j, m'.bitMem.bit j = true ↔ m.bitMem.bit j = true ∧ ∀ f ∈ fs, (f : ℕ) ≠ j := by
  induction fs generalizing m with
  | nil => exact ⟨m, rfl, hbits, by simp⟩
  | cons f fs ih =>
    have hin : m.bitMem.InRange ((f : ℕ) : ℤ) :=
      ⟨Int.natCast_nonneg _, by rw [hbits]; exact_mod_cast f.isLt⟩
    have hclear : m.clearPage ((f : ℕ) : ℤ) = some ⟨m.bitMem.resetBit f, none⟩ := by
      have hlt := f.isLt
      unfold MemoryManager.clearPage BitMap.clear
      rw [if_neg (by omega), if_pos hin, Int.toNat_natCast]
      rfl
    obtain ⟨m', hm', hnum, hbit⟩ := ih (m := ⟨m.bitMem.resetBit f, none⟩) hbits
    refine ⟨m', ?_, hnum, fun j => ?_⟩
    · rw [List.map_cons, clearFrames, hclear, Option.bind_some, hm']
    · rw [hbit, BitMap.bit_resetBit, List.forall_mem_cons]
      by_cases hj : (f : ℕ) = j
      · simp [hj]
      · simp [hj]

section refinement
variable {A V : Type} {s : Manager A V} {q q' : Queue V}

/-- The nodes of the list with the right tail. -/
structure Represents (s : Manager A V) (q : Queue V) (l : List (Cell (Entry V))) : Prop where
  rep : s.lru.Rep l
  tail : s.lru.tail = last none l
  pages : l.map Cell.payload = q.pages
  numBits : s.memory.bitMem.numBits = numPhysPages
  frames : ∀ j < numPhysPages, s.memory.bitMem.bit j = true ↔ q.used j

theorem Represents.shows {l : List (Cell (Entry V))} (h : Represents s q l) : Shows s q := by
  have hempty : q.pages = [] ↔ l = [] := by rw [← h.pages, List.map_eq_nil_iff]
  refine ⟨⟨l, h.pages, ?_, ?_⟩, ?_, ?_, fun e he => ?_, h.frames⟩
  · rw [h.rep.head]
    exact h.rep.linked.visits_next
  · rw [h.tail]
    exact h.rep.linked.visits_prev
  · rw [h.rep.head, hempty]
    cases l with
    | nil => simp
    | cons c l => simp
  · rw [h.tail, hempty]
    rcases List.eq_nil_or_concat' l with rfl | ⟨l, c, rfl⟩
    · simp [last]
    · simp [last_append_singleton]
  · rcases List.eq_nil_or_concat' l with rfl | ⟨l, c, rfl⟩
    · rw [← h.pages] at he
      cases he
    · rw [← h.pages, List.map_append, List.map_singleton, List.getLast?_concat] at he
      obtain rfl := Option.some.inj he
      exact h.rep.getLRU_eq (h.tail.trans (last_append_singleton ..))

theorem Represents.addPage {l : List (Cell (Entry V))} (h : Represents s q l) (page : V)
    (pid : ℤ) : ∃ s' l', s.call (.addPage page pid) = some s' ∧
      Represents s' { q with pages := ⟨page, pid⟩ :: q.pages } l' := by
  obtain ⟨lru', hrun, hrep, htail⟩ := LRU.addPage_spec h.rep page pid
  refine ⟨⟨lru', s.memory⟩, _, by simp only [Manager.call, hrun, Option.map_some], hrep, ?_, ?_,
    h.numBits, h.frames⟩
  · rw [htail, h.tail]
    cases l with
    | nil => rfl
    | cons c l => rfl
  · rw [List.map_cons, h.pages]

theorem Represents.removePage {l : List (Cell (Entry V))} (h : Represents s q l) (pid : ℤ)
    (frame : V → Fin numPhysPages) (hq : Handled q (.removePage pid frame)) :
    ∃ s' l', s.call (.removePage pid frame) = some s' ∧
      Represents s' ⟨q.pages.filter fun e => e.pid ≠ pid,
        fun j => q.used j ∧ ¬ ∃ e ∈ q.pages, e.pid = pid ∧ (frame e.value : ℕ) = j⟩ l' := by
  obtain ⟨lru', hrun, hrep, htail⟩ := LRU.removePage_spec h.rep pid
  obtain ⟨m', hclear, hnum, hbit⟩ := clearFrames_eq h.numBits ((LRU.dropped pid l).map frame)
  rw [List.map_map] at hclear
  have hcells : (∀ c ∈ l, c.payload.pid ≠ pid) ∨ (∀ c ∈ l, c.payload.pid = pid) ∨
      ∃ cs d e, l = cs ++ [d, e] ∧ d.payload.pid = pid ∧ e.payload.pid ≠ pid := by
    unfold Handled at hq
    rw [← h.pages] at hq
    rcases hq with hq | hq | ⟨es, d, e, hes, hd, he⟩
    · exact Or.inl fun c hc => hq _ (List.mem_map_of_mem hc)
    · exact Or.inr (Or.inl fun c hc => hq _ (List.mem_map_of_mem hc))
    · obtain ⟨cs, r, rfl, -, hr⟩ := List.map_eq_append_iff.mp hes
      obtain ⟨d', r', rfl, rfl, hr'⟩ := List.map_eq_cons_iff.mp hr
      obtain ⟨e', r'', rfl, rfl, hr''⟩ := List.map_eq_cons_iff.mp hr'
      obtain rfl := List.map_eq_nil_iff.mp hr''
      exact Or.inr (Or.inr ⟨cs, d', e', rfl, hd, he⟩)
  have hfreed : ∀ j, (∀ f ∈ (LRU.dropped pid l).map frame, (f : ℕ) ≠ j) ↔
      ¬ ∃ e ∈ l.map Cell.payload, e.pid = pid ∧ (frame e.value : ℕ) = j := by
    intro j
    constructor
    · rintro hne ⟨e, he, hpid, hj⟩
      obtain ⟨c, hc, rfl⟩ := List.mem_map.mp he
      exact hne _ (List.mem_map_of_mem (LRU.mem_dropped.mpr ⟨c, hc, hpid, rfl⟩)) hj
    · intro hnone f hf hj
      obtain ⟨v, hv, rfl⟩ := List.mem_map.mp hf
      obtain ⟨c, hc, hpid, rfl⟩ := LRU.mem_dropped.mp hv
      exact hnone ⟨c.payload, List.mem_map_of_mem hc, hpid, hj⟩
  refine ⟨⟨lru', m'⟩, LRU.kept pid l, ?_, hrep, ?_, ?_, hnum, fun j hj => ?_⟩
  · simp only [Manager.call, hrun, Option.bind_some]
    exact congrArg (Option.map _) hclear
  · rw [htail, h.tail]
    exact LRU.tailAfter_last hcells
  · rw [← h.pages, List.filter_map]
    rfl
  · rw [hbit, h.frames j hj, hfreed, h.pages]

theorem Represents.removeLRUPage {l : List (Cell (Entry V))} (h : Represents s q l)
    (hq : 2 ≤ q.pages.length) : ∃ s' l', s.call .removeLRUPage = some s' ∧
      Represents s' { q with pages := q.pages.dropLast } l' := by
  obtain ⟨cs, p, c, rfl⟩ : ∃ cs p c, l = cs ++ [p, c] := by
    rw [← h.pages, List.length_map] at hq
    rcases List.eq_nil_or_concat' l with rfl | ⟨l, c, rfl⟩
    · simp at hq
    · rcases List.eq_nil_or_concat' l with rfl | ⟨l, p, rfl⟩
      · simp at hq
      · exact ⟨l, p, c, by simp⟩
  have htail : s.lru.tail = some c.addr := by
    rw [h.tail, show cs ++ [p, c] = (cs ++ [p]) ++ [c] by simp, last_append_singleton]
  obtain ⟨lru', hrun, hrep, htail'⟩ := LRU.removeLRUPage_spec h.rep htail
  refine ⟨⟨lru', s.memory⟩, cs ++ [p], by simp only [Manager.call, hrun, Option.map_some], hrep,
    ?_, ?_, h.numBits, h.frames⟩
  · rw [htail', last_append_singleton]
  · rw [← h.pages, ← List.map_dropLast, show cs ++ [p, c] = (cs ++ [p]) ++ [c] by simp,
      List.dropLast_concat]

theorem Represents.step {c : Call V} {l : List (Cell (Entry V))} (h : Represents s q l)
    (hq : Handled q c) (hstep : QueueStep q c q') :
    ∃ s' l', s.call c = some s' ∧ Represents s' q' l' := by
  cases hstep with
  | addPage page pid => exact h.addPage page pid
  | removePage pid frame => exact h.removePage pid frame hq
  | removeLRUPage => exact h.removeLRUPage hq

end refinement

/-- The calls of every guarded run of the queue succeed, and the list is the queue after them. -/
theorem list_is_queue {A V : Type} (memory : MemoryManager A)
    (hbits : memory.bitMem.numBits = numPhysPages) {calls : List (Call V)} {q : Queue V}
    (h : Run QueueStep Handled ⟨[], fun j => memory.bitMem.bit j = true⟩ calls q) :
    ∃ s, Run (fun s c s' => Manager.call s c = some s') Free ⟨.create, memory⟩ calls s ∧
      Shows s q := by
  have hinit : Represents ⟨.create, memory⟩ (⟨[], fun j => memory.bitMem.bit j = true⟩ : Queue V)
      [] := ⟨LRU.create_rep, rfl, rfl, hbits, fun _ _ => Iff.rfl⟩
  obtain ⟨s, hrun, l, hrep⟩ : ∃ s, Run (fun s c s' => Manager.call s c = some s') Free
      ⟨.create, memory⟩ calls s ∧ ∃ l, Represents s q l := by
    refine h.simulation (R := fun q s => ∃ l, Represents s q l) ⟨[], hinit⟩ ?_
    rintro q c q' s ⟨l, hrep⟩ hq hstep
    obtain ⟨s', l', hcall, hrep'⟩ := hrep.step hq hstep
    exact ⟨s', hcall, l', hrep'⟩
  exact ⟨s, hrun, hrep.shows⟩

def blankManager : Manager Unit ℕ := ⟨.create, ⟨BitMap.create (fun _ => 0) numPhysPages, none⟩⟩

def firstFrame : ℕ → Fin numPhysPages := fun _ => ⟨0, by decide⟩

def replacingCalls : List (Call ℕ) :=
  [.addPage 0 0, .addPage 1 1, .removePage 1 firstFrame, .addPage 2 2, .removeLRUPage]

theorem replacingCalls_handled (used : ℕ → Prop) :
    ∃ q, Run QueueStep Handled ⟨[], used⟩ replacingCalls q ∧ q.pages = [⟨2, 2⟩] := by
  refine ⟨_, .cons trivial (.addPage _ 0 0) (.cons trivial (.addPage _ 1 1)
    (.cons ?_ (.removePage _ 1 firstFrame) (.cons trivial (.addPage _ 2 2)
      (.cons (le_refl 2) (.removeLRUPage _) (.nil _))))), rfl⟩
  exact Or.inr (Or.inr ⟨[], ⟨1, 1⟩, ⟨0, 0⟩, rfl, rfl, by decide⟩)

/-- The oldest page stays when the one before it goes, and is then replaced. -/
theorem list_is_queue_replaced : ∃ s q,
    Run (fun s c s' => Manager.call s c = some s') Free blankManager replacingCalls s ∧
      Shows s q ∧ q.pages = [⟨2, 2⟩] := by
  obtain ⟨q, hcalls, hpages⟩ := replacingCalls_handled
    (fun j => blankManager.memory.bitMem.bit j = true)
  obtain ⟨s, hrun, hshows⟩ := list_is_queue blankManager.memory (BitMap.create_numBits _ _) hcalls
  exact ⟨s, q, hrun, hshows, hpages⟩

/-- Removing the older one of two pages leaves a list with a head and no tail, and removing the
only page follows a null pointer. -/
theorem list_loses_tail :
    (([.addPage 0 0, .addPage 1 1, .removePage 0 firstFrame] : List (Call ℕ)).foldlM
      Manager.call blankManager).map (fun s => (s.lru.head, s.lru.tail)) = some (some 1, none) ∧
    (([.addPage 0 0, .removeLRUPage] : List (Call ℕ)).foldlM Manager.call blankManager).isNone := by
  decide +kernel

end Nachos.ReplacementList
