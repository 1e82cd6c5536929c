import Nachos.GuardedRuns

/-!
# Programs of threads that share a memory

A program reads and writes cells one at a time and changes the rest of the
memory between these accesses; `note` leaves a mark in the log. `run` runs a
program alone. A `Pool` interleaves the programs of several threads command by
command and keeps a log of accesses and marks.

The rules for a pool are those of the threads taken one at a time. `Rules` says
in which phases a thread may make a command and what phase follows, and `wp` asks
this of every command of a program. An invariant of the memory, of the log and of
the phases of all threads that every command keeps then holds along every run.
-/
namespace Nachos.ThreadPrograms
open GuardedRuns

/-- How the cells of a memory are read and written; `none` stops the thread. -/
structure Cells (S A V : Type) where
  read : S → A → Option V
  write : S → A → V → Option S

/-- `memory` goes on with the memory as it was before the change. -/
inductive Prog (S A V E α : Type) where
  | done (a : α)
  | stuck
  | read (a : A) (k : V → Prog S A V E α)
  | write (a : A) (v : V) (k : Prog S A V E α)
  | memory (f : S → S) (k : S → Prog S A V E α)
  | note (e : E) (k : Prog S A V E α)

variable {S A V E P α β ι : Type}

namespace Prog

def bind : Prog S A V E α → (α → Prog S A V E β) → Prog S A V E β
  | done a, f => f a
  | stuck, _ => stuck
  | read a k, f => read a fun v => (k v).bind f
  | write a v k, f => write a v (k.bind f)
  | memory g k, f => memory g fun s => (k s).bind f
  | note e k, f => note e (k.bind f)

instance : Monad (Prog S A V E) where
  pure := done
  bind := bind

theorem bind_done (x : Prog S A V E α) : x.bind done = x := by
  induction x with
  | done a => rfl
  | stuck => rfl
  | read a k ih => exact congrArg _ (funext ih)
  | write a v k ih => exact congrArg _ ih
  | memory g k ih => exact congrArg _ (funext ih)
  | note e k ih => exact congrArg _ ih

theorem bind_bind {γ : Type} (x : Prog S A V E α) (f : α → Prog S A V E β)
    (g : β → Prog S A V E γ) : (x.bind f).bind g = x.bind fun a => (f a).bind g := by
  induction x with
  | done a => rfl
  | stuck => rfl
  | read a k ih => exact congrArg _ (funext ih)
  | write a v k ih => exact congrArg _ ih
  | memory h k ih => exact congrArg _ (funext ih)
  | note e k ih => exact congrArg _ ih

instance : LawfulMonad (Prog S A V E) := LawfulMonad.mk' _
  (fun x => bind_done x) (fun _ _ => rfl) bind_bind

def readCell (a : A) : Prog S A V E V := read a done

def writeCell (a : A) (v : V) : Prog S A V E Unit := write a v (done ())

def mark (e : E) : Prog S A V E Unit := note e (done ())

/-- A change of the memory between two accesses of cells, with an answer. -/
def transact (g : S → Option (α × S)) : Prog S A V E α :=
  memory (fun s => (g s).elim s Prod.snd) fun s => (g s).elim stuck fun r => done r.1

def isDone : Prog S A V E α → Bool
  | done _ => true
  | _ => false

theorem eq_done {x : Prog S A V E α} (h : x.isDone = true) : ∃ a, x = done a := by
  cases x with
  | done a => exact ⟨a, rfl⟩
  | _ => cases h

/-- The program alone. -/
def run (c : Cells S A V) : Prog S A V E α → S → Option (α × S)
  | done a, s => some (a, s)
  | stuck, _ => none
  | read a k, s => (c.read s a).bind fun v => (k v).run c s
  | write a v k, s => (c.write s a v).bind (k.run c)
  | memory f k, s => (k s).run c (f s)
  | note _ k, s => k.run c s

section run
variable {c : Cells S A V}

@[simp] theorem run_pure (a : α) (s : S) : (pure a : Prog S A V E α).run c s = some (a, s) := rfl

@[simp] theorem run_bind (x : Prog S A V E α) (f : α → Prog S A V E β) (s : S) :
    (x >>= f).run c s = (x.run c s).bind fun r => (f r.1).run c r.2 := by
  show (x.bind f).run c s = _
  induction x generalizing s with
  | done a => rfl
  | stuck => rfl
  | read a k ih =>
    simp only [bind, run, Option.bind_assoc]
    congr 1
    funext v
    exact ih v s
  | write a v k ih =>
    simp only [bind, run, Option.bind_assoc]
    congr 1
    funext s'
    exact ih s'
  | memory g k ih => exact ih s (g s)
  | note e k ih => exact ih s

/-- The first part of a program, when its result is known up to a change of form. -/
theorem run_bind_map {x : Prog S A V E α} {y : Option ι} {g : ι → α × S} {s : S}
    (h : x.run c s = y.map g) (f : α → Prog S A V E β) :
    (x >>= f).run c s = y.bind fun i => (f (g i).1).run c (g i).2 := by
  rw [run_bind, h, Option.bind_map]
  rfl

theorem run_bind_pure (x : Prog S A V E α) (f : α → β) (s : S) :
    (x >>= fun a => pure (f a)).run c s = (x.run c s).map fun r => (f r.1, r.2) := by
  rw [run_bind]
  cases x.run c s <;> rfl

theorem run_ite (p : Prop) [Decidable p] (x y : Prog S A V E α) (s : S) :
    (if p then x else y).run c s = if p then x.run c s else y.run c s := by
  split_ifs <;> rfl

@[simp] theorem run_readCell (a : A) (s : S) :
    (readCell a : Prog S A V E V).run c s = (c.read s a).map fun v => (v, s) := by
  cases h : c.read s a <;> simp [readCell, run, h]

@[simp] theorem run_writeCell (a : A) (v : V) (s : S) :
    (writeCell a v : Prog S A V E Unit).run c s = (c.write s a v).map fun s' => ((), s') := by
  cases h : c.write s a v <;> simp [writeCell, run, h]

@[simp] theorem run_mark (e : E) (s : S) :
    (mark e : Prog S A V E Unit).run c s = some ((), s) := rfl

@[simp] theorem run_transact (g : S → Option (α × S)) (s : S) :
    (transact g : Prog S A V E α).run c s = g s := by
  cases h : g s <;> simp [transact, run, h]

/-- A loop whose turns only read computes the same list as the loop over their results. -/
theorem run_mapM {f : ι → Prog S A V E α} {g : ι → Option α} {s : S}
    (h : ∀ i, (f i).run c s = (g i).map fun a => (a, s)) (l : List ι) :
    (l.mapM f).run c s = (l.mapM g).map fun as => (as, s) := by
  induction l with
  | nil => rfl
  | cons i l ih =>
    rw [List.mapM_cons, run_bind_map (h i), List.mapM_cons, Option.bind_eq_bind, Option.map_bind]
    congr 1
    funext a
    rw [run_bind_pure, ih, Option.map_map]
    cases l.mapM g <;> rfl

/-- A loop for its effect on the memory. -/
theorem run_forM {f : ι → Prog S A V E Unit} {g : S → ι → Option S}
    (h : ∀ i s, (f i).run c s = (g s i).map fun s => ((), s)) (l : List ι) (s : S) :
    (l.forM f).run c s = (l.foldlM g s).map fun s => ((), s) := by
  induction l generalizing s with
  | nil => rfl
  | cons i l ih =>
    show (f i >>= fun _ => l.forM f).run c s = _
    rw [run_bind_map (h i s), List.foldlM_cons, Option.bind_eq_bind, Option.map_bind]
    congr 1
    funext s'
    exact ih s'

end run
end Prog

/-- What the log says of a command. -/
inductive Entry (A V E : Type) where
  | read (a : A) (v : V)
  | write (a : A) (v : V)
  | note (e : E)

/-- Threads with their programs; the log has the newest entry first. -/
structure Pool (T S A V E : Type) where
  shared : S
  prog : T → Prog S A V E Unit
  log : List (T × Entry A V E)

variable {T : Type} [DecidableEq T]

/-- The next command of thread `t`. -/
def Pool.step (c : Cells S A V) (p : Pool T S A V E) (t : T) : Option (Pool T S A V E) :=
  match p.prog t with
  | .done _ => none
  | .stuck => none
  | .read a k => (c.read p.shared a).map fun v => { p with
      prog := Function.update p.prog t (k v)
      log := (t, .read a v) :: p.log }
  | .write a v k => (c.write p.shared a v).map fun s =>
      { shared := s, prog := Function.update p.prog t k, log := (t, .write a v) :: p.log }
  | .memory f k => some { p with
      shared := f p.shared
      prog := Function.update p.prog t (k p.shared) }
  | .note e k => some { p with
      prog := Function.update p.prog t k
      log := (t, .note e) :: p.log }

def Step (c : Cells S A V) (p : Pool T S A V E) (t : T) (p' : Pool T S A V E) : Prop :=
  p.step c t = some p'

/-- What a thread may do in each phase, and the phases that follow. -/
structure Rules (S A V E P : Type) where
  mayRead : P → A → Prop
  mayWrite : P → A → V → Prop
  mayNote : P → E → Prop
  mayChange : (S → S) → Prop
  read : P → A → V → P → Prop
  write : P → A → V → P → Prop
  note : P → E → P → Prop

/-- The program keeps to the rules from the given phase on, and `Q` holds when it is done. -/
def wp (R : Rules S A V E P) (Q : α → P → Prop) : Prog S A V E α → P → Prop
  | .done a, p => Q a p
  | .stuck, _ => True
  | .read a k, p => R.mayRead p a ∧ ∀ v p', R.read p a v p' → wp R Q (k v) p'
  | .write a v k, p => R.mayWrite p a v ∧ ∀ p', R.write p a v p' → wp R Q k p'
  | .memory f k, p => R.mayChange f ∧ ∀ s, wp R Q (k s) p
  | .note e k, p => R.mayNote p e ∧ ∀ p', R.note p e p' → wp R Q k p'

section wp
variable {R : Rules S A V E P} {Q Q' : α → P → Prop} {x : Prog S A V E α} {p : P}

theorem wp_mono (h : wp R Q x p) (hQ : ∀ a p', Q a p' → Q' a p') : wp R Q' x p := by
  induction x generalizing p with
  | done a => exact hQ a p h
  | stuck => trivial
  | read a k ih => exact ⟨h.1, fun v p' hp => ih v (h.2 v p' hp)⟩
  | write a v k ih => exact ⟨h.1, fun p' hp => ih (h.2 p' hp)⟩
  | memory f k ih => exact ⟨h.1, fun s => ih s (h.2 s)⟩
  | note e k ih => exact ⟨h.1, fun p' hp => ih (h.2 p' hp)⟩

theorem wp_bind {f : α → Prog S A V E β} {Q : β → P → Prop}
    (h : wp R (fun a p' => wp R Q (f a) p') x p) : wp R Q (x >>= f) p := by
  show wp R Q (x.bind f) p
  induction x generalizing p with
  | done a => exact h
  | stuck => trivial
  | read a k ih => exact ⟨h.1, fun v p' hp => ih v (h.2 v p' hp)⟩
  | write a v k ih => exact ⟨h.1, fun p' hp => ih (h.2 p' hp)⟩
  | memory g k ih => exact ⟨h.1, fun s => ih s (h.2 s)⟩
  | note e k ih => exact ⟨h.1, fun p' hp => ih (h.2 p' hp)⟩

theorem wp_transact {g : S → Option (α × S)}
    (hg : R.mayChange fun s => (g s).elim s Prod.snd)
    (h : ∀ s r, g s = some r → Q r.1 p) : wp R Q (.transact g) p := by
  refine ⟨hg, fun s => ?_⟩
  show wp R Q ((g s).elim .stuck fun r => .done r.1) p
  cases hs : g s with
  | none => trivial
  | some r => exact h s r hs

variable {K : P → Prop}

theorem wp_mapM {f : ι → Prog S A V E α} (hf : ∀ i p, K p → wp R (fun _ => K) (f i) p)
    (l : List ι) (hp : K p) : wp R (fun _ => K) (l.mapM f) p := by
  induction l generalizing p with
  | nil => exact hp
  | cons i l ih =>
    rw [List.mapM_cons]
    refine wp_bind (wp_mono (hf i p hp) fun a p' hp' => wp_bind ?_)
    exact wp_mono (ih hp') fun _ _ h => h

theorem wp_forM {f : ι → Prog S A V E Unit} (hf : ∀ i p, K p → wp R (fun _ => K) (f i) p)
    (l : List ι) (hp : K p) : wp R (fun _ => K) (l.forM f) p := by
  induction l generalizing p with
  | nil => exact hp
  | cons i l ih => exact wp_bind (wp_mono (hf i p hp) fun _ _ hp' => ih hp')

theorem wp_foldlM {f : α → ι → Prog S A V E α} (hf : ∀ a i p, K p → wp R (fun _ => K) (f a i) p)
    (l : List ι) (a : α) (hp : K p) : wp R (fun _ => K) (l.foldlM f a) p := by
  induction l generalizing a p with
  | nil => exact hp
  | cons i l ih => exact wp_bind (wp_mono (hf a i p hp) fun a' _ hp' => ih a' hp')

end wp

/-- An invariant of the phases, the memory and the log that every command keeps, when the rules
allow it in the phase of its thread and it passes the guard. -/
structure Protocol (c : Cells S A V) (R : Rules S A V E P) (guard : Pool T S A V E → T → Prop)
    (I : (T → P) → S → List (T × Entry A V E) → Prop) : Prop where
  read (φ : T → P) (p : Pool T S A V E) (t : T) (a : A) (k : V → Prog S A V E Unit) (v : V) :
    I φ p.shared p.log → p.prog t = .read a k → guard p t → R.mayRead (φ t) a →
    c.read p.shared a = some v →
    ∃ p', R.read (φ t) a v p' ∧ I (Function.update φ t p') p.shared ((t, .read a v) :: p.log)
  write (φ : T → P) (p : Pool T S A V E) (t : T) (a : A) (v : V) (k : Prog S A V E Unit) (s : S) :
    I φ p.shared p.log → p.prog t = .write a v k → guard p t → R.mayWrite (φ t) a v →
    c.write p.shared a v = some s →
    ∃ p', R.write (φ t) a v p' ∧ I (Function.update φ t p') s ((t, .write a v) :: p.log)
  memory (φ : T → P) (s : S) (log : List (T × Entry A V E)) (f : S → S) :
    I φ s log → R.mayChange f → I φ (f s) log
  note (φ : T → P) (p : Pool T S A V E) (t : T) (e : E) (k : Prog S A V E Unit) :
    I φ p.shared p.log → p.prog t = .note e k → guard p t → R.mayNote (φ t) e →
    ∃ p', R.note (φ t) e p' ∧ I (Function.update φ t p') p.shared ((t, .note e) :: p.log)

/-- Every thread keeps to the rules, in phases that the invariant holds of, and is in a phase in
`K` when it is done. -/
def Pool.Keeps (R : Rules S A V E P) (K : P → Prop)
    (I : (T → P) → S → List (T × Entry A V E) → Prop) (p : Pool T S A V E) : Prop :=
  ∃ φ, I φ p.shared p.log ∧ ∀ t, wp R (fun _ => K) (p.prog t) (φ t)

variable {R : Rules S A V E P} {K : P → Prop} {c : Cells S A V}
  {guard : Pool T S A V E → T → Prop} {I : (T → P) → S → List (T × Entry A V E) → Prop}

theorem keeps_update {φ : T → P} {prog : T → Prog S A V E Unit} {t : T} {k : Prog S A V E Unit}
    {p' : P} (h : ∀ u, wp R (fun _ => K) (prog u) (φ u)) (hk : wp R (fun _ => K) k p') (u : T) :
    wp R (fun _ => K) (Function.update prog t k u) (Function.update φ t p' u) := by
  by_cases hu : u = t
  · rw [hu, Function.update_self, Function.update_self]
    exact hk
  · rw [Function.update_of_ne hu, Function.update_of_ne hu]
    exact h u

theorem Protocol.step (h : Protocol c R guard I) {p q : Pool T S A V E} {t : T}
    (hp : p.Keeps R K I) (hguard : guard p t) (hstep : Step c p t q) : q.Keeps R K I := by
  obtain ⟨φ, hI, hwp⟩ := hp
  have ht := hwp t
  unfold Step Pool.step at hstep
  split at hstep
  · cases hstep
  · cases hstep
  · rename_i a k hprog
    rw [hprog] at ht
    obtain ⟨v, hv, rfl⟩ := Option.map_eq_some_iff.mp hstep
    obtain ⟨p', hread, hI'⟩ := h.read φ p t a k v hI hprog hguard ht.1 hv
    exact ⟨_, hI', keeps_update hwp (ht.2 v p' hread)⟩
  · rename_i a v k hprog
    rw [hprog] at ht
    obtain ⟨s, hs, rfl⟩ := Option.map_eq_some_iff.mp hstep
    obtain ⟨p', hwrite, hI'⟩ := h.write φ p t a v k s hI hprog hguard ht.1 hs
    exact ⟨_, hI', keeps_update hwp (ht.2 p' hwrite)⟩
  · rename_i f k hprog
    rw [hprog] at ht
    obtain rfl := Option.some.inj hstep
    refine ⟨φ, h.memory φ _ _ f hI ht.1, fun u => ?_⟩
    have hu := keeps_update (t := t) hwp (ht.2 p.shared) u
    rwa [Function.update_eq_self] at hu
  · rename_i e k hprog
    rw [hprog] at ht
    obtain rfl := Option.some.inj hstep
    obtain ⟨p', hnote, hI'⟩ := h.note φ p t e k hI hprog hguard ht.1
    exact ⟨_, hI', keeps_update hwp (ht.2 p' hnote)⟩

/-- The invariant along every run whose steps pass the guard. -/
theorem Protocol.run (h : Protocol c R guard I) {p q : Pool T S A V E} {ts : List T}
    (hp : p.Keeps R K I) (hrun : Run (Step c) guard p ts q) : q.Keeps R K I :=
  hrun.invariant hp fun hp hguard hstep => h.step hp hguard hstep

end Nachos.ThreadPrograms
