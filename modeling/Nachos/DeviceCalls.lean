import Nachos.ThreadViews

/-!
# Calls of a device

A device that serves one request at a time is used under a lock: the caller acquires
the lock, makes its request, and waits in `P` for the interrupt handler, which calls `V`
on a semaphore that starts at 0. Only the caller that holds the lock is ever in that
`P`, so a unit of the semaphore stands for the completion of its own request.
-/
namespace Nachos.DeviceCalls
open KernelThreads

/-- How far a thread has got: at the `Acquire`, at the `P`, in `P` or back from it. -/
inductive Stage where
  | outside
  | acquire
  | requested
  | waits
  deriving DecidableEq, Repr

/-- `done` says that the interrupt of the request of `t` has come. -/
inductive Service (T : Type*) where
  | idle
  | busy (t : T) (done : Bool)
  deriving DecidableEq, Repr

variable {T S L C : Type*} [DecidableEq T] [DecidableEq S] [DecidableEq L] [DecidableEq C]

/-- Calls of the kernel on the private objects of the device. -/
def usesDevice (lock : L) (semaphore : S) : Label T S L C → Bool
  | .p s => s = semaphore
  | .v s => s = semaphore
  | .handlerV s => s = semaphore
  | .acquire l => l = lock
  | .release l => l = lock
  | .wait _ l => l = lock
  | .signal _ l => l = lock
  | .broadcast _ l => l = lock
  | _ => false

section semaphore
variable {semaphore : S} {k k' : Kernel T S L C} {t : T} {unit : Bool} {a : Label T S L C}

def units : Bool → ℤ
  | false => 0
  | true => 1

/-- Nobody is in `P`. -/
def Nobody (semaphore : S) (unit : Bool) (k : Kernel T S L C) : Prop :=
  (∀ u, k.cont u ≠ .p semaphore) ∧ k.value semaphore = units unit

/-- Only `t` is in `P`, or is back from it and has used the unit. -/
def Solo (semaphore : S) (t : T) (unit : Bool) (k : Kernel T S L C) : Prop :=
  (∀ u, k.cont u = .p semaphore → u = t) ∧
    ((k.cont t = .p semaphore ∧ k.value semaphore = units unit) ∨
      (unit = true ∧ k.cont t = .user ∧ k.value semaphore = 0))

omit [DecidableEq T] [DecidableEq S] [DecidableEq L] [DecidableEq C] in
theorem Solo.returned (h : Solo semaphore t unit k) (hcont : k.cont t = .user) :
    unit = true ∧ Nobody semaphore false k := by
  rcases h with ⟨honly, ⟨hp, -⟩ | ⟨hunit, -, hv⟩⟩
  · exact absurd (hcont.symm.trans hp) (by simp)
  · refine ⟨hunit, fun u hu => ?_, hv⟩
    rw [honly u hu, hcont] at hu
    exact absurd hu (by simp)

theorem Nobody.resumes (h : Nobody semaphore unit k) (hr : Resumes k k') :
    Nobody semaphore unit k' := by
  induction hr with
  | refl => exact h
  | tail _ hm ih =>
    rcases hm.semaphore semaphore with ⟨hv, hcont⟩ | ⟨u, hu, -⟩
    · exact ⟨fun u hu => ih.1 u ((hcont u).mp hu), hv.trans ih.2⟩
    · exact absurd hu (ih.1 u)

theorem Solo.resumes (h : Solo semaphore t unit k) (hforked : k.status t ≠ .justCreated)
    (hr : Resumes k k') : Solo semaphore t unit k' := by
  induction hr with
  | refl => exact h
  | @tail k₁ k₂ hk hm ih =>
    have hview := hm.view (Resumes.forked hk hforked)
    rcases hm.semaphore semaphore with ⟨hv, hcont⟩ | ⟨u, hu, hne, hv, hcont⟩
    · refine ⟨fun u hu => ih.1 u ((hcont u).mp hu), ?_⟩
      rcases ih.2 with ⟨hp, hval⟩ | ⟨hunit, huser, hval⟩
      · exact Or.inl ⟨(hcont t).mpr hp, hv.trans hval⟩
      · refine Or.inr ⟨hunit, ?_, hv.trans hval⟩
        rcases hview with hview | hview
        · exact (congrArg View.cont hview).trans huser
        · exact absurd huser hview.ne_user
    · obtain rfl := ih.1 u hu
      rcases ih.2 with ⟨hp, hval⟩ | ⟨hunit, huser, hval⟩
      · have hunit : unit = true := by
          cases unit with
          | false => exact absurd hval hne
          | true => rfl
        refine ⟨fun w hw => ?_, Or.inr ⟨hunit, by rw [hcont, Function.update_self], ?_⟩⟩
        · rw [hcont] at hw
          by_cases hwu : w = u
          · exact hwu
          · rw [Function.update_of_ne hwu] at hw
            exact ih.1 w hw
        · rw [hv, hval, hunit]
          rfl
      · exact absurd (huser.symm.trans hu) (by simp)

theorem Nobody.step (h : Nobody semaphore unit k) (hstep : k.step a = some k')
    (hp : a ≠ .p semaphore) (hv : a ≠ .v semaphore) (hh : a ≠ .handlerV semaphore) :
    Nobody semaphore unit k' := by
  obtain ⟨k₁, hown, hr⟩ := step_own hstep
  refine Nobody.resumes ⟨fun u hu => h.1 u (hown.asks u _ hp hu), ?_⟩ hr
  rw [hown.value _ hp hv hh, h.2]

theorem Solo.step (h : Solo semaphore t unit k) (hstep : k.step a = some k')
    (hp : a ≠ .p semaphore) (hv : a ≠ .v semaphore) (hh : a ≠ .handlerV semaphore)
    (ht : k.currentThread = some t → Passive a) (hforked : k.status t ≠ .justCreated) :
    Solo semaphore t unit k' := by
  obtain ⟨k₁, hown, hr⟩ := step_own hstep
  have hcont : k₁.cont t = k.cont t := congrArg View.cont (hown.view t ht hforked)
  refine Solo.resumes ⟨fun u hu => h.1 u (hown.asks u _ hp hu), ?_⟩ (hown.forked t hforked) hr
  rw [hcont, hown.value _ hp hv hh]
  exact h.2

theorem v_semaphore (k : Kernel T S L C) (semaphore : S) : (k.v semaphore).cont = k.cont ∧
    (k.v semaphore).value semaphore = k.value semaphore + 1 := by
  simp [Kernel.v, Kernel.record]

theorem Nobody.v (h : Nobody semaphore false k) : Nobody semaphore true (k.v semaphore) := by
  obtain ⟨hcont, hv⟩ := v_semaphore k semaphore
  exact ⟨by rw [hcont]; exact h.1, by rw [hv, h.2]; rfl⟩

theorem Solo.v (h : Solo semaphore t false k) : Solo semaphore t true (k.v semaphore) := by
  obtain ⟨hcont, hv⟩ := v_semaphore k semaphore
  rcases h with ⟨honly, ⟨hp, hval⟩ | ⟨hunit, -⟩⟩
  · refine ⟨by rw [hcont]; exact honly, Or.inl ⟨by rw [hcont]; exact hp, ?_⟩⟩
    rw [hv, hval]
    rfl
  · exact absurd hunit (by simp)

/-- `P` when nobody else is in it. -/
theorem Nobody.pLoop (h : Nobody semaphore unit k) (hcur : k.currentThread = some t)
    (hcont : k.cont t = .user) (hforked : k.status t ≠ .justCreated) :
    Solo semaphore t unit (k.pLoop Kernel.sleep t semaphore) := by
  have honly : ∀ {c : Cont S L C} u, Function.update k.cont t c u = .p semaphore → u = t := by
    intro c u hu
    by_contra hut
    rw [Function.update_of_ne hut] at hu
    exact h.1 u hu
  rcases pLoop_cases Kernel.sleep k t semaphore with ⟨hv, heq⟩ | ⟨hv, heq⟩
  · rw [heq]
    have hblock : Solo semaphore t unit (k.block t (.semaphore semaphore) (.p semaphore)) :=
      ⟨fun u => honly u, Or.inl ⟨Function.update_self _ _ _, h.2⟩⟩
    exact hblock.resumes ((Move.blockP hcur (Or.inl hcont) hv).forked hforked) (sleep_resumes rfl)
  · rw [heq]
    have hunit : unit = true := by
      cases unit with
      | false => exact absurd h.2 hv
      | true => rfl
    refine ⟨fun u => honly u, Or.inr ⟨hunit, Function.update_self _ _ _, ?_⟩⟩
    simp [Kernel.down, Kernel.setCont, Kernel.record, h.2, hunit, units]

/-- Calls of the kernel on a semaphore. -/
def usesSemaphore (semaphore : S) : Label T S L C → Bool
  | .p s => s = semaphore
  | .v s => s = semaphore
  | .handlerV s => s = semaphore
  | _ => false

/-- The units of a semaphore that only `t` calls `P` on; `inP` says that it has called. -/
def Units (semaphore : S) (t : T) (inP unit : Bool) (k : Kernel T S L C) : Prop :=
  match inP with
  | true => Solo semaphore t unit k
  | false => Nobody semaphore unit k

variable {inP : Bool}

theorem Units.step (h : Units semaphore t inP unit k) (hstep : k.step a = some k')
    (huses : usesSemaphore semaphore a = false)
    (ht : inP = true → k.currentThread = some t → Passive a)
    (hforked : inP = true → k.status t ≠ .justCreated) : Units semaphore t inP unit k' := by
  have hp : a ≠ .p semaphore := by
    rintro rfl
    simp [usesSemaphore] at huses
  have hv : a ≠ .v semaphore := by
    rintro rfl
    simp [usesSemaphore] at huses
  have hh : a ≠ .handlerV semaphore := by
    rintro rfl
    simp [usesSemaphore] at huses
  cases inP with
  | true => exact Solo.step h hstep hp hv hh (ht rfl) (hforked rfl)
  | false => exact Nobody.step h hstep hp hv hh

theorem Units.v (h : Units semaphore t inP false k) :
    Units semaphore t inP true (k.v semaphore) := by
  cases inP with
  | true => exact Solo.v h
  | false => exact Nobody.v h

end semaphore

section callers
variable {lock : L} {semaphore : S} {k k' : Kernel T S L C} {stage : T → Stage} {t u : T}
  {p : Stage} {a : Label T S L C}

/-- What a thread in a call of the device can be doing. -/
def Engaged (lock : L) (semaphore : S) : Stage → View S L C → Prop
  | .outside, _ => True
  | .acquire, v => Locking lock none v
  | .requested, v => v.cont = .user ∧ v.inside lock = true
  | .waits, v => (v.cont = .user ∨ v.cont = .p semaphore) ∧ v.inside lock = true

omit [DecidableEq S] [DecidableEq C] in
theorem Engaged.goes {v v' : View S L C} (h : Engaged lock semaphore p v) (hg : View.Goes v v') :
    Engaged lock semaphore p v' := by
  cases p with
  | outside => trivial
  | acquire => exact Locking.goes h hg
  | requested => exact absurd h.1 hg.ne_user
  | waits =>
    rcases h with ⟨hc | hc, hin⟩
    · exact absurd hc hg.ne_user
    · cases hg with
      | down => exact ⟨Or.inl rfl, hin⟩
      | _ => cases hc

/-- The part of the invariant that is about each thread. -/
structure Callers (lock : L) (semaphore : S) (k : Kernel T S L C) (stage : T → Stage) :
    Prop where
  sound : Sound k
  engaged : ∀ t, Engaged lock semaphore (stage t) (view k t)
  forked : ∀ t, stage t ≠ .outside → k.status t ≠ .justCreated

/-- From the request to the return. -/
def Serving (stage : T → Stage) (t : T) : Prop := stage t = .requested ∨ stage t = .waits

/-- A thread that is moved to a stage outside of a request. -/
theorem serving_of_update (hp : p = .outside ∨ p = .acquire)
    (h : Serving (Function.update stage t p) u) : u ≠ t ∧ Serving stage u := by
  by_cases hut : u = t
  · rw [hut, Serving, Function.update_self] at h
    rcases hp with rfl | rfl <;> simp at h
  · refine ⟨hut, ?_⟩
    simpa only [Serving, Function.update_of_ne hut] using h

namespace Callers

omit [DecidableEq S] in
theorem inside_of_user (h : Callers lock semaphore k stage) (hcont : k.cont t = .user)
    (hp : stage t ≠ .outside) : inside t lock k.history = true := by
  have he := h.engaged t
  cases hpt : stage t with
  | outside => exact absurd hpt hp
  | acquire =>
    rw [hpt] at he
    rcases he with ⟨-, hin⟩ | hc
    · exact hin
    · exact absurd (hcont.symm.trans hc) (by simp)
  | requested =>
    rw [hpt] at he
    exact he.2
  | waits =>
    rw [hpt] at he
    exact he.2

omit [DecidableEq S] in
theorem inside_of_serving (h : Callers lock semaphore k stage) (hp : Serving stage t) :
    inside t lock k.history = true := by
  have he := h.engaged t
  rcases hp with hp | hp
  · rw [hp] at he
    exact he.2
  · rw [hp] at he
    exact he.2

omit [DecidableEq S] in
theorem eq_of_inside (h : Callers lock semaphore k stage) (ht : inside t lock k.history = true)
    (hu : inside u lock k.history = true) : t = u :=
  Option.some.inj ((h.sound.locks.owner t lock ht).2.symm.trans (h.sound.locks.owner u lock hu).2)

/-- A call of the kernel by `t` on the objects of the device. -/
theorem call (h : Callers lock semaphore k stage) (hcur : k.currentThread = some t)
    (hstep : k.step a = some k') (hself : Engaged lock semaphore p (view k' t)) :
    Callers lock semaphore k' (Function.update stage t p) := by
  refine ⟨h.sound.step hstep, fun u => ?_, fun u hu => ?_⟩
  · by_cases hut : u = t
    · rw [hut, Function.update_self]
      exact hself
    · rw [Function.update_of_ne hut]
      by_cases hp : stage u = .outside
      · rw [hp]
        trivial
      · refine step_view Engaged.goes hstep (fun hcur' => ?_) (h.forked u hp) (h.engaged u)
        exact absurd (Option.some.inj (hcur'.symm.trans hcur)) hut
  · by_cases hut : u = t
    · rw [hut]
      exact step_forked hstep (h.sound.current_forked hcur)
    · rw [Function.update_of_ne hut] at hu
      exact step_forked hstep (h.forked u hu)

omit [DecidableEq S] in
/-- The request is no call of the kernel. -/
theorem request (h : Callers lock semaphore k stage) (hcont : k.cont t = .user)
    (hp : stage t = .acquire) : Callers lock semaphore k (Function.update stage t .requested) := by
  refine ⟨h.sound, fun u => ?_, fun u hu => ?_⟩
  · by_cases hut : u = t
    · rw [hut, Function.update_self]
      exact ⟨hcont, h.inside_of_user hcont (by simp [hp])⟩
    · rw [Function.update_of_ne hut]
      exact h.engaged u
  · by_cases hut : u = t
    · rw [hut]
      exact h.forked t (by simp [hp])
    · rw [Function.update_of_ne hut] at hu
      exact h.forked u hu

/-- Steps that are no call on the device. -/
theorem other (h : Callers lock semaphore k stage)
    (ha : ∀ t, k.currentThread = some t → stage t ≠ .outside → Passive a)
    (hstep : k.step a = some k') : Callers lock semaphore k' stage := by
  refine ⟨h.sound.step hstep, fun u => ?_, fun u hu => step_forked hstep (h.forked u hu)⟩
  by_cases hp : stage u = .outside
  · rw [hp]
    trivial
  · exact step_view Engaged.goes hstep (fun hcur => ha u hcur hp) (h.forked u hp) (h.engaged u)

end Callers

/-- What the semaphore and the callers have to do with the request that is served. -/
def InService (semaphore : S) (k : Kernel T S L C) (stage : T → Stage) : Service T → Prop
  | .idle => Nobody semaphore false k ∧ ∀ t, ¬ Serving stage t
  | .busy t done => stage t = .requested ∧ Nobody semaphore done k ∨
      stage t = .waits ∧ Solo semaphore t done k

omit [DecidableEq T] [DecidableEq S] [DecidableEq L] [DecidableEq C] in
theorem InService.serving {done : Bool} (h : InService semaphore k stage (.busy t done)) :
    Serving stage t := h.imp And.left And.left

/-- A step of the kernel by which no thread gets into or out of a request. -/
theorem InService.step {stage' : T → Stage} {s : Service T} (h : InService semaphore k stage s)
    (hc : Callers lock semaphore k stage) (hstep : k.step a = some k')
    (hp : a ≠ .p semaphore) (hv : a ≠ .v semaphore) (hh : a ≠ .handlerV semaphore)
    (hserving : ∀ u, Serving stage u → stage' u = stage u ∧
      (k.currentThread = some u → Passive a))
    (hnew : ∀ u, Serving stage' u → Serving stage u) : InService semaphore k' stage' s := by
  cases s with
  | idle => exact ⟨h.1.step hstep hp hv hh, fun u hu => h.2 u (hnew u hu)⟩
  | busy t done =>
    rcases h with ⟨hpt, hnobody⟩ | ⟨hpt, hsolo⟩
    · obtain ⟨heq, -⟩ := hserving t (Or.inl hpt)
      exact Or.inl ⟨heq.trans hpt, hnobody.step hstep hp hv hh⟩
    · obtain ⟨heq, hpassive⟩ := hserving t (Or.inr hpt)
      exact Or.inr ⟨heq.trans hpt,
        hsolo.step hstep hp hv hh hpassive (hc.forked t (by simp [hpt]))⟩

structure Device (lock : L) (semaphore : S) (k : Kernel T S L C) (stage : T → Stage)
    (s : Service T) : Prop where
  callers : Callers lock semaphore k stage
  service : InService semaphore k stage s

namespace Device
variable {s : Service T}

omit [DecidableEq S] in
/-- Whoever is in a request holds the lock. -/
theorem eq_busy (h : Device lock semaphore k stage s) (ht : Serving stage t) :
    ∃ done, s = .busy t done := by
  cases s with
  | idle => exact absurd ht (h.service.2 t)
  | busy u done =>
    obtain rfl := h.callers.eq_of_inside (h.callers.inside_of_serving ht)
      (h.callers.inside_of_serving h.service.serving)
    exact ⟨done, rfl⟩

theorem enter (h : Device lock semaphore k stage s) (hcur : k.currentThread = some t)
    (hcont : k.cont t = .user) (hp : stage t = .outside)
    (hstep : k.step (.acquire lock) = some k') :
    Device lock semaphore k' (Function.update stage t .acquire) s := by
  have hlocking : Locking lock none (view k' t) := by
    obtain rfl : k.acquireLoop Kernel.sleep t lock none = k' := by
      simpa [Kernel.step, hcur, hcont, Kernel.call] using hstep
    exact acquireLoop_locking hcur (h.callers.sound.current_forked hcur) (Or.inl ⟨hcont, rfl⟩)
  refine ⟨h.callers.call hcur hstep hlocking, ?_⟩
  refine h.service.step h.callers hstep (by simp) (by simp) (by simp) (fun u hu => ?_)
    fun u hu => (serving_of_update (Or.inr rfl) hu).2
  have hut : u ≠ t := by
    rintro rfl
    simp [Serving, hp] at hu
  refine ⟨Function.update_of_ne hut _ _, fun hcur' => ?_⟩
  exact absurd (Option.some.inj (hcur'.symm.trans hcur)) hut

omit [DecidableEq S] in
theorem request (h : Device lock semaphore k stage s) (hcont : k.cont t = .user)
    (hp : stage t = .acquire) : s = .idle ∧
      Device lock semaphore k (Function.update stage t .requested) (.busy t false) := by
  cases s with
  | idle =>
    exact ⟨rfl, h.callers.request hcont hp,
      Or.inl ⟨Function.update_self _ _ _, h.service.1⟩⟩
  | busy u done =>
    have hu := h.service.serving
    obtain rfl := h.callers.eq_of_inside (h.callers.inside_of_user hcont (by simp [hp]))
      (h.callers.inside_of_serving hu)
    simp [Serving, hp] at hu

theorem wait (h : Device lock semaphore k stage s) (hcur : k.currentThread = some t)
    (hcont : k.cont t = .user) (hp : stage t = .requested)
    (hstep : k.step (.p semaphore) = some k') :
    Device lock semaphore k' (Function.update stage t .waits) s := by
  have hforked := h.callers.sound.current_forked hcur
  have hin := h.callers.inside_of_user hcont (by simp [hp])
  obtain rfl : k.pLoop Kernel.sleep t semaphore = k' := by
    simpa [Kernel.step, hcur, hcont, Kernel.call] using hstep
  have hengaged : Engaged lock semaphore .waits (view (k.pLoop Kernel.sleep t semaphore) t) := by
    rcases pLoop_cases Kernel.sleep k t semaphore with ⟨hv, heq⟩ | ⟨hv, heq⟩
    · rw [heq]
      have hm := Move.blockP hcur (Or.inl hcont) hv
      refine (sleep_resumes rfl).view Engaged.goes (hm.forked hforked) ?_
      exact ⟨Or.inr (Function.update_self _ _ _), hin⟩
    · rw [heq]
      exact ⟨Or.inl (Function.update_self _ _ _), hin⟩
  obtain ⟨done, rfl⟩ := h.eq_busy (Or.inl hp)
  rcases h.service with ⟨-, hnobody⟩ | ⟨hwaits, -⟩
  · exact ⟨h.callers.call hcur hstep hengaged,
      Or.inr ⟨Function.update_self _ _ _, hnobody.pLoop hcur hcont hforked⟩⟩
  · exact absurd (hp.symm.trans hwaits) (by simp)

/-- The caller is back from `P`, so the interrupt of its request has come. -/
theorem leave (h : Device lock semaphore k stage s) (hcur : k.currentThread = some t)
    (hcont : k.cont t = .user) (hp : stage t = .waits)
    (hstep : k.step (.release lock) = some k') :
    s = .busy t true ∧ Device lock semaphore k' (Function.update stage t .outside) .idle := by
  obtain ⟨done, rfl⟩ := h.eq_busy (Or.inr hp)
  rcases h.service with ⟨hreq, -⟩ | ⟨-, hsolo⟩
  · exact absurd (hp.symm.trans hreq) (by simp)
  · obtain ⟨rfl, hnobody⟩ := hsolo.returned hcont
    refine ⟨rfl, h.callers.call hcur hstep trivial,
      hnobody.step hstep (by simp) (by simp) (by simp), fun u hu => ?_⟩
    obtain ⟨hut, hu⟩ := serving_of_update (Or.inl rfl) hu
    exact hut (h.callers.eq_of_inside (h.callers.inside_of_serving hu)
      (h.callers.inside_of_serving (Or.inr hp)))

theorem interrupt (h : Device lock semaphore k stage (.busy t false))
    (hstep : k.step (.handlerV semaphore) = some k') :
    Device lock semaphore k' stage (.busy t true) := by
  have hpassive : Passive (.handlerV semaphore : Label T S L C) := trivial
  refine ⟨h.callers.other (fun _ _ _ => hpassive) hstep, ?_⟩
  obtain rfl : k.v semaphore = k' := by
    simpa [Kernel.step] using hstep
  exact h.service.imp (And.imp_right Nobody.v) (And.imp_right Solo.v)

theorem other (h : Device lock semaphore k stage s) (huses : usesDevice lock semaphore a = false)
    (hpassive : ∀ t, k.currentThread = some t → stage t ≠ .outside → Passive a)
    (hstep : k.step a = some k') : Device lock semaphore k' stage s := by
  have hnot : a ≠ .p semaphore ∧ a ≠ .v semaphore ∧ a ≠ .handlerV semaphore := by
    refine ⟨?_, ?_, ?_⟩ <;> rintro rfl <;> simp [usesDevice] at huses
  refine ⟨h.callers.other hpassive hstep, ?_⟩
  refine h.service.step h.callers hstep hnot.1 hnot.2.1 hnot.2.2
    (fun u hu => ⟨rfl, fun hcur => hpassive u hcur ?_⟩) fun u hu => hu
  rcases hu with hu | hu <;> simp [hu]

end Device

omit [DecidableEq L] [DecidableEq C] in
omit [DecidableEq S] in
theorem initial_nobody (main : T) {value : S → ℤ} (currentTh : L → Option T) {semaphore : S}
    (hv : value semaphore = 0) :
    Nobody semaphore false (initial main value currentTh : Kernel T S L C) := by
  refine ⟨fun u => ?_, hv⟩
  by_cases hu : u = main <;> simp [initial, hu]

theorem initial_device (lock : L) (semaphore : S) (main : T) (value : S → ℤ)
    (currentTh : L → Option T) :
    Device lock semaphore
      (initial main (Function.update value semaphore 0) currentTh : Kernel T S L C)
      (fun _ => .outside) .idle :=
  ⟨⟨initial_sound main _ currentTh, fun _ => trivial, fun _ ht => absurd rfl ht⟩,
    initial_nobody main currentTh (Function.update_self _ _ _), by simp [Serving]⟩

end callers

end Nachos.DeviceCalls
