import Nachos.FilePrograms
import Nachos.SystemFiles

/-!
# Copies of the free map

Every operation that takes sectors reads the free map, changes its own copy and writes
the copy back, and other threads run while it waits for the disk. The only locks are those
of the single files. Two threads that read the map before one of them has written it back
take the same sectors, and the later one undoes the marks of the other.

`Orderly` asks of a step that takes sectors or writes the map that the copy of the thread is
still what the disk holds. Under this condition a sector is handed out once, and it is marked
on disk as soon as its thread has written the map. The invariant follows the phases of all
threads; it is kept by every command that the rules of its thread allow.
-/
namespace Nachos.FreeMapProtocol
open FileSystem ThreadPrograms FilePrograms

abbrev Log (T : Type) := List (T × Entry Access Sector (List ℕ))

abbrev FilePool (T : Type) := Pool T Store Access Sector (List ℕ)

variable {T : Type}

/-- The sectors handed out to files. -/
def handed : Log T → List ℕ
  | [] => []
  | (_, .note l) :: log => l ++ handed log
  | _ :: log => handed log

variable [DecidableEq T]

/-- The sectors that a thread has handed out and not yet marked in a map that it wrote. -/
def pending : Log T → List (T × ℕ)
  | [] => []
  | (t, .note l) :: log => l.map (fun y => (t, y)) ++ pending log
  | (t, .write (.map _) s) :: log =>
    (pending log).filter fun r => r.1 ≠ t ∨ (diskMap s).bit r.2 = false
  | _ :: log => pending log

/-- The sector of the free map as the thread read it last. -/
def lastFetch (t : T) : Log T → Option Sector
  | [] => none
  | (u, .read (.map _) s) :: log => if u = t then some s else lastFetch t log
  | _ :: log => lastFetch t log

/-- The free map, in sector `x`, is still what the thread read. -/
def Current (x : ℕ) (p : FilePool T) (t : T) : Prop :=
  lastFetch t p.log = some (p.shared.disk x)

instance (x : ℕ) (p : FilePool T) (t : T) : Decidable (Current x p t) :=
  inferInstanceAs (Decidable (_ = _))

/-- A command that keeps the free map in order. Sectors are handed out from a copy that is up to
date and shows all sectors handed out before; a copy that is written back is up to date; file data
is written neither to sector 0, where the header of the free map is, nor to the map. -/
def OrderlyCommand (x : ℕ) (p : FilePool T) (t : T) : FileProg Unit → Prop
  | .note l _ => l ≠ [] → Current x p t ∧ pending p.log = []
  | .write (.map _) _ _ => Current x p t
  | .write (.file w) _ _ => w.toNat ≠ 0 ∧ w.toNat ≠ x
  | _ => True

def Orderly (x : ℕ) (p : FilePool T) (t : T) : Prop := OrderlyCommand x p t (p.prog t)

instance (x : ℕ) (p : FilePool T) (t : T) : (c : FileProg Unit) →
    Decidable (OrderlyCommand x p t c)
  | .note _ _ => inferInstanceAs (Decidable (_ → _ ∧ _))
  | .write (.map _) _ _ => inferInstanceAs (Decidable (Current x p t))
  | .write (.file _) _ _ => inferInstanceAs (Decidable (_ ∧ _))
  | .read _ _ => inferInstanceAs (Decidable True)
  | .memory _ _ => inferInstanceAs (Decidable True)
  | .done _ => inferInstanceAs (Decidable True)
  | .stuck => inferInstanceAs (Decidable True)

instance (x : ℕ) (p : FilePool T) (t : T) : Decidable (Orderly x p t) :=
  inferInstanceAs (Decidable (OrderlyCommand x p t (p.prog t)))

/-! ## The phases of an operation -/

/-- A thread without a copy of the free map, with a copy that shows the sector `s`, and with sectors
`l` that it took from such a copy. -/
inductive Phase where
  | free
  | copy (s : Sector)
  | holding (l : List ℕ) (s : Sector)

/-- The map in `s'` is the one in `s` with the sectors `l` marked. -/
def Stored (s : Sector) (l : List ℕ) (s' : Sector) : Prop :=
  ∀ i < totalSectors, (diskMap s').bit i = true ↔ (diskMap s).bit i = true ∨ i ∈ l

/-- The header of the free map is `h`, its data is in sector `x`. An operation that holds sectors
may start another one inside: `Create` does when the directory grows. -/
def rules (x : ℕ) (h : FileHeader) : Rules Store Access Sector (List ℕ) Phase where
  mayRead _ a := match a with
    | .file _ => True
    | .map w => w.toNat = x
  mayWrite p a s' := match a, p with
    | .file _, _ => True
    | .map w, .holding l s => w.toNat = x ∧ (Stored s l s' ∨ l ≠ [] ∧ s' = s)
    | .map _, _ => False
  mayNote p l := match p with
    | .free => False
    | .copy s => l.Nodup ∧ ∀ y ∈ l, y < totalSectors ∧ (diskMap s).bit y = false
    | .holding l' _ => l' ≠ []
  mayChange f := ∀ st, (f st).disk = st.disk
  read p a s' p' := match a, p with
    | .file w, _ => p' = p ∧ (w.toNat = 0 → FileHeader.fetchFrom s' = h)
    | .map _, .holding l s => (l = [] ∧ p' = .copy s') ∨ (l ≠ [] ∧ s' = s ∧ p' = p)
    | .map _, _ => p' = .copy s'
  write p a s' p' := match a, p with
    | .file _, _ => p' = p
    | .map _, .holding l s => (l ≠ [] ∧ s' = s ∧ p' = p) ∨ (Stored s l s' ∧ p' = .free)
    | .map _, _ => False
  note p l p' := match p with
    | .free => False
    | .copy s => p' = .holding l s
    | .holding _ _ => l = [] ∧ p' = p

/-! ## The invariant -/

/-- What the phase of thread `t` says of the log and of the free map. -/
def PhaseInv (x : ℕ) (t : T) (st : Store) (log : Log T) : Phase → Prop
  | .free => ∀ y, (t, y) ∉ pending log
  | .copy s => (∀ y, (t, y) ∉ pending log) ∧ lastFetch t log = some s
  | .holding l s => (∀ y, (t, y) ∈ pending log ↔ y ∈ l) ∧ lastFetch t log = some s ∧
      (∀ y ∈ l, y < totalSectors ∧ (diskMap s).bit y = false) ∧ (l ≠ [] → st.disk x = s)

/-- `first` is the sector of the free map at the start. -/
structure GrowthInv (x : ℕ) (h : FileHeader) (first : Sector) (φ : T → Phase) (st : Store)
    (log : Log T) : Prop where
  hdr : FileHeader.fetchFrom (st.disk 0) = h
  nodup : (handed log).Nodup
  clear : ∀ y ∈ handed log, y < totalSectors ∧ (diskMap first).bit y = false
  kept : ∀ i < totalSectors, (diskMap first).bit i = true → (diskMap (st.disk x)).bit i = true
  marked : ∀ y ∈ handed log, (diskMap (st.disk x)).bit y = true ∨ ∃ t, (t, y) ∈ pending log
  one : ∀ t u y z, (t, y) ∈ pending log → (u, z) ∈ pending log → t = u
  phase : ∀ t, PhaseInv x t st log (φ t)

variable {x : ℕ} {h : FileHeader} {first : Sector} {φ : T → Phase} {st st' : Store}
  {log log' : Log T} {t : T}

/-- Nothing that the invariant speaks of has changed. -/
theorem GrowthInv.congr (hI : GrowthInv x h first φ st log) (h0 : st'.disk 0 = st.disk 0)
    (hx : st'.disk x = st.disk x) (hhanded : handed log' = handed log)
    (hpending : pending log' = pending log) (hfetch : ∀ t, lastFetch t log' = lastFetch t log) :
    GrowthInv x h first φ st' log' where
  hdr := by rw [h0, hI.hdr]
  nodup := by rw [hhanded]; exact hI.nodup
  clear := by rw [hhanded]; exact hI.clear
  kept := by rw [hx]; exact hI.kept
  marked := by rw [hx, hhanded, hpending]; exact hI.marked
  one := by rw [hpending]; exact hI.one
  phase t := by
    have ht := hI.phase t
    unfold PhaseInv at ht ⊢
    rwa [hpending, hfetch, hx]

theorem GrowthInv.pending_empty (hI : GrowthInv x h first φ st log) {l : List ℕ} {s : Sector}
    (hφ : φ t = .holding l s) (hnone : pending log = []) : l = [] := by
  have ht := hI.phase t
  rw [hφ] at ht
  rw [List.eq_nil_iff_forall_not_mem]
  intro y hy
  have hmem := (ht.1 y).mpr hy
  rw [hnone] at hmem
  cases hmem

/-- A read of the free map. -/
theorem GrowthInv.fetch (hI : GrowthInv x h first φ st log) (w : Word) :
    ∃ p, (rules x h).read (φ t) (.map w) (st.disk x) p ∧
      GrowthInv x h first (Function.update φ t p) st
        ((t, .read (.map w) (st.disk x)) :: log) := by
  have hother : ∀ u, u ≠ t → lastFetch u ((t, .read (.map w) (st.disk x)) :: log) =
      lastFetch u log := fun u hu => if_neg (Ne.symm hu)
  have hown : lastFetch t ((t, .read (.map w) (st.disk x)) :: log) = some (st.disk x) :=
    if_pos rfl
  have hset : ∀ {p}, PhaseInv x t st ((t, .read (.map w) (st.disk x)) :: log) p →
      GrowthInv x h first (Function.update φ t p) st
        ((t, .read (.map w) (st.disk x)) :: log) := by
    intro p hp
    refine ⟨hI.hdr, hI.nodup, hI.clear, hI.kept, hI.marked, hI.one, fun u => ?_⟩
    by_cases hu : u = t
    · rw [hu, Function.update_self]
      exact hp
    · have hphase := hI.phase u
      rw [Function.update_of_ne hu]
      unfold PhaseInv at hphase ⊢
      rwa [hother u hu]
  have ht := hI.phase t
  cases hφ : φ t with
  | free =>
    rw [hφ] at ht
    exact ⟨_, rfl, hset ⟨ht, hown⟩⟩
  | copy s =>
    rw [hφ] at ht
    exact ⟨_, rfl, hset ⟨ht.1, hown⟩⟩
  | holding l s =>
    rw [hφ] at ht
    by_cases hl : l = []
    · refine ⟨_, Or.inl ⟨hl, rfl⟩, hset ⟨fun y hy => ?_, hown⟩⟩
      have hmem := (ht.1 y).mp hy
      rw [hl] at hmem
      cases hmem
    · have hs := ht.2.2.2 hl
      exact ⟨_, Or.inr ⟨hl, hs, rfl⟩, hset ⟨ht.1, hown.trans (congrArg some hs), ht.2.2⟩⟩

/-- Sectors are handed out from a copy that shows all that were handed out before. -/
theorem GrowthInv.handOut (hI : GrowthInv x h first φ st log) {l : List ℕ} {s : Sector}
    (hφ : φ t = .copy s) (hnd : l.Nodup)
    (hl : ∀ y ∈ l, y < totalSectors ∧ (diskMap s).bit y = false)
    (hguard : l ≠ [] → st.disk x = s ∧ pending log = []) :
    GrowthInv x h first (Function.update φ t (.holding l s)) st ((t, .note l) :: log) := by
  have ht := hI.phase t
  rw [hφ] at ht
  have hpending : ∀ u y, (u, y) ∈ pending ((t, .note l) :: log) ↔
      (u = t ∧ y ∈ l) ∨ (u, y) ∈ pending log := by
    intro u y
    rw [pending, List.mem_append, List.mem_map]
    refine or_congr_left ⟨?_, ?_⟩
    · rintro ⟨z, hz, he⟩
      obtain ⟨rfl, rfl⟩ := Prod.mk.inj he
      exact ⟨rfl, hz⟩
    · rintro ⟨rfl, hy⟩
      exact ⟨y, hy, rfl⟩
  -- with sectors to hand out, all earlier ones are marked on disk
  have hearlier : ∀ y ∈ l, ∀ z ∈ handed log, (diskMap s).bit z = true := by
    intro y hy z hz
    obtain ⟨hdisk, hnone⟩ := hguard (List.ne_nil_of_mem hy)
    rcases hI.marked z hz with hm | ⟨u, hu⟩
    · rwa [hdisk] at hm
    · rw [hnone] at hu
      cases hu
  refine ⟨hI.hdr, ?_, ?_, hI.kept, ?_, ?_, ?_⟩
  · refine List.nodup_append.mpr ⟨hnd, hI.nodup, ?_⟩
    rintro y hy z hz rfl
    have hm := hearlier y hy y hz
    rw [(hl y hy).2] at hm
    cases hm
  · intro y hy
    rcases List.mem_append.mp hy with hy | hy
    · refine ⟨(hl y hy).1, ?_⟩
      by_contra hset
      have hm := hI.kept y (hl y hy).1 (Bool.of_not_eq_false hset)
      rw [(hguard (List.ne_nil_of_mem hy)).1, (hl y hy).2] at hm
      cases hm
    · exact hI.clear y hy
  · intro y hy
    rcases List.mem_append.mp hy with hy | hy
    · exact Or.inr ⟨t, (hpending t y).mpr (Or.inl ⟨rfl, hy⟩)⟩
    · exact (hI.marked y hy).imp id fun ⟨u, hu⟩ => ⟨u, (hpending u y).mpr (Or.inr hu)⟩
  · intro u v y z hu hv
    rcases (hpending u y).mp hu with ⟨rfl, hy⟩ | hu'
    · rcases (hpending v z).mp hv with ⟨rfl, -⟩ | hv'
      · rfl
      · rw [(hguard (List.ne_nil_of_mem hy)).2] at hv'
        cases hv'
    · rcases (hpending v z).mp hv with ⟨rfl, hz⟩ | hv'
      · rw [(hguard (List.ne_nil_of_mem hz)).2] at hu'
        cases hu'
      · exact hI.one u v y z hu' hv'
  · intro u
    by_cases hu : u = t
    · rw [hu, Function.update_self]
      refine ⟨fun y => ?_, ht.2, hl, fun hne => (hguard hne).1⟩
      rw [hpending]
      exact ⟨fun hy => hy.elim And.right fun hm => absurd hm (ht.1 y), fun hy => Or.inl ⟨rfl, hy⟩⟩
    · have hphase := hI.phase u
      have hsame : ∀ y, (u, y) ∈ pending ((t, .note l) :: log) ↔ (u, y) ∈ pending log := by
        intro y
        rw [hpending]
        exact or_iff_right fun he => hu he.1
      rw [Function.update_of_ne hu]
      unfold PhaseInv at hphase ⊢
      simp only [hsame]
      exact hphase

theorem Stored.sector_eq {s s' : Sector} (hs : Stored s [] s') : s' = s := by
  rw [← mapSector_diskMap s', ← mapSector_diskMap s]
  refine mapSector_congr fun i hi => ?_
  rw [Bool.eq_iff_iff, hs i hi]
  simp

theorem mem_pending_write {w : Word} {s : Sector} {r : T × ℕ} :
    r ∈ pending ((t, .write (.map w) s) :: log) ↔
      r ∈ pending log ∧ (r.1 ≠ t ∨ (diskMap s).bit r.2 = false) := by
  rw [pending, List.mem_filter, decide_eq_true_iff]

/-- A copy is written back that has not changed. -/
theorem GrowthInv.writeUnchanged (hI : GrowthInv x h first φ st log) {l : List ℕ} {s : Sector}
    (hφ : φ t = .holding l s) (w : Word) :
    GrowthInv x h first φ st ((t, .write (.map w) s) :: log) := by
  have ht := hI.phase t
  rw [hφ] at ht
  refine hI.congr rfl rfl rfl ?_ fun _ => rfl
  rw [pending, List.filter_eq_self]
  rintro ⟨u, y⟩ hmem
  rw [decide_eq_true_iff]
  by_cases hu : u = t
  · subst hu
    exact Or.inr (ht.2.2.1 y ((ht.1 y).mp hmem)).2
  · exact Or.inl hu

/-- A copy is written back together with the marks of the sectors that were handed out. -/
theorem GrowthInv.writeBack (hI : GrowthInv x h first φ st log) {l : List ℕ} {s s' : Sector}
    (hφ : φ t = .holding l s) (w : Word) (hcur : st.disk x = s) (hs : Stored s l s')
    (h0 : st'.disk 0 = st.disk 0) (hx : st'.disk x = s') :
    GrowthInv x h first (Function.update φ t .free) st' ((t, .write (.map w) s') :: log) := by
  have ht := hI.phase t
  rw [hφ] at ht
  have hmarked : ∀ y < totalSectors, (diskMap (st.disk x)).bit y = true →
      (diskMap (st'.disk x)).bit y = true := by
    intro y hy hm
    rw [hcur] at hm
    rw [hx, hs y hy]
    exact Or.inl hm
  have hpending : ∀ u y, (u, y) ∈ pending ((t, .write (.map w) s') :: log) ↔
      (u, y) ∈ pending log ∧ u ≠ t := by
    intro u y
    rw [mem_pending_write]
    refine and_congr_right fun hmem => or_iff_left_of_imp fun hclear => ?_
    rintro rfl
    have hy := (ht.1 y).mp hmem
    rw [(hs y (ht.2.2.1 y hy).1).mpr (Or.inr hy)] at hclear
    cases hclear
  refine ⟨by rw [h0, hI.hdr], hI.nodup, hI.clear, ?_, ?_, ?_, ?_⟩
  · intro i hi hm
    exact hmarked i hi (hI.kept i hi hm)
  · intro y hy
    have hlt := (hI.clear y hy).1
    rcases hI.marked y hy with hm | ⟨u, hu⟩
    · exact Or.inl (hmarked y hlt hm)
    · by_cases hut : u = t
      · subst hut
        rw [hx, hs y hlt]
        exact Or.inl (Or.inr ((ht.1 y).mp hu))
      · exact Or.inr ⟨u, (hpending u y).mpr ⟨hu, hut⟩⟩
  · intro u v y z hu hv
    exact hI.one u v y z ((hpending u y).mp hu).1 ((hpending v z).mp hv).1
  · intro u
    by_cases hu : u = t
    · rw [hu, Function.update_self]
      intro y hy
      exact ((hpending t y).mp hy).2 rfl
    · have hphase := hI.phase u
      have hsame : ∀ y, (u, y) ∈ pending ((t, .write (.map w) s') :: log) ↔
          (u, y) ∈ pending log := fun y => (hpending u y).trans (and_iff_left hu)
      rw [Function.update_of_ne hu]
      cases hφu : φ u with
      | free =>
        rw [hφu] at hphase
        exact fun y hy => hphase y ((hsame y).mp hy)
      | copy v =>
        rw [hφu] at hphase
        exact ⟨fun y hy => hphase.1 y ((hsame y).mp hy), hphase.2⟩
      | holding l' v =>
        rw [hφu] at hphase
        refine ⟨fun y => (hsame y).trans (hphase.1 y), hphase.2.1, hphase.2.2.1, fun hl' => ?_⟩
        -- two threads never hold sectors at the same time, so nothing was added to the map
        have hl : l = [] := by
          rw [List.eq_nil_iff_forall_not_mem]
          intro y hy
          obtain ⟨z, hz⟩ := List.exists_mem_of_ne_nil l' hl'
          exact hu (hI.one u t z y ((hphase.1 z).mpr hz) ((ht.1 y).mpr hy))
        rw [hl] at hs
        rw [hx, hs.sector_eq, ← hcur]
        exact hphase.2.2.2 hl'

theorem readSector_eq {w : Word} {s : Sector} (hr : st.readSector w = some s) :
    s = st.disk w.toNat := by
  unfold Store.readSector at hr
  split_ifs at hr
  exact (Option.some.inj hr).symm

theorem writeSector_eq {w : Word} {s : Sector} (hw : st.writeSector w s = some st') :
    st'.disk = Function.update st.disk w.toNat s := by
  unfold Store.writeSector at hw
  split_ifs at hw
  rw [← Option.some.inj hw]

/-- Every command that the rules allow keeps the invariant. -/
theorem protocol (hx : x ≠ 0) (first : Sector) :
    Protocol (T := T) disk (rules x h) (Orderly x) (GrowthInv x h first) where
  read φ p t a k s hI _ _ hmay hr := by
    obtain rfl := readSector_eq hr
    cases a with
    | file w =>
      refine ⟨φ t, ⟨rfl, fun h0 => ?_⟩, ?_⟩
      · have hw : w.toNat = 0 := h0
        show FileHeader.fetchFrom (p.shared.disk w.toNat) = h
        rw [hw, hI.hdr]
      · rw [Function.update_eq_self]
        exact hI.congr rfl rfl rfl rfl fun _ => rfl
    | map w =>
      obtain rfl : w.toNat = x := hmay
      exact hI.fetch w
  write φ p t a s k st' hI hprog hguard hmay hw := by
    have hdisk := writeSector_eq hw
    rw [Orderly, hprog] at hguard
    cases a with
    | file w =>
      refine ⟨φ t, rfl, ?_⟩
      rw [Function.update_eq_self]
      refine hI.congr ?_ ?_ rfl rfl fun _ => rfl
      · rw [hdisk]
        exact Function.update_of_ne (Ne.symm hguard.1) _ _
      · rw [hdisk]
        exact Function.update_of_ne (Ne.symm hguard.2) _ _
    | map w =>
      cases hφ : φ t with
      | free =>
        rw [hφ] at hmay
        exact absurd hmay id
      | copy v =>
        rw [hφ] at hmay
        exact absurd hmay id
      | holding l v =>
        rw [hφ] at hmay
        obtain ⟨rfl, hmay⟩ := hmay
        have ht := hI.phase t
        rw [hφ] at ht
        have hcur : p.shared.disk w.toNat = v := Option.some.inj (hguard.symm.trans ht.2.1)
        rcases hmay with hs | ⟨hl, rfl⟩
        · refine ⟨.free, Or.inr ⟨hs, rfl⟩, hI.writeBack hφ w hcur hs ?_ ?_⟩
          · rw [hdisk]
            exact Function.update_of_ne (Ne.symm hx) _ _
          · rw [hdisk]
            exact Function.update_self _ _ _
        · refine ⟨.holding l s, Or.inl ⟨hl, rfl, rfl⟩, ?_⟩
          have hsame : st'.disk = p.shared.disk := by
            rw [hdisk, ← hcur]
            exact Function.update_eq_self _ _
          rw [← hφ, Function.update_eq_self]
          exact (hI.writeUnchanged hφ w).congr (by rw [hsame]) (by rw [hsame]) rfl rfl fun _ => rfl
  memory φ st log f hI hf := hI.congr (by rw [hf]) (by rw [hf]) rfl rfl fun _ => rfl
  note φ p t l k hI hprog hguard hmay := by
    rw [Orderly, hprog] at hguard
    have ht := hI.phase t
    cases hφ : φ t with
    | free =>
      rw [hφ] at hmay
      exact absurd hmay id
    | copy s =>
      rw [hφ] at hmay ht
      refine ⟨.holding l s, rfl, hI.handOut hφ hmay.1 hmay.2 fun hl => ?_⟩
      obtain ⟨hcur, hnone⟩ := hguard hl
      exact ⟨Option.some.inj (hcur.symm.trans ht.2), hnone⟩
    | holding l' s =>
      rw [hφ] at hmay
      have hl : l = [] := by
        by_contra hl
        exact hmay (hI.pending_empty hφ (hguard hl).2)
      refine ⟨.holding l' s, ⟨hl, rfl⟩, ?_⟩
      rw [← hφ, Function.update_eq_self, hl]
      exact hI.congr rfl rfl rfl rfl fun _ => rfl

end Nachos.FreeMapProtocol
