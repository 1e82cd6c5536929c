import Nachos.LoadedFrames
import Nachos.LoadedSlots

/-!
# The two program loaders

With and without `VM` a program finds the bytes of its file in its segments. The loader
that fills swap slots loses the offset in a page that it sees for the first time, so this
needs segments that start with a page or in a page that was loaded before.
-/
namespace Nachos.Loading
open DemandPaging GuardedRuns
open PhysicalFrames (numPhysPages)

variable {A : Type} [DecidableEq A]

/-- The step does not change the private page `k`. -/
def Spares (k : A × ℤ) : Label A → Prop
  | .addPage a vpn _ => (a, vpn) ≠ k
  | .write a vpn _ _ => (a, vpn) ≠ k
  | .removePages a => a ≠ k.1
  | _ => True

theorem flatStep_spares {m m' : Flat A} {l : Label A} {k : A × ℤ} (h : FlatStep m l m')
    (hk : Spares k l) : m' k = m k := by
  cases h with
  | load a vpn p => exact Function.update_of_ne hk.symm _ _
  | reserve a vpn p _ => exact Function.update_of_ne hk.symm _ _
  | write a vpn offset byte p _ => exact Function.update_of_ne hk.symm _ _
  | removePages a => exact if_neg hk.symm
  | _ => rfl

/-- The process finds in a page what the page was made with, whenever it first comes to it. -/
theorem read_of_spared {s t : State A} {m : Flat A} (hs : Paged s m) {k : A × ℤ} {ls : List (Label A)}
    (h : Run Step (fun s l => Fair s l ∧ Spares k l) s ls t) {i : Fin pageSize} {x : UInt8}
    (hx : t.read k.1 k.2 i = some x) : ∃ p, m k = some p ∧ p i = x := by
  obtain ⟨m', ht, hk⟩ := h.invariant (I := fun t => ∃ m', Paged t m' ∧ m' k = m k) ⟨m, hs, rfl⟩
    fun ⟨m₁, hs₁, hk₁⟩ hg hst => by
      obtain ⟨m₂, hflat, hs₂⟩ := hs₁.step hg.1 hst
      exact ⟨m₂, hs₂, (flatStep_spares hflat hg.2).trans hk₁⟩
  unfold State.read at hx
  split_ifs at hx with hres
  exact ⟨_, hk ▸ ht.1.resident k hres, Option.some.inj hx⟩

/-- The first access of the process to the address: the fault finds its page, and in any run of
fair steps in which nobody has changed the page a read gives the byte. -/
def FirstReads (s : State A) (a : A) (x : ℕ) (byte : UInt8) : Prop :=
  storedByte s a x = some byte ∧
    ∀ ls t y, Run Step (fun s l => Fair s l ∧ Spares (a, ((x / pageSize : ℕ) : ℤ)) l) s ls t →
      t.read a (x / pageSize : ℕ) (Fin.ofNat pageSize x) = some y → y = byte

theorem Building.firstReads {s₀ t : State A} {m : Flat A} {a : A} {n x : ℕ} {byte : UInt8}
    (h : Building s₀ a n t m) (hx : storedByte t a x = some byte) : FirstReads t a x byte := by
  refine ⟨hx, fun ls u y hrun hread => ?_⟩
  obtain ⟨p, hp, rfl⟩ := read_of_spared h.paged hrun hread
  rw [h.storedByte_eq, hp, Option.map_some] at hx
  exact Option.some.inj hx

/-- A byte of a segment does not depend on what was there. -/
theorem contents_of_has {file : List UInt8} {h : NoffHeader} {n x : ℕ} (hcode : h.code.Fits file n)
    (hinit : h.initData.Fits file n) (habove : h.Above) (hx : h.code.Has x ∨ h.initData.Has x) :
    h.InFile file x ∧ (h.code.Covers x ∨ h.initData.Covers x) ∧
      ∃ byte, ∀ old, contents file h old x = some byte := by
  rcases hx with hx | hx
  · obtain ⟨hin, hc, hlt, hbyte⟩ := contents_code hcode habove hx
    exact ⟨hin, .inl hc, file[h.code.source x], fun old => by
      rw [hbyte, List.getElem?_eq_getElem hlt]⟩
  · obtain ⟨hin, hc, hlt, hbyte⟩ := contents_initData hinit hx
    exact ⟨hin, .inr hc, file[h.initData.source x], fun old => by
      rw [hbyte, List.getElem?_eq_getElem hlt]⟩

/-- After any history of fair steps, a program whose segments start with a page, or in a page that
is there already, reads the same bytes in its segments in both builds. -/
theorem loaders_agree {B : Type} {frames slots : ℕ → Word} {mainMemory : ℤ → Page} {pids : ℕ → ℤ}
    {entries : ℕ → Option (A × ℤ)} {swap : ℕ → Page} {ls : List (Label A)} {s : State A}
    (hist : Run Step Fair (initial frames slots mainMemory pids entries swap) ls s)
    (m : Machine B) (buffer : Page) {a : A} {pid : ℤ} {file : List UInt8} {h : NoffHeader}
    (hread : NoffHeader.read file = some h) (hcode : h.code.Fits file h.numPages)
    (hinit : h.initData.Fits file h.numPages) (habove : h.Above) (hwhole : h.Whole)
    (hframes : h.numPages ≤ numPhysPages ∧ h.numPages ≤ m.memory.freePages.1)
    (hroom : Room s a pid h.numPages) :
    ∃ table m' t buffer', m.newSpace file = some (table, m') ∧
      newSpace s buffer a pid file = some (t, buffer') ∧
      ∀ x, h.code.Has x ∨ h.initData.Has x →
        ∃ byte, m'.byteAt table x = some byte ∧ FirstReads t a x byte := by
  obtain ⟨flat, -, hs⟩ := hist.simulation
    (initial_paged frames slots mainMemory pids entries swap) fun hs hg hst => hs.step hg hst
  obtain ⟨table, m', hm'⟩ := Machine.newSpace_returns hread hcode hinit hframes
  obtain ⟨t, buffer', ht⟩ := newSpace_returns hs hread hcode hinit hroom buffer
  obtain ⟨-, -, hbytes⟩ := Machine.newSpace_spec hread hcode hinit hm'
  obtain ⟨m₂, hb, hstored, -⟩ := newSpace_spec hs hread hcode hinit hwhole ht
  refine ⟨table, m', t, buffer', hm', ht, fun x hx => ?_⟩
  obtain ⟨hin, hcov, byte, hbyte⟩ := contents_of_has hcode hinit habove hx
  exact ⟨byte, (hbytes x hin).trans (hbyte _), hb.firstReads ((hstored x hin hcov).trans (hbyte _))⟩

theorem zeroed_room : Room zeroed false 0 9 := by
  refine ⟨List.not_mem_nil, List.not_mem_nil, fun b hb => absurd hb List.not_mem_nil, ?_⟩
  decide +kernel

/-- Code and data that meet in a page. -/
theorem loaders_agree_shared_page :
    ∃ table m' t buffer', blank.newSpace (executable (0, 40, 4) (4, 44, 2) [1, 2, 3, 4, 5, 6]) =
        some (table, m') ∧
      newSpace zeroed (fun _ => 0) false 0 (executable (0, 40, 4) (4, 44, 2) [1, 2, 3, 4, 5, 6]) =
        some (t, buffer') ∧
      ∃ byte, m'.byteAt table 5 = some byte ∧ FirstReads t false 5 byte := by
  have hread : NoffHeader.read (executable (0, 40, 4) (4, 44, 2) [1, 2, 3, 4, 5, 6]) =
      some ⟨⟨0, 40, 4⟩, ⟨4, 44, 2⟩, ⟨0, 0, 0⟩⟩ := by decide +kernel
  obtain ⟨table, m', t, buffer', hm', ht, hagree⟩ := loaders_agree (.nil zeroed) blank (fun _ => 0)
    hread (by constructor <;> decide) (by constructor <;> decide)
    (fun _ _ => by decide) ⟨fun _ => by decide, fun _ => by decide⟩ (by decide +kernel) zeroed_room
  exact ⟨table, m', t, buffer', hm', ht, hagree 5 (by decide)⟩

/-- Code that starts at address 4. -/
def skewed : List UInt8 := executable (4, 40, 4) (0, 0, 0) [1, 2, 3, 4]

theorem skewed_loads :
    (blank.newSpace skewed).any (fun r => r.2.byteAt r.1 4 == some 1) = true ∧
      (newSpace zeroed (fun _ => 0) false 0 skewed).any (fun r =>
        (step r.1 (.fault false 0)).any fun u => u.read false 0 4 == some 0) = true := by
  decide +kernel

/-- The page is not in the swap file yet, so the buffer goes to its slot without the offset. -/
theorem loaders_disagree : ∃ h, NoffHeader.read skewed = some h ∧ h.code.Fits skewed h.numPages ∧
    h.initData.size = 0 ∧ h.code.Has 4 ∧
    ∃ table m' t buffer' u, blank.newSpace skewed = some (table, m') ∧
      newSpace zeroed (fun _ => 0) false 0 skewed = some (t, buffer') ∧ Step t (.fault false 0) u ∧
      m'.byteAt table 4 = some 1 ∧ u.read false 0 4 = some 0 := by
  have hread : NoffHeader.read skewed = some ⟨⟨4, 40, 4⟩, ⟨0, 0, 0⟩, ⟨0, 0, 0⟩⟩ := by decide +kernel
  obtain ⟨⟨table, m'⟩, hm', hbyte⟩ := (Option.any_eq_true _ _).mp skewed_loads.1
  obtain ⟨⟨t, buffer'⟩, ht, hrest⟩ := (Option.any_eq_true _ _).mp skewed_loads.2
  obtain ⟨u, hu, hzero⟩ := (Option.any_eq_true _ _).mp hrest
  refine ⟨_, hread, by constructor <;> decide, rfl, by decide, table, m', t, buffer', u, hm', ht, hu, ?_⟩
  exact ⟨eq_of_beq hbyte, eq_of_beq hzero⟩

end Nachos.Loading
