import Nachos.FreeMapProtocol

/-!
# Files that grow at the same time

Processes write to open files, each under the lock of its own file, while another one creates
a file. Their programs keep to the rules for the free map, so in every run whose steps are
orderly no sector goes to two files. `Create` holds sectors when it writes the directory; if the
directory has to grow, this is an operation of its own inside of the first one.

Nothing in the code makes the steps orderly. With the timer running, a thread can lose the
processor between its read and its write of the map.
-/
namespace Nachos.ConcurrentGrowth
open ByteMemory CStrings FileSystem ThreadPrograms FilePrograms GuardedRuns FreeMapProtocol

variable {x : ℕ} {h : FileHeader} {st : Store}

theorem mem_newlyMarked {m m' : BitMap} {y : ℕ} :
    y ∈ newlyMarked m m' ↔ y < totalSectors ∧ m.bit y = false ∧ m'.bit y = true := by
  simp [newlyMarked]

theorem newlyMarked_nodup (m m' : BitMap) : (newlyMarked m m').Nodup :=
  List.nodup_range.filter _

theorem newlyMarked_clear {s : Sector} {m : BitMap} {y : ℕ} (hy : y ∈ newlyMarked (diskMap s) m) :
    y < totalSectors ∧ (diskMap s).bit y = false :=
  ⟨(mem_newlyMarked.mp hy).1, (mem_newlyMarked.mp hy).2.1⟩

theorem stored_newlyMarked {s : Sector} {m : BitMap}
    (hm : ∀ i, (diskMap s).bit i = true → m.bit i = true) :
    Stored s (newlyMarked (diskMap s) m) (mapSector m) := by
  intro i hi
  rw [bit_diskMap_mapSector m hi, mem_newlyMarked]
  refine ⟨fun hset => ?_, fun hset => hset.elim (hm i) fun hnew => hnew.2.2⟩
  by_cases hold : (diskMap s).bit i = true
  · exact Or.inl hold
  · exact Or.inr ⟨hi, Bool.eq_false_of_not_eq_true hold, hset⟩

/-- A map with sectors of its own is not the one that it was made from. -/
theorem sector_ne {s s' : Sector} {l : List ℕ} (hs : Stored s l s') (hl : l ≠ [])
    (hclear : ∀ y ∈ l, y < totalSectors ∧ (diskMap s).bit y = false) : s' ≠ s := by
  rintro rfl
  obtain ⟨y, hy⟩ := List.exists_mem_of_ne_nil l hl
  have hset := (hs y (hclear y hy).1).mpr (Or.inr hy)
  rw [(hclear y hy).2] at hset
  cases hset

/-- Phases that an operation on the free map comes back to: it fetches the map, hands out sectors
and writes the map with their marks. -/
structure Steady (x : ℕ) (h : FileHeader) (K : Phase → Prop) : Prop where
  fetch {p : Phase} {w : Word} {s : Sector} {p₁ : Phase} : K p →
    (rules x h).read p (.map w) s p₁ → K p₁
  handOut {p : Phase} {w : Word} {s : Sector} {p₁ : Phase} (m : BitMap) : K p →
    (rules x h).read p (.map w) s p₁ → (rules x h).mayNote p₁ (newlyMarked (diskMap s) m)
  store {p : Phase} {w : Word} {s : Sector} {p₁ p₂ : Phase} {m : BitMap} : K p →
    (rules x h).read p (.map w) s p₁ → (∀ i, (diskMap s).bit i = true → m.bit i = true) →
    (rules x h).note p₁ (newlyMarked (diskMap s) m) p₂ → ∀ w' : Word, w'.toNat = x →
    (rules x h).mayWrite p₂ (.map w') (mapSector m) ∧
      ∀ p₃, (rules x h).write p₂ (.map w') (mapSector m) p₃ → K p₃

/-- No sectors are held. -/
def Quiet : Phase → Prop
  | .holding _ _ => False
  | _ => True

theorem read_quiet {p p₁ : Phase} {w : Word} {s : Sector} (hp : Quiet p)
    (hr : (rules x h).read p (.map w) s p₁) : p₁ = .copy s := by
  cases p with
  | free => exact hr
  | copy s => exact hr
  | holding l s => exact absurd hp id

/-- After an operation of its own the thread holds nothing. -/
theorem steady_quiet : Steady x h Quiet where
  fetch hp hr := by
    rw [read_quiet hp hr]
    trivial
  handOut m hp hr := by
    rw [read_quiet hp hr]
    exact ⟨newlyMarked_nodup _ _, fun y hy => newlyMarked_clear hy⟩
  store hp hr hm hn w' hw' := by
    rw [read_quiet hp hr] at hn
    obtain rfl := hn
    have hs := stored_newlyMarked hm
    refine ⟨⟨hw', Or.inl hs⟩, ?_⟩
    rintro p₃ (⟨hne, he, -⟩ | ⟨-, rfl⟩)
    · exact absurd he (sector_ne hs hne fun y hy => newlyMarked_clear hy)
    · trivial

/-- Inside of an operation that holds sectors another one changes nothing. -/
theorem steady_holding {l : List ℕ} {s : Sector} (hl : l ≠ [])
    (hclear : ∀ y ∈ l, y < totalSectors ∧ (diskMap s).bit y = false) :
    Steady x h (· = .holding l s) where
  fetch := by
    rintro p w s' p₁ rfl (⟨he, -⟩ | ⟨-, -, rfl⟩)
    · exact absurd he hl
    · rfl
  handOut := by
    rintro p w s' p₁ m rfl (⟨he, -⟩ | ⟨-, -, rfl⟩)
    · exact absurd he hl
    · exact hl
  store := by
    rintro p w s' p₁ p₂ m rfl hread hm hnote w' hw'
    obtain ⟨he, -⟩ | ⟨-, rfl, rfl⟩ := hread
    · exact absurd he hl
    obtain ⟨hnone, rfl⟩ := hnote
    have hs := stored_newlyMarked hm
    rw [hnone] at hs
    have hsame := hs.sector_eq
    refine ⟨⟨hw', Or.inr ⟨hl, hsame⟩⟩, ?_⟩
    rintro p₃ (⟨-, -, rfl⟩ | ⟨hstored, -⟩)
    · rfl
    · exact absurd hsame (sector_ne hstored hl hclear)

section programs
variable {K : Phase → Prop} {p : Phase}

/-- A change of the memory that leaves the disk alone. -/
theorem wp_change {α : Type} {Q : α → Phase → Prop} {g : Store → Option (α × Store)}
    (hg : ∀ st r, g st = some r → r.2.disk = st.disk ∧ Q r.1 p) :
    wp (rules x h) Q (.transact g) p := by
  refine wp_transact (fun st => ?_) fun st r hr => (hg st r hr).2
  show ((g st).elim st Prod.snd).disk = st.disk
  cases hr : g st with
  | none => rfl
  | some r => exact (hg st r hr).1

theorem wp_byteToSector {Q : Word → Phase → Prop} (f : FileHeader) (offset : ℕ)
    (hQ : ∀ st w, f.byteToSector st offset = some w → Q w p) :
    wp (rules x h) Q (byteToSector f offset) p := by
  refine wp_change fun st r hr => ?_
  obtain ⟨w, hw, rfl⟩ := Option.map_eq_some_iff.mp hr
  exact ⟨rfl, hQ st w hw⟩

theorem wp_readAt (f : FileHeader) (numBytes position : ℕ) (hp : K p) :
    wp (rules x h) (fun _ => K) (readAt .file f numBytes position) p := by
  unfold readAt
  split_ifs
  · exact hp
  all_goals
    refine wp_bind (wp_bind (wp_mapM (fun i p hp => ?_) _ hp))
    refine wp_bind (wp_byteToSector f _ fun st w _ => ⟨trivial, ?_⟩)
    rintro s p' ⟨rfl, -⟩
    exact hp

theorem wp_writeCommon (f : FileHeader) (junk : Memory) (data : List Byte) (position : ℕ)
    (hp : K p) : wp (rules x h) (fun _ => K) (writeCommon .file f junk data position) p := by
  have hend : ∀ (partly : Prop) [Decidable partly] (position : ℕ) {p : Phase}, K p →
      wp (rules x h) (fun _ => K) (readEnd partly f position) p := by
    intro partly _ position p hp
    unfold readEnd
    split_ifs
    · exact wp_readAt f _ _ hp
    · exact hp
  refine wp_bind (wp_bind (wp_mono (hend _ _ hp) fun a p hp => ?_))
  refine wp_bind (wp_mono (hend _ _ hp) fun z p hp => ?_)
  refine wp_forM (fun i p hp => ?_) _ hp
  refine wp_bind (wp_byteToSector f _ fun st w _ => ⟨trivial, ?_⟩)
  rintro p' rfl
  exact hp

/-- The free map is fetched by one read. -/
theorem wp_fetchFreeMap {f : FileHeader} (hf : MapFile f x) {Q : BitMap → Phase → Prop}
    (hQ : ∀ w s p', (rules x h).read p (.map w) s p' → Q (diskMap s) p') :
    wp (rules x h) Q (FilePrograms.fetchFreeMap f) p := by
  have hlen : ¬((freeMapFileSize : ℕ) = 0 ∨ f.fileLength ≤ (0 : ℕ)) := by
    rw [hf.fileLength]
    decide
  have hn : ¬((0 : ℕ) + (freeMapFileSize : ℕ) : ℤ) > f.fileLength := by
    rw [hf.fileLength]
    decide
  unfold FilePrograms.fetchFreeMap FilePrograms.readAt
  rw [if_neg hlen]
  simp only [if_neg hn]
  refine wp_bind (wp_bind (wp_bind ?_))
  show wp _ _ (List.mapM _ [0]) p
  rw [List.mapM_cons, List.mapM_nil]
  refine wp_bind (wp_bind (wp_byteToSector f _ fun st w hw => ⟨?_, ?_⟩))
  · obtain rfl := Option.some.inj ((FileHeader.byteToSector_zero st f).symm.trans hw)
    exact hf.first
  · intro s p' hs
    have hbytes : bytesAt (fun p => (([s] : List Sector)[p / sectorSize]?.map
        fun s => s.byte p).getD 0) 0 freeMapFileSize = bytesAt s.byte 0 freeMapFileSize := by
      refine bytesAt_congr fun k hk => ?_
      have hzero : (0 + k) / sectorSize = 0 := Nat.div_eq_of_lt (by rwa [Nat.zero_add])
      rw [hzero]
      rfl
    have hdone := hQ w s p' hs
    rw [diskMap, ← hbytes] at hdone
    exact hdone

/-- It is written back by one write. -/
theorem wp_writeMap {f : FileHeader} (hf : MapFile f x) (depth : ℕ) (junk : Junk) (m : BitMap)
    {Q : ℕ × FileHeader → Phase → Prop}
    (hwrite : ∀ w : Word, w.toNat = x → (rules x h).mayWrite p (.map w) (mapSector m) ∧
      ∀ r p', (rules x h).write p (.map w) (mapSector m) p' → Q r p') :
    wp (rules x h) Q (FilePrograms.writeAt depth .map f junk (freeMapBytes m) 0) p := by
  cases depth with
  | zero => trivial
  | succ depth =>
    have hlen : (freeMapBytes m).length = 128 := bytesAt_length _ _ _
    have hin : ((0 : ℕ) : ℤ) + (128 : ℕ) ≤ f.fileLength := by
      rw [hf.fileLength]
      decide
    unfold FilePrograms.writeAt
    refine wp_bind (wp_byteToSector f _ fun st w hw => ?_)
    obtain rfl := Option.some.inj ((FileHeader.byteToSector_zero st f).symm.trans hw)
    have hover := hf.not_oversized
    unfold Oversized at hover
    rw [hlen, if_neg hover, if_pos hin]
    unfold writeCommon writeBuffer readEnd
    simp only [hlen]
    refine wp_bind (wp_bind ?_)
    rw [if_neg (by decide), if_neg (by decide)]
    show wp _ _ (List.forM [0] _) p
    refine wp_bind (wp_bind (wp_byteToSector f _ fun st w hw => ?_))
    obtain rfl := Option.some.inj ((FileHeader.byteToSector_zero st f).symm.trans hw)
    have hsector : (Sector.ofMemory fun o => overlay (overlay (overlay (junk.buffer 0) 0 [])
        ((0 - 0) * sectorSize) []) 0 (freeMapBytes m) (0 * sectorSize + o)) = mapSector m := by
      simp only [overlay_nil, ofMemory_freeMapBytes]
    obtain ⟨hmay, hQ⟩ := hwrite _ hf.first
    exact ⟨hsector ▸ hmay, fun p' hp' => hQ _ p' (hsector ▸ hp')⟩

theorem wp_openFile (hp : K p) : wp (rules x h) (fun file p' => file.hdr = h ∧ K p')
    (FilePrograms.openFile 0) p := by
  refine wp_bind ⟨trivial, ?_⟩
  rintro s p' ⟨rfl, hs⟩
  exact ⟨hs rfl, hp⟩

theorem wp_extendWith (hh : MapFile h x) (hK : Steady x h K) {depth : ℕ} {junk' : Junk}
    (f : FileHeader) (junk : Junk) (n bytes : ℤ) (hp : K p) :
    wp (rules x h) (fun _ => K) (FilePrograms.extendWith (fun f l => do
      let _ ← FilePrograms.writeAt depth .map f junk' l 0
      pure ()) f junk n bytes) p := by
  refine wp_bind (wp_mono (wp_openFile hp) ?_)
  rintro file p ⟨hfile, hp⟩
  rw [hfile]
  refine wp_bind (wp_fetchFreeMap hh fun w s p₁ hread => ?_)
  refine wp_bind (wp_change fun st r hr => ?_)
  obtain ⟨⟨answer, c⟩, hext, rfl⟩ := Option.map_eq_some_iff.mp hr
  have hdraws := Allocation.extendFile_draws hext
  refine ⟨hdraws.disk, ?_⟩
  cases answer with
  | false => exact hK.fetch hp hread
  | true =>
    refine wp_bind ⟨hK.handOut _ hp hread, fun p₂ hnote => ?_⟩
    have hstore := hK.store hp hread (fun i hi => hdraws.bit (diskMap_numBits s) hi) hnote
    refine wp_bind (wp_bind (wp_writeMap hh _ _ _ fun w hw => ⟨(hstore w hw).1, ?_⟩))
    intro r p₃ hwrite
    exact (hstore w hw).2 p₃ hwrite

theorem wp_writeAt (hh : MapFile h x) (hK : Steady x h K) (depth : ℕ) (f : FileHeader)
    (junk : Junk) (data : List Byte) (position : ℕ) (hp : K p) :
    wp (rules x h) (fun _ => K) (FilePrograms.writeAt depth .file f junk data position) p := by
  have hcommon : ∀ (f : FileHeader) (data : List Byte) (position n : ℕ) {p : Phase}, K p →
      wp (rules x h) (fun _ => K) (do
        writeCommon .file f (junk.buffer 0) data position
        pure (n, f)) p := by
    intro f data position n p hp
    exact wp_bind (wp_mono (wp_writeCommon f _ data position hp) fun _ _ hp => hp)
  cases depth with
  | zero => trivial
  | succ depth =>
    unfold FilePrograms.writeAt
    refine wp_bind (wp_byteToSector f _ fun st w _ => ?_)
    split_ifs
    · exact hp
    · exact hcommon _ _ _ _ hp
    · refine wp_bind (wp_mono (wp_extendWith hh hK f junk _ _ hp) fun r p hp => ?_)
      split_ifs
      · exact hcommon _ _ _ _ hp
      · exact hp
    · trivial
    · refine wp_bind (wp_mono (wp_extendWith hh hK f junk _ _ hp) fun r p hp => ?_)
      split_ifs
      · exact hcommon _ _ _ _ hp
      · exact hp

/-- `Create` from the fetch of the free map on; its directory may grow in between. -/
theorem wp_create (hh : MapFile h x) (depth : ℕ) (v : Mounted) (hv : MapFile v.freeMapFile.hdr x)
    (name : CString) (initialSize : Word) (fresh : Fresh) (hp : Quiet p) :
    wp (rules x h) (fun _ => Quiet) (create depth v name initialSize fresh) p := by
  refine wp_bind (wp_bind (wp_mono (wp_readAt _ _ _ hp) fun l p hp => ?_))
  generalize (Directory.create fresh.table numDirEntries).fetchFrom l = dir
  show wp _ _ (if _ then _ else _) p
  split_ifs
  · exact hp
  refine wp_bind (wp_fetchFreeMap hv fun w s p₁ hread => ?_)
  obtain rfl := read_quiet hp hread
  generalize hm : diskMap s = m
  have hbits : m.numBits = totalSectors := hm ▸ diskMap_numBits s
  dsimp only
  generalize dir.add fresh.grown name.memory (findSector m) = added
  split_ifs with hfull
  · trivial
  · trivial
  refine wp_bind (wp_change fun st r hr => ?_)
  obtain ⟨⟨answer, c⟩, halloc, rfl⟩ := Option.map_eq_some_iff.mp hr
  cases answer with
  | false =>
    rw [Allocation.allocate_false halloc]
    exact ⟨rfl, trivial⟩
  | true =>
    have hdraws := Allocation.allocate_draws halloc
    have htaken := Taken.find hbits
    have hgrows : ∀ i, m.bit i = true → c.freeMap.bit i = true := fun i hi =>
      hdraws.bit (htaken.numBits.trans hbits) ((htaken.bit_iff i).mpr (Or.inl hi))
    -- the sector of the header is always among those handed out
    have hne : newlyMarked m c.freeMap ≠ [] := by
      rcases m.find_cases with ⟨i, hi, hclear, -, hfind⟩ | ⟨-, hfind⟩
      · refine List.ne_nil_of_mem (a := i) (mem_newlyMarked.mpr ⟨hbits ▸ hi, hclear, ?_⟩)
        refine hdraws.bit (htaken.numBits.trans hbits) ?_
        rw [hfind]
        simp
      · rw [hfind] at hfull
        exact absurd rfl hfull
    subst hm
    have hs := stored_newlyMarked hgrows
    have hclear : ∀ y ∈ newlyMarked (diskMap s) c.freeMap,
        y < totalSectors ∧ (diskMap s).bit y = false := fun y hy => newlyMarked_clear hy
    refine ⟨hdraws.disk, wp_bind ⟨⟨newlyMarked_nodup _ _, hclear⟩, ?_⟩⟩
    rintro p₂ rfl
    refine wp_bind ⟨trivial, ?_⟩
    rintro p₃ rfl
    refine wp_bind (wp_mono (wp_writeAt hh (steady_holding hne hclear) _ _ _ _ _ rfl) ?_)
    rintro d p₄ rfl
    refine wp_bind (wp_writeMap hv _ _ _ fun w hw => ⟨⟨hw, Or.inl hs⟩, ?_⟩)
    rintro r p₅ (⟨-, he, -⟩ | ⟨-, rfl⟩)
    · exact absurd he (sector_ne hs hne hclear)
    · trivial

end programs

/-! ## Processes -/

/-- Processes that write to open files, each to its own, and one that creates a file. -/
inductive Process (W : Type) where
  | writer (w : W)
  | creator
  deriving DecidableEq

/-- The `Write` calls of a process to its file. -/
def writer (depth : ℕ) (f : OpenFile) (writes : List (Junk × List Byte)) : FileProg Unit := do
  let _ ← writes.foldlM (fun f w => do
    let r ← write depth f w.1 w.2
    pure r.2) f
  pure ()

def creator (depth : ℕ) (v : Mounted) (name : CString) (initialSize : Word) (fresh : Fresh) :
    FileProg Unit := do
  let _ ← create depth v name initialSize fresh
  pure ()

def start {W : Type} (depth : ℕ) (st : Store) (file : W → OpenFile)
    (writes : W → List (Junk × List Byte)) (v : Mounted) (name : CString) (initialSize : Word)
    (fresh : Fresh) : FilePool (Process W) where
  shared := st
  prog
    | .writer w => writer depth (file w) (writes w)
    | .creator => creator depth v name initialSize fresh
  log := []

theorem wp_writer {h : FileHeader} (hh : MapFile h x) (depth : ℕ) (f : OpenFile)
    (writes : List (Junk × List Byte)) :
    wp (rules x h) (fun _ => Quiet) (writer depth f writes) .free := by
  refine wp_bind (wp_foldlM (fun f w p hp => ?_) writes f (show Quiet .free from trivial))
  refine wp_bind (wp_bind (wp_mono (wp_writeAt hh steady_quiet _ _ _ _ _ hp) fun r p hp => ?_))
  exact hp

/-- The writers extend their files while a file is created, in any order of their disk accesses, and
the free map is kept in order. Then no sector is handed out twice, none that was in use before is
handed out, and each one is marked on disk once its thread is done. -/
theorem growth_disjoint {W : Type} [DecidableEq W] {depth : ℕ} {file : W → OpenFile}
    {writes : W → List (Junk × List Byte)} {v : Mounted} {name : CString} {initialSize : Word}
    {fresh : Fresh} {ts : List (Process W)} {q : FilePool (Process W)}
    (hmap : MapFile (FileHeader.fetchFrom (st.disk 0)) x) (hv : MapFile v.freeMapFile.hdr x)
    (hx : x ≠ 0)
    (hrun : Run (Step disk) (Orderly x) (start depth st file writes v name initialSize fresh)
      ts q) :
    (handed q.log).Nodup ∧
    (∀ y ∈ handed q.log, y < totalSectors ∧ (diskMap (st.disk x)).bit y = false) ∧
    ∀ y ∈ handed q.log, (diskMap (q.shared.disk x)).bit y = true ∨
      ∃ t, (t, y) ∈ pending q.log ∧ (q.prog t).isDone = false := by
  have hstart : (start depth st file writes v name initialSize fresh).Keeps
      (rules x (FileHeader.fetchFrom (st.disk 0))) Quiet
      (GrowthInv x (FileHeader.fetchFrom (st.disk 0)) (st.disk x)) := by
    refine ⟨fun _ => .free, ⟨rfl, List.nodup_nil, ?_, fun _ _ hm => hm, ?_, ?_, ?_⟩, fun t => ?_⟩
    · exact fun y hy => absurd hy List.not_mem_nil
    · exact fun y hy => absurd hy List.not_mem_nil
    · exact fun _ _ _ _ hy => absurd hy List.not_mem_nil
    · exact fun _ _ hy => absurd hy List.not_mem_nil
    · cases t with
      | writer w => exact wp_writer hmap depth (file w) (writes w)
      | creator =>
        exact wp_bind (wp_mono (wp_create hmap depth v hv name initialSize fresh trivial)
          fun _ _ hp => hp)
  obtain ⟨φ, hI, hwp⟩ := (protocol hx (st.disk x)).run hstart hrun
  refine ⟨hI.nodup, hI.clear, fun y hy => (hI.marked y hy).imp id ?_⟩
  rintro ⟨t, ht⟩
  refine ⟨t, ht, Bool.eq_false_iff.mpr fun hdone => ?_⟩
  obtain ⟨u, hu⟩ := Prog.eq_done hdone
  have hquiet := hwp t
  rw [hu] at hquiet
  have hphase := hI.phase t
  cases hφ : φ t with
  | free =>
    rw [hφ] at hphase
    exact hphase y ht
  | copy s =>
    rw [hφ] at hphase
    exact hphase.1 y ht
  | holding l s =>
    rw [hφ] at hquiet
    exact hquiet

/-- A disk with the free map in sector 2. The files have 128 bytes each, in the sectors 7 and 8. -/
def sampleStore : Store where
  disk x :=
    if x = 0 then FileHeader.writeBack ⟨128, 1, fun _ => 2, fun _ => 0, fun _ => 0⟩
    else fun i => if x = 2 then if i = 0 then 159 else if i = 1 then 1 else 0 else 0
  blocks _ := none
  next := 0
  handOn := id

def sampleJunk : Junk := ⟨fun _ _ => 0, fun _ _ => 0⟩

def sampleFresh : Fresh :=
  ⟨fun _ => 0, fun _ => 0, ⟨0, 0, fun _ => 0, fun _ => 0, fun _ => 0⟩,
    ⟨0, 0, fun _ => 0, fun _ => 0, fun _ => 0⟩, fun _ _ => 0, sampleJunk, sampleJunk⟩

/-- The first file grows by one sector, the second by two. -/
def samplePool : FilePool (Process Bool) :=
  start 2 sampleStore
    (fun w => ⟨⟨128, 1, fun _ => if w then 8 else 7, fun _ => 0, fun _ => 0⟩, 128⟩)
    (fun w => [(sampleJunk, List.replicate (if w then 256 else 128) 1)])
    ⟨⟨⟨128, 1, fun _ => 2, fun _ => 0, fun _ => 0⟩, 0⟩,
      ⟨⟨200, 2, fun i => if i = 0 then 3 else 4, fun _ => 0, fun _ => 0⟩, 0⟩⟩
    ⟨[65], by decide⟩ 10 sampleFresh

/-- The first writer writes the free map back before the second one reads it. -/
theorem growth_disjoint_in_turn : ∃ q, Run (Step disk) (Orderly 2) samplePool
    (List.replicate 9 (.writer false) ++ List.replicate 6 (.writer true)) q ∧
    handed q.log = [6, 9, 5] ∧ (handed q.log).Nodup := by
  have hmap : MapFile ⟨128, 1, fun _ => 2, fun _ => 0, fun _ => 0⟩ 2 := ⟨rfl, rfl, by decide⟩
  obtain ⟨q, hrun, hq⟩ := exists_guarded_run_of_exec (Pool.step disk) (Orderly 2) samplePool
    (List.replicate 9 (.writer false) ++ List.replicate 6 (.writer true))
    (fun q => handed q.log = [6, 9, 5]) (by decide +kernel)
  refine ⟨q, hrun, of_decide_eq_true hq, (growth_disjoint ?_ hmap (by decide) hrun).1⟩
  exact (FileHeader.fetchFrom_writeBack _).symm ▸ hmap

/-- The first writer has read the free map when the second one takes two sectors, writes the map
back and is done. The first one then takes one of them from its old copy and undoes the mark of the
other. -/
theorem sector_handed_out_twice : ∃ q, Run (Step disk) Free samplePool
    (List.replicate 4 (.writer false) ++ List.replicate 13 (.writer true) ++
      List.replicate 7 (.writer false)) q ∧
    handed q.log = [5, 5, 6] ∧ (diskMap (q.shared.disk 2)).bit 6 = false ∧
      ∀ w, (q.prog (.writer w)).isDone = true := by
  obtain ⟨q, hrun, hq⟩ := exists_run_of_exec (Pool.step disk) samplePool
    (List.replicate 4 (.writer false) ++ List.replicate 13 (.writer true) ++
      List.replicate 7 (.writer false))
    (fun q => handed q.log = [5, 5, 6] ∧ (diskMap (q.shared.disk 2)).bit 6 = false ∧
      ∀ w, (q.prog (.writer w)).isDone = true) (by decide +kernel)
  exact ⟨q, hrun, of_decide_eq_true hq⟩

end Nachos.ConcurrentGrowth
