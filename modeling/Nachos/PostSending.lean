import Nachos.DeviceCalls
import Nachos.Packets

/-!
# Sending mail

`PostOffice::Send` of `network/post.cc` over `Network::Send` and `Network::SendDone` of
`machine/network.cc`. How long the interrupt takes that says that the packet was sent is
left open. The calls run on the kernel of `KernelThreads` together with threads that do
anything else, the postal worker and the receivers included, except that they cannot use
`sendLock` and `messageSent`.
-/
namespace Nachos.PostSending
open GuardedRuns KernelThreads DeviceCalls Packets ByteMemory

/-- `pending` is the number of scheduled `NetworkSendDone`, `socket` what was given to
`SendToSocket`. -/
structure Network where
  sendBusy : Bool
  pending : ℕ
  socket : List Wire

/-- How far a thread has got in `Send`: at the `Acquire`, at the `P`, in `P` or back from it. -/
inductive Point where
  | outside
  | acquire (p : Parcel)
  | requested
  | waits

inductive Event (T : Type*) where
  | put (t : T) (m : Message) (lost : Bool)
  | sendDone
  | returned (t : T)
  deriving DecidableEq, Repr

structure State (T S L C : Type*) where
  kernel : Kernel T S L C
  network : Network
  point : T → Point
  log : List (Event T)
  failed : Bool

/-- `lost` is the outcome of the test of `Random()`. -/
inductive Call (T S L C : Type*) where
  | send (p : Parcel)
  | goOn (lost : Bool)
  | sendDone
  | other (a : Label T S L C)

/-- `Network::Send`. `sendBusy` is tested here but is set nowhere. -/
def Network.send (ident : BitVec 32) (n : Network) (hdr : Header) (data buffer : Memory)
    (lost : Bool) : Option Network :=
  if n.sendBusy = false ∧ 0 < hdr.length.toNat ∧ hdr.length.toNat ≤ maxPacketSize ∧
      hdr.fromAddr = ident then
    some { n with
      pending := n.pending + 1
      socket := if lost then n.socket else n.socket ++ [wire hdr data buffer] }
  else none

def Network.sendDone (n : Network) : Network :=
  { n with sendBusy := false, pending := n.pending - 1 }

variable {T S L C : Type*} [DecidableEq T] [DecidableEq S] [DecidableEq L] [DecidableEq C]

namespace State
variable (netAddr : BitVec 32) (numBoxes : ℕ) (sendLock : L) (messageSent : S)
  (σ : State T S L C)

/-- A call of the kernel by `t`, which is then at `p`. -/
def call (t : T) (p : Point) (a : Label T S L C) : Option (State T S L C) :=
  (σ.kernel.step a).map fun k => { σ with kernel := k, point := Function.update σ.point t p }

/-- `Send` up to the `Acquire` -/
def enter (p : Parcel) : Option (State T S L C) :=
  match σ.kernel.currentThread with
  | none => none
  | some t =>
    match σ.kernel.cont t, σ.point t with
    | .user, .outside =>
      if p.Legal numBoxes then σ.call t (.acquire p) (.acquire sendLock)
      else some { σ with failed := true }
    | _, _ => none

/-- The running thread goes on in `Send`. -/
def goOn (lost : Bool) : Option (State T S L C) :=
  match σ.kernel.currentThread with
  | none => none
  | some t =>
    match σ.kernel.cont t, σ.point t with
    | .user, .acquire p =>
      match σ.network.send netAddr (p.header netAddr) p.buffer p.wireBuffer lost with
      | none => some { σ with failed := true }
      | some n => some { σ with
          network := n
          point := Function.update σ.point t .requested
          log := .put t (p.message netAddr) lost :: σ.log }
    | .user, .requested => σ.call t .waits (.p messageSent)
    | .user, .waits => { σ with log := .returned t :: σ.log }.call t .outside (.release sendLock)
    | _, _ => none

/-- `Network::SendDone` and `PostOffice::PacketSent` -/
def sendDone : Option (State T S L C) :=
  if σ.network.pending = 0 then none
  else (σ.kernel.step (.handlerV messageSent)).map fun k => { σ with
    kernel := k
    network := σ.network.sendDone
    log := .sendDone :: σ.log }

/-- Steps that have nothing to do with `Send`. -/
def allowed (a : Label T S L C) : Bool :=
  !usesDevice sendLock messageSent a &&
    match a with
    | .yield => true
    | .handlerV _ => true
    | .idleReturn => true
    | _ =>
      match σ.kernel.currentThread with
      | none => false
      | some t =>
        match σ.point t with
        | .outside => true
        | _ => false

def step (a : Call T S L C) : Option (State T S L C) :=
  if σ.failed then none
  else
    match a with
    | .send p => σ.enter numBoxes sendLock p
    | .goOn lost => σ.goOn netAddr sendLock messageSent lost
    | .sendDone => σ.sendDone messageSent
    | .other a =>
      if σ.allowed sendLock messageSent a then (σ.kernel.step a).map fun k => { σ with kernel := k }
      else none

end State

def Step (netAddr : BitVec 32) (numBoxes : ℕ) (sendLock : L) (messageSent : S)
    (σ : State T S L C) (a : Call T S L C) (σ' : State T S L C) : Prop :=
  σ.step netAddr numBoxes sendLock messageSent a = some σ'

/-- The messages are not too long and are for boxes that there are. -/
def LegalSends (numBoxes : ℕ) (_ : State T S L C) : Call T S L C → Prop
  | .send p => p.Legal numBoxes
  | _ => True

instance (numBoxes : ℕ) (σ : State T S L C) :
    (a : Call T S L C) → Decidable (LegalSends numBoxes σ a)
  | .send p => inferInstanceAs (Decidable (p.Legal numBoxes))
  | .goOn _ => .isTrue trivial
  | .sendDone => .isTrue trivial
  | .other _ => .isTrue trivial

/-- A new post office; `messageSent` is constructed with 0. -/
def start (main : T) (value : S → ℤ) (currentTh : L → Option T) (messageSent : S) :
    State T S L C where
  kernel := initial main (Function.update value messageSent 0) currentTh
  network := ⟨false, 0, []⟩
  point := fun _ => .outside
  log := []
  failed := false

/-- One send after the other: a packet is put on the network, the interrupt comes, the call
of `Send` returns. -/
inductive Serial : List (Event T) → Service T → Prop
  | nil : Serial [] .idle
  | put {t : T} {m : Message} {lost : Bool} {h : List (Event T)} :
      Serial h .idle → Serial (.put t m lost :: h) (.busy t false)
  | sendDone {t : T} {h : List (Event T)} :
      Serial h (.busy t false) → Serial (.sendDone :: h) (.busy t true)
  | returned {t : T} {h : List (Event T)} :
      Serial h (.busy t true) → Serial (.returned t :: h) .idle

/-- The messages that were sent and not lost, in the order in which they were put on the
network. -/
def sent : List (Event T) → List Message
  | [] => []
  | .put _ m false :: h => sent h ++ [m]
  | _ :: h => sent h

/-- What was sent to a machine. -/
def sentTo (ident : BitVec 32) (log : List (Event T)) : List Message :=
  (sent log).filter fun m => m.pktHdr.toAddr = ident

section runs
variable {netAddr : BitVec 32} {numBoxes : ℕ} {sendLock : L} {messageSent : S}
  {σ σ' : State T S L C} {t : T}

def Point.stage : Point → Stage
  | .outside => .outside
  | .acquire _ => .acquire
  | .requested => .requested
  | .waits => .waits

/-- The number of interrupts that are to come. -/
def unsent : Service T → ℕ
  | .idle => 0
  | .busy _ done => (!done).toNat

structure SendInv (numBoxes : ℕ) (sendLock : L) (messageSent : S) (σ : State T S L C) :
    Prop where
  legal : ∀ t p, σ.point t = .acquire p → p.Legal numBoxes
  running : σ.failed = false
  sendBusy : σ.network.sendBusy = false
  service : ∃ s, Serial σ.log s ∧ Device sendLock messageSent σ.kernel (Point.stage ∘ σ.point) s ∧
    σ.network.pending = unsent s
  socket : σ.network.socket.map Message.ofWire = sent σ.log
  wellFormed : ∀ m ∈ sent σ.log, WellFormed numBoxes m

theorem call_eq {p : Point} {a : Label T S L C} (h : σ.call t p a = some σ') :
    ∃ k', σ.kernel.step a = some k' ∧
      σ' = { σ with kernel := k', point := Function.update σ.point t p } := by
  obtain ⟨k', hk, rfl⟩ := Option.map_eq_some_iff.mp h
  exact ⟨k', hk, rfl⟩

omit [DecidableEq S] in
theorem SendInv.update_acquire (h : SendInv numBoxes sendLock messageSent σ) {p : Point}
    (hp : ∀ q, p = .acquire q → q.Legal numBoxes) (u : T) (q : Parcel)
    (hu : Function.update σ.point t p u = .acquire q) : q.Legal numBoxes := by
  by_cases hut : u = t
  · rw [hut, Function.update_self] at hu
    exact hp q hu
  · rw [Function.update_of_ne hut] at hu
    exact h.legal u q hu

theorem SendInv.enter {p : Parcel} (h : SendInv numBoxes sendLock messageSent σ)
    (hp : p.Legal numBoxes) (hstep : σ.enter numBoxes sendLock p = some σ') :
    SendInv numBoxes sendLock messageSent σ' := by
  unfold State.enter at hstep
  split at hstep
  · cases hstep
  · rename_i t hcur
    split at hstep
    · rename_i hcont hpoint
      rw [if_pos hp] at hstep
      obtain ⟨k', hk, rfl⟩ := call_eq hstep
      obtain ⟨s, hserial, hdevice, hpending⟩ := h.service
      have hdevice' := hdevice.enter hcur hcont (congrArg Point.stage hpoint) hk
      refine ⟨h.update_acquire ?_, h.running, h.sendBusy, ⟨s, hserial, ?_, hpending⟩, h.socket,
        h.wellFormed⟩
      · rintro q hq
        rwa [← Point.acquire.inj hq]
      · rw [Function.comp_update]
        exact hdevice'
    · cases hstep

omit [DecidableEq T] in
theorem network_send {n : Network} {p : Parcel} (hbusy : n.sendBusy = false)
    (hp : p.Legal numBoxes) (lost : Bool) :
    n.send netAddr (p.header netAddr) p.buffer p.wireBuffer lost = some { n with
      pending := n.pending + 1
      socket := if lost then n.socket else n.socket ++ [p.wire netAddr] } := by
  have hlength : (p.header netAddr).length.toNat = headerSize + p.mailHdr.length.toNat :=
    Parcel.header_length hp.1
  have hmax := hp.1
  refine if_pos ⟨hbusy, ?_, ?_, rfl⟩
  · rw [hlength]
    simp only [headerSize]
    omega
  · rw [hlength]
    simp only [maxMailSize] at hmax
    simp only [maxPacketSize, maxWireSize, headerSize] at hmax ⊢
    omega

omit [DecidableEq S] in
/-- The network is idle when a packet is put on it, because whoever waits for the interrupt
holds `sendLock`. -/
theorem SendInv.put (netAddr : BitVec 32) {p : Parcel}
    (h : SendInv numBoxes sendLock messageSent σ)
    (hcont : σ.kernel.cont t = .user) (hpoint : σ.point t = .acquire p) (lost : Bool) :
    ∃ n, σ.network.send netAddr (p.header netAddr) p.buffer p.wireBuffer lost = some n ∧
      SendInv numBoxes sendLock messageSent { σ with
        network := n
        point := Function.update σ.point t .requested
        log := .put t (p.message netAddr) lost :: σ.log } := by
  have hp := h.legal t p hpoint
  obtain ⟨s, hserial, hdevice, hpending⟩ := h.service
  obtain ⟨rfl, hdevice'⟩ := hdevice.request hcont (congrArg Point.stage hpoint)
  refine ⟨_, network_send h.sendBusy hp lost, h.update_acquire (by simp), h.running, h.sendBusy,
    ⟨_, .put hserial, ?_, ?_⟩, ?_, ?_⟩
  · rw [Function.comp_update]
    exact hdevice'
  · simp [hpending, unsent]
  · cases lost with
    | true => exact h.socket
    | false => simp [sent, h.socket, Parcel.ofWire_wire hp.1]
  · cases lost with
    | true => exact h.wellFormed
    | false =>
      intro m hm
      rcases List.mem_append.mp hm with hm | hm
      · exact h.wellFormed m hm
      · rw [List.mem_singleton.mp hm]
        exact Parcel.message_wellFormed hp

theorem SendInv.wait (h : SendInv numBoxes sendLock messageSent σ)
    (hcur : σ.kernel.currentThread = some t) (hcont : σ.kernel.cont t = .user)
    (hpoint : σ.point t = .requested) {k' : Kernel T S L C}
    (hk : σ.kernel.step (.p messageSent) = some k') :
    SendInv numBoxes sendLock messageSent { σ with
      kernel := k'
      point := Function.update σ.point t .waits } := by
  obtain ⟨s, hserial, hdevice, hpending⟩ := h.service
  have hdevice' := hdevice.wait hcur hcont (congrArg Point.stage hpoint) hk
  refine ⟨h.update_acquire (by simp), h.running, h.sendBusy, ⟨s, hserial, ?_, hpending⟩, h.socket,
    h.wellFormed⟩
  rw [Function.comp_update]
  exact hdevice'

theorem SendInv.leave (h : SendInv numBoxes sendLock messageSent σ)
    (hcur : σ.kernel.currentThread = some t) (hcont : σ.kernel.cont t = .user)
    (hpoint : σ.point t = .waits) {k' : Kernel T S L C}
    (hk : σ.kernel.step (.release sendLock) = some k') :
    SendInv numBoxes sendLock messageSent { σ with
      kernel := k'
      point := Function.update σ.point t .outside
      log := .returned t :: σ.log } := by
  obtain ⟨s, hserial, hdevice, hpending⟩ := h.service
  obtain ⟨rfl, hdevice'⟩ := hdevice.leave hcur hcont (congrArg Point.stage hpoint) hk
  refine ⟨h.update_acquire (by simp), h.running, h.sendBusy,
    ⟨.idle, .returned hserial, ?_, hpending⟩, h.socket, h.wellFormed⟩
  rw [Function.comp_update]
  exact hdevice'

theorem SendInv.sendDone (h : SendInv numBoxes sendLock messageSent σ)
    (hstep : σ.sendDone messageSent = some σ') : SendInv numBoxes sendLock messageSent σ' := by
  unfold State.sendDone at hstep
  split_ifs at hstep with hzero
  obtain ⟨k', hk, rfl⟩ := Option.map_eq_some_iff.mp hstep
  obtain ⟨s, hserial, hdevice, hpending⟩ := h.service
  rw [hpending] at hzero
  cases s with
  | idle => exact absurd rfl hzero
  | busy t done =>
    cases done with
    | true => exact absurd rfl hzero
    | false =>
      exact ⟨h.legal, h.running, rfl, ⟨_, .sendDone hserial, hdevice.interrupt hk,
        by simp [Network.sendDone, hpending, unsent]⟩, h.socket, h.wellFormed⟩

theorem SendInv.other {a : Label T S L C} (h : SendInv numBoxes sendLock messageSent σ)
    (ha : σ.allowed sendLock messageSent a = true) {k' : Kernel T S L C}
    (hk : σ.kernel.step a = some k') :
    SendInv numBoxes sendLock messageSent { σ with kernel := k' } := by
  unfold State.allowed at ha
  rw [Bool.and_eq_true, Bool.not_eq_true'] at ha
  obtain ⟨huses, ha⟩ := ha
  have hpassive : ∀ t, σ.kernel.currentThread = some t → (Point.stage ∘ σ.point) t ≠ .outside →
      Passive a := by
    intro t hcur hstage
    split at ha
    · trivial
    · trivial
    · trivial
    · rw [hcur] at ha
      dsimp only at ha
      split at ha
      · rename_i hout
        exact absurd (congrArg Point.stage hout) hstage
      · cases ha
  obtain ⟨s, hserial, hdevice, hpending⟩ := h.service
  exact ⟨h.legal, h.running, h.sendBusy, ⟨s, hserial, hdevice.other huses hpassive hk, hpending⟩,
    h.socket, h.wellFormed⟩

theorem SendInv.goOn {lost : Bool} (h : SendInv numBoxes sendLock messageSent σ)
    (hstep : σ.goOn netAddr sendLock messageSent lost = some σ') :
    SendInv numBoxes sendLock messageSent σ' := by
  unfold State.goOn at hstep
  split at hstep
  · cases hstep
  · rename_i t hcur
    split at hstep
    · rename_i p hcont hpoint
      obtain ⟨n, hn, hinv⟩ := h.put netAddr hcont hpoint lost
      rw [hn] at hstep
      obtain rfl := Option.some.inj hstep
      exact hinv
    · rename_i hcont hpoint
      obtain ⟨k', hk, rfl⟩ := call_eq hstep
      exact h.wait hcur hcont hpoint hk
    · rename_i hcont hpoint
      obtain ⟨k', hk, rfl⟩ := call_eq hstep
      exact h.leave hcur hcont hpoint hk
    · cases hstep

theorem SendInv.step {a : Call T S L C} (h : SendInv numBoxes sendLock messageSent σ)
    (ha : LegalSends numBoxes σ a) (hstep : Step netAddr numBoxes sendLock messageSent σ a σ') :
    SendInv numBoxes sendLock messageSent σ' := by
  unfold Step State.step at hstep
  rw [if_neg (by simp [h.running])] at hstep
  cases a with
  | send p => exact h.enter ha hstep
  | goOn lost => exact h.goOn hstep
  | sendDone => exact h.sendDone hstep
  | other a =>
    dsimp only at hstep
    split_ifs at hstep with hallowed
    obtain ⟨k', hk, rfl⟩ := Option.map_eq_some_iff.mp hstep
    exact h.other hallowed hk

theorem start_sendInv (main : T) (value : S → ℤ) (currentTh : L → Option T) (numBoxes : ℕ)
    (sendLock : L) (messageSent : S) : SendInv numBoxes sendLock messageSent
      (start main value currentTh messageSent : State T S L C) :=
  ⟨by simp [start], rfl, rfl,
    ⟨.idle, .nil, initial_device sendLock messageSent main value currentTh, rfl⟩, rfl,
    by simp [start, sent]⟩

theorem run_sendInv {main : T} {value : S → ℤ} {currentTh : L → Option T}
    {as : List (Call T S L C)}
    (hrun : Run (Step netAddr numBoxes sendLock messageSent) (LegalSends numBoxes)
      (start main value currentTh messageSent) as σ) : SendInv numBoxes sendLock messageSent σ :=
  hrun.invariant (start_sendInv main value currentTh numBoxes sendLock messageSent)
    fun h ha hstep => h.step ha hstep

end runs

end Nachos.PostSending
