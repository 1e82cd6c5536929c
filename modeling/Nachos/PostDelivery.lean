import Nachos.SynchList
import Nachos.PostSending
import Mathlib.Data.List.ReduceOption

/-!
# Delivering mail

The receiving half of `network/post.cc` and `machine/network.cc`: the poll of the network
with its one-packet inbox, the postal worker, the mailboxes, which are lists of
`SynchList`, and `PostOffice::Receive`. It runs on the kernel of `KernelThreads` together
with threads that do anything else, `Send` included, except that they cannot use
`messageAvailable` and the objects of the lists.
-/
namespace Nachos.PostDelivery
open GuardedRuns KernelThreads DeviceCalls Packets ByteMemory

/-- The objects of a post office: every mailbox has a lock and a condition of its own. -/
structure PostOffice (T S L C : Type*) (numBoxes : ℕ) where
  netAddr : BitVec 32
  worker : T
  messageAvailable : S
  lock : Fin numBoxes → L
  listEmpty : Fin numBoxes → C
  lock_injective : Function.Injective lock
  listEmpty_injective : Function.Injective listEmpty

/-- How far the postal worker has got: at the `P`; in `P` or back from it; at the `Put` of
a message; in `Append` on the list of a box. -/
inductive Worker (numBoxes : ℕ) where
  | ready
  | waits
  | holds (b : Fin numBoxes) (m : Message)
  | puts (b : Fin numBoxes)
  deriving DecidableEq, Repr

/-- The list of a mailbox, with how far each thread has got in its calls. -/
structure MailBox (T : Type*) where
  list : List (Option Message)
  point : T → SynchList.Point Message
  appended : List (Option Message)
  removed : List (Option Message)
  failed : Bool

/-- `inHdr` and `inbox` belong to the network, `buffer` to the postal worker; `delivered` is
what was read from the socket, `received` what the calls of `Receive` return, in the order in
which they take it from the lists. -/
structure State (T S L C : Type*) (numBoxes : ℕ) where
  kernel : Kernel T S L C
  inHdr : Header
  inbox : Memory
  buffer : Memory
  worker : Worker numBoxes
  boxes : Fin numBoxes → MailBox T
  delivered : List Wire
  received : List (T × Fin numBoxes × Message)
  failed : Bool

/-- `poll` has the packet that waits in the socket. -/
inductive Call (T S L C : Type*) (numBoxes : ℕ) where
  | poll (packet : Option Wire)
  | work
  | receive (box : ℤ)
  | goOn (b : Fin numBoxes)
  | other (a : Label T S L C)

variable {T S L C : Type*} {numBoxes : ℕ}

/-- The mailbox of an index that `Receive` accepts. -/
def boxAt (numBoxes : ℕ) (box : ℤ) : Option (Fin numBoxes) :=
  if h : 0 ≤ box ∧ box < numBoxes then some ⟨box.toNat, by omega⟩ else none

variable [DecidableEq T] [DecidableEq S] [DecidableEq L] [DecidableEq C]

namespace State
variable (o : PostOffice T S L C numBoxes) (σ : State T S L C numBoxes)

/-- The list of a box, on the kernel of the machine. -/
def messages (b : Fin numBoxes) : SynchList.State Message T S L C where
  kernel := σ.kernel
  list := (σ.boxes b).list
  point := (σ.boxes b).point
  appended := (σ.boxes b).appended
  removed := (σ.boxes b).removed
  failed := (σ.boxes b).failed

def setMessages (b : Fin numBoxes) (s : SynchList.State Message T S L C) :
    State T S L C numBoxes :=
  { σ with
    kernel := s.kernel
    boxes := Function.update σ.boxes b ⟨s.list, s.point, s.appended, s.removed, s.failed⟩ }

/-- `Network::CheckPktAvail` and `PostOffice::IncomingPacket` -/
def poll : Option Wire → Option (State T S L C numBoxes)
  | none => some σ
  | some w =>
    if σ.inHdr.length ≠ 0 then some σ
    else
      let buffer := readFromSocket w
      let hdr := headerAt buffer 0
      if hdr.toAddr = o.netAddr ∧ hdr.length.toNat ≤ maxPacketSize then
        (σ.kernel.step (.handlerV o.messageAvailable)).map fun k => { σ with
          kernel := k
          inHdr := hdr
          inbox := overlay σ.inbox 0 (bytesAt buffer headerSize hdr.length.toNat)
          delivered := σ.delivered ++ [w] }
      else some { σ with delivered := σ.delivered ++ [w], failed := true }

/-- `Network::Receive` into the buffer of the postal worker -/
def networkReceive : Header × State T S L C numBoxes :=
  let hdr := σ.inHdr
  (hdr, { σ with
    inHdr := { hdr with length := 0 }
    buffer :=
      if hdr.length ≠ 0 then overlay σ.buffer 0 (bytesAt σ.inbox 0 hdr.length.toNat)
      else σ.buffer })

/-- `PostalDelivery` from the return of `P` to the `Put` -/
def takePacket : State T S L C numBoxes :=
  let (pktHdr, σ₁) := σ.networkReceive
  let mail := messageAt pktHdr σ₁.buffer 0
  match boxOf numBoxes mail.mailHdr with
  | none => { σ₁ with failed := true }
  | some b =>
    if mail.mailHdr.length.toNat ≤ maxMailSize then { σ₁ with worker := .holds b mail }
    else { σ₁ with failed := true }

/-- The postal worker goes on. -/
def work : Option (State T S L C numBoxes) :=
  if σ.kernel.currentThread = some o.worker then
    match σ.kernel.cont o.worker, σ.worker with
    | .user, .ready =>
      (σ.kernel.step (.p o.messageAvailable)).map fun k => { σ with kernel := k, worker := .waits }
    | .user, .waits => some σ.takePacket
    | .user, .holds b m =>
      ((σ.messages b).enter (o.lock b) (.append (some m))).map fun s =>
        { σ.setMessages b s with worker := .puts b }
    | .user, .puts b =>
      ((σ.messages b).goOn (o.lock b) (o.listEmpty b)).map fun s =>
        { σ.setMessages b s with
          worker := if s.point o.worker = .outside then .ready else .puts b }
    | _, _ => none
  else none

/-- `Receive` up to the `Acquire` of `SynchList::Remove` -/
def receive (box : ℤ) : Option (State T S L C numBoxes) :=
  match σ.kernel.currentThread with
  | none => none
  | some t =>
    if t ≠ o.worker ∧ σ.kernel.cont t = .user ∧ ∀ b, (σ.boxes b).point t = .outside then
      match boxAt numBoxes box with
      | none => some { σ with failed := true }
      | some b => ((σ.messages b).enter (o.lock b) .remove).map (σ.setMessages b)
    else none

/-- `Receive` after `SynchList::Remove`: copy the headers and the data out and test the
length. -/
def returnMail (t : T) (b : Fin numBoxes) (taken : List Message) : State T S L C numBoxes :=
  { σ with
    received := σ.received ++ taken.map fun m => (t, b, m)
    failed := taken.any fun m => maxMailSize < m.mailHdr.length.toNat }

/-- The running thread goes on in `Receive` on box `b`. -/
def goOn (b : Fin numBoxes) : Option (State T S L C numBoxes) :=
  match σ.kernel.currentThread with
  | none => none
  | some t =>
    if t ≠ o.worker then
      ((σ.messages b).goOn (o.lock b) (o.listEmpty b)).map fun s =>
        (σ.setMessages b s).returnMail t b
          (s.removed.drop (σ.boxes b).removed.length).reduceOption
    else none

/-- Calls of the kernel on the semaphore of the postal worker. -/
def usesAvailable : Label T S L C → Bool
  | .p s => s = o.messageAvailable
  | .v s => s = o.messageAvailable
  | .handlerV s => s = o.messageAvailable
  | _ => false

/-- Steps that have nothing to do with the delivery of mail. -/
def allowed (a : Label T S L C) : Bool :=
  !usesAvailable o a && decide (∀ b, (σ.messages b).allowed (o.lock b) (o.listEmpty b) a = true) &&
    match a with
    | .yield => true
    | .handlerV _ => true
    | .idleReturn => true
    | _ => σ.kernel.currentThread ≠ some o.worker

def step (a : Call T S L C numBoxes) : Option (State T S L C numBoxes) :=
  if σ.failed then none
  else
    match a with
    | .poll packet => σ.poll o packet
    | .work => σ.work o
    | .receive box => σ.receive o box
    | .goOn b => σ.goOn o b
    | .other a =>
      if σ.allowed o a then (σ.kernel.step a).map fun k => { σ with kernel := k } else none

end State

def Step (o : PostOffice T S L C numBoxes) (σ : State T S L C numBoxes)
    (a : Call T S L C numBoxes) (σ' : State T S L C numBoxes) : Prop := σ.step o a = some σ'

/-- The calls of `Receive` name boxes that there are. -/
def LegalReceives (_ : State T S L C numBoxes) : Call T S L C numBoxes → Prop
  | .receive box => 0 ≤ box ∧ box < numBoxes
  | _ => True

instance (σ : State T S L C numBoxes) : (a : Call T S L C numBoxes) → Decidable (LegalReceives σ a)
  | .poll _ => .isTrue trivial
  | .work => .isTrue trivial
  | .receive box => inferInstanceAs (Decidable (0 ≤ box ∧ box < numBoxes))
  | .goOn _ => .isTrue trivial
  | .other _ => .isTrue trivial

/-- A new post office. `messageAvailable` is constructed with 0; of the network only
`inHdr.length` is set. -/
def start (o : PostOffice T S L C numBoxes) (main : T) (value : S → ℤ) (currentTh : L → Option T)
    (inHdr : Header) (inbox buffer : Memory) : State T S L C numBoxes where
  kernel := initial main (Function.update value o.messageAvailable 0) currentTh
  inHdr := { inHdr with length := 0 }
  inbox := inbox
  buffer := buffer
  worker := .ready
  boxes := fun _ => ⟨[], fun _ => .outside, [], [], false⟩
  delivered := []
  received := []
  failed := false

def forBox (b : Fin numBoxes) (m : Message) : Bool := boxOf numBoxes m.mailHdr = some b

namespace State
variable (o : PostOffice T S L C numBoxes) (σ : State T S L C numBoxes)

/-- The messages for a box that the network has read, in order. -/
def deliveredFor (b : Fin numBoxes) : List Message :=
  (σ.delivered.map Message.ofWire).filter (forBox b)

/-- What the calls of `Receive` on a box return. -/
def receivedFrom (b : Fin numBoxes) : List Message :=
  (σ.received.filter fun r => r.2.1 = b).map fun r => r.2.2

/-- The message with the postal worker. -/
def carried : List Message :=
  match σ.worker with
  | .holds _ m => [m]
  | .puts b =>
    match (σ.boxes b).point o.worker with
    | .append item => item.toList
    | _ => []
  | _ => []

/-- The message in the inbox of the network. -/
def arrived : List Message :=
  if σ.inHdr.length ≠ 0 then [messageAt σ.inHdr σ.inbox 0] else []

/-- The messages for a box that no `Receive` has got yet: those in its list, with the postal
worker and in the inbox of the network. -/
def waiting (b : Fin numBoxes) : List Message :=
  (σ.boxes b).list.reduceOption ++ (σ.carried o ++ σ.arrived).filter (forBox b)

end State

section moves
variable {o : PostOffice T S L C numBoxes} {σ : State T S L C numBoxes} {b b' : Fin numBoxes}
  {s : SynchList.State Message T S L C} {t u : T} {a : Label T S L C} {p : SynchList.Point Message}
  {k' : Kernel T S L C}

omit [DecidableEq T] [DecidableEq S] [DecidableEq L] [DecidableEq C] in
theorem messages_setMessages_self : (σ.setMessages b s).messages b = s := by
  simp [State.messages, State.setMessages]

omit [DecidableEq T] [DecidableEq S] [DecidableEq L] [DecidableEq C] in
theorem messages_setMessages_of_ne (h : b' ≠ b) :
    (σ.setMessages b s).messages b' = { σ.messages b' with kernel := s.kernel } := by
  simp [State.messages, State.setMessages, h]

/-- The messages are where they were. -/
structure SameMail (σ σ' : State T S L C numBoxes) : Prop where
  list : ∀ b, (σ'.boxes b).list = (σ.boxes b).list
  appended : ∀ b, (σ'.boxes b).appended = (σ.boxes b).appended
  removed : ∀ b, (σ'.boxes b).removed = (σ.boxes b).removed
  delivered : σ'.delivered = σ.delivered
  received : σ'.received = σ.received
  arrived : σ'.arrived = σ.arrived

omit [DecidableEq T] [DecidableEq S] [DecidableEq L] [DecidableEq C] in
/-- A step in a list by which only the kernel and the points change. -/
theorem setMessages_sameMail (k' : Kernel T S L C) (pt : T → SynchList.Point Message) :
    SameMail σ (σ.setMessages b { σ.messages b with kernel := k', point := pt }) := by
  refine ⟨fun b' => ?_, fun b' => ?_, fun b' => ?_, rfl, rfl, rfl⟩
  all_goals
    by_cases hb : b' = b
    · simp [State.setMessages, State.messages, hb]
    · simp [State.setMessages, hb]

/-- Where a thread other than the worker can be in a list. -/
def Receiving (p : SynchList.Point Message) : Prop := p = .outside ∨ p = .remove ∨ p = .wait

/-- Where the worker can be in the list of the box it puts a message into. -/
def Putting (b : Fin numBoxes) (p : SynchList.Point Message) : Prop :=
  p = .leave ∨ ∃ m, p = .append (some m) ∧ forBox b m = true ∧
    m.mailHdr.length.toNat ≤ maxMailSize

/-- The part of the invariant that is about the threads in the lists. -/
structure Calls (o : PostOffice T S L C numBoxes) (σ : State T S L C numBoxes) : Prop where
  sound : Sound σ.kernel
  lists : ∀ b, SynchList.ListInv (o.lock b) (o.listEmpty b) (σ.messages b)
  single : ∀ t b b', (σ.boxes b).point t ≠ .outside → (σ.boxes b').point t ≠ .outside → b = b'
  receivers : ∀ t ≠ o.worker, ∀ b, Receiving ((σ.boxes b).point t)
  putter : ∀ b, (σ.boxes b).point o.worker = .outside ∨
    σ.worker = .puts b ∧ Putting b ((σ.boxes b).point o.worker)

/-- A call of the kernel by `t` in the list of box `b`, which leaves `t` at `p`. -/
structure Moves (o : PostOffice T S L C numBoxes) (σ : State T S L C numBoxes) (t : T)
    (b : Fin numBoxes) (a : Label T S L C) (p : SynchList.Point Message)
    (s : SynchList.State Message T S L C) : Prop where
  current : σ.kernel.currentThread = some t
  outside : ∀ b' ≠ b, (σ.boxes b').point t = .outside
  onList : SynchList.OnList (o.lock b) (o.listEmpty b) a
  step : σ.kernel.step a = some s.kernel
  point : s.point = Function.update (σ.boxes b).point t p
  list : SynchList.ListInv (o.lock b) (o.listEmpty b) s

omit [DecidableEq T] [DecidableEq S] in
theorem allowed_outside (hcur : σ.kernel.currentThread = some t)
    (hpoint : (σ.boxes b).point t = .outside)
    (huses : SynchList.usesList (o.lock b) (o.listEmpty b) a = false) :
    (σ.messages b).allowed (o.lock b) (o.listEmpty b) a = true := by
  unfold SynchList.State.allowed
  split
  · rfl
  · rfl
  · rfl
  · simp [State.messages, hcur, hpoint, huses]

omit [DecidableEq T] [DecidableEq S] in
theorem usesList_of_ne (ha : SynchList.OnList (o.lock b) (o.listEmpty b) a) (hb : b' ≠ b) :
    SynchList.usesList (o.lock b') (o.listEmpty b') a = false := by
  have hlock : o.lock b ≠ o.lock b' := fun h => hb (o.lock_injective h).symm
  have hcond : o.listEmpty b ≠ o.listEmpty b' := fun h => hb (o.listEmpty_injective h).symm
  rcases ha with rfl | rfl | rfl | rfl <;> simp [SynchList.usesList, hlock, hcond]

namespace Moves

theorem lists (h : Moves o σ t b a p s) (hc : Calls o σ) (b' : Fin numBoxes) :
    SynchList.ListInv (o.lock b') (o.listEmpty b') ((σ.setMessages b s).messages b') := by
  by_cases hb : b' = b
  · rw [hb, messages_setMessages_self]
    exact h.list
  · rw [messages_setMessages_of_ne hb]
    refine (hc.lists b').other ?_ h.step
    exact allowed_outside h.current (h.outside b' hb) (usesList_of_ne h.onList hb)

theorem point_of_ne (h : Moves o σ t b a p s) (hu : u ≠ t) (b' : Fin numBoxes) :
    ((σ.setMessages b s).boxes b').point u = (σ.boxes b').point u := by
  by_cases hb : b' = b
  · simp [State.setMessages, hb, h.point, hu]
  · simp [State.setMessages, hb]

theorem point_self (h : Moves o σ t b a p s) : ((σ.setMessages b s).boxes b).point t = p := by
  simp [State.setMessages, h.point]

theorem point_other (h : Moves o σ t b a p s) (hb : b' ≠ b) :
    ((σ.setMessages b s).boxes b').point t = .outside := by
  simpa [State.setMessages, hb] using h.outside b' hb

theorem single (h : Moves o σ t b a p s) (hc : Calls o σ) (u : T) (b₁ b₂ : Fin numBoxes)
    (h₁ : ((σ.setMessages b s).boxes b₁).point u ≠ .outside)
    (h₂ : ((σ.setMessages b s).boxes b₂).point u ≠ .outside) : b₁ = b₂ := by
  by_cases hu : u = t
  · rw [hu] at h₁ h₂
    have hb : ∀ b', ((σ.setMessages b s).boxes b').point t ≠ .outside → b' = b := by
      intro b' hb'
      by_contra hne
      exact hb' (h.point_other hne)
    rw [hb b₁ h₁, hb b₂ h₂]
  · rw [h.point_of_ne hu] at h₁ h₂
    exact hc.single u b₁ b₂ h₁ h₂

/-- A receiver moves in a list. -/
theorem receiver (h : Moves o σ t b a p s) (hc : Calls o σ) (ht : t ≠ o.worker)
    (hp : Receiving p) : Calls o (σ.setMessages b s) := by
  refine ⟨hc.sound.step h.step, h.lists hc, h.single hc, fun u hu b' => ?_, fun b' => ?_⟩
  · by_cases hut : u = t
    · rw [hut]
      by_cases hb : b' = b
      · rw [hb, h.point_self]
        exact hp
      · exact Or.inl (h.point_other hb)
    · rw [h.point_of_ne hut]
      exact hc.receivers u hu b'
  · rw [h.point_of_ne ht.symm]
    exact hc.putter b'

/-- The worker moves in the list of the box that it puts a message into. -/
theorem worker (h : Moves o σ o.worker b a p s) (hc : Calls o σ) {w : Worker numBoxes}
    (hp : p = .outside ∨ w = .puts b ∧ Putting b p) :
    Calls o { σ.setMessages b s with worker := w } := by
  refine ⟨hc.sound.step h.step, h.lists hc, h.single hc, fun u hu b' => ?_, fun b' => ?_⟩
  · have hpoint := h.point_of_ne hu b'
    exact hpoint ▸ hc.receivers u hu b'
  · by_cases hb : b' = b
    · subst hb
      have hpoint := h.point_self
      exact hpoint.symm ▸ hp
    · exact Or.inl (h.point_other hb)

end Moves

/-- A step of the kernel outside of the lists. -/
theorem Calls.other (hc : Calls o σ) (hk : σ.kernel.step a = some k')
    (hallowed : ∀ b, (σ.messages b).allowed (o.lock b) (o.listEmpty b) a = true) :
    Calls o { σ with kernel := k' } :=
  ⟨hc.sound.step hk, fun b => (hc.lists b).other (hallowed b) hk, hc.single, hc.receivers,
    hc.putter⟩

/-- The units of `messageAvailable`: there is one while the inbox is full, unless the worker
has taken it. -/
def Available (o : PostOffice T S L C numBoxes) (w : Worker numBoxes) (k : Kernel T S L C)
    (full : Bool) : Prop :=
  match w with
  | .waits => Solo o.messageAvailable o.worker full k
  | _ => Nobody o.messageAvailable full k

omit [DecidableEq T] [DecidableEq S] [DecidableEq L] [DecidableEq C] in
theorem available_units {w : Worker numBoxes} {k : Kernel T S L C} {full : Bool} :
    Available o w k full ↔ Units o.messageAvailable o.worker (w = .waits) full k := by
  cases w <;> rfl

theorem Available.step {w : Worker numBoxes} {k : Kernel T S L C} {full : Bool}
    (h : Available o w k full) (hstep : k.step a = some k')
    (huses : State.usesAvailable o a = false)
    (hpassive : w = .waits → k.currentThread = some o.worker → Passive a)
    (hforked : w ≠ .ready → k.status o.worker ≠ .justCreated) : Available o w k' full := by
  rw [available_units] at h ⊢
  refine h.step hstep (by cases a <;> exact huses) (fun hw => hpassive (of_decide_eq_true hw))
    fun hw => hforked ?_
  rw [of_decide_eq_true hw]
  exact nofun

omit [DecidableEq T] [DecidableEq L] [DecidableEq C] in
theorem usesAvailable_of_onList (ha : SynchList.OnList (o.lock b) (o.listEmpty b) a) :
    State.usesAvailable o a = false := by
  rcases ha with rfl | rfl | rfl | rfl <;> rfl

end moves

section runs
variable {o : PostOffice T S L C numBoxes} {σ σ' : State T S L C numBoxes} {b : Fin numBoxes}
  {t : T}

/-- The part of the invariant that is about the messages. -/
structure Flow (o : PostOffice T S L C numBoxes) (σ : State T S L C numBoxes) : Prop where
  inbox : ∀ m ∈ σ.arrived, WellFormed numBoxes m
  held : ∀ b m, σ.worker = .holds b m →
    forBox b m = true ∧ m.mailHdr.length.toNat ≤ maxMailSize
  counted : ∀ b, σ.deliveredFor b =
    (σ.boxes b).appended.reduceOption ++ (σ.carried o ++ σ.arrived).filter (forBox b)
  received : ∀ b, σ.receivedFrom b = (σ.boxes b).removed.reduceOption
  short : ∀ b m, some m ∈ (σ.boxes b).list → m.mailHdr.length.toNat ≤ maxMailSize

omit [DecidableEq T] [DecidableEq S] [DecidableEq L] [DecidableEq C] in
theorem Flow.frame (h : Flow o σ) (hs : SameMail σ σ') (hcarried : σ'.carried o = σ.carried o)
    (hheld : ∀ b m, σ'.worker = .holds b m → σ.worker = .holds b m) : Flow o σ' := by
  refine ⟨fun m hm => h.inbox m (hs.arrived ▸ hm), fun b m hm => h.held b m (hheld b m hm),
    fun b => ?_, fun b => ?_, fun b m hm => h.short b m (hs.list b ▸ hm)⟩
  · rw [State.deliveredFor, hs.delivered, hs.appended, hcarried, hs.arrived]
    exact h.counted b
  · rw [State.receivedFrom, hs.received, hs.removed]
    exact h.received b

def State.full (σ : State T S L C numBoxes) : Bool := σ.inHdr.length ≠ 0

structure DeliveryInv (o : PostOffice T S L C numBoxes) (σ : State T S L C numBoxes) : Prop where
  calls : Calls o σ
  forked : σ.worker ≠ .ready → σ.kernel.status o.worker ≠ .justCreated
  available : Available o σ.worker σ.kernel σ.full
  flow : Flow o σ
  running : σ.failed = false

/-- What the poll asserts of a packet, and that it holds a well formed message. -/
def Good (o : PostOffice T S L C numBoxes) (w : Wire) : Prop :=
  (Message.ofWire w).pktHdr.toAddr = o.netAddr ∧ WellFormed numBoxes (Message.ofWire w)

theorem forBox_of_ne {b b' : Fin numBoxes} {m : Message} (h : forBox b m = true) (hb : b' ≠ b) :
    forBox b' m = false := by
  simp only [forBox, decide_eq_true_eq, decide_eq_false_iff_not] at h ⊢
  rw [h]
  exact fun heq => hb (Option.some.inj heq).symm

omit [DecidableEq S] in
theorem Calls.outside (hc : Calls o σ) (hw : ∀ b, σ.worker ≠ .puts b) (b : Fin numBoxes) :
    (σ.boxes b).point o.worker = .outside := by
  rcases hc.putter b with h | ⟨h, -⟩
  · exact h
  · exact absurd h (hw b)

omit [DecidableEq S] in
theorem Calls.outside_of_puts (hc : Calls o σ) (hw : σ.worker = .puts b) (b' : Fin numBoxes)
    (hb : b' ≠ b) : (σ.boxes b').point o.worker = .outside := by
  rcases hc.putter b' with h | ⟨h, -⟩
  · exact h
  · exact absurd (Worker.puts.inj (h.symm.trans hw)) hb

omit [DecidableEq T] [DecidableEq S] [DecidableEq L] [DecidableEq C] in
theorem carried_congr (hw : σ'.worker = σ.worker)
    (hpoint : ∀ b, (σ'.boxes b).point o.worker = (σ.boxes b).point o.worker) :
    σ'.carried o = σ.carried o := by
  simp only [State.carried, hw, hpoint]

theorem Available.v {w : Worker numBoxes} {k : Kernel T S L C} (h : Available o w k false) :
    Available o w (k.v o.messageAvailable) true := by
  rw [available_units] at h ⊢
  exact h.v

/-- The poll finds an empty inbox, so no unit of `messageAvailable` is left. -/
theorem DeliveryInv.poll {w : Wire} (h : DeliveryInv o σ) (hw : Good o w)
    (hempty : σ.inHdr.length = 0) {k' : Kernel T S L C}
    (hk : σ.kernel.step (.handlerV o.messageAvailable) = some k') :
    DeliveryInv o { σ with
      kernel := k'
      inHdr := headerAt (readFromSocket w) 0
      inbox := overlay σ.inbox 0 (bytesAt (readFromSocket w) headerSize
        (headerAt (readFromSocket w) 0).length.toNat)
      delivered := σ.delivered ++ [w] } := by
  have hlength : (headerAt (readFromSocket w) 0).length.toNat =
      headerSize + (Message.ofWire w).mailHdr.length.toNat := hw.2.length
  have hne : (headerAt (readFromSocket w) 0).length ≠ 0 := by
    intro hzero
    rw [hzero] at hlength
    simp only [headerSize, BitVec.toNat_zero, BitVec.ofNat_eq_ofNat] at hlength
    omega
  have hmessage : messageAt (headerAt (readFromSocket w) 0)
      (overlay σ.inbox 0 (bytesAt (readFromSocket w) headerSize
        (headerAt (readFromSocket w) 0).length.toNat)) 0 = Message.ofWire w :=
    messageAt_copy hlength.ge
  have hcalls := h.calls.other hk fun b => rfl
  have hfull : σ.full = false := by simp [State.full, hempty]
  have hbefore : σ.arrived = [] := if_neg (by simp [hempty])
  generalize hσ' : { σ with
      kernel := k'
      inHdr := headerAt (readFromSocket w) 0
      inbox := overlay σ.inbox 0 (bytesAt (readFromSocket w) headerSize
        (headerAt (readFromSocket w) 0).length.toNat)
      delivered := σ.delivered ++ [w] } = σ'
  have hafter : σ'.arrived = [Message.ofWire w] := by
    rw [← hσ', State.arrived, if_pos hne, hmessage]
  have hcarried : σ'.carried o = σ.carried o := by rw [← hσ']; rfl
  have hfull' : σ'.full = true := by rw [← hσ']; exact decide_eq_true hne
  subst hσ'
  refine ⟨⟨hcalls.sound, hcalls.lists, hcalls.single, hcalls.receivers, hcalls.putter⟩,
    fun hne => step_forked hk (h.forked hne), ?_, ⟨fun m hm => ?_, h.flow.held, fun b => ?_,
    h.flow.received, h.flow.short⟩, h.running⟩
  · obtain rfl : σ.kernel.v o.messageAvailable = k' := by
      simpa [Kernel.step] using hk
    have havailable := h.available
    rw [hfull] at havailable
    rw [hfull']
    exact havailable.v
  · rw [hafter] at hm
    rw [List.mem_singleton.mp hm]
    exact hw.2
  · have hcounted := h.flow.counted b
    rw [hbefore, List.append_nil] at hcounted
    rw [hafter, hcarried, List.filter_append, ← List.append_assoc, ← hcounted]
    simp [State.deliveredFor]

/-- The worker calls `P`. -/
theorem DeliveryInv.await (h : DeliveryInv o σ) (hcur : σ.kernel.currentThread = some o.worker)
    (hcont : σ.kernel.cont o.worker = .user) (hw : σ.worker = .ready) {k' : Kernel T S L C}
    (hk : σ.kernel.step (.p o.messageAvailable) = some k') :
    DeliveryInv o { σ with kernel := k', worker := .waits } := by
  have hout := h.calls.outside (by simp [hw])
  have hcalls := h.calls.other hk fun b => allowed_outside hcur (hout b) rfl
  have hforked := h.calls.sound.current_forked hcur
  refine ⟨⟨hcalls.sound, hcalls.lists, hcalls.single, hcalls.receivers, fun b => Or.inl (hout b)⟩,
    fun _ => step_forked hk hforked, ?_, ?_, h.running⟩
  · obtain rfl : σ.kernel.pLoop Kernel.sleep o.worker o.messageAvailable = k' := by
      simpa [Kernel.step, hcur, hcont, Kernel.call] using hk
    have havailable := h.available
    rw [hw] at havailable
    exact Nobody.pLoop havailable hcur hcont hforked
  · refine h.flow.frame ⟨fun _ => rfl, fun _ => rfl, fun _ => rfl, rfl, rfl, rfl⟩ ?_ (by simp)
    simp [State.carried, hw]

omit [DecidableEq S] in
/-- The worker is back from `P`, so the inbox is full and holds the packet it was filled with. -/
theorem DeliveryInv.takePacket (h : DeliveryInv o σ) (hcont : σ.kernel.cont o.worker = .user)
    (hw : σ.worker = .waits) : DeliveryInv o σ.takePacket := by
  have havailable := h.available
  rw [hw] at havailable
  obtain ⟨hfull, hnobody⟩ := Solo.returned havailable hcont
  have hne : σ.inHdr.length ≠ 0 := by simpa [State.full] using hfull
  have harrived : σ.arrived = [messageAt σ.inHdr σ.inbox 0] := if_pos hne
  have hcarried : σ.carried o = [] := by simp [State.carried, hw]
  have hwell : WellFormed numBoxes (messageAt σ.inHdr σ.inbox 0) :=
    h.flow.inbox _ (by simp [harrived])
  obtain ⟨b, hb⟩ := Option.isSome_iff_exists.mp hwell.box
  have hlength : σ.inHdr.length.toNat = headerSize + (headerAt σ.inbox 0).length.toNat :=
    hwell.length
  have hcopy : messageAt σ.inHdr (overlay σ.buffer 0 (bytesAt σ.inbox 0 σ.inHdr.length.toNat)) 0 =
      messageAt σ.inHdr σ.inbox 0 := messageAt_copy hlength.ge
  have htake : σ.takePacket = { σ with
      inHdr := { σ.inHdr with length := 0 }
      buffer := overlay σ.buffer 0 (bytesAt σ.inbox 0 σ.inHdr.length.toNat)
      worker := .holds b (messageAt σ.inHdr σ.inbox 0) } := by
    simp only [State.takePacket, State.networkReceive, if_pos hne, hcopy, hb]
    exact if_pos hwell.fits
  rw [htake]
  have hout := h.calls.outside (by simp [hw])
  refine ⟨⟨h.calls.sound, h.calls.lists, h.calls.single, h.calls.receivers,
    fun b => Or.inl (hout b)⟩, fun _ => h.forked (by simp [hw]), ?_, ⟨?_, fun b' m hm => ?_,
    fun b' => ?_, h.flow.received, h.flow.short⟩, h.running⟩
  · exact hnobody
  · simp [State.arrived]
  · obtain ⟨rfl, rfl⟩ := Worker.holds.inj hm
    exact ⟨by simp [forBox, hb], hwell.fits⟩
  · have hcounted := h.flow.counted b'
    rw [hcarried, harrived] at hcounted
    exact hcounted

/-- The units of `messageAvailable` do not change by a call in a list. -/
theorem DeliveryInv.available_moves {a : Label T S L C} {p : SynchList.Point Message}
    {s : SynchList.State Message T S L C} (h : DeliveryInv o σ) (hm : Moves o σ t b a p s)
    (ht : σ.worker = .waits → t ≠ o.worker) : Available o σ.worker s.kernel σ.full := by
  refine h.available.step hm.step (usesAvailable_of_onList hm.onList) (fun hw hcur => ?_) h.forked
  exact absurd (Option.some.inj (hm.current.symm.trans hcur)) (ht hw)

theorem DeliveryInv.put {m : Message} {s : SynchList.State Message T S L C}
    (h : DeliveryInv o σ) (hcur : σ.kernel.currentThread = some o.worker)
    (hw : σ.worker = .holds b m)
    (hstep : (σ.messages b).enter (o.lock b) (.append (some m)) = some s) :
    DeliveryInv o { σ.setMessages b s with worker := .puts b } := by
  have hout := h.calls.outside (by simp [hw])
  have hlist := (h.calls.lists b).enter (by simp) hstep
  obtain ⟨k', hk, -, -, rfl⟩ := SynchList.enter_eq hstep hcur
  have hk : σ.kernel.step (.acquire (o.lock b)) = some k' := hk
  have hm : Moves o σ o.worker b (.acquire (o.lock b)) (.append (some m)) _ :=
    ⟨hcur, fun b' _ => hout b', Or.inl rfl, hk, rfl, hlist⟩
  have hheld := h.flow.held b m hw
  refine ⟨hm.worker h.calls (Or.inr ⟨rfl, Or.inr ⟨m, rfl, hheld⟩⟩),
    fun _ => step_forked hk (h.forked (by simp [hw])), ?_, ?_, h.running⟩
  · have havailable := h.available_moves hm (by simp [hw])
    rw [hw] at havailable
    exact havailable
  · have hs := setMessages_sameMail (σ := σ) (b := b) k'
      (Function.update (σ.messages b).point o.worker (.append (some m)))
    refine h.flow.frame ⟨hs.list, hs.appended, hs.removed, hs.delivered, hs.received,
      hs.arrived⟩ ?_ (by simp)
    simp [State.carried, hw, State.setMessages]

/-- `List::Append` and `Signal` -/
theorem DeliveryInv.append {m : Message} {s : SynchList.State Message T S L C}
    (h : DeliveryInv o σ) (hcur : σ.kernel.currentThread = some o.worker)
    (hw : σ.worker = .puts b) (hpoint : (σ.boxes b).point o.worker = .append (some m))
    (hm : forBox b m = true ∧ m.mailHdr.length.toNat ≤ maxMailSize)
    (hstep : (σ.messages b).goOn (o.lock b) (o.listEmpty b) = some s) :
    s.point o.worker ≠ .outside ∧ DeliveryInv o { σ.setMessages b s with worker := .puts b } := by
  have hlist := (h.calls.lists b).goOn hstep
  obtain ⟨k', hk, rfl⟩ := SynchList.goOn_append hstep hcur hpoint
  have hk : σ.kernel.step (.signal (o.listEmpty b) (o.lock b)) = some k' := hk
  have hmoves : Moves o σ o.worker b (.signal (o.listEmpty b) (o.lock b)) .leave _ :=
    ⟨hcur, h.calls.outside_of_puts hw, Or.inr (Or.inr (Or.inl rfl)), hk, rfl, hlist⟩
  refine ⟨by simp, hmoves.worker h.calls (Or.inr ⟨rfl, Or.inl rfl⟩),
    fun _ => step_forked hk (h.forked (by simp [hw])), ?_, ⟨h.flow.inbox, by simp, fun b' => ?_,
    fun b' => ?_, fun b' x hx => ?_⟩, h.running⟩
  · have havailable := h.available_moves hmoves (by simp [hw])
    rw [hw] at havailable
    exact havailable
  · have hcounted := h.flow.counted b'
    have hcarried : σ.carried o = [m] := by simp [State.carried, hw, hpoint]
    rw [hcarried] at hcounted
    have hcarried' : ∀ s : SynchList.State Message T S L C, s.point o.worker = .leave →
        State.carried o { σ.setMessages b s with worker := .puts b } = [] := by
      intro s hs
      simp [State.carried, State.setMessages, hs]
    rw [hcarried' _ (by simp)]
    refine hcounted.trans ?_
    change _ = List.reduceOption _ ++ List.filter (forBox b') ([] ++ σ.arrived)
    by_cases hb : b' = b
    · subst hb
      simp [State.setMessages, State.messages, List.reduceOption_append, hm.1]
    · simp [State.setMessages, hb, forBox_of_ne hm.1 hb]
  · have hreceived := h.flow.received b'
    by_cases hb : b' = b
    · subst hb
      simpa [State.setMessages, State.messages, State.receivedFrom] using hreceived
    · simpa [State.setMessages, hb, State.receivedFrom] using hreceived
  · by_cases hb : b' = b
    · subst hb
      have hx : some x ∈ (σ.boxes b').list ∨ x = m := by
        simpa [State.setMessages, State.messages] using hx
      rcases hx with hx | rfl
      · exact h.flow.short b' x hx
      · exact hm.2
    · exact h.flow.short b' x (by simpa [State.setMessages, hb] using hx)

theorem DeliveryInv.leave {s : SynchList.State Message T S L C}
    (h : DeliveryInv o σ) (hcur : σ.kernel.currentThread = some o.worker)
    (hw : σ.worker = .puts b) (hpoint : (σ.boxes b).point o.worker = .leave)
    (hstep : (σ.messages b).goOn (o.lock b) (o.listEmpty b) = some s) :
    s.point o.worker = .outside ∧ DeliveryInv o { σ.setMessages b s with worker := .ready } := by
  have hlist := (h.calls.lists b).goOn hstep
  obtain ⟨k', hk, rfl⟩ := SynchList.goOn_leave hstep hcur hpoint
  have hk : σ.kernel.step (.release (o.lock b)) = some k' := hk
  have hmoves : Moves o σ o.worker b (.release (o.lock b)) .outside _ :=
    ⟨hcur, h.calls.outside_of_puts hw, Or.inr (Or.inl rfl), hk, rfl, hlist⟩
  refine ⟨by simp, hmoves.worker h.calls (Or.inl rfl), fun hne => absurd rfl hne, ?_, ?_,
    h.running⟩
  · have havailable := h.available_moves hmoves (by simp [hw])
    rw [hw] at havailable
    exact havailable
  · have hs := setMessages_sameMail (σ := σ) (b := b) k'
      (Function.update (σ.messages b).point o.worker .outside)
    refine h.flow.frame ⟨hs.list, hs.appended, hs.removed, hs.delivered, hs.received,
      hs.arrived⟩ ?_ (by simp)
    simp [State.carried, hw, hpoint]

/-- A receiver moves in a list and takes nothing from it. -/
theorem DeliveryInv.receiver {a : Label T S L C} {p : SynchList.Point Message}
    {k' : Kernel T S L C} (h : DeliveryInv o σ) (ht : t ≠ o.worker) (hp : Receiving p)
    (hm : Moves o σ t b a p
      { σ.messages b with kernel := k', point := Function.update (σ.messages b).point t p }) :
    DeliveryInv o (σ.setMessages b
      { σ.messages b with kernel := k', point := Function.update (σ.messages b).point t p }) := by
  refine ⟨hm.receiver h.calls ht hp, fun hne => step_forked hm.step (h.forked hne),
    h.available_moves hm fun _ => ht, h.flow.frame (setMessages_sameMail k' _) ?_ fun _ _ h => h,
    h.running⟩
  exact carried_congr rfl (hm.point_of_ne ht.symm)

/-- A receiver takes the first message of a list. -/
theorem DeliveryInv.take {a : Label T S L C} {k' : Kernel T S L C} {x : Message}
    {rest : List (Option Message)} (h : DeliveryInv o σ) (ht : t ≠ o.worker)
    (hlist : (σ.boxes b).list = some x :: rest) {s : SynchList.State Message T S L C}
    (hs : s = { σ.messages b with
      kernel := k'
      list := rest
      removed := (σ.messages b).removed ++ [some x]
      point := Function.update (σ.messages b).point t .outside })
    (hm : Moves o σ t b a .outside s) :
    DeliveryInv o { σ.setMessages b s with received := σ.received ++ [(t, b, x)] } := by
  have hcalls := hm.receiver h.calls ht (Or.inl rfl)
  have hcarried : (σ.setMessages b s).carried o = σ.carried o :=
    carried_congr rfl (hm.point_of_ne ht.symm)
  refine ⟨⟨hcalls.sound, hcalls.lists, hcalls.single, hcalls.receivers, hcalls.putter⟩,
    fun hne => step_forked hm.step (h.forked hne), h.available_moves hm fun _ => ht,
    ⟨h.flow.inbox, h.flow.held, fun b' => ?_, fun b' => ?_, fun b' m hmem => ?_⟩, h.running⟩
  · have happended : ((σ.setMessages b s).boxes b').appended = (σ.boxes b').appended := by
      by_cases hb : b' = b
      · simp [State.setMessages, hs, State.messages, hb]
      · simp [State.setMessages, hb]
    have hcounted := h.flow.counted b'
    rw [← happended, ← hcarried] at hcounted
    exact hcounted
  · have hreceived := h.flow.received b'
    by_cases hb : b' = b
    · subst hb
      have hfrom : State.receivedFrom
          { σ.setMessages b' s with received := σ.received ++ [(t, b', x)] } b' =
          σ.receivedFrom b' ++ [x] := by
        simp [State.receivedFrom]
      rw [hfrom, hreceived]
      simp [State.setMessages, hs, State.messages, List.reduceOption_append]
    · have hfrom : State.receivedFrom
          { σ.setMessages b s with received := σ.received ++ [(t, b, x)] } b' =
          σ.receivedFrom b' := by
        simp [State.receivedFrom, Ne.symm hb]
      rw [hfrom, hreceived]
      simp [State.setMessages, hb]
  · refine h.flow.short b' m ?_
    by_cases hb : b' = b
    · subst hb
      rw [hlist]
      exact List.mem_cons_of_mem _ (by simpa [State.setMessages, hs] using hmem)
    · simpa [State.setMessages, hb] using hmem

theorem DeliveryInv.work (h : DeliveryInv o σ) (hstep : σ.work o = some σ') :
    DeliveryInv o σ' := by
  unfold State.work at hstep
  split_ifs at hstep with hcur
  split at hstep
  · rename_i hcont hw
    obtain ⟨k', hk, rfl⟩ := Option.map_eq_some_iff.mp hstep
    exact h.await hcur hcont hw hk
  · rename_i hcont hw
    obtain rfl := Option.some.inj hstep
    exact h.takePacket hcont hw
  · rename_i b m hcont hw
    obtain ⟨s, hs, rfl⟩ := Option.map_eq_some_iff.mp hstep
    exact h.put hcur hw hs
  · rename_i b hcont hw
    obtain ⟨s, hs, rfl⟩ := Option.map_eq_some_iff.mp hstep
    rcases h.calls.putter b with hout | ⟨-, hleave | ⟨m, hpoint, hm⟩⟩
    · exact absurd hout (SynchList.goOn_inside hs hcur)
    · obtain ⟨hpoint, hinv⟩ := h.leave hcur hw hleave hs
      rw [if_pos hpoint]
      exact hinv
    · obtain ⟨hpoint, hinv⟩ := h.append hcur hw hpoint hm hs
      rw [if_neg hpoint]
      exact hinv
  · cases hstep

theorem DeliveryInv.receive {box : ℤ} (h : DeliveryInv o σ) (hbox : 0 ≤ box ∧ box < numBoxes)
    (hstep : σ.receive o box = some σ') : DeliveryInv o σ' := by
  unfold State.receive at hstep
  split at hstep
  · cases hstep
  · rename_i t hcur
    split_ifs at hstep with ht
    obtain ⟨hne, -, hout⟩ := ht
    rw [boxAt, dif_pos hbox] at hstep
    dsimp only at hstep
    obtain ⟨s, hs, rfl⟩ := Option.map_eq_some_iff.mp hstep
    have hlist := (h.calls.lists _).enter (by simp) hs
    obtain ⟨k', hk, -, -, rfl⟩ := SynchList.enter_eq hs hcur
    exact h.receiver hne (Or.inr (Or.inl rfl))
      ⟨hcur, fun b' _ => hout b', Or.inl rfl, hk, rfl, hlist⟩

omit [DecidableEq T] [DecidableEq S] [DecidableEq L] [DecidableEq C] in
theorem returnMail_nil (h : σ.failed = false) : σ.returnMail t b [] = σ := by
  simp [State.returnMail, ← h]

omit [DecidableEq T] [DecidableEq S] [DecidableEq L] [DecidableEq C] in
theorem returnMail_singleton {x : Message} (h : σ.failed = false)
    (hx : x.mailHdr.length.toNat ≤ maxMailSize) :
    σ.returnMail t b [x] = { σ with received := σ.received ++ [(t, b, x)] } := by
  simp [State.returnMail, h, hx]

theorem DeliveryInv.goOn (h : DeliveryInv o σ) (hstep : σ.goOn o b = some σ') :
    DeliveryInv o σ' := by
  unfold State.goOn at hstep
  split at hstep
  · cases hstep
  · rename_i t hcur
    split_ifs at hstep with ht
    obtain ⟨s, hs, rfl⟩ := Option.map_eq_some_iff.mp hstep
    have hin : (σ.boxes b).point t ≠ .outside := SynchList.goOn_inside hs hcur
    have hout : ∀ b' ≠ b, (σ.boxes b').point t = .outside := by
      intro b' hb
      by_contra hne
      exact hb (h.calls.single t b' b hne hin)
    have hlist := (h.calls.lists b).goOn hs
    obtain ⟨a, k', ha, hk, rfl | ⟨x, rest, hmessages, rfl⟩⟩ :=
      (h.calls.lists b).goOn_remove hs hcur ((h.calls.receivers t ht b).resolve_left hin)
    · have hinv := h.receiver ht (Or.inr (Or.inr rfl)) ⟨hcur, hout, ha, hk, rfl, hlist⟩
      have htaken : (σ.messages b).removed.drop (σ.boxes b).removed.length = [] :=
        List.drop_length
      rw [htaken, List.reduceOption_nil, returnMail_nil hinv.running]
      exact hinv
    · have hx := h.flow.short b x (by rw [show (σ.boxes b).list = _ from hmessages]; simp)
      have hinv := h.take ht hmessages rfl ⟨hcur, hout, ha, hk, rfl, hlist⟩
      have htaken : ((σ.messages b).removed ++ [some x]).drop (σ.boxes b).removed.length =
          [some x] := List.drop_left
      rw [htaken, List.reduceOption_singleton, Option.toList_some,
        returnMail_singleton (σ := σ.setMessages b _) h.running hx]
      exact hinv

theorem DeliveryInv.other {a : Label T S L C} (h : DeliveryInv o σ) (ha : σ.allowed o a = true)
    {k' : Kernel T S L C} (hk : σ.kernel.step a = some k') :
    DeliveryInv o { σ with kernel := k' } := by
  unfold State.allowed at ha
  rw [Bool.and_eq_true, Bool.and_eq_true, Bool.not_eq_true', decide_eq_true_eq] at ha
  obtain ⟨⟨huses, hallowed⟩, ha⟩ := ha
  have hpassive : σ.kernel.currentThread = some o.worker → Passive a := by
    intro hcur
    split at ha
    · trivial
    · trivial
    · trivial
    · simp [hcur] at ha
  exact ⟨h.calls.other hk hallowed, fun hne => step_forked hk (h.forked hne),
    h.available.step hk huses (fun _ => hpassive) h.forked,
    h.flow.frame ⟨fun _ => rfl, fun _ => rfl, fun _ => rfl, rfl, rfl, rfl⟩ rfl fun _ _ h => h,
    h.running⟩

/-- The packets that were read are good ones, the last one included. -/
theorem DeliveryInv.step {a : Call T S L C numBoxes} (h : DeliveryInv o σ)
    (ha : LegalReceives σ a) (hgood : ∀ w ∈ σ'.delivered, Good o w) (hstep : Step o σ a σ') :
    DeliveryInv o σ' := by
  unfold Step State.step at hstep
  rw [if_neg (by simp [h.running])] at hstep
  cases a with
  | poll packet =>
    cases packet with
    | none => exact Option.some.inj hstep ▸ h
    | some w =>
      simp only [State.poll] at hstep
      split_ifs at hstep with hfull hheader
      · exact Option.some.inj hstep ▸ h
      · obtain ⟨k', hk, rfl⟩ := Option.map_eq_some_iff.mp hstep
        exact h.poll (hgood w (by simp)) (not_not.mp hfull) hk
      · obtain rfl := Option.some.inj hstep
        obtain ⟨haddr, hwell⟩ := hgood w (by simp)
        refine absurd ⟨haddr, ?_⟩ hheader
        have hlength := hwell.length
        have hfits := hwell.fits
        simp only [maxMailSize] at hfits
        simp only [maxPacketSize, maxWireSize, headerSize] at hlength hfits ⊢
        exact hlength.le.trans (by omega)
  | work => exact h.work hstep
  | receive box => exact h.receive ha hstep
  | goOn b => exact h.goOn hstep
  | other a =>
    dsimp only at hstep
    split_ifs at hstep with hallowed
    obtain ⟨k', hk, rfl⟩ := Option.map_eq_some_iff.mp hstep
    exact h.other hallowed hk

omit [DecidableEq T] [DecidableEq S] [DecidableEq L] [DecidableEq C] in
theorem takePacket_delivered : σ.takePacket.delivered = σ.delivered := by
  unfold State.takePacket
  dsimp only
  split
  · rfl
  · split_ifs <;> rfl

/-- What was read stays read. -/
theorem delivered_subset {a : Call T S L C numBoxes} (hstep : Step o σ a σ') :
    σ.delivered ⊆ σ'.delivered := by
  unfold Step State.step at hstep
  split_ifs at hstep
  cases a with
  | poll packet =>
    cases packet with
    | none => exact Option.some.inj hstep ▸ List.Subset.refl _
    | some w =>
      simp only [State.poll] at hstep
      split_ifs at hstep
      · exact Option.some.inj hstep ▸ List.Subset.refl _
      · obtain ⟨k', -, rfl⟩ := Option.map_eq_some_iff.mp hstep
        exact List.subset_append_left _ _
      · obtain rfl := Option.some.inj hstep
        exact List.subset_append_left _ _
  | work =>
    simp only [State.work] at hstep
    split_ifs at hstep
    split at hstep
    · obtain ⟨k', -, rfl⟩ := Option.map_eq_some_iff.mp hstep
      exact List.Subset.refl _
    · obtain rfl := Option.some.inj hstep
      rw [takePacket_delivered]
      exact List.Subset.refl _
    · obtain ⟨s, -, rfl⟩ := Option.map_eq_some_iff.mp hstep
      exact List.Subset.refl _
    · obtain ⟨s, -, rfl⟩ := Option.map_eq_some_iff.mp hstep
      exact List.Subset.refl _
    · cases hstep
  | receive box =>
    simp only [State.receive] at hstep
    split at hstep
    · cases hstep
    · split_ifs at hstep
      split at hstep
      · obtain rfl := Option.some.inj hstep
        exact List.Subset.refl _
      · obtain ⟨s, -, rfl⟩ := Option.map_eq_some_iff.mp hstep
        exact List.Subset.refl _
  | goOn b =>
    simp only [State.goOn] at hstep
    split at hstep
    · cases hstep
    · split_ifs at hstep
      obtain ⟨s, -, rfl⟩ := Option.map_eq_some_iff.mp hstep
      exact List.Subset.refl _
  | other a =>
    dsimp only at hstep
    split_ifs at hstep
    obtain ⟨k', -, rfl⟩ := Option.map_eq_some_iff.mp hstep
    exact List.Subset.refl _

theorem start_deliveryInv (o : PostOffice T S L C numBoxes) (main : T) (value : S → ℤ)
    (currentTh : L → Option T) (inHdr : Header) (inbox buffer : Memory) :
    DeliveryInv o (start o main value currentTh inHdr inbox buffer) := by
  have hsound := initial_sound main (Function.update value o.messageAvailable 0) currentTh
    (S := S) (C := C)
  have harrived : (start o main value currentTh inHdr inbox buffer).arrived = [] :=
    if_neg (by simp [start])
  refine ⟨⟨hsound, fun b => ?_, fun t b b' ht => absurd rfl ht, fun t _ b => Or.inl rfl,
    fun b => Or.inl rfl⟩, fun hne => absurd rfl hne, ?_, ⟨?_, by simp [start], fun b => ?_,
    fun b => rfl, by simp [start]⟩, rfl⟩
  · exact ⟨⟨hsound, fun t ht => absurd rfl ht, fun t ht => absurd rfl ht,
      fun t ht => absurd ht List.not_mem_nil⟩, rfl, by simp [start, State.messages],
      by simp [start, State.messages], rfl, fun hne => absurd rfl hne⟩
  · exact initial_nobody main currentTh (Function.update_self _ _ _)
  · simp [harrived]
  · rw [harrived]
    rfl

theorem run_deliveryInv {main : T} {value : S → ℤ} {currentTh : L → Option T} {inHdr : Header}
    {inbox buffer : Memory} {as : List (Call T S L C numBoxes)}
    (hrun : Run (Step o) LegalReceives (start o main value currentTh inHdr inbox buffer) as σ)
    (hgood : ∀ w ∈ σ.delivered, Good o w) : DeliveryInv o σ := by
  -- Later states have more packets, so the invariant is carried under the assumption on them.
  have h := hrun.invariant (I := fun σ => (∀ w ∈ σ.delivered, Good o w) → DeliveryInv o σ)
    (fun _ => start_deliveryInv o main value currentTh inHdr inbox buffer)
    fun h ha hstep hgood =>
      (h fun w hw => hgood w (delivered_subset hstep hw)).step ha hgood hstep
  exact h hgood

/-- A machine sends legal messages, and another one polls packets, delivers and receives. They
share nothing but the socket, which hands over, in order, some of the packets that were sent to
the second machine. Whatever the steps of each were: no assertion has failed; the packets were put
on the network one at a time; what was read from the network is, in order and as it was given to
`Send`, part of what was sent; and of the messages for a box the calls of `Receive` have
got the first ones, while all the others wait in the list, with the postal worker or in the
inbox. -/
theorem mail_delivered {T' S' L' C' : Type*} [DecidableEq T'] [DecidableEq S'] [DecidableEq L']
    [DecidableEq C'] (o : PostOffice T S L C numBoxes) (netAddr : BitVec 32) (sendLock : L')
    (messageSent : S') (main' : T') (value' : S' → ℤ) (currentTh' : L' → Option T')
    (as : List (PostSending.Call T' S' L' C')) (σ : PostSending.State T' S' L' C') (main : T)
    (value : S → ℤ) (currentTh : L → Option T) (inHdr : Header) (inbox buffer : Memory)
    (bs : List (Call T S L C numBoxes)) (τ : State T S L C numBoxes)
    (hsend : Run (PostSending.Step netAddr numBoxes sendLock messageSent)
      (PostSending.LegalSends numBoxes) (PostSending.start main' value' currentTh' messageSent) as
      σ)
    (hreceive : Run (Step o) LegalReceives (start o main value currentTh inHdr inbox buffer) bs τ)
    (hsocket : τ.delivered.Sublist (σ.network.socket.filter fun w =>
      (Message.ofWire w).pktHdr.toAddr = o.netAddr)) :
    σ.failed = false ∧ τ.failed = false ∧ (∃ s, PostSending.Serial σ.log s) ∧
    σ.network.pending ≤ 1 ∧
    (τ.delivered.map Message.ofWire).Sublist (PostSending.sentTo o.netAddr σ.log) ∧
    ∀ b, τ.deliveredFor b = τ.receivedFrom b ++ τ.waiting o b := by
  have hσ := PostSending.run_sendInv hsend
  have hsublist : (τ.delivered.map Message.ofWire).Sublist
      (PostSending.sentTo o.netAddr σ.log) := by
    rw [PostSending.sentTo, ← hσ.socket, List.filter_map]
    exact hsocket.map Message.ofWire
  have hgood : ∀ w ∈ τ.delivered, Good o w := by
    intro w hw
    have hmem := hsublist.subset (List.mem_map_of_mem hw)
    obtain ⟨hsent, haddr⟩ := List.mem_filter.mp hmem
    exact ⟨of_decide_eq_true haddr, hσ.wellFormed _ hsent⟩
  have hτ := run_deliveryInv hreceive hgood
  obtain ⟨s, hserial, -, hpending⟩ := hσ.service
  refine ⟨hσ.running, hτ.running, ⟨s, hserial⟩, ?_, hsublist, fun b => ?_⟩
  · rw [hpending]
    cases s with
    | idle => exact Nat.zero_le 1
    | busy t done => exact Bool.toNat_le _
  · have hfifo : (τ.boxes b).appended = (τ.boxes b).removed ++ (τ.boxes b).list :=
      (hτ.calls.lists b).fifo
    rw [hτ.flow.counted b, hfifo, List.reduceOption_append, hτ.flow.received b, State.waiting,
      List.append_assoc]

end runs

/-- One mailbox; thread 1 is the postal worker. -/
def office : PostOffice ℕ Unit (Fin 1) (Fin 1) 1 :=
  ⟨7, 1, (), id, id, Function.injective_id, Function.injective_id⟩

/-- Two bytes for box 0 of machine 7. -/
def greeting : Parcel where
  pktHdr := ⟨7, 0, 0⟩
  mailHdr := ⟨0, 3, 2⟩
  data := fun i => if i = 0 then 104 else 105
  mailBuffer := fun _ => 255
  wireBuffer := fun _ => 254

/-- Main of the second machine sleeps in `Receive` when the packet comes. The postal worker
delivers it and main returns with the message. -/
theorem mail_delivered_greeting :
    ∃ (σ : PostSending.State ℕ Unit Unit Unit) (τ : State ℕ Unit (Fin 1) (Fin 1) 1),
      Run (PostSending.Step 2 1 () ()) (PostSending.LegalSends 1)
        (PostSending.start 0 (fun _ => 0) (fun _ => none) ()) [.send greeting, .goOn false] σ ∧
      Run (Step office) LegalReceives
        (start office 0 (fun _ => 0) (fun _ => none) ⟨0, 0, 0⟩ (fun _ => 0) fun _ => 0)
        [.other (.fork 1), .other .yield, .work, .receive 0, .goOn 0,
          .poll (some (greeting.wire 2)), .other .idleReturn, .work, .work, .work, .work, .work,
          .goOn 0, .goOn 0] τ ∧
      τ.receivedFrom 0 = [greeting.message 2] ∧
      τ.deliveredFor 0 = τ.receivedFrom 0 ++ τ.waiting office 0 := by
  obtain ⟨σ, hsend, hσ⟩ := exists_guarded_run_of_exec (PostSending.State.step 2 1 () ())
    (PostSending.LegalSends 1)
    (PostSending.start 0 (fun _ => 0) (fun _ => none) () : PostSending.State ℕ Unit Unit Unit)
    [.send greeting, .goOn false]
    (fun σ => σ.network.socket = [greeting.wire 2]) (by decide +kernel)
  obtain ⟨τ, hreceive, hτ⟩ := exists_guarded_run_of_exec (State.step office) LegalReceives
    (start office 0 (fun _ => 0) (fun _ => none) ⟨0, 0, 0⟩ (fun _ => 0) fun _ => 0)
    [.other (.fork 1), .other .yield, .work, .receive 0, .goOn 0,
      .poll (some (greeting.wire 2)), .other .idleReturn, .work, .work, .work, .work, .work,
      .goOn 0, .goOn 0]
    (fun τ => τ.delivered = [greeting.wire 2] ∧ τ.receivedFrom 0 = [greeting.message 2])
    (by decide +kernel)
  obtain ⟨hdelivered, hreceived⟩ := of_decide_eq_true hτ
  have hsocket : τ.delivered.Sublist (σ.network.socket.filter fun w =>
      (Message.ofWire w).pktHdr.toAddr = office.netAddr) := by
    rw [hdelivered, of_decide_eq_true hσ]
    decide +kernel
  have h := mail_delivered office 2 () () 0 _ _ _ σ 0 _ _ _ _ _ _ τ hsend hreceive hsocket
  exact ⟨σ, τ, hsend, hreceive, hreceived, h.2.2.2.2.2 0⟩

end Nachos.PostDelivery
