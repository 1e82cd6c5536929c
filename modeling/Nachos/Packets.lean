import Nachos.ByteMemory

/-!
# Packets and messages

What goes over the wire, from `machine/network.h` and `network/post.h`: a packet header,
a mail header and the data of the message, padded to `MaxWireSize` bytes with whatever the
buffer held. `MailHeader` and `PacketHeader` have the same three fields.
-/
namespace Nachos.Packets
open ByteMemory

def maxWireSize : ℕ := 64

/-- `sizeof(PacketHeader)` and `sizeof(MailHeader)` -/
def headerSize : ℕ := 12

def maxPacketSize : ℕ := maxWireSize - headerSize

def maxMailSize : ℕ := maxPacketSize - headerSize

/-- The fields `to`, `from` and `length`. -/
structure Header where
  toAddr : BitVec 32
  fromAddr : BitVec 32
  length : BitVec 32
  deriving DecidableEq, Repr

/-- The bytes that are given to the socket. -/
abbrev Wire := List Byte

/-- A message as `Receive` returns it. -/
structure Message where
  pktHdr : Header
  mailHdr : Header
  data : List Byte
  deriving DecidableEq, Repr

/-- The arguments of `PostOffice::Send`, with what the buffers hold that it and
`Network::Send` allocate. -/
structure Parcel where
  pktHdr : Header
  mailHdr : Header
  data : Memory
  mailBuffer : Memory
  wireBuffer : Memory

def headerAt (m : Memory) (a : ℕ) : Header := ⟨word m a, word m (a + 4), word m (a + 8)⟩

def Header.store (h : Header) (m : Memory) (a : ℕ) : Memory :=
  setWord (setWord (setWord m a h.toAddr) (a + 4) h.fromAddr) (a + 8) h.length

/-- The message whose mail header stands at address `a`. -/
def messageAt (pktHdr : Header) (m : Memory) (a : ℕ) : Message :=
  let mailHdr := headerAt m a
  ⟨pktHdr, mailHdr, bytesAt m (a + headerSize) mailHdr.length.toNat⟩

/-- The assertion on `mailHdr.to`, with the box that it names. -/
def boxOf (numBoxes : ℕ) (mailHdr : Header) : Option (Fin numBoxes) :=
  if h : 0 ≤ mailHdr.toAddr.toInt ∧ mailHdr.toAddr.toInt < numBoxes then
    some ⟨mailHdr.toAddr.toInt.toNat, by omega⟩
  else none

/-- `ReadFromSocket` into a buffer of `MaxWireSize` bytes -/
def readFromSocket (w : Wire) : Memory := overlay (fun _ => 0) 0 w

/-- The message in a packet. -/
def Message.ofWire (w : Wire) : Message :=
  messageAt (headerAt (readFromSocket w) 0) (readFromSocket w) headerSize

/-- The packet that `Network::Send` gives to the socket. -/
def wire (hdr : Header) (data buffer : Memory) : Wire :=
  bytesAt (overlay (hdr.store buffer 0) headerSize (bytesAt data 0 hdr.length.toNat)) 0 maxWireSize

namespace Parcel
variable (p : Parcel)

/-- The packet header that `Send` fills in. -/
def header (netAddr : BitVec 32) : Header :=
  ⟨p.pktHdr.toAddr, netAddr, p.mailHdr.length + BitVec.ofNat 32 headerSize⟩

/-- `MailHeader` and data, one after the other. -/
def buffer : Memory :=
  overlay (p.mailHdr.store p.mailBuffer 0) headerSize (bytesAt p.data 0 p.mailHdr.length.toNat)

def wire (netAddr : BitVec 32) : Wire := Packets.wire (p.header netAddr) p.buffer p.wireBuffer

/-- The assertions of `Send`. -/
def Legal (numBoxes : ℕ) : Prop :=
  p.mailHdr.length.toNat ≤ maxMailSize ∧ (boxOf numBoxes p.mailHdr).isSome = true

instance (numBoxes : ℕ) : Decidable (p.Legal numBoxes) := inferInstanceAs (Decidable (_ ∧ _))

/-- What `Send` was asked to send. -/
def message (netAddr : BitVec 32) : Message :=
  ⟨p.header netAddr, p.mailHdr, bytesAt p.data 0 p.mailHdr.length.toNat⟩

end Parcel

/-- What the network and the postal worker assert of a packet, and that its length is that of
the message. -/
structure WellFormed (numBoxes : ℕ) (m : Message) : Prop where
  length : m.pktHdr.length.toNat = headerSize + m.mailHdr.length.toNat
  fits : m.mailHdr.length.toNat ≤ maxMailSize
  box : (boxOf numBoxes m.mailHdr).isSome = true

section
variable {m m' : Memory} {a b n : ℕ} {h pktHdr : Header}

theorem headerAt_store (h : Header) (m : Memory) (a : ℕ) : headerAt (h.store m a) a = h := by
  have hto : word (h.store m a) a = h.toAddr := by
    refine (word_congr fun k hk => ?_).trans (word_setWord_self m a h.toAddr)
    rw [Header.store, setWord_of_lt (by omega), setWord_of_lt (by omega)]
  have hfrom : word (h.store m a) (a + 4) = h.fromAddr := by
    refine (word_congr fun k hk => ?_).trans
      (word_setWord_self (setWord m a h.toAddr) (a + 4) h.fromAddr)
    rw [Header.store, setWord_of_lt (by omega)]
  have hlength : word (h.store m a) (a + 8) = h.length := word_setWord_self _ _ _
  rw [headerAt, hto, hfrom, hlength]

theorem headerAt_congr (hm : ∀ k < headerSize, m (a + k) = m' (b + k)) :
    headerAt m a = headerAt m' b := by
  have hword : ∀ d, d + 4 ≤ headerSize → word m (a + d) = word m' (b + d) := by
    refine fun d hd => word_congr fun k hk => ?_
    rw [Nat.add_assoc, Nat.add_assoc]
    exact hm (d + k) (by omega)
  have hto : word m a = word m' b := hword 0 (by decide)
  rw [headerAt, headerAt, hto, hword 4 (by decide), hword 8 (by decide)]

theorem overlay_bytesAt {k : ℕ} (hk : k < n) : overlay m a (bytesAt m' b n) (a + k) = m' (b + k) :=
  overlay_add (bytesAt_getElem? hk)

/-- A message is moved by a copy of the mail header and as many bytes as it says. -/
theorem messageAt_congr
    (hm : ∀ k < headerSize + (headerAt m' b).length.toNat, m (a + k) = m' (b + k)) :
    messageAt pktHdr m a = messageAt pktHdr m' b := by
  have hheader : headerAt m a = headerAt m' b := headerAt_congr fun k hk => hm k (by omega)
  have hdata : bytesAt m (a + headerSize) (headerAt m' b).length.toNat =
      bytesAt m' (b + headerSize) (headerAt m' b).length.toNat := by
    refine bytesAt_congr fun k hk => ?_
    rw [Nat.add_assoc, Nat.add_assoc]
    exact hm (headerSize + k) (by omega)
  rw [messageAt, messageAt, hheader, hdata]

theorem messageAt_copy (hn : headerSize + (headerAt m' b).length.toNat ≤ n) :
    messageAt pktHdr (overlay m 0 (bytesAt m' b n)) 0 = messageAt pktHdr m' b := by
  refine messageAt_congr fun k hk => ?_
  exact overlay_bytesAt (by omega)

end

section parcels
variable {p : Parcel} {netAddr : BitVec 32} {numBoxes : ℕ}

theorem Parcel.messageAt_buffer (p : Parcel) (pktHdr : Header) :
    messageAt pktHdr p.buffer 0 = ⟨pktHdr, p.mailHdr, bytesAt p.data 0 p.mailHdr.length.toNat⟩ := by
  have hheader : headerAt p.buffer 0 = p.mailHdr := by
    refine (headerAt_congr fun k hk => ?_).trans (headerAt_store p.mailHdr p.mailBuffer 0)
    exact overlay_of_lt (by omega)
  have hdata : bytesAt p.buffer (0 + headerSize) p.mailHdr.length.toNat =
      bytesAt p.data 0 p.mailHdr.length.toNat := by
    refine bytesAt_congr fun k hk => ?_
    rw [Nat.zero_add]
    exact overlay_bytesAt hk
  rw [messageAt, hheader, hdata]

theorem Parcel.header_length (hp : p.mailHdr.length.toNat ≤ maxMailSize) :
    (p.header netAddr).length.toNat = headerSize + p.mailHdr.length.toNat := by
  simp only [maxMailSize, maxPacketSize, maxWireSize, headerSize] at hp
  simp only [Parcel.header, headerSize]
  rw [BitVec.toNat_add, BitVec.toNat_ofNat]
  omega

/-- What the destination reads from the socket is what `Network::Send` put together. -/
theorem readFromSocket_wire (hdr : Header) (data buffer : Memory) {k : ℕ} (hk : k < maxWireSize) :
    readFromSocket (wire hdr data buffer) k =
      overlay (hdr.store buffer 0) headerSize (bytesAt data 0 hdr.length.toNat) k := by
  generalize hmemory : overlay (hdr.store buffer 0) headerSize
    (bytesAt data 0 hdr.length.toNat) = memory
  have h : overlay (fun _ => 0) 0 (bytesAt memory 0 maxWireSize) (0 + k) = memory (0 + k) :=
    overlay_bytesAt hk
  rw [Nat.zero_add, ← hmemory] at h
  exact h.trans (congrFun hmemory k)

theorem headerAt_wire (hdr : Header) (data buffer : Memory) :
    headerAt (readFromSocket (wire hdr data buffer)) 0 = hdr := by
  refine (headerAt_congr fun k hk => ?_).trans (headerAt_store hdr buffer 0)
  rw [Nat.zero_add, readFromSocket_wire hdr data buffer (by
    simp only [headerSize] at hk
    simp only [maxWireSize]
    omega)]
  exact overlay_of_lt hk

/-- The packet of a legal `Send` holds the message that was to be sent. -/
theorem Parcel.ofWire_wire (hp : p.mailHdr.length.toNat ≤ maxMailSize) :
    Message.ofWire (p.wire netAddr) = p.message netAddr := by
  have hlength : (p.header netAddr).length.toNat = headerSize + p.mailHdr.length.toNat :=
    Parcel.header_length hp
  have hbuffer : headerAt p.buffer 0 = p.mailHdr :=
    congrArg Message.mailHdr (p.messageAt_buffer (p.header netAddr))
  rw [Message.ofWire, Parcel.wire, headerAt_wire]
  refine Eq.trans (messageAt_congr fun k hk => ?_) (p.messageAt_buffer (p.header netAddr))
  rw [hbuffer] at hk
  rw [readFromSocket_wire _ _ _ (by
    simp only [maxMailSize, maxPacketSize, maxWireSize, headerSize] at hp hk ⊢
    omega)]
  exact overlay_bytesAt (by omega)

theorem Parcel.message_wellFormed (hp : p.Legal numBoxes) :
    WellFormed numBoxes (p.message netAddr) :=
  ⟨Parcel.header_length hp.1, hp.1, hp.2⟩

end parcels

end Nachos.Packets
