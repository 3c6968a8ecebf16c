import Nachos.BitMap
import Nachos.LockedDevice
import Nachos.ObjectLayout
import Nachos.Refinement

/-! The network device of `machine/network.cc` and the post office of `network/post.cc`. A machine has an
address; its device polls the socket with its name for incoming packets and puts outgoing ones into the
sockets of other machines. `MailBox::Put` is a sink: what it is given is recorded. -/

namespace Nachos

abbrev NetworkAddress := Word

/-- A `PacketHeader`: the fields `to`, `from` and `length`. -/
structure PacketHeader where
  toAddr : NetworkAddress
  fromAddr : NetworkAddress
  length : Word

/-- A `MailHeader`: the fields `to`, `from` and `length`. -/
structure MailHeader where
  toBox : Word
  fromBox : Word
  length : Word

/-- The size of either header. -/
def headerSize : Nat := 12

def maxWireSize : Nat := 64

def maxPacketSize : Nat := maxWireSize - headerSize

def maxMailSize : Nat := maxPacketSize - headerSize

/-- How the machines lay out the headers in memory. -/
structure WireFormat where
  packetHeader : Layout Byte PacketHeader
  mailHeader : Layout Byte MailHeader
  size_packetHeader : packetHeader.size = headerSize
  size_mailHeader : mailHeader.size = headerSize

/-- The layout of three words. -/
def headerLayout {α : Type} (make : Word → Word → Word → α) (fields : α → Word × Word × Word)
    (h : ∀ x, make (fields x).1 (fields x).2.1 (fields x).2.2 = x) : Layout Byte α where
  size := headerSize
  cells x := Layout.littleEndian.arrayCells [(fields x).1, (fields x).2.1, (fields x).2.2]
  read m := make (Layout.littleEndian.read fun k => m (0 + 4 * 0 + k))
    (Layout.littleEndian.read fun k => m (0 + 4 * 1 + k)) (Layout.littleEndian.read fun k => m (0 + 4 * 2 + k))
  read_congr := by
    intro m m' hm
    have hword : ∀ i < 3, Layout.littleEndian.read (fun k => m (0 + 4 * i + k)) =
        Layout.littleEndian.read fun k => m' (0 + 4 * i + k) := by
      intro i hi
      apply Layout.littleEndian.read_congr
      intro k hk
      have hk : k < 4 := hk
      exact hm _ (by simp only [headerSize]; omega)
    rw [hword 0 (by decide), hword 1 (by decide), hword 2 (by decide)]
  read_cells := by
    intro x
    have hwords := Layout.littleEndian.readArray_arrayCells [(fields x).1, (fields x).2.1, (fields x).2.2]
    obtain ⟨hfirst, hrest⟩ := List.cons.inj hwords
    obtain ⟨hsecond, hrest⟩ := List.cons.inj hrest
    obtain ⟨hthird, -⟩ := List.cons.inj hrest
    exact (congrArg₂ (fun f g => make f g _) hfirst hsecond).trans ((congrArg _ hthird).trans (h x))

/-- The format of little-endian machines. -/
def WireFormat.littleEndian : WireFormat where
  packetHeader := headerLayout PacketHeader.mk (fun hdr => (hdr.toAddr, hdr.fromAddr, hdr.length)) fun _ => rfl
  mailHeader := headerLayout MailHeader.mk (fun hdr => (hdr.toBox, hdr.fromBox, hdr.length)) fun _ => rfl
  size_packetHeader := rfl
  size_mailHeader := rfl

/-- The check that `PostOffice::Send` and `PostOffice::PostalDelivery` make of a mail. -/
def MailHeader.legal (numBoxes : Nat) (hdr : MailHeader) : Bool :=
  decide (hdr.length.toNat ≤ maxMailSize ∧ 0 ≤ hdr.toBox.toInt ∧ hdr.toBox.toInt < numBoxes)

/-- The arguments of `PostOffice::Send`, for a mail that passes its assertions. `data` is what the memory
holds from the pointer on. -/
structure Letter (numBoxes : Nat) where
  pktHdr : PacketHeader
  mailHdr : MailHeader
  data : Image Byte
  legal : mailHdr.legal numBoxes = true

/-- A letter that `netAddr` sends, with what the memory of the two buffers held when they were allocated. -/
structure Packet (numBoxes : Nat) where
  netAddr : NetworkAddress
  letter : Letter numBoxes
  fresh : Image Byte
  wire : Image Byte

/-- What `MailBox::Put` is given: the headers and the bytes that it copies. -/
structure Delivery where
  pktHdr : PacketHeader
  mailHdr : MailHeader
  payload : List Byte

/-- `bcopy`, between two buffers. -/
def bcopy (src : Image Byte) (a : Nat) (dst : Image Byte) (b n : Nat) : Image Byte :=
  Image.store dst b (Image.load src a n)

namespace Packet

variable {numBoxes : Nat}

/-- The header that `PostOffice::Send` fills in. -/
def header (p : Packet numBoxes) : PacketHeader :=
  { p.letter.pktHdr with
    fromAddr := p.netAddr
    length := p.letter.mailHdr.length + BitVec.ofNat 32 headerSize }

/-- The buffer in which `PostOffice::Send` concatenates the mail header and the data. -/
def mail (format : WireFormat) (p : Packet numBoxes) : Image Byte :=
  bcopy p.letter.data 0 (bcopy (format.mailHeader.cells p.letter.mailHdr) 0 p.fresh 0 headerSize) headerSize
    p.letter.mailHdr.length.toNat

/-- The bytes that `Network::Send` puts into the socket. -/
def datagram (format : WireFormat) (p : Packet numBoxes) : List Byte :=
  Image.load (bcopy (p.mail format) 0 (bcopy (format.packetHeader.cells p.header) 0 p.wire 0 headerSize) headerSize
    p.header.length.toNat) 0 maxWireSize

/-- The mail that the packet carries. -/
def delivery (p : Packet numBoxes) : Delivery :=
  ⟨p.header, p.letter.mailHdr, Image.load p.letter.data 0 p.letter.mailHdr.length.toNat⟩

end Packet

/-- The fields of a `Network`, the interrupts `NetworkSendInt` that it has scheduled, the calls of `Send`,
the packets that it has given to `SendToSocket` and those that it has got from `ReadFromSocket`. A poll is
always scheduled. -/
structure Network (numBoxes : Nat) where
  sendBusy : Bool
  sendsPending : Nat
  inHdr : PacketHeader
  inbox : Image Byte
  sends : Nat
  sent : List (Packet numBoxes)
  received : List (Packet numBoxes)

namespace Network

variable {numBoxes : Nat}

/-- `Network::Network`, on memory with any contents. -/
def new (inHdr : PacketHeader) (inbox : Image Byte) : Network numBoxes where
  sendBusy := false
  sendsPending := 0
  inHdr := { inHdr with length := 0 }
  inbox := inbox
  sends := 0
  sent := []
  received := []

/-- The assertion of `Network::Send` on machine `ident`. -/
def maySend (ident : NetworkAddress) (hdr : PacketHeader) (network : Network numBoxes) : Bool :=
  decide (network.sendBusy = false ∧ 0 < hdr.length.toNat ∧ hdr.length.toNat ≤ maxPacketSize ∧ hdr.fromAddr = ident)

/-- `Network::Send` after its assertion; `lost` tells what becomes of each of the packets. -/
def send (lost : Nat → Bool) (p : Packet numBoxes) (network : Network numBoxes) : Network numBoxes :=
  { network with
    sendsPending := network.sendsPending + 1
    sends := network.sends + 1
    sent := if lost network.sends then network.sent else network.sent ++ [p] }

/-- `Network::SendDone`, up to the call of the handler. -/
def sendDone (network : Network numBoxes) : Network numBoxes :=
  { network with sendBusy := false, sendsPending := network.sendsPending - 1 }

/-- `Network::Receive`: the header, and the buffer after it. -/
def receive (data : Image Byte) (network : Network numBoxes) : Network numBoxes × PacketHeader × Image Byte :=
  ({ network with inHdr := { network.inHdr with length := 0 } }, network.inHdr,
    if network.inHdr.length ≠ 0 then bcopy network.inbox 0 data 0 network.inHdr.length.toNat else data)

end Network

/-- What the threads and the interrupt handlers of a machine share. `failed` records a failed assertion of an
interrupt handler or of the postal worker. -/
structure Post (numBoxes : Nat) where
  network : Network numBoxes
  delivered : List Delivery
  failed : Bool

inductive PostSem where
  | messageAvailable
  | messageSent
  | sendLock
  deriving DecidableEq

/-- The calls of the threads. `PostalDelivery` is called for one round of its loop, on a buffer that may
hold anything; the postal worker is a thread that calls it again and again. -/
inductive PostCall (numBoxes : Nat) where
  | send (letter : Letter numBoxes) (fresh wire : Image Byte)
  | postalDelivery (buffer : Image Byte)
  | compute
  | fork
  | exit

/-- The interrupts: a poll, with the packet that is in the socket, and the end of a transmission. -/
inductive PostInterrupt (numBoxes : Nat) where
  | readPoll (packet : Option (Packet numBoxes))
  | sendDone

section Machine

variable {numBoxes : Nat} (format : WireFormat) (ident : NetworkAddress) (lost : Nat → Bool)

/-- `Network::CheckPktAvail` for a packet that has been read from the socket. -/
def arrive (p : Packet numBoxes) (post : Post numBoxes) : Post numBoxes × List PostSem :=
  let buffer := Image.ofList (p.datagram format) 0
  let inHdr := format.packetHeader.read buffer
  if inHdr.toAddr = ident ∧ inHdr.length.toNat ≤ maxPacketSize then
    ({ post with
      network := { post.network with
        inHdr := inHdr
        inbox := bcopy buffer headerSize post.network.inbox 0 inHdr.length.toNat
        received := post.network.received ++ [p] } }, [.messageAvailable])
  else
    ({ post with
      network := { post.network with inHdr := inHdr, received := post.network.received ++ [p] }
      failed := true }, [])

/-- The handlers `NetworkReadPoll` and `NetworkSendDone`, with the semaphores that `IncomingPacket` and
`PacketSent` release. -/
def networkHandler : PostInterrupt numBoxes → Post numBoxes → Option (Post numBoxes × List PostSem)
  | .readPoll packet, post =>
      if post.network.inHdr.length ≠ 0 then some (post, [])
      else match packet with
        | none => some (post, [])
        | some p => some (arrive format ident p post)
  | .sendDone, post =>
      if 0 < post.network.sendsPending then
        some ({ post with network := post.network.sendDone }, [.messageSent])
      else none

/-- `PostOffice::Send`, from the call of `Network::Send` on. -/
def networkSend (p : Packet numBoxes) : Program PostSem (Post numBoxes) Unit Empty :=
  .act (fun _ post _ => (if post.network.maySend ident p.header then
      { post with network := post.network.send lost p } else post, (), []))
    fun _ post _ => if post.network.maySend ident p.header then .semP .messageSent (.semV .sendLock .ret) else .abort

/-- A round of `PostOffice::PostalDelivery` after it has waited for a message: whether the mail is legal, and
what is shared afterwards. -/
def deliver (buffer : Image Byte) (post : Post numBoxes) : Bool × Post numBoxes :=
  let (network, pktHdr, buffer) := post.network.receive buffer
  let mailHdr := format.mailHeader.read buffer
  if mailHdr.legal numBoxes then
    (true, { post with
      network := network
      delivered := post.delivered ++ [⟨pktHdr, mailHdr, Image.load buffer headerSize mailHdr.length.toNat⟩] })
  else (false, { post with network := network, failed := true })

/-- What a round does once the semaphore is passed. -/
def delivering (buffer : Image Byte) : Program PostSem (Post numBoxes) Unit Empty :=
  .act (fun _ post _ => ((deliver format buffer post).2, (), []))
    fun _ post _ => if (deliver format buffer post).1 then .tick .ret else .halt

/-- The machine with the address `ident`. -/
def postSystem (numBoxes : Nat) (inHdr : PacketHeader) (inbox : Image Byte) :
    ThreadSystem PostSem (PostCall numBoxes) (PostInterrupt numBoxes) (Post numBoxes) Unit Empty where
  menu
    | .send letter fresh wire =>
        if letter.mailHdr.legal numBoxes then .semP .sendLock (networkSend ident lost ⟨ident, letter, fresh, wire⟩)
        else .abort
    | .postalDelivery buffer => .semP .messageAvailable (delivering format buffer)
    | .compute => .tick .ret
    | .fork => .newThread fun
        | none => .ret
        | some t => .start t .ret .ret
    | .exit => .finish
  handler := networkHandler format ident
  initialValue
    | .messageAvailable => 0
    | .messageSent => 0
    | .sendLock => 1
  initialShared := ⟨.new inHdr inbox, [], false⟩
  initialPrivate := ()
  construct := id
  main := 1

end Machine

end Nachos
