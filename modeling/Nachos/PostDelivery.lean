import Nachos.PostOffice

/-! What one machine of the network does, whatever its threads do and whatever packets its socket holds. The
send lock and the semaphore `messageSent` make the transmissions follow each other; a packet that has been
read stays in the buffer of the device until the postal worker, which the semaphore `messageAvailable` lets
through once for each packet, has taken it. -/

namespace Nachos

open Interleaving

variable {numBoxes : Nat}

theorem bcopy_apply (src dst : Image Byte) (a b n k : Nat) :
    bcopy src a dst b n k = if b ≤ k ∧ k < b + n then src (a + (k - b)) else dst k :=
  Image.store_load ..

namespace Packet

variable (format : WireFormat) (p : Packet numBoxes)

theorem length_header : p.header.length.toNat = p.letter.mailHdr.length.toNat + headerSize := by
  have hlegal := p.letter.legal
  simp only [MailHeader.legal, decide_eq_true_eq] at hlegal
  have hle : p.letter.mailHdr.length.toNat ≤ 40 := hlegal.1
  have hadd : p.header.length = p.letter.mailHdr.length + 12#32 := rfl
  rw [hadd, BitVec.toNat_add, headerSize]
  simp only [BitVec.toNat_ofNat]
  omega

theorem length_header_le : p.header.length.toNat ≤ maxPacketSize := by
  have hlegal := p.letter.legal
  simp only [MailHeader.legal, decide_eq_true_eq] at hlegal
  have hle : p.letter.mailHdr.length.toNat ≤ 40 := hlegal.1
  rw [length_header]
  simp only [headerSize, maxPacketSize, maxWireSize]
  omega

theorem length_header_ne_zero : p.header.length ≠ 0 := by
  intro hzero
  have hlength := p.length_header
  rw [hzero] at hlength
  simp [headerSize] at hlength

/-- What the receiver finds in the datagram: the header of the packet, and then the mail. -/
theorem datagram_apply {k : Nat} (hk : k < maxWireSize) : Image.ofList (p.datagram format) 0 k =
    if headerSize ≤ k ∧ k < headerSize + p.header.length.toNat then p.mail format (k - headerSize)
    else if k < headerSize then format.packetHeader.cells p.header k else p.wire k := by
  rw [Image.ofList_apply, datagram, Image.getElem?_load, if_pos hk, Option.getD_some, bcopy_apply, bcopy_apply]
  simp only [Nat.zero_add, Nat.zero_le, true_and, Nat.sub_zero]

theorem read_datagram : format.packetHeader.read (Image.ofList (p.datagram format) 0) = p.header := by
  calc format.packetHeader.read (Image.ofList (p.datagram format) 0)
      = format.packetHeader.read (format.packetHeader.cells p.header) := by
        apply format.packetHeader.read_congr
        intro k hk
        rw [format.size_packetHeader] at hk
        have hk12 : k < 12 := hk
        rw [p.datagram_apply format (by simp only [maxWireSize]; omega), if_neg (by simp only [headerSize]; omega),
          if_pos hk]
    _ = p.header := format.packetHeader.read_cells _

theorem mail_datagram {k : Nat} (hk : k < p.header.length.toNat) :
    Image.ofList (p.datagram format) 0 (headerSize + k) = p.mail format k := by
  have hle : p.header.length.toNat ≤ 52 := p.length_header_le
  rw [p.datagram_apply format (by simp only [maxWireSize, headerSize]; omega), if_pos ⟨by omega, by omega⟩,
    Nat.add_sub_cancel_left]

/-- A buffer that begins with the mail. -/
theorem read_mail {buffer : Image Byte} (h : ∀ k < p.header.length.toNat, buffer k = p.mail format k) :
    format.mailHeader.read buffer = p.letter.mailHdr ∧
      Image.load buffer headerSize p.letter.mailHdr.length.toNat =
        Image.load p.letter.data 0 p.letter.mailHdr.length.toNat := by
  have hlength := p.length_header
  constructor
  · calc format.mailHeader.read buffer
        = format.mailHeader.read (format.mailHeader.cells p.letter.mailHdr) := by
          apply format.mailHeader.read_congr
          intro k hk
          rw [format.size_mailHeader] at hk
          rw [h k (by omega), mail, bcopy_apply, if_neg (by omega), bcopy_apply, if_pos (by omega), Nat.zero_add,
            Nat.sub_zero]
      _ = p.letter.mailHdr := format.mailHeader.read_cells _
  · apply Image.load_congr
    intro k hk
    rw [h (headerSize + k) (by omega), mail, bcopy_apply, if_pos ⟨by omega, by omega⟩, Nat.add_sub_cancel_left]

end Packet

section Machine

variable (format : WireFormat) (ident : NetworkAddress) (lost : Nat → Bool) (inHdr : PacketHeader)
  (inbox : Image Byte)

/-- The number of transmissions and the packets in the sockets, after one more call of `PostOffice::Send`. -/
def posting : Nat × List (Packet numBoxes) → ThreadId × PostCall numBoxes → Nat × List (Packet numBoxes)
  | (sends, sent), (_, .send letter fresh wire) =>
      (sends + 1, if lost sends then sent else sent ++ [⟨ident, letter, fresh, wire⟩])
  | before, _ => before

/-- The packets that reach the sockets when these calls of `PostOffice::Send` are made one after another. -/
def posted (calls : List (ThreadId × PostCall numBoxes)) : List (Packet numBoxes) :=
  (calls.foldl (posting ident lost) (0, [])).2

theorem netAddr_posted {calls : List (ThreadId × PostCall numBoxes)} {p : Packet numBoxes}
    (hp : p ∈ posted ident lost calls) : p.netAddr = ident := by
  induction calls using List.reverseRecOn with
  | nil => cases hp
  | append_singleton calls call ih =>
      unfold posted at hp ih
      rw [List.foldl_append] at hp
      obtain ⟨t, c⟩ := call
      cases c with
      | send letter fresh wire =>
          change p ∈ if _ then _ else _ ++ [_] at hp
          split at hp
          · exact ih hp
          · rcases List.mem_append.mp hp with hp | hp
            · exact ih hp
            · rw [List.mem_singleton.mp hp]
      | _ => exact ih hp

def PostCall.sends : PostCall numBoxes → Bool
  | .send _ _ _ => true
  | _ => false

/-- The request that a call of `PostOffice::Send` makes. -/
def transmission : PostCall numBoxes → ThreadId → Post numBoxes → Unit → Post numBoxes × Unit × List Empty
  | .send letter fresh wire, _, post, _ =>
      (if post.network.maySend ident (Packet.header ⟨ident, letter, fresh, wire⟩) then
        { post with network := post.network.send lost ⟨ident, letter, fresh, wire⟩ } else post, (), [])
  | _, _, post, _ => (post, (), [])

def PostCall.mayTransmit : PostCall numBoxes → Post numBoxes → Bool
  | .send letter fresh wire, post => post.network.maySend ident (Packet.header ⟨ident, letter, fresh, wire⟩)
  | _, _ => false

theorem maySend_header {post : Post numBoxes} (hbusy : post.network.sendBusy = false) (p : Packet numBoxes) :
    post.network.maySend p.netAddr p.header = true := by
  have hlength := p.length_header
  have hle := p.length_header_le
  simp only [headerSize] at hlength
  simp only [Network.maySend, decide_eq_true_eq]
  exact ⟨hbusy, by omega, hle, rfl⟩

theorem arrive_network (p : Packet numBoxes) (post : Post numBoxes) :
    (arrive format ident p post).1.network.sendsPending = post.network.sendsPending ∧
      (arrive format ident p post).1.network.sendBusy = post.network.sendBusy ∧
      (arrive format ident p post).1.network.sends = post.network.sends ∧
      (arrive format ident p post).1.network.sent = post.network.sent ∧
      ∀ x ∈ (arrive format ident p post).2, x = PostSem.messageAvailable := by
  unfold arrive
  simp only
  split_ifs
  · exact ⟨rfl, rfl, rfl, rfl, fun x hx => List.mem_singleton.mp hx⟩
  · exact ⟨rfl, rfl, rfl, rfl, nofun⟩

/-- A poll does nothing to the side of the device that sends. -/
theorem readPoll_send {packet : Option (Packet numBoxes)} {post post' : Post numBoxes} {released : List PostSem}
    (hhandler : networkHandler format ident (.readPoll packet) post = some (post', released)) :
    post'.network.sendsPending = post.network.sendsPending ∧ post'.network.sendBusy = post.network.sendBusy ∧
      post'.network.sends = post.network.sends ∧ post'.network.sent = post.network.sent ∧
      ∀ x ∈ released, x = PostSem.messageAvailable := by
  simp only [networkHandler] at hhandler
  split at hhandler
  · cases hhandler
    exact ⟨rfl, rfl, rfl, rfl, nofun⟩
  · cases packet with
    | none =>
        cases hhandler
        exact ⟨rfl, rfl, rfl, rfl, nofun⟩
    | some p =>
        have harrive := arrive_network format ident p post
        rw [Option.some.inj hhandler] at harrive
        exact harrive

theorem sendDone_cases {post post' : Post numBoxes} {released : List PostSem}
    (hhandler : networkHandler format ident .sendDone post = some (post', released)) :
    0 < post.network.sendsPending ∧ post' = { post with network := post.network.sendDone } ∧
      released = [.messageSent] := by
  simp only [networkHandler] at hhandler
  split at hhandler
  · cases hhandler
    exact ⟨‹_›, rfl, rfl⟩
  · cases hhandler

theorem deliver_send (buffer : Image Byte) (post : Post numBoxes) :
    (deliver format buffer post).2.network.sendsPending = post.network.sendsPending ∧
      (deliver format buffer post).2.network.sendBusy = post.network.sendBusy ∧
      (deliver format buffer post).2.network.sends = post.network.sends ∧
      (deliver format buffer post).2.network.sent = post.network.sent := by
  unfold deliver
  simp only
  split_ifs
  · exact ⟨rfl, rfl, rfl, rfl⟩
  · exact ⟨rfl, rfl, rfl, rfl⟩

theorem deliver_received (buffer : Image Byte) (post : Post numBoxes) :
    (deliver format buffer post).2.network.received = post.network.received := by
  unfold deliver
  simp only
  split_ifs
  · rfl
  · rfl

/-- The device as the calls of `PostOffice::Send` use it. -/
def sender : LockedDevice (postSystem format ident lost numBoxes inHdr inbox) (Nat × List (Packet numBoxes)) where
  lock := .sendLock
  done := .messageSent
  pending post := post.network.sendsPending
  busy post := post.network.sendBusy
  contents post := (post.network.sends, post.network.sent)
  uses := PostCall.sends
  ready c post := c.mayTransmit ident post
  request := transmission ident lost
  effect := posting ident lost
  lock_ne_done := by decide
  menu_uses := by
    intro c huses
    cases c with
    | send letter fresh wire => exact if_pos letter.legal
    | _ => cases huses
  menu_free := by
    intro c huses
    cases c with
    | send letter fresh wire => cases huses
    | postalDelivery buffer =>
        refine ⟨rfl, ?_, ?_⟩
        · intro t post priv
          obtain ⟨hpending, hbusy, hsends, hsent⟩ := deliver_send format buffer post
          exact ⟨by simp only [hpending, hbusy, hsends, hsent], nofun⟩
        · intro t post priv
          show Program.Free _ (if _ then _ else _)
          split
          · trivial
          · trivial
    | compute => trivial
    | fork =>
        refine ⟨rfl, ?_⟩
        intro u
        cases u with
        | none => trivial
        | some u => exact ⟨rfl, trivial, trivial⟩
    | exit => exact rfl
  request_ready := by
    intro c post huses hbusy
    cases c with
    | send letter fresh wire => exact maySend_header hbusy ⟨ident, letter, fresh, wire⟩
    | _ => cases huses
  request_pending := by
    intro c t post priv huses hbusy
    cases c with
    | send letter fresh wire =>
        simp only [transmission, maySend_header hbusy ⟨ident, letter, fresh, wire⟩, if_true]
        rfl
    | _ => cases huses
  request_contents := by
    intro c t post priv huses hbusy
    cases c with
    | send letter fresh wire =>
        simp only [transmission, maySend_header hbusy ⟨ident, letter, fresh, wire⟩, if_true]
        rfl
    | _ => cases huses
  handler := by
    intro i post post' released hhandler
    cases i with
    | readPoll packet =>
        left
        obtain ⟨hpending, hbusy, hsends, hsent, hreleased⟩ := readPoll_send format ident hhandler
        refine ⟨by simp only [hpending, hbusy, hsends, hsent], ?_⟩
        intro x hx
        rw [hreleased x hx]
        exact ⟨nofun, nofun⟩
    | sendDone =>
        right
        obtain ⟨hpending, rfl, rfl⟩ := sendDone_cases format ident hhandler
        exact ⟨hpending, rfl, rfl, rfl, rfl⟩
  initial_lock := rfl
  initial_done := rfl
  initial_pending := rfl
  initial_busy := rfl

/-- The side of the device that receives, with the postal worker. -/
def inboxRegion : Region PostSem (Post numBoxes) Empty
    (PacketHeader × Image Byte × List (Packet numBoxes) × List Delivery × Bool) where
  sems
    | .messageAvailable => true
    | _ => false
  view post := (post.network.inHdr, post.network.inbox, post.network.received, post.delivered, post.failed)
  seen _ := false
  threads := false
  mayAbort := true

/-- The packet is in the buffer of the device. -/
def Buffered (p : Packet numBoxes) (network : Network numBoxes) : Prop :=
  network.inHdr = p.header ∧ ∀ k < p.header.length.toNat, network.inbox k = p.mail format k

/-- The buffer of the device, with the number of times that the postal worker may still look into it. -/
inductive Inbox (post : Post numBoxes) : Int → Prop where
  | failed (hother : ∃ p ∈ post.network.received, p.header.toAddr ≠ ident)
      (hfull : post.network.inHdr.length ≠ 0) : Inbox post 0
  | empty (hsound : post.failed = false) (hempty : post.network.inHdr.length = 0)
      (hdelivered : post.delivered = post.network.received.map Packet.delivery) : Inbox post 0
  | full (before : List (Packet numBoxes)) (p : Packet numBoxes) (hsound : post.failed = false)
      (hreceived : post.network.received = before ++ [p]) (hdelivered : post.delivered = before.map Packet.delivery)
      (hbuffered : Buffered format p post.network) : Inbox post 1

variable {format ident lost inHdr inbox}

theorem Inbox.congr {post post' : Post numBoxes} (hview : inboxRegion.view post' = inboxRegion.view post)
    {tokens : Int} (h : Inbox format ident post tokens) : Inbox format ident post' tokens := by
  simp only [inboxRegion, Prod.mk.injEq] at hview
  obtain ⟨hinHdr, hinbox, hreceived, hdelivered, hfailed⟩ := hview
  cases h with
  | failed hother hfull => exact .failed (hreceived ▸ hother) (hinHdr ▸ hfull)
  | empty hsound hempty hmails =>
      refine .empty (hfailed.trans hsound) (hinHdr ▸ hempty) ?_
      rw [hdelivered, hreceived, hmails]
  | full before p hsound hpackets hmails hbuffered =>
      refine .full before p (hfailed.trans hsound) (hreceived.trans hpackets) (hdelivered.trans hmails) ?_
      exact ⟨hinHdr.trans hbuffered.1, fun k hk => (congrFun hinbox k).trans (hbuffered.2 k hk)⟩

theorem sendDone_view (post : Post numBoxes) :
    inboxRegion.view { post with network := post.network.sendDone } = inboxRegion.view post := rfl

/-- A packet with the address of the machine is read into the buffer and announced. -/
theorem arrive_addressed (format : WireFormat) {ident : NetworkAddress} (post : Post numBoxes) {p : Packet numBoxes}
    (haddr : p.header.toAddr = ident) :
    (Nachos.arrive format ident p post).2 = [.messageAvailable] ∧
      (Nachos.arrive format ident p post).1.network.received = post.network.received ++ [p] ∧
      (Nachos.arrive format ident p post).1.delivered = post.delivered ∧
      (Nachos.arrive format ident p post).1.failed = post.failed ∧
      Buffered format p (Nachos.arrive format ident p post).1.network := by
  unfold Nachos.arrive
  simp only [p.read_datagram format, if_pos (And.intro haddr p.length_header_le)]
  refine ⟨trivial, trivial, trivial, trivial, rfl, ?_⟩
  intro k hk
  change bcopy (Image.ofList (p.datagram format) 0) headerSize post.network.inbox 0 p.header.length.toNat k = _
  rw [bcopy_apply, if_pos ⟨Nat.zero_le k, by omega⟩, Nat.sub_zero, p.mail_datagram format hk]

/-- A packet is read into the empty buffer. -/
theorem Inbox.arrive (format : WireFormat) (ident : NetworkAddress) {post : Post numBoxes}
    (hsound : post.failed = false) (hdelivered : post.delivered = post.network.received.map Packet.delivery)
    (p : Packet numBoxes) :
    ((Nachos.arrive format ident p post).2 = [.messageAvailable] ∧
        Inbox format ident (Nachos.arrive format ident p post).1 1) ∨
      ((Nachos.arrive format ident p post).2 = [] ∧ Inbox format ident (Nachos.arrive format ident p post).1 0) := by
  by_cases haddr : p.header.toAddr = ident
  · obtain ⟨hreleased, hreceived, hsame, hfailed, hbuffered⟩ := arrive_addressed format post haddr
    exact .inl ⟨hreleased,
      .full post.network.received p (hfailed.trans hsound) hreceived (hsame.trans hdelivered) hbuffered⟩
  · unfold Nachos.arrive
    simp only [p.read_datagram format]
    rw [if_neg fun haccepted => haddr haccepted.1]
    exact .inr ⟨rfl, .failed ⟨p, by simp, haddr⟩ p.length_header_ne_zero⟩

/-- The postal worker takes the packet out of the buffer. -/
theorem Inbox.deliver {post : Post numBoxes} (h : Inbox format ident post 1) (buffer : Image Byte) :
    (Nachos.deliver format buffer post).1 = true ∧ Inbox format ident (Nachos.deliver format buffer post).2 0 := by
  cases h with
  | full before p hsound hreceived hdelivered hbuffered =>
      obtain ⟨hinHdr, hmail⟩ := hbuffered
      have hcopied : ∀ k < p.header.length.toNat,
          bcopy post.network.inbox 0 buffer 0 p.header.length.toNat k = p.mail format k := by
        intro k hk
        rw [bcopy_apply, if_pos ⟨Nat.zero_le k, by omega⟩, Nat.zero_add, Nat.sub_zero, hmail k hk]
      obtain ⟨hmailHdr, hpayload⟩ := p.read_mail format hcopied
      have hlegal := p.letter.legal
      unfold Nachos.deliver Network.receive
      simp only [hinHdr, if_pos p.length_header_ne_zero, hmailHdr, hlegal, if_true, hpayload]
      refine ⟨trivial, .empty hsound rfl ?_⟩
      change post.delivered ++ [p.delivery] = post.network.received.map Packet.delivery
      rw [hreceived, hdelivered, List.map_append]
      rfl

abbrev PostState (numBoxes : Nat) := Interleaving.State PostSem (PostCall numBoxes) (Post numBoxes) Unit Empty

abbrev PostThread (numBoxes : Nat) := Interleaving.Thread PostSem (PostCall numBoxes) (Post numBoxes) Unit Empty

/-- The thread is about to wait for a message. -/
def EnterDelivery (format : WireFormat) (call : Option (PostCall numBoxes))
    (p : Program PostSem (Post numBoxes) Unit Empty) : Prop :=
  ∃ buffer, call = some (.postalDelivery buffer) ∧ p = .semP .messageAvailable (delivering format buffer)

/-- Nobody has passed the semaphore for the packet in the buffer. -/
def InboxIdle (format : WireFormat) (ident : NetworkAddress) (s : PostState numBoxes) : Prop :=
  Inbox format ident s.shared (s.value .messageAvailable)

/-- The thread has passed the semaphore and will take the packet. -/
def InboxInside (format : WireFormat) (ident : NetworkAddress) (_ : ThreadId) (th : PostThread numBoxes)
    (s : PostState numBoxes) : Prop :=
  s.value .messageAvailable = 0 ∧ Inbox format ident s.shared 1 ∧
    ∃ buffer, th.call = some (.postalDelivery buffer) ∧ th.code = some (delivering format buffer)

theorem InboxIdle.interrupt {s : PostState numBoxes} {i : PostInterrupt numBoxes} {post : Post numBoxes}
    {released : List PostSem} (h : InboxIdle format ident s)
    (hhandler : networkHandler format ident i s.shared = some (post, released)) :
    InboxIdle format ident (afterInterrupt s post released) := by
  cases i with
  | sendDone =>
      obtain ⟨-, rfl, rfl⟩ := sendDone_cases format ident hhandler
      exact h.congr (sendDone_view s.shared)
  | readPoll packet =>
      simp only [networkHandler] at hhandler
      split at hhandler
      · cases hhandler
        exact h
      · rename_i hempty
        cases packet with
        | none =>
            cases hhandler
            exact h
        | some p =>
            unfold InboxIdle at h
            generalize hvalue : s.value .messageAvailable = tokens at h
            cases h with
            | failed hother hfull => exact absurd hfull hempty
            | full before q hsound hreceived hdelivered hbuffered =>
                rw [hbuffered.1] at hempty
                exact absurd q.length_header_ne_zero hempty
            | empty hsound hzero hdelivered =>
                rcases Inbox.arrive format ident hsound hdelivered p with
                  ⟨hreleased, hinbox⟩ | ⟨hreleased, hinbox⟩
                · rw [Option.some.inj hhandler] at hreleased hinbox
                  subst hreleased
                  have hone : releaseAll [.messageAvailable] s.value .messageAvailable = 1 := by
                    rw [releaseAll, releaseAll, Function.update_self, hvalue]
                    rfl
                  change Inbox format ident post (releaseAll [.messageAvailable] s.value .messageAvailable)
                  rw [hone]
                  exact hinbox
                · rw [Option.some.inj hhandler] at hreleased hinbox
                  subst hreleased
                  change Inbox format ident post (s.value .messageAvailable)
                  rw [hvalue]
                  exact hinbox

/-- While the buffer is full a poll does nothing. -/
theorem InboxInside.interrupt {s : PostState numBoxes} {i : PostInterrupt numBoxes} {post : Post numBoxes}
    {released : List PostSem} {t : ThreadId} {th : PostThread numBoxes} (h : InboxInside format ident t th s)
    (hhandler : networkHandler format ident i s.shared = some (post, released)) :
    InboxInside format ident t th (afterInterrupt s post released) := by
  obtain ⟨hvalue, hinbox, hcode⟩ := h
  cases i with
  | sendDone =>
      obtain ⟨-, rfl, rfl⟩ := sendDone_cases format ident hhandler
      exact ⟨hvalue, hinbox.congr (sendDone_view s.shared), hcode⟩
  | readPoll packet =>
      have hfull : s.shared.network.inHdr.length ≠ 0 := by
        cases hinbox with
        | full before q hsound hreceived hdelivered hbuffered =>
            rw [hbuffered.1]
            exact q.length_header_ne_zero
      simp only [networkHandler, if_pos hfull] at hhandler
      cases hhandler
      exact ⟨hvalue, hinbox, hcode⟩

/-- The packets go through the buffer one at a time. -/
theorem inbox_section (format : WireFormat) (ident : NetworkAddress) (lost : Nat → Bool) (inHdr : PacketHeader)
    (inbox : Image Byte) :
    CriticalSection (postSystem format ident lost numBoxes inHdr inbox) inboxRegion .messageAvailable
      (EnterDelivery format) (InboxIdle format ident) (InboxInside format ident) where
  menu c := by
    cases c with
    | send letter fresh wire =>
        left
        change Program.Free _ (if _ then _ else _)
        rw [if_pos letter.legal]
        refine ⟨rfl, ?_, ?_⟩
        · intro t post priv
          refine ⟨?_, nofun⟩
          change inboxRegion.view (if _ then _ else _) = _
          split
          · rfl
          · rfl
        · intro t post priv
          change Program.Free _ (if _ then _ else _)
          split
          · exact ⟨rfl, rfl, trivial⟩
          · exact rfl
    | postalDelivery buffer => exact .inr ⟨buffer, rfl, rfl⟩
    | compute => exact .inl trivial
    | fork =>
        refine .inl ⟨rfl, ?_⟩
        intro u
        cases u with
        | none => trivial
        | some u => exact ⟨rfl, trivial, trivial⟩
    | exit => exact .inl rfl
  entry := by
    rintro call p ⟨buffer, -, rfl⟩
    exact ⟨_, rfl⟩
  idle_congr s s' hsame h := by
    unfold InboxIdle
    rw [hsame.value .messageAvailable rfl]
    exact h.congr hsame.view
  inside_congr s s' t th hsame h :=
    ⟨(hsame.value .messageAvailable rfl).trans h.1, h.2.1.congr hsame.view, h.2.2⟩
  closed := by
    rintro s t th ⟨hvalue, -, buffer, -, hcode⟩
    exact ⟨hvalue, by simp [hcode]⟩
  enter := by
    rintro s t th k h ⟨buffer, hcall, heq⟩ hvalue
    cases heq
    unfold InboxIdle at h
    generalize htokens : s.value .messageAvailable = tokens at h
    cases h with
    | failed hother hfull => exact absurd htokens hvalue
    | empty hsound hempty hdelivered => exact absurd htokens hvalue
    | full before p hsound hreceived hdelivered hbuffered =>
        refine ⟨?_, .full before p hsound hreceived hdelivered hbuffered, buffer, hcall, rfl⟩
        change Function.update s.value .messageAvailable (s.value .messageAvailable - 1) .messageAvailable = 0
        rw [Function.update_self, htokens]
        rfl
  inside := by
    rintro s s' t th p ⟨hvalue, hinbox, buffer, -, hcode⟩ ht hp hruns
    rw [hcode] at hp
    cases hp
    obtain ⟨hlegal, hafter⟩ := hinbox.deliver buffer
    cases hruns
    refine inside_of_setThread rfl (.inr ⟨?_, .of_free (p := .tick .ret) ?_ trivial⟩)
    · change Inbox format ident (deliver format buffer s.shared).2 (s.value .messageAvailable)
      rw [hvalue]
      exact hafter
    · simp [hlegal]
  interrupt s i post released hhandler := by
    refine ⟨fun h => h.interrupt hhandler, ?_⟩
    intro t th h
    exact h.interrupt hhandler

/-- In every interleaving the buffer is empty or holds the last packet that was read. -/
theorem inbox_reachable {s : PostState numBoxes}
    (h : (postSystem format ident lost numBoxes inHdr inbox).interleaving.Reachable s) :
    ∃ tokens, Inbox format ident s.shared tokens := by
  have hidle : InboxIdle format ident (Interleaving.initial (postSystem format ident lost numBoxes inHdr inbox)) :=
    .empty rfl rfl rfl
  rcases (inbox_section format ident lost inHdr inbox).reachable hidle h with
    ⟨hinbox, -⟩ | ⟨t, th, -, ⟨-, hinbox, -⟩, -⟩
  · exact ⟨_, hinbox⟩
  · exact ⟨_, hinbox⟩

/-- While no packet is announced and no thread has passed the semaphore, all mails have been delivered. -/
theorem inbox_quiet {s : PostState numBoxes}
    (h : (postSystem format ident lost numBoxes inHdr inbox).interleaving.Reachable s)
    (hvalue : s.value .messageAvailable = 0)
    (hrest : ∀ t th buffer, s.thread t = some th → th.call = some (.postalDelivery buffer) →
      th.code ≠ some (delivering format buffer)) : Inbox format ident s.shared 0 := by
  have hidle : InboxIdle format ident (Interleaving.initial (postSystem format ident lost numBoxes inHdr inbox)) :=
    .empty rfl rfl rfl
  rcases (inbox_section format ident lost inHdr inbox).reachable hidle h with
    ⟨hinbox, -⟩ | ⟨t, th, hth, ⟨-, -, buffer, hcall, hcode⟩, -⟩
  · unfold InboxIdle at hinbox
    rwa [hvalue] at hinbox
  · exact absurd hcode (hrest t th buffer hth hcall)

/-- A poll reads the packet that is in the socket into the empty buffer. -/
theorem readPoll_reads {post : Post numBoxes} (hempty : post.network.inHdr.length = 0) {p : Packet numBoxes}
    (haddr : p.header.toAddr = ident) : ∃ post', networkHandler format ident (.readPoll (some p)) post =
      some (post', [.messageAvailable]) ∧ post'.network.received = post.network.received ++ [p] ∧
      post'.delivered = post.delivered ∧ post'.failed = post.failed ∧ Buffered format p post'.network := by
  obtain ⟨hreleased, hreceived, hdelivered, hfailed, hbuffered⟩ := arrive_addressed format post haddr
  refine ⟨_, ?_, hreceived, hdelivered, hfailed, hbuffered⟩
  simp only [networkHandler, hempty, ne_eq, not_true_eq_false, if_false, ← hreleased]

end Machine

end Nachos
