import Nachos.PostDelivery

/-! Machines that are connected by sockets. Every machine runs a kernel with a post office; the packets that
any of them gives to `SendToSocket` are put into the sockets in the order of time, and a machine reads those
with its address in this order. -/

namespace Nachos

open Interleaving

/-- What the machines have in common, and what distinguishes them: the answers of the random generator and
the contents of the memory in which their devices are allocated. -/
structure Internet (numBoxes : Nat) where
  format : WireFormat
  lost : NetworkAddress → Nat → Bool
  inHdr : NetworkAddress → PacketHeader
  inbox : NetworkAddress → Image Byte

namespace Internet

variable {numBoxes : Nat}

/-- The post office of the machine `a`. -/
def machine (net : Internet numBoxes) (a : NetworkAddress) :
    ThreadSystem PostSem (PostCall numBoxes) (PostInterrupt numBoxes) (Post numBoxes) Unit Empty :=
  postSystem net.format a (net.lost a) numBoxes (net.inHdr a) (net.inbox a)

abbrev Host (numBoxes : Nat) := Kernel PostSem (PostCall numBoxes) (Post numBoxes) Unit Empty

/-- The machines, and the packets that have been put into the sockets, in the order of time. -/
structure State (numBoxes : Nat) where
  host : NetworkAddress → Host numBoxes
  wire : List (Packet numBoxes)

/-- The packets that have been put into the socket of `a`. -/
def State.socket (s : State numBoxes) (a : NetworkAddress) : List (Packet numBoxes) :=
  s.wire.filter fun p => decide (p.header.toAddr = a)

/-- One step of the kernel of a machine. What it sends in this step goes to the sockets; what it has read from
its own socket are the first packets there. -/
inductive Step (net : Internet numBoxes) (s : State numBoxes) : State numBoxes → Prop where
  | run (a : NetworkAddress) (choice : Choice (PostCall numBoxes) (PostInterrupt numBoxes) Unit) {k : Host numBoxes}
      {new : List (Packet numBoxes)} (hstep : (s.host a).step (net.machine a) choice = some (.ok k))
      (hsent : k.shared.network.sent = (s.host a).shared.network.sent ++ new)
      (hsocket : k.shared.network.received <+: s.socket a) :
      Step net s ⟨Function.update s.host a k, s.wire ++ new⟩

/-- The runs of the machines, from their start. -/
def system (net : Internet numBoxes) : TransitionSystem (State numBoxes) where
  init s := s = ⟨fun a => Kernel.initial (net.machine a) false, []⟩
  step := Step net

variable {net : Internet numBoxes} {s : State numBoxes}

/-- In a run of the network every machine makes a run of its own. -/
theorem reachable_host (h : net.system.Reachable s) (a : NetworkAddress) :
    (kernel (net.machine a) false).Reachable (s.host a) := by
  induction h with
  | init hinit =>
      subst hinit
      exact .init rfl
  | @step s t hs hstep ih =>
      cases hstep with
      | @run b choice k new hstep hsent hsocket =>
          change (kernel (net.machine a) false).Reachable (Function.update s.host b k a)
          by_cases hab : a = b
          · subst hab
            rw [Function.update_self]
            exact ih.step ⟨choice, hstep⟩
          · rw [Function.update_of_ne hab]
            exact ih

section Host

variable {a : NetworkAddress} {k : Host numBoxes} (h : (kernel (net.machine a) false).Reachable k)

include h

theorem reachable_interleaving : (net.machine a).interleaving.Reachable k.abstraction :=
  Kernel.reachable_abstraction (.inr inferInstance) h

/-- A machine has given to `SendToSocket` what its calls of `PostOffice::Send` give in the order in which they
have acquired the lock, apart from the packets that are lost. -/
theorem host_sent : ∃ calls, k.shared.network.sent = posted a (net.lost a) calls ∧
    (acquisitions .sendLock k.log = calls ∨ ∃ last, acquisitions .sendLock k.log = calls ++ [last]) := by
  obtain ⟨calls, waits, signals, hserves, -, horder⟩ :=
    (sender net.format a (net.lost a) (net.inHdr a) (net.inbox a)).served (reachable_interleaving h)
  refine ⟨calls, congrArg Prod.snd hserves.contents, ?_⟩
  rw [← Kernel.acquisitions_abstraction]
  exact horder

theorem host_netAddr {p : Packet numBoxes} (hp : p ∈ k.shared.network.sent) : p.netAddr = a := by
  obtain ⟨calls, hsent, -⟩ := host_sent h
  rw [hsent] at hp
  exact netAddr_posted _ _ hp

/-- What a machine has read from its socket, if all of it has its address: the mails that it has delivered, and
then the packet that is in the buffer of its device. -/
theorem host_received (hsocket : ∀ p ∈ k.shared.network.received, p.header.toAddr = a) :
    k.shared.failed = false ∧ ∃ taken buffered, k.shared.network.received = taken ++ buffered ∧
      k.shared.delivered = taken.map Packet.delivery ∧
      (k.shared.network.inHdr.length = 0 ∧ buffered = [] ∨
        ∃ p, buffered = [p] ∧ Buffered net.format p k.shared.network) := by
  obtain ⟨tokens, hinbox⟩ := inbox_reachable (reachable_interleaving h)
  cases hinbox with
  | failed hother hfull =>
      obtain ⟨p, hp, hne⟩ := hother
      exact absurd (hsocket p hp) hne
  | empty hsound hempty hdelivered =>
      exact ⟨hsound, k.shared.network.received, [], (List.append_nil _).symm, hdelivered, .inl ⟨hempty, rfl⟩⟩
  | full before p hsound hreceived hdelivered hbuffered =>
      exact ⟨hsound, before, [p], hreceived, hdelivered, .inr ⟨p, rfl, hbuffered⟩⟩

end Host

/-- The sockets hold what the machines have sent and not yet read. -/
structure Consistent (s : State numBoxes) : Prop where
  sent : ∀ a, (s.wire.filter fun p => decide (p.netAddr = a)) = (s.host a).shared.network.sent
  received : ∀ a, (s.host a).shared.network.received <+: s.socket a

theorem consistent (h : net.system.Reachable s) : Consistent s := by
  apply h.invariant
  · rintro s rfl
    exact ⟨fun _ => rfl, fun _ => List.nil_prefix⟩
  · intro s t hs hconsistent hstep
    cases hstep with
    | @run b choice k new hstep hsent hsocket =>
        have hk := (reachable_host hs b).step ⟨choice, hstep⟩
        have hnew : ∀ p ∈ new, p.netAddr = b := by
          intro p hp
          apply host_netAddr hk
          rw [hsent]
          exact List.mem_append_right _ hp
        have hgrows : ∀ a, s.socket a <+: State.socket ⟨Function.update s.host b k, s.wire ++ new⟩ a := by
          intro a
          unfold State.socket
          rw [List.filter_append]
          exact List.prefix_append ..
        constructor
        · intro a
          change ((s.wire ++ new).filter _) = (Function.update s.host b k a).shared.network.sent
          rw [List.filter_append, hconsistent.sent a]
          by_cases hab : a = b
          · subst hab
            have hall : new.filter (fun p => decide (p.netAddr = a)) = new := by
              apply List.filter_eq_self.mpr
              intro p hp
              exact decide_eq_true (hnew p hp)
            rw [Function.update_self, hall, hsent]
          · have hnone : new.filter (fun p => decide (p.netAddr = a)) = [] := by
              apply List.filter_eq_nil_iff.mpr
              intro p hp
              rw [decide_eq_true_eq, hnew p hp]
              exact Ne.symm hab
            rw [Function.update_of_ne hab, hnone, List.append_nil]
        · intro a
          change (Function.update s.host b k a).shared.network.received <+: _
          by_cases hab : a = b
          · subst hab
            rw [Function.update_self]
            exact hsocket.trans (hgrows a)
          · rw [Function.update_of_ne hab]
            exact (hconsistent.received a).trans (hgrows a)

/-- The thread sleeps in `messageAvailable->P()`, or its call is about to return. -/
def AtRest (th : Thread PostSem (PostCall numBoxes) (Post numBoxes) Unit Empty) : Prop :=
  (∃ k, th.kont = .sleep .messageAvailable k) ∨ th.kont = .run .ret

/-- When nothing is announced and the postal workers are at rest, nothing is left in the buffer of the device. -/
theorem host_quiet {a : NetworkAddress} {k : Host numBoxes} (h : (kernel (net.machine a) false).Reachable k)
    (hsocket : ∀ p ∈ k.shared.network.received, p.header.toAddr = a) (hvalue : (k.sem .messageAvailable).value = 0)
    (hrest : ∀ t th buffer, k.thread t = some th → th.call = some (.postalDelivery buffer) → AtRest th) :
    k.shared.network.inHdr.length = 0 ∧ k.shared.delivered = k.shared.network.received.map Packet.delivery := by
  have hinbox : Inbox net.format a k.shared 0 := by
    refine inbox_quiet (reachable_interleaving h) hvalue ?_
    intro t th buffer hth hcall hcode
    obtain ⟨old, hold, habstract⟩ := Option.bind_eq_some_iff.mp hth
    obtain ⟨code, hkont, rfl⟩ := Option.map_eq_some_iff.mp habstract
    rcases hrest t old buffer hold hcall with ⟨next, hsleep⟩ | hret
    · rw [hsleep] at hkont
      cases hkont
      cases hcode
    · rw [hret] at hkont
      cases hkont
      cases hcode
  cases hinbox with
  | failed hother hfull =>
      obtain ⟨p, hp, hne⟩ := hother
      exact absurd (hsocket p hp) hne
  | empty hsound hempty hdelivered => exact ⟨hempty, hdelivered⟩

/-- What the post offices do in a state of the network. -/
structure Delivers (net : Internet numBoxes) (s : State numBoxes) : Prop where
  /-- At most one `NetworkSendInt` of a machine is pending. -/
  pending : ∀ a, (s.host a).shared.network.sendsPending ≤ 1
  /-- No assertion fails. -/
  sound : ∀ a, (s.host a).shared.failed = false ∧
    ∀ choice, (s.host a).step (net.machine a) choice ≠ some (.error .client)
  /-- What a machine has put into the sockets are the mails of its calls of `PostOffice::Send`, in the order in
  which these have acquired the lock, apart from those that `Network::Send` has dropped. -/
  sent : ∀ a, ∃ calls, (s.wire.filter fun p => decide (p.netAddr = a)) = posted a (net.lost a) calls ∧
    (acquisitions .sendLock (s.host a).log = calls ∨
      ∃ last, acquisitions .sendLock (s.host a).log = calls ++ [last])
  /-- What has been put into the socket of a machine: the mails that were handed to `MailBox::Put`, one after
  another, then the packet that is in the buffer of the device, then those that are still in the socket. -/
  delivered : ∀ a, ∃ taken buffered waiting, s.socket a = taken ++ buffered ++ waiting ∧
    (s.host a).shared.network.received = taken ++ buffered ∧
    (s.host a).shared.delivered = taken.map Packet.delivery ∧
    ((s.host a).shared.network.inHdr.length = 0 ∧ buffered = [] ∨
      ∃ p, buffered = [p] ∧ Buffered net.format p (s.host a).shared.network)
  /-- When nothing is announced and the postal workers wait, every mail that the machine has read has been handed to
  `MailBox::Put`; if it has read all of its socket, these are the mails in the socket. -/
  complete : ∀ a, ((s.host a).sem .messageAvailable).value = 0 →
    (∀ t th buffer, (s.host a).thread t = some th → th.call = some (.postalDelivery buffer) → AtRest th) →
    (s.host a).shared.network.inHdr.length = 0 ∧
      (s.host a).shared.delivered = (s.host a).shared.network.received.map Packet.delivery ∧
      ((s.host a).shared.network.received = s.socket a →
        (s.host a).shared.delivered = (s.socket a).map Packet.delivery)
  /-- While the buffer of the device is empty, a poll reads the next packet of the socket and announces it. -/
  polls : ∀ a p waiting, s.socket a = (s.host a).shared.network.received ++ p :: waiting →
    (s.host a).shared.network.inHdr.length = 0 →
    ∃ post, networkHandler net.format a (.readPoll (some p)) (s.host a).shared = some (post, [.messageAvailable]) ∧
      post.network.received = (s.host a).shared.network.received ++ [p] ∧
      post.delivered = (s.host a).shared.delivered ∧ post.failed = (s.host a).shared.failed ∧
      Buffered net.format p post.network

/-- Every mail that is not dropped is delivered once, unchanged and in the order of the socket. -/
theorem mails_delivered (h : net.system.Reachable s) : Delivers net s := by
  have hconsistent := consistent h
  have haddress : ∀ a, ∀ p ∈ (s.host a).shared.network.received, p.header.toAddr = a := by
    intro a p hp
    have hmem := (hconsistent.received a).subset hp
    exact of_decide_eq_true (List.mem_filter.mp hmem).2
  refine ⟨?_, ?_, ?_, ?_, ?_, ?_⟩
  · intro a
    exact (sender net.format a (net.lost a) (net.inHdr a) (net.inbox a)).pending_le_one
      (reachable_interleaving (reachable_host h a))
  · intro a
    refine ⟨(host_received (reachable_host h a) (haddress a)).1, ?_⟩
    intro choice hstep
    obtain ⟨th, hth, habort⟩ := Kernel.client_fault (reachable_host h a) hstep
    exact (sender net.format a (net.lost a) (net.inHdr a) (net.inbox a)).code_ne_abort
      (reachable_interleaving (reachable_host h a)) hth habort
  · intro a
    rw [hconsistent.sent a]
    exact host_sent (reachable_host h a)
  · intro a
    obtain ⟨-, taken, buffered, hreceived, hdelivered, hbuffer⟩ :=
      host_received (reachable_host h a) (haddress a)
    obtain ⟨waiting, hwaiting⟩ := hconsistent.received a
    refine ⟨taken, buffered, waiting, ?_, hreceived, hdelivered, hbuffer⟩
    rw [← hreceived, hwaiting]
  · intro a hvalue hrest
    obtain ⟨hempty, hdelivered⟩ := host_quiet (reachable_host h a) (haddress a) hvalue hrest
    refine ⟨hempty, hdelivered, ?_⟩
    intro hall
    rw [hdelivered, hall]
  · intro a p waiting hsocket hempty
    have hmem : p ∈ s.socket a := by
      rw [hsocket]
      exact List.mem_append_right _ List.mem_cons_self
    exact readPoll_reads hempty (of_decide_eq_true (List.mem_filter.mp hmem).2)

/-- A step in which a machine sends nothing. -/
theorem step_silent {host : NetworkAddress → Host numBoxes} {wire : List (Packet numBoxes)} {a : NetworkAddress}
    {k k' : Host numBoxes} (h : net.system.Reachable ⟨Function.update host a k, wire⟩)
    (choice : Choice (PostCall numBoxes) (PostInterrupt numBoxes) Unit)
    (hstep : k.step (net.machine a) choice = some (.ok k')) (hsent : k'.shared.network.sent = k.shared.network.sent)
    (hsocket : k'.shared.network.received <+: wire.filter fun p => decide (p.header.toAddr = a)) :
    net.system.Reachable ⟨Function.update host a k', wire⟩ := by
  have hk : Function.update host a k a = k := Function.update_self ..
  rw [← hk] at hstep hsent
  have hrun := h.step (.run a choice hstep (hsent.trans (List.append_nil _).symm) hsocket)
  rwa [List.append_nil, Function.update_idem] at hrun

/-- A poll while the machine idles. -/
theorem step_readPoll {a : NetworkAddress} {k : Host numBoxes} (hhalted : k.halted = false)
    {th : Thread PostSem (PostCall numBoxes) (Post numBoxes) Unit Empty} (hth : k.thread k.currentThread = some th)
    (hidling : k.idling = true) {packet : Option (Packet numBoxes)} {post : Post numBoxes}
    (hpoll : networkHandler net.format a (.readPoll packet) k.shared = some (post, [.messageAvailable])) :
    k.step (net.machine a) (.interrupt (.readPoll packet)) =
      some (.ok ({ k with shared := post }.semaphoreV .messageAvailable none)) := by
  have hhandler : (net.machine a).handler (.readPoll packet) k.shared = some (post, [.messageAvailable]) := hpoll
  simp only [Kernel.step, hhalted, hth, hidling, Kernel.deliver, hhandler]
  rfl

/-- The postal worker takes the packet out of the buffer. -/
theorem step_delivering {a : NetworkAddress} {k : Host numBoxes} (hhalted : k.halted = false)
    {th : Thread PostSem (PostCall numBoxes) (Post numBoxes) Unit Empty} (hth : k.thread k.currentThread = some th)
    (hidling : k.idling = false) {buffer : Image Byte} (hkont : th.kont = .run (delivering net.format buffer))
    (hfull : Inbox net.format a k.shared 1) :
    k.step (net.machine a) .exec = some (.ok { k.setKont (.run (.tick .ret)) with
      shared := (deliver net.format buffer k.shared).2
      log := k.log ++ [] }) := by
  have hlegal := (hfull.deliver buffer).1
  simp only [Kernel.step, hhalted, hth, hidling, hkont, Kernel.execute, delivering, hlegal, if_true]
  rfl

/-- Little-endian machines that lose no packets. -/
def reliable : Internet 10 := ⟨.littleEndian, fun _ _ => false, fun _ => ⟨0, 0, 0⟩, fun _ _ => 0⟩

/-- A mail of three bytes from machine 1 to box 4 of machine 2. -/
def threeBytes : Packet 10 :=
  ⟨1, ⟨⟨2, 0, 0⟩, ⟨4, 5, 3⟩, Image.ofList [7, 8, 9] 0, rfl⟩, fun _ => 0, fun _ => 0⟩

/-- The mail is in the socket of machine 2, which has done nothing yet. -/
theorem threeBytes_sent : ∃ host : NetworkAddress → Host 10,
    reliable.system.Reachable ⟨Function.update host 2 (Kernel.initial (reliable.machine 2) false), [threeBytes]⟩ ∧
      (host 1).shared.network.sendsPending = 1 := by
  have h₀ : reliable.system.Reachable _ := .init rfl
  have h₁ := h₀.step (.run 1 (.call (.send threeBytes.letter threeBytes.fresh threeBytes.wire)) rfl
    (List.append_nil _).symm List.nil_prefix)
  have h₂ := h₁.step (.run 1 .exec rfl (List.append_nil _).symm List.nil_prefix)
  have h₃ := h₂.step (.run 1 .resume rfl (List.append_nil _).symm List.nil_prefix)
  have hsent : ∀ sent : List (Packet 10), sent ++ [threeBytes] = sent ++ [threeBytes] := fun _ => rfl
  have h₄ := h₃.step (.run 1 .exec rfl (hsent []) List.nil_prefix)
  obtain ⟨host, hreach, htwo, hpending⟩ : ∃ host, reliable.system.Reachable ⟨host, [threeBytes]⟩ ∧
      host 2 = Kernel.initial (reliable.machine 2) false ∧ (host 1).shared.network.sendsPending = 1 :=
    ⟨_, h₄, rfl, rfl⟩
  refine ⟨host, ?_, hpending⟩
  rwa [← htwo, Function.update_eq_self]

/-- Machine 2 has read the mail, and its postal worker has delivered it and sleeps until the next one arrives. -/
theorem mails_delivered_threeBytes : ∃ s worker, reliable.system.Reachable s ∧ s.socket 2 = [threeBytes] ∧
    (s.host 1).shared.network.sendsPending = 1 ∧ Delivers reliable s ∧
    ((s.host 2).sem .messageAvailable).value = 0 ∧ (s.host 2).thread 1 = some worker ∧ AtRest worker ∧
    (s.host 2).shared.delivered = [threeBytes.delivery] := by
  obtain ⟨host, h₀, hpending⟩ := threeBytes_sent
  have hnone : ∀ {packets : List (Packet 10)}, packets = [] → packets <+: [threeBytes] := by
    rintro packets rfl
    exact List.nil_prefix
  obtain ⟨post, hpoll, hreceived, hdelivered, hfailed, hbuffered⟩ : ∃ post : Post 10,
      networkHandler reliable.format 2 (.readPoll (some threeBytes)) ⟨.new ⟨0, 0, 0⟩ fun _ => 0, [], false⟩ =
        some (post, [.messageAvailable]) ∧ post.network.received = [] ++ [threeBytes] ∧ post.delivered = [] ∧
      post.failed = false ∧ Buffered reliable.format threeBytes post.network := readPoll_reads rfl rfl
  have hsent : post.network.sent = [] := (readPoll_send _ _ hpoll).2.2.2.1
  have hfull : Inbox reliable.format 2 post 1 := .full [] threeBytes hfailed hreceived hdelivered hbuffered
  have hone : post.network.received <+: [threeBytes] := by
    rw [hreceived]
    exact List.prefix_refl [threeBytes]
  have htaken := deliver_received reliable.format (fun _ => 0) post
  have hstill := (deliver_send reliable.format (fun _ => 0) post).2.2.2
  have hall : (deliver reliable.format (fun _ => 0) post).2.network.received <+: [threeBytes] := by
    rwa [htaken]
  have h₁ := step_silent h₀ (.call (.postalDelivery fun _ => 0)) rfl rfl (hnone rfl)
  have h₂ := step_silent h₁ .exec rfl rfl (hnone rfl)
  have h₃ := step_silent h₂ (.interrupt (.readPoll (some threeBytes)))
    (step_readPoll rfl rfl rfl hpoll) hsent hone
  have h₄ := step_silent h₃ .dispatch rfl rfl hone
  have h₅ := step_silent h₄ .exec rfl rfl hone
  have h₆ := step_silent h₅ .resume rfl rfl hone
  have h₇ := step_silent h₆ .exec (step_delivering rfl rfl rfl rfl hfull) hstill hall
  have h₈ := step_silent h₇ .exec rfl rfl hall
  have h₉ := step_silent h₈ .resume rfl rfl hall
  have h₁₀ := step_silent h₉ .exec rfl rfl hall
  have h₁₁ := step_silent h₁₀ (.call (.postalDelivery fun _ => 0)) rfl rfl hall
  have h₁₂ := step_silent h₁₁ .exec rfl rfl hall
  obtain ⟨k, worker, hreach, hshared, hvalue, hworker, hkont⟩ : ∃ (k : Host 10) (worker : Thread _ _ _ _ _),
      reliable.system.Reachable ⟨Function.update host 2 k, [threeBytes]⟩ ∧
      k.shared = (deliver reliable.format (fun _ => 0) post).2 ∧ (k.sem .messageAvailable).value = 0 ∧
      k.thread 1 = some worker ∧ worker.kont = .sleep .messageAvailable (delivering reliable.format fun _ => 0) :=
    ⟨_, _, h₁₂, rfl, rfl, rfl, rfl⟩
  have hmails : k.shared.delivered = [threeBytes.delivery] := by
    rw [hshared]
    cases (hfull.deliver fun _ => 0).2 with
    | failed hother _ =>
        obtain ⟨p, hp, hne⟩ := hother
        rw [deliver_received, hreceived] at hp
        exact absurd (congrArg (fun p => p.header.toAddr) (List.mem_singleton.mp hp)) hne
    | empty _ _ hdelivered =>
        rw [hdelivered, deliver_received, hreceived]
        rfl
  have hself : State.host ⟨Function.update host 2 k, [threeBytes]⟩ 2 = k := Function.update_self 2 k host
  have hdistinct : (1 : NetworkAddress) ≠ 2 := by decide
  have hother : State.host ⟨Function.update host 2 k, [threeBytes]⟩ 1 = host 1 := Function.update_of_ne hdistinct k host
  refine ⟨⟨Function.update host 2 k, [threeBytes]⟩, worker, hreach, rfl, ?_, mails_delivered hreach, ?_, ?_,
    .inl ⟨_, hkont⟩, ?_⟩
  · rw [hother]
    exact hpending
  · rw [hself]
    exact hvalue
  · rw [hself]
    exact hworker
  · rw [hself]
    exact hmails

end Internet

end Nachos
