import OpenRom.Connection.Course
import OpenRom.Proxy.Relay

/-!
# Keepalives

Either peer may ask for a keepalive reply at any time, also before there is a key. The proxy answers
on the connection that it is asked on: no request crosses it, and whatever is asked, the two peers
decode of each other what they would without (`Kept.relay_answers`). What the reply carries is what
is on the stack behind the packet of `SendKeepaliveReply`; where the program needs those bytes, it
ends with the reply.
-/

set_option autoImplicit false

namespace OpenRom

open ROMConnection (IsRead)
open Reassembly

variable {ω : Type}

/-! ## Requests and replies -/

/-- A frame that `OnEvent` answers. -/
structure Packet.IsRequest (p : Packet) : Prop where
  fits : p.Fits
  request : p.IsKeepaliveRequest

/-- A frame that `SendKeepaliveReply` writes. -/
structure Packet.IsReply (p : Packet) : Prop where
  fits : p.Fits
  headerChecksum : p.headerChecksumOK = true
  flag : p.pFlag = ROM_PACKET_FLAG_ALIVE_REPLY
  length_eq : p.pLength = 0x10

/-- `SendKeepaliveReply` writes one reply, whatever is on the stack. -/
theorem Session.sendKeepaliveReply_eq (h : Host ω) (s : Session) (w : ω) :
    ∃ q : Packet, q.IsReply ∧ s.sendKeepaliveReply h w =
      some ((h.write q.bytes w).1 == q.bytes.length, (h.write q.bytes w).2) := by
  let p : Packet := ⟨0x10, ROM_PACKET_FLAG_ALIVE_REPLY, 0, 0, 0xff, 0, le32 (h.stack.bytes w)⟩
  have hshort : (0x10 : UInt32).toNat < s_MaxPacketSize := by decide
  have hfits : p.Fits := ⟨by rw [length_le32]; rfl, hshort⟩
  have hq := hfits.seal 8
  have hbytes : (p.sealWith 8).bytes.take (p.sealWith 8).pLength.toNat = (p.sealWith 8).bytes :=
    List.take_of_length_le (Nat.le_of_eq hq.length_bytes)
  have hkey : s.key.byteFor 0xff = some 8 := if_neg fun hne => hne rfl
  refine ⟨p.sealWith 8, ⟨hq, Packet.headerChecksumOK_sealWith 8, rfl, rfl⟩, ?_⟩
  have hsend : s.sendKeepaliveReply h w =
      some ((h.write ((p.sealWith 8).bytes.take (p.sealWith 8).pLength.toNat) w).1 ==
        (p.sealWith 8).pLength.toNat,
        (h.write ((p.sealWith 8).bytes.take (p.sealWith 8).pLength.toNat) w).2) := by
    simp only [sendKeepaliveReply, checksumAndSend, hkey, Option.bind_eq_bind, Option.bind_some]
    rfl
  rw [hsend, hbytes, hq.length_bytes]

/-- The world after a reply that the program does not survive. -/
def Host.Ends (h : Host ω) : Halt ω → Prop
  | .fault w => h.stack.spare w = false
  | .closed _ _ => False

/-- A reply is written to a request, which is taken unless the program ends with the reply. -/
theorem look_request {h : Host ω} {p : Packet} (hp : p.IsRequest) (s : Session) {w : ω}
    (hwrite : ∀ bs, (h.write bs (h.onRawPacketReceived p w)).1 = (bs.length : Int)) :
    (∃ q : Packet, q.IsReply ∧ look h (s, w) p.bytes =
      .take p.bytes.length (s, (h.write q.bytes (h.onRawPacketReceived p w)).2)) ∨
      ∃ r, look h (s, w) p.bytes = .halt r ∧ h.Ends r := by
  obtain ⟨q, hq, hsend⟩ := s.sendKeepaliveReply_eq h (h.onRawPacketReceived p w)
  have hcourse := s.handlePacket_course h p w
  rw [Session.course_eq_keepalive_iff.2 hp.request] at hcourse
  simp only [hsend, hwrite, beq_self_eq_true, if_true] at hcourse
  cases hspare : h.stack.spare (h.write q.bytes (h.onRawPacketReceived p w)).2 with
  | true =>
      rw [hspare, if_neg fun hnot => hnot rfl] at hcourse
      exact Or.inl ⟨q, hq, look_bytes hp.fits hcourse⟩
  | false =>
      rw [hspare, if_pos Bool.false_ne_true] at hcourse
      refine Or.inr ⟨.fault (h.write q.bytes (h.onRawPacketReceived p w)).2, ?_, hspare⟩
      rw [look_of_fits hp.fits, hcourse]

/-- A reply is ignored. -/
theorem look_reply {h : Host ω} {p : Packet} (hp : p.IsReply) (s : Session) (w : ω) :
    look h (s, w) p.bytes = .take p.bytes.length (s, h.onRawPacketReceived p w) := by
  have hnotKey : ¬ (p.pFlag &&& ROM_PACKET_FLAG_KEY ≠ 0) := by
    rw [hp.flag]
    decide
  have hnotRequest : ¬ (p.pFlag &&& ROM_PACKET_FLAG_ALIVE_REQUEST ≠ 0) := by
    rw [hp.flag]
    decide
  have hplain : p.pFlag ≠ ROM_PACKET_FLAG_ENCRYPTED := by
    rw [hp.flag]
    decide
  have hcourse : s.course p = .notEncrypted := by
    rw [Session.course, if_neg hnotKey, if_neg (by simp [hp.headerChecksum]), if_neg hnotRequest,
      if_pos hplain]
  have hhandle := s.handlePacket_course h p w
  rw [hcourse] at hhandle
  exact look_bytes hp.fits hhandle

/-! ## Traffic -/

/-- What may be on its way to a connection. -/
inductive Traffic (k : Key)
  | frame (f : Frame k)
  | request (p : Packet) (h : p.IsRequest)
  | reply (p : Packet) (h : p.IsReply)

section Traffic

variable {k : Key}

namespace Traffic

def packet : Traffic k → Packet
  | frame f => f.packet
  | request p _ => p
  | reply p _ => p

def bytes (t : Traffic k) : List UInt8 := t.packet.bytes

def frame? : Traffic k → Option (Frame k)
  | frame f => some f
  | request _ _ => none
  | reply _ _ => none

def asks : Traffic k → Bool
  | frame _ => false
  | request _ _ => true
  | reply _ _ => false

def answers : Traffic k → Bool
  | frame _ => false
  | request _ _ => false
  | reply _ _ => true

theorem fits (t : Traffic k) : t.packet.Fits := by
  cases t with
  | frame f => exact f.fits
  | request p h => exact h.fits
  | reply p h => exact h.fits

end Traffic

/-- The bytes of some traffic. -/
def traffic (ts : List (Traffic k)) : List UInt8 := (ts.map Traffic.bytes).flatten

/-- The frames in some traffic. -/
def framesIn (ts : List (Traffic k)) : List (Frame k) := ts.filterMap Traffic.frame?

theorem traffic_snoc (ts : List (Traffic k)) (t : Traffic k) :
    traffic (ts ++ [t]) = traffic ts ++ t.bytes := by
  simp [traffic]

@[simp] theorem framesIn_nil : framesIn ([] : List (Traffic k)) = [] := rfl

@[simp] theorem framesIn_frame (f : Frame k) (ts : List (Traffic k)) :
    framesIn (.frame f :: ts) = f :: framesIn ts := rfl

@[simp] theorem framesIn_request (p : Packet) (h : p.IsRequest) (ts : List (Traffic k)) :
    framesIn (.request p h :: ts) = framesIn ts := rfl

@[simp] theorem framesIn_reply (p : Packet) (h : p.IsReply) (ts : List (Traffic k)) :
    framesIn (.reply p h :: ts) = framesIn ts := rfl

@[simp] theorem framesIn_append (ts us : List (Traffic k)) :
    framesIn (ts ++ us) = framesIn ts ++ framesIn us := List.filterMap_append

/-- Between events no traffic is in a buffer whole. -/
theorem Settled.traffic_eq_nil {ts : List (Traffic k)} (hs : Settled (traffic ts)) : ts = [] := by
  cases ts with
  | nil => rfl
  | cons t ts =>
      -- the first frame would be there whole
      have hread := Packet.read_bytes t.packet (traffic ts)
      have hshort := (hs _ hread).2.2
      have hlen := t.fits.length_bytes
      rw [traffic, List.map_cons, List.flatten_cons, List.length_append] at hshort
      simp only [Traffic.bytes] at hshort
      omega

/-- The rule for an event of a connection to which traffic is on its way. The event is the last one
where the program ends with a reply. -/
theorem ROMConnection.onEvent_of_traffic_or_ends {h : Host ω}
    {P : Session × ω → List (Traffic k) → Prop}
    (hstep : ∀ {st t ts}, P st (t :: ts) →
      (∃ st', look h st t.bytes = .take t.bytes.length st' ∧ P st' ts) ∨
        ∃ r, look h st t.bytes = .halt r ∧ h.Ends r)
    {c : ROMConnection} {w : ω} {ts : List (Traffic k)} (hP : P (c.toSession, w) ts)
    (hs : Settled c.buffer.data) {packet rest : List UInt8} (hread : IsRead packet)
    (hline : c.buffer.data ++ (packet ++ rest) = traffic ts) :
    (∃ c' w' ts', c.onEvent h packet w = .returned true c' w' ∧ P (c'.toSession, w') ts' ∧
      c'.buffer.data ++ rest = traffic ts' ∧ Settled c'.buffer.data) ∨
      ∃ w', c.onEvent h packet w = .fault w' ∧ h.stack.spare w' = false := by
  have hdrained := drained_onEvent (h := h) (w := w) hs hread.1 hread.2
  rw [← List.append_assoc, ← List.append_nil (traffic ts)] at hline
  have hnothing : ∀ {st : Session × ω} {part later : List UInt8}, P st [] → part ++ later = [] →
      look h st part = .wait ∨ ∃ r, look h st part = .halt r ∧ h.Ends r := by
    intro st part later _ hpart
    obtain ⟨rfl, -⟩ := List.append_eq_nil_iff.1 hpart
    exact Or.inl ((reader h).look_nil st)
  rcases (reader h).drain_of_messages_or_halt (R := fun _ r => h.Ends r) hstep hnothing hP hline
    with ⟨st', buf', ts', hdrain, hP', hline', -⟩ | ⟨-, r, hdrain, hends⟩
  · rw [hdrain] at hdrained
    obtain ⟨c', hout, hst, hdata⟩ := Outcome.exists_of_drained_idle hdrained
    refine Or.inl ⟨c', st'.2, ts', hout, ?_, ?_, settled_of_onEvent hs hread.2 hout⟩
    · rw [hst]
      exact hP'
    · rw [hdata, hline', List.append_nil]
      rfl
  · rw [hdrain] at hdrained
    cases r with
    | closed s w' => exact absurd hends id
    | fault w' => exact Or.inr ⟨w', Outcome.eq_fault_of_drained hdrained, hends⟩

/-- The rule where nothing is asked for, or the stack is spare. -/
theorem ROMConnection.onEvent_of_traffic {h : Host ω} {P : Session × ω → List (Traffic k) → Prop}
    (hstep : ∀ {st t ts}, P st (t :: ts) → ∃ st', look h st t.bytes = .take t.bytes.length st' ∧
      P st' ts)
    {c : ROMConnection} {w : ω} {ts : List (Traffic k)} (hP : P (c.toSession, w) ts)
    (hs : Settled c.buffer.data) {packet rest : List UInt8} (hread : IsRead packet)
    (hline : c.buffer.data ++ (packet ++ rest) = traffic ts) :
    ∃ c' w' ts', c.onEvent h packet w = .returned true c' w' ∧ P (c'.toSession, w') ts' ∧
      c'.buffer.data ++ rest = traffic ts' ∧ Settled c'.buffer.data := by
  rw [← List.append_assoc] at hline
  obtain ⟨st', buf', ts', hdrain, hP', hline', -⟩ :=
    (reader h).drain_of_messages hstep hP hline
  have hdrained := drained_onEvent (h := h) (w := w) hs hread.1 hread.2
  rw [hdrain] at hdrained
  obtain ⟨c', hout, hst, hdata⟩ := Outcome.exists_of_drained_idle hdrained
  refine ⟨c', st'.2, ts', hout, ?_, ?_, settled_of_onEvent hs hread.2 hout⟩
  · rw [hst]
    exact hP'
  · rw [hdata]
    exact hline'

end Traffic

/-! ## The system -/

/-- The system, and how many requests the peers have sent. -/
structure Kept extends System where
  serverAsked : Nat
  clientAsked : Nat

/-- How many replies there are in a trace. -/
def replies (trace : List Event) : Nat :=
  trace.countP fun
    | .raw p => p.pFlag == ROM_PACKET_FLAG_ALIVE_REPLY
    | _ => false

namespace Kept

def start (k : Key) (sequence : UInt32) : Kept := ⟨.start k sequence, 0, 0⟩

/-- What can happen: also, a peer sends a request. -/
inductive Step (px : ROMProxy) (Sendable : Packet → Prop) (s : Kept) : Kept → Prop
  | plain {t : System} : System.Step px Sendable s.toSystem t →
      Step px Sendable s { s with toSystem := t }
  | serverAsks {p : Packet} : p.IsRequest →
      Step px Sendable s { s with
        fromServer := s.fromServer ++ p.bytes
        serverAsked := s.serverAsked + 1 }
  | clientAsks {p : Packet} : p.IsRequest →
      Step px Sendable s { s with
        fromClient := s.fromClient ++ p.bytes
        clientAsked := s.clientAsked + 1 }

inductive Reachable (px : ROMProxy) (Sendable : Packet → Prop) : Kept → Prop
  | start (k : Key) (sequence : UInt32) : Reachable px Sendable (start k sequence)
  | step {s s' : Kept} : Reachable px Sendable s → Step px Sendable s s' →
      Reachable px Sendable s'

/-- Each peer gets as many replies as it has asked for, and is asked for none. -/
structure Answered (s : Kept) : Prop where
  serverReplies : replies s.serverTrace ≤ s.serverAsked
  clientReplies : replies s.clientTrace ≤ s.clientAsked
  serverComplete : s.fromServer = [] → s.outside.toServer = [] →
    replies s.serverTrace = s.serverAsked
  clientComplete : s.fromClient = [] → s.outside.toClient = [] →
    replies s.clientTrace = s.clientAsked
  serverUnasked : ∀ bs, Event.keepaliveReply bs ∉ s.serverTrace
  clientUnasked : ∀ bs, Event.keepaliveReply bs ∉ s.clientTrace

/-- No delivery that is possible makes an event return `false`. One to the proxy may be the last,
when it needs what is behind the packet of a reply. -/
structure Flows (px : ROMProxy) (s : Kept) : Prop where
  remoteEvent : ∀ packet rest, IsRead packet → s.fromServer = packet ++ rest →
    (∃ pc out, s.proxy.onRemoteEvent px packet s.outside = some (true, pc, out)) ∨
      s.proxy.onRemoteEvent px packet s.outside = none ∧ ∃ out, px.stack.spare out = false
  localEvent : ∀ packet rest, IsRead packet → s.fromClient = packet ++ rest →
    (∃ pc out, s.proxy.onLocalEvent px packet s.outside = some (true, pc, out)) ∨
      s.proxy.onLocalEvent px packet s.outside = none ∧ ∃ out, px.stack.spare out = false
  clientEvent : ∀ packet rest, IsRead packet → s.outside.toClient = packet ++ rest →
    ∃ c trace, s.client.onEvent peer packet ((), s.clientTrace) = .returned true c ((), trace)
  serverEvent : ∀ packet rest, IsRead packet → s.outside.toServer = packet ++ rest →
    ∃ c trace, s.server.onEvent peer packet ((), s.serverTrace) = .returned true c ((), trace)

end Kept

/-! ## What is on its way -/

section Carried

variable {k : Key}

/-- The traffic on its way to the client, when the proxy has the key or not. -/
structure ToClient (k : Key) (client : Session) (haveKey : Bool) (ts : List (Traffic k)) :
    Prop where
  line : Line k client haveKey (framesIn ts)
  unasked : ∀ t ∈ ts, t.asks = false

/-- The traffic on its way from the server, when that has sent its key or not. -/
structure FromServer (k : Key) (remote : Session) (opened : Bool) (ts : List (Traffic k)) :
    Prop where
  line : Line k remote opened (framesIn ts)
  unanswered : ∀ t ∈ ts, t.answers = false

/-- The traffic on its way to the server. -/
structure ToServer (k : Key) (ts : List (Traffic k)) : Prop where
  data : ∀ f ∈ framesIn ts, f.IsData
  unasked : ∀ t ∈ ts, t.asks = false

/-- The traffic on its way from the client, which sends data once the proxy has the key. -/
structure FromClient (k : Key) (haveKey : Bool) (ts : List (Traffic k)) : Prop where
  data : ∀ f ∈ framesIn ts, f.IsData
  unanswered : ∀ t ∈ ts, t.answers = false
  hasKey : framesIn ts ≠ [] → haveKey = true

/-- What has been sent is what has been decoded and what is on its way, and every request has its
reply or is on its way. -/
structure Accounts (k : Key) (s : Kept)
    (toClient fromServer toServer fromClient : List (Traffic k)) : Prop where
  serverSent : deliveries s.clientTrace ++ payloads (framesIn toClient) ++
    payloads (framesIn fromServer) = s.serverSent
  clientSent : deliveries s.serverTrace ++ payloads (framesIn toServer) ++
    payloads (framesIn fromClient) = s.clientSent
  serverAsked : replies s.serverTrace + toServer.countP Traffic.answers +
    fromServer.countP Traffic.asks = s.serverAsked
  clientAsked : replies s.clientTrace + toClient.countP Traffic.answers +
    fromClient.countP Traffic.asks = s.clientAsked
  serverUnasked : ∀ bs, Event.keepaliveReply bs ∉ s.serverTrace
  clientUnasked : ∀ bs, Event.keepaliveReply bs ∉ s.clientTrace

/-- The states that the relay comes to. -/
structure Kept.Relayed (k : Key) (s : Kept) : Prop where
  server : s.server.Holds k
  sameKey : s.proxy.localConnection.haveKey = s.proxy.remoteConnection.haveKey
  localKey : s.proxy.localConnection.haveKey = true → s.proxy.localConnection.key = k
  settledServer : Settled s.server.buffer.data
  settledClient : Settled s.client.buffer.data
  settledLocal : Settled s.proxy.localConnection.buffer.data
  settledRemote : Settled s.proxy.remoteConnection.buffer.data
  carried : ∃ toClient fromServer toServer fromClient,
    ToClient k s.client.toSession s.proxy.localConnection.haveKey toClient ∧
    FromServer k s.proxy.remoteConnection.toSession s.opened fromServer ∧
    ToServer k toServer ∧ FromClient k s.proxy.localConnection.haveKey fromClient ∧
    s.client.buffer.data ++ s.outside.toClient = traffic toClient ∧
    s.proxy.remoteConnection.buffer.data ++ s.fromServer = traffic fromServer ∧
    s.server.buffer.data ++ s.outside.toServer = traffic toServer ∧
    s.proxy.localConnection.buffer.data ++ s.fromClient = traffic fromClient ∧
    Accounts k s toClient fromServer toServer fromClient

/-! ## What comes to a line -/

theorem ToClient.pushKey {client : Session} {ts : List (Traffic k)} (h : ToClient k client false ts)
    {f : Packet} (hf : CarriesKey k f) :
    ToClient k client true (ts ++ [.frame (.key f hf)]) := by
  obtain ⟨hline, hunasked⟩ := h
  refine ⟨?_, List.forall_mem_append.2 ⟨hunasked, List.forall_mem_singleton.2 rfl⟩⟩
  -- before the key there are no frames
  rw [framesIn_append]
  generalize framesIn ts = fs at hline
  cases hline with
  | closed hno => exact .key hno (List.forall_mem_nil _)

theorem ToClient.pushData {client : Session} {ts : List (Traffic k)} (h : ToClient k client true ts)
    {f : Packet} {payload : List UInt8} (hf : Carries k f payload) :
    ToClient k client true (ts ++ [.frame (.data f payload hf)]) where
  line := by
    rw [framesIn_append]
    exact h.line.push trivial
  unasked := List.forall_mem_append.2 ⟨h.unasked, List.forall_mem_singleton.2 rfl⟩

theorem ToClient.pushReply {client : Session} {haveKey : Bool} {ts : List (Traffic k)}
    (h : ToClient k client haveKey ts) {q : Packet} (hq : q.IsReply) :
    ToClient k client haveKey (ts ++ [.reply q hq]) where
  line := by
    rw [framesIn_append, framesIn_reply, framesIn_nil, List.append_nil]
    exact h.line
  unasked := List.forall_mem_append.2 ⟨h.unasked, List.forall_mem_singleton.2 rfl⟩

theorem ToServer.pushData {ts : List (Traffic k)} (h : ToServer k ts) {f : Packet}
    {payload : List UInt8} (hf : Carries k f payload) :
    ToServer k (ts ++ [.frame (.data f payload hf)]) where
  data := by
    rw [framesIn_append]
    exact List.forall_mem_append.2 ⟨h.data, List.forall_mem_singleton.2 trivial⟩
  unasked := List.forall_mem_append.2 ⟨h.unasked, List.forall_mem_singleton.2 rfl⟩

theorem ToServer.pushReply {ts : List (Traffic k)} (h : ToServer k ts) {q : Packet}
    (hq : q.IsReply) : ToServer k (ts ++ [.reply q hq]) where
  data := by
    rw [framesIn_append, framesIn_reply, framesIn_nil, List.append_nil]
    exact h.data
  unasked := List.forall_mem_append.2 ⟨h.unasked, List.forall_mem_singleton.2 rfl⟩

/-! ## What the accounts say -/

section Accounts

variable {s : Kept} {toClient fromServer toServer fromClient : List (Traffic k)}

/-- The proxy answers the server. -/
theorem Accounts.answerServer {p q : Packet} {hp : p.IsRequest} (hq : q.IsReply)
    (h : Accounts k s toClient (.request p hp :: fromServer) toServer fromClient) :
    Accounts k s toClient fromServer (toServer ++ [.reply q hq]) fromClient where
  serverSent := h.serverSent
  clientSent := by
    rw [framesIn_append, framesIn_reply, framesIn_nil, List.append_nil]
    exact h.clientSent
  serverAsked := by
    have hasked := h.serverAsked
    rw [List.countP_cons_of_pos rfl] at hasked
    rw [List.countP_append, List.countP_singleton, ← hasked]
    simp only [Traffic.answers, if_true]
    omega
  clientAsked := h.clientAsked
  serverUnasked := h.serverUnasked
  clientUnasked := h.clientUnasked

/-- The proxy answers the client. -/
theorem Accounts.answerClient {p q : Packet} {hp : p.IsRequest} (hq : q.IsReply)
    (h : Accounts k s toClient fromServer toServer (.request p hp :: fromClient)) :
    Accounts k s (toClient ++ [.reply q hq]) fromServer toServer fromClient where
  serverSent := by
    rw [framesIn_append, framesIn_reply, framesIn_nil, List.append_nil]
    exact h.serverSent
  clientSent := h.clientSent
  serverAsked := h.serverAsked
  clientAsked := by
    have hasked := h.clientAsked
    rw [List.countP_cons_of_pos rfl] at hasked
    rw [List.countP_append, List.countP_singleton, ← hasked]
    simp only [Traffic.answers, if_true]
    omega
  serverUnasked := h.serverUnasked
  clientUnasked := h.clientUnasked

/-- The proxy passes a frame of the server on, as one with the same payload. -/
theorem Accounts.passToClient {f g : Frame k} (hfg : g.payload? = f.payload?)
    (h : Accounts k s toClient (.frame f :: fromServer) toServer fromClient) :
    Accounts k s (toClient ++ [.frame g]) fromServer toServer fromClient where
  serverSent := by
    rw [← h.serverSent, framesIn_append, payloads_append, List.append_assoc, List.append_assoc,
      List.append_assoc, ← payloads_append]
    simp only [payloads, framesIn_frame, framesIn_nil, List.singleton_append, List.filterMap_cons,
      hfg]
  clientSent := h.clientSent
  serverAsked := h.serverAsked
  clientAsked := by
    rw [List.countP_append]
    exact h.clientAsked
  serverUnasked := h.serverUnasked
  clientUnasked := h.clientUnasked

/-- The proxy passes a frame of the client on, as one with the same payload. -/
theorem Accounts.passToServer {f g : Frame k} (hfg : g.payload? = f.payload?)
    (h : Accounts k s toClient fromServer toServer (.frame f :: fromClient)) :
    Accounts k s toClient fromServer (toServer ++ [.frame g]) fromClient where
  serverSent := h.serverSent
  clientSent := by
    rw [← h.clientSent, framesIn_append, payloads_append, List.append_assoc, List.append_assoc,
      List.append_assoc, ← payloads_append]
    simp only [payloads, framesIn_frame, framesIn_nil, List.singleton_append, List.filterMap_cons,
      hfg]
  serverAsked := by
    rw [List.countP_append]
    exact h.serverAsked
  clientAsked := h.clientAsked
  serverUnasked := h.serverUnasked
  clientUnasked := h.clientUnasked

end Accounts

/-! ## Events of the proxy -/

/-- While the connection to the server takes traffic. -/
structure RemoteServes (k : Key) (s : Kept) (fromClient : List (Traffic k)) (r l : Session)
    (out : Outside) (ts : List (Traffic k)) : Prop where
  fromServer : FromServer k r s.opened ts
  sameKey : l.haveKey = r.haveKey
  localKey : l.haveKey = true → l.key = k
  localHasKey : s.proxy.localConnection.haveKey = true → l.haveKey = true
  carried : ∃ toClient toServer, ToClient k s.client.toSession l.haveKey toClient ∧
    ToServer k toServer ∧ s.client.buffer.data ++ out.toClient = traffic toClient ∧
    s.server.buffer.data ++ out.toServer = traffic toServer ∧
    Accounts k s toClient ts toServer fromClient

/-- The connection to the server takes one frame. -/
theorem RemoteServes.step {px : ROMProxy} (hpx : px.CompleteWrites) {s : Kept}
    {fromClient : List (Traffic k)} {r l : Session} {out : Outside} {t : Traffic k}
    {ts : List (Traffic k)} (h : RemoteServes k s fromClient r l out (t :: ts)) :
    (∃ r' l' out', look px.remoteHost (r, l, out) t.bytes = .take t.bytes.length (r', l', out') ∧
      RemoteServes k s fromClient r' l' out' ts) ∨
      ∃ halt, look px.remoteHost (r, l, out) t.bytes = .halt halt ∧ px.remoteHost.Ends halt := by
  obtain ⟨⟨hline, hall⟩, hsame, hlkey, hmono, toClient, toServer, hclient, hserver, hcstream,
    hsstream, haccounts⟩ := h
  obtain ⟨hfirst, hunanswered⟩ := List.forall_mem_cons.1 hall
  clear hall
  cases t with
  | reply p hp => exact absurd hfirst.symm Bool.false_ne_true
  | request p hp =>
      -- a reply goes back to the server, and nothing to the client
      refine (look_request (h := px.remoteHost) hp r (w := (l, out)) fun bs => ?_).imp_left ?_
      · show (px.writeServer bs (px.onRemoteRawPacket p out)).1 = _
        rw [ROMProxy.writeServer_eq hpx]
      rintro ⟨q, hq, hlook⟩
      refine ⟨_, _, _, hlook, ⟨hline, hunanswered⟩, hsame, hlkey, hmono, toClient,
        toServer ++ [.reply q hq], hclient, hserver.pushReply hq, ?_, ?_, haccounts.answerServer hq⟩
      · show s.client.buffer.data ++
          (px.writeServer q.bytes (px.onRemoteRawPacket p out)).2.toClient = _
        rw [ROMProxy.writeServer_eq hpx, ROMProxy.onRemoteRawPacket, ROMProxy.toClient_logServer]
        exact hcstream
      · show s.server.buffer.data ++
          (px.writeServer q.bytes (px.onRemoteRawPacket p out)).2.toServer = _
        rw [ROMProxy.writeServer_eq hpx, ROMProxy.onRemoteRawPacket, ROMProxy.toServer_logServer,
          ← List.append_assoc, hsstream, traffic_snoc]
        rfl
  | frame f =>
      rw [framesIn_frame] at hline
      obtain ⟨hopen, hfs, ⟨hno, p, hp, rfl⟩ | ⟨hk, p, payload, hp, rfl⟩⟩ := hline.cases_cons
      · -- the key frame: the key is installed on both sides, and sent on
        obtain ⟨g, hg, -, hnew⟩ := ROMProxy.onRemoteNewKey_eq hpx
          { r with key := k, haveKey := true } rfl l (px.onRemoteRawPacket p out)
        have hhandle := Session.handlePacket_carriesKey (h := px.remoteHost) hp r (l, out)
        have hcall : px.remoteHost.onNewKey { r with key := k, haveKey := true }
            (px.remoteHost.onRawPacketReceived p (l, out)) = _ := hnew
        rw [hcall] at hhandle
        rw [hsame, hno] at hclient
        refine Or.inl ⟨_, _, _, look_bytes hp.fits hhandle,
          ⟨by rw [hopen]; exact .data ⟨rfl, rfl⟩ hfs, hunanswered⟩, rfl, fun _ => rfl, fun _ => rfl,
          toClient ++ [.frame (.key g.frame hg)], toServer, hclient.pushKey hg, hserver, ?_, ?_,
          haccounts.passToClient (f := .key p hp) (g := .key g.frame hg) rfl⟩
        · rw [ROMProxy.toClient_logClient, ROMProxy.onRemoteRawPacket, ROMProxy.toClient_logServer,
            ← List.append_assoc, hcstream, traffic_snoc]
          rfl
        · rw [ROMProxy.toServer_logClient, ROMProxy.onRemoteRawPacket, ROMProxy.toServer_logServer]
          exact hsstream
      · -- a data frame: what it carries is sent on under the same key
        have hlhave : l.haveKey = true := hsame.trans hk.1
        obtain ⟨q, hqlen, hqdata, hhandle⟩ := Session.handlePacket_carries (h := px.remoteHost)
          (hk.2.symm ▸ hp) hk.1 (l, out)
        obtain ⟨g, hg, hglen, hon⟩ := ROMProxy.onRemotePacket_eq hpx
          (hp.fits_payload hqlen hqdata) l (px.onRemoteRawPacket p out)
        have hcall : px.remoteHost.onPacket q (px.remoteHost.onRawPacketReceived p (l, out)) = _ :=
          hon
        rw [hcall] at hhandle
        rw [hlkey hlhave, hqdata] at hg
        rw [hlhave] at hclient
        have hpayload : (Frame.data g payload hg).payload? =
            (Frame.data p payload hp).payload? := by
          rw [Frame.payload?, Frame.payload?, hglen, hqlen]
        refine Or.inl ⟨_, _, _, look_bytes hp.fits hhandle,
          ⟨by rw [hopen]; exact .data hk hfs, hunanswered⟩, hsame, hlkey, hmono,
          toClient ++ [.frame (.data g payload hg)], toServer,
          by rw [hlhave]; exact hclient.pushData hg, hserver, ?_, ?_,
          haccounts.passToClient hpayload⟩
        · rw [ROMProxy.toClient_logClient, ROMProxy.onRemoteRawPacket, ROMProxy.toClient_logServer,
            ← List.append_assoc, hcstream, traffic_snoc]
          rfl
        · rw [ROMProxy.toServer_logClient, ROMProxy.onRemoteRawPacket, ROMProxy.toServer_logServer]
          exact hsstream

/-- A delivery from the server goes through the proxy, or is the last one. -/
theorem Kept.Relayed.remoteEvent {px : ROMProxy} (hpx : px.CompleteWrites) {s : Kept}
    (h : s.Relayed k) {packet rest : List UInt8} (hread : IsRead packet)
    (hline : s.fromServer = packet ++ rest) :
    (∃ pc out, s.proxy.onRemoteEvent px packet s.outside = some (true, pc, out) ∧
      Kept.Relayed k { s with fromServer := rest, proxy := pc, outside := out }) ∨
      s.proxy.onRemoteEvent px packet s.outside = none ∧ ∃ out, px.stack.spare out = false := by
  obtain ⟨toClient, fromServer, toServer, fromClient, hclient, hfrom, hserver, hfromClient,
    hcstream, hrstream, hsstream, hlstream, haccounts⟩ := h.carried
  -- what holds between two frames, with what is left of the line as traffic
  let P (st : Session × Session × Outside) (ts : List (Traffic k)) : Prop :=
    RemoteServes k s fromClient st.1 st.2.1 st.2.2 ts
  have hstep : ∀ {st t ts}, P st (t :: ts) →
      (∃ st', look px.remoteHost st t.bytes = .take t.bytes.length st' ∧ P st' ts) ∨
        ∃ halt, look px.remoteHost st t.bytes = .halt halt ∧ px.remoteHost.Ends halt := by
    intro st t ts hP
    refine (RemoteServes.step hpx hP).imp_left ?_
    rintro ⟨r', l', out', hlook, hP'⟩
    exact ⟨(r', l', out'), hlook, hP'⟩
  have hstart : P (s.proxy.remoteConnection.toSession, s.proxy.localConnection.toSession, s.outside)
      fromServer :=
    ⟨hfrom, h.sameKey, h.localKey, id, toClient, toServer, hclient, hserver, hcstream, hsstream,
      haccounts⟩
  rcases ROMConnection.onEvent_of_traffic_or_ends hstep hstart h.settledRemote hread
    (hline ▸ hrstream) with
    ⟨c', ⟨l', out'⟩, ts', hevent, hP', hstream, hsettled⟩ | ⟨w, hevent, hspare⟩
  swap
  · -- a reply that does not fit behind the packet is the end of the program
    exact Or.inr ⟨by rw [ROMProxiedConnection.onRemoteEvent, hevent], w.2, hspare⟩
  obtain ⟨hfrom', hsame', hlkey', hmono, toClient', toServer', hclient', hserver', hcstream',
    hsstream', haccounts'⟩ := hP'
  refine Or.inl ⟨⟨⟨l', s.proxy.localConnection.buffer⟩, c'⟩, out', ?_, h.server, hsame', hlkey',
    h.settledServer, h.settledClient, h.settledLocal, hsettled, toClient', ts', toServer',
    fromClient, hclient', hfrom', hserver', ?_, hcstream', hstream, hsstream', hlstream,
    haccounts'.serverSent, haccounts'.clientSent, haccounts'.serverAsked, haccounts'.clientAsked,
    haccounts'.serverUnasked, haccounts'.clientUnasked⟩
  · rw [ROMProxiedConnection.onRemoteEvent, hevent]
  · exact ⟨hfromClient.data, hfromClient.unanswered, fun hne => hmono (hfromClient.hasKey hne)⟩

/-- While the connection to the client takes traffic. -/
structure LocalServes (k : Key) (s : Kept) (fromServer : List (Traffic k)) (l r : Session)
    (out : Outside) (ts : List (Traffic k)) : Prop where
  fromClient : FromClient k l.haveKey ts
  localSame : l = s.proxy.localConnection.toSession
  remoteSame : r.key = s.proxy.remoteConnection.key ∧ r.haveKey = s.proxy.remoteConnection.haveKey
  carried : ∃ toClient toServer, ToClient k s.client.toSession l.haveKey toClient ∧
    ToServer k toServer ∧ s.client.buffer.data ++ out.toClient = traffic toClient ∧
    s.server.buffer.data ++ out.toServer = traffic toServer ∧
    Accounts k s toClient fromServer toServer ts

/-- The connection to the client takes one frame. -/
theorem LocalServes.step {px : ROMProxy} (hpx : px.CompleteWrites) {s : Kept} (hs : s.Relayed k)
    {fromServer : List (Traffic k)} {l r : Session} {out : Outside} {t : Traffic k}
    {ts : List (Traffic k)} (h : LocalServes k s fromServer l r out (t :: ts)) :
    (∃ l' r' out', look px.localHost (l, r, out) t.bytes = .take t.bytes.length (l', r', out') ∧
      LocalServes k s fromServer l' r' out' ts) ∨
      ∃ halt, look px.localHost (l, r, out) t.bytes = .halt halt ∧ px.localHost.Ends halt := by
  obtain ⟨⟨hdata, hall, hhas⟩, rfl, hremote, toClient, toServer, hclient, hserver, hcstream,
    hsstream, haccounts⟩ := h
  obtain ⟨hfirst, hunanswered⟩ := List.forall_mem_cons.1 hall
  clear hall
  cases t with
  | reply p hp => exact absurd hfirst.symm Bool.false_ne_true
  | request p hp =>
      -- a reply goes back to the client, and nothing to the server
      refine (look_request (h := px.localHost) hp s.proxy.localConnection.toSession
        (w := (r, out)) fun bs => ?_).imp_left ?_
      · show (px.writeClient bs (px.onLocalRawPacket p out)).1 = _
        rw [ROMProxy.writeClient_eq hpx]
      rintro ⟨q, hq, hlook⟩
      refine ⟨_, _, _, hlook, ⟨hdata, hunanswered, hhas⟩, rfl, hremote, toClient ++ [.reply q hq],
        toServer, hclient.pushReply hq, hserver, ?_, ?_, haccounts.answerClient hq⟩
      · show s.client.buffer.data ++
          (px.writeClient q.bytes (px.onLocalRawPacket p out)).2.toClient = _
        rw [ROMProxy.writeClient_eq hpx, ROMProxy.onLocalRawPacket, ROMProxy.toClient_logClient,
          ← List.append_assoc, hcstream, traffic_snoc]
        rfl
      · show s.server.buffer.data ++
          (px.writeClient q.bytes (px.onLocalRawPacket p out)).2.toServer = _
        rw [ROMProxy.writeClient_eq hpx, ROMProxy.onLocalRawPacket, ROMProxy.toServer_logClient]
        exact hsstream
  | frame f =>
      rw [framesIn_frame] at hdata hhas
      have hhave := hhas (List.cons_ne_nil _ _)
      have hkey := hs.localKey hhave
      -- the client sends data only once it has the key, so the server's connection has it too
      have hrkey : r.key = k := by
        obtain ⟨-, fromServer', -, -, -, hfrom, -⟩ := hs.carried
        rw [hremote.1]
        exact (hfrom.line.holds (hs.sameKey.symm.trans hhave)).2
      obtain ⟨hfdata, hfs⟩ := List.forall_mem_cons.1 hdata
      cases f with
      | key p hp => exact absurd hfdata id
      | data p payload hp =>
          obtain ⟨q, hqlen, hqdata, hhandle⟩ := Session.handlePacket_carries (h := px.localHost)
            (hkey.symm ▸ hp) hhave (r, out)
          obtain ⟨g, hg, hglen, hon⟩ := ROMProxy.onLocalPacket_eq hpx
            (hp.fits_payload hqlen hqdata) r (px.onLocalRawPacket p out)
          have hcall : px.localHost.onPacket q (px.localHost.onRawPacketReceived p (r, out)) = _ :=
            hon
          rw [hcall] at hhandle
          rw [hrkey, hqdata] at hg
          have hpayload : (Frame.data g payload hg).payload? =
              (Frame.data p payload hp).payload? := by
            rw [Frame.payload?, Frame.payload?, hglen, hqlen]
          refine Or.inl ⟨_, _, _, look_bytes hp.fits hhandle, ⟨hfs, hunanswered, fun _ => hhave⟩,
            rfl, hremote, toClient, toServer ++ [.frame (.data g payload hg)], hclient,
            hserver.pushData hg, ?_, ?_, haccounts.passToServer hpayload⟩
          · rw [ROMProxy.toClient_logServer, ROMProxy.onLocalRawPacket, ROMProxy.toClient_logClient]
            exact hcstream
          · rw [ROMProxy.toServer_logServer, ROMProxy.onLocalRawPacket, ROMProxy.toServer_logClient,
              ← List.append_assoc, hsstream, traffic_snoc]
            rfl

/-- A delivery from the client goes through the proxy, or is the last one. -/
theorem Kept.Relayed.localEvent {px : ROMProxy} (hpx : px.CompleteWrites) {s : Kept}
    (h : s.Relayed k) {packet rest : List UInt8} (hread : IsRead packet)
    (hline : s.fromClient = packet ++ rest) :
    (∃ pc out, s.proxy.onLocalEvent px packet s.outside = some (true, pc, out) ∧
      Kept.Relayed k { s with fromClient := rest, proxy := pc, outside := out }) ∨
      s.proxy.onLocalEvent px packet s.outside = none ∧ ∃ out, px.stack.spare out = false := by
  obtain ⟨toClient, fromServer, toServer, fromClient, hclient, hfrom, hserver, hfromClient,
    hcstream, hrstream, hsstream, hlstream, haccounts⟩ := h.carried
  -- what holds between two frames, with what is left of the line as traffic
  let P (st : Session × Session × Outside) (ts : List (Traffic k)) : Prop :=
    LocalServes k s fromServer st.1 st.2.1 st.2.2 ts
  have hstep : ∀ {st t ts}, P st (t :: ts) →
      (∃ st', look px.localHost st t.bytes = .take t.bytes.length st' ∧ P st' ts) ∨
        ∃ halt, look px.localHost st t.bytes = .halt halt ∧ px.localHost.Ends halt := by
    intro st t ts hP
    refine (LocalServes.step hpx h hP).imp_left ?_
    rintro ⟨l', r', out', hlook, hP'⟩
    exact ⟨(l', r', out'), hlook, hP'⟩
  have hstart : P (s.proxy.localConnection.toSession, s.proxy.remoteConnection.toSession, s.outside)
      fromClient :=
    ⟨hfromClient, rfl, ⟨rfl, rfl⟩, toClient, toServer, hclient, hserver, hcstream, hsstream,
      haccounts⟩
  rcases ROMConnection.onEvent_of_traffic_or_ends hstep hstart h.settledLocal hread
    (hline ▸ hlstream) with
    ⟨c', ⟨r', out'⟩, ts', hevent, hP', hstream, hsettled⟩ | ⟨w, hevent, hspare⟩
  swap
  · -- a reply that does not fit behind the packet is the end of the program
    exact Or.inr ⟨by rw [ROMProxiedConnection.onLocalEvent, hevent], w.2, hspare⟩
  obtain ⟨hfromClient', hsame, hremote, toClient', toServer', hclient', hserver', hcstream',
    hsstream', haccounts'⟩ := hP'
  -- nothing from the client changes a key, so the server's side keeps its own
  have hchave : c'.haveKey = s.proxy.localConnection.haveKey := congrArg Session.haveKey hsame
  have hckey : c'.key = s.proxy.localConnection.key := congrArg Session.key hsame
  have hrhave : r'.haveKey = s.proxy.remoteConnection.haveKey := hremote.2
  refine Or.inl ⟨⟨c', ⟨r', s.proxy.remoteConnection.buffer⟩⟩, out', ?_, h.server, ?_, ?_,
    h.settledServer, h.settledClient, hsettled, h.settledRemote, toClient', fromServer, toServer',
    ts', hclient', ⟨hfrom.line.of_sameKey hremote, hfrom.unanswered⟩, hserver', hfromClient',
    hcstream', hrstream, hsstream', hstream, haccounts'.serverSent, haccounts'.clientSent,
    haccounts'.serverAsked, haccounts'.clientAsked, haccounts'.serverUnasked,
    haccounts'.clientUnasked⟩
  · rw [ROMProxiedConnection.onLocalEvent, hevent]
  · show c'.haveKey = r'.haveKey
    rw [hchave, hrhave, h.sameKey]
  · show c'.haveKey = true → c'.key = k
    rw [hchave, hckey]
    exact h.localKey

/-! ## Events of the peers -/

/-- What a peer notes of a frame. -/
structure Noted (t : Traffic k) (trace trace' : List Event) : Prop where
  deliveries_eq : deliveries trace' = deliveries trace ++ payloads (framesIn [t])
  replies_eq : replies trace' = replies trace + [t].countP Traffic.answers
  unasked : (∀ bs, Event.keepaliveReply bs ∉ trace) → ∀ bs, Event.keepaliveReply bs ∉ trace'

/-- A peer takes a key frame. -/
theorem look_peer_key {f : Packet} (hf : CarriesKey k f) (c : Session) (trace : List Event) :
    ∃ trace', look peer (c, (), trace) f.bytes =
        .take f.bytes.length ({ c with key := k, haveKey := true }, (), trace') ∧
      Noted (.frame (.key f hf)) trace trace' := by
  have hhandle := Session.handlePacket_carriesKey (h := peer) hf c ((), trace)
  have hflag : (f.pFlag == ROM_PACKET_FLAG_ALIVE_REPLY) = false := by
    refine beq_eq_false_iff_ne.2 fun heq => hf.flag ?_
    rw [heq]
    decide
  refine ⟨_, look_bytes hf.fits hhandle, ?_, ?_, ?_⟩
  · simp [peer, Host.recording, deliveries]
  · simp [peer, Host.recording, replies, hflag, Traffic.answers]
  · simp [peer, Host.recording]

/-- A peer with the key takes a data frame. -/
theorem look_peer_data {f : Packet} {payload : List UInt8} (hf : Carries k f payload) {c : Session}
    (hc : c.Holds k) (trace : List Event) :
    ∃ trace', look peer (c, (), trace) f.bytes = .take f.bytes.length (c, (), trace') ∧
      Noted (.frame (.data f payload hf)) trace trace' := by
  obtain ⟨q, hqlen, hqdata, hhandle⟩ := Session.handlePacket_carries (h := peer)
    (hc.2.symm ▸ hf) hc.1 ((), trace)
  have hflag : (f.pFlag == ROM_PACKET_FLAG_ALIVE_REPLY) = false := by
    rw [hf.flag]
    decide
  refine ⟨_, look_bytes hf.fits hhandle, ?_, ?_, ?_⟩
  · simp [peer, Host.recording, deliveries, hqlen, hqdata]
  · simp [peer, Host.recording, replies, hflag, Traffic.answers]
  · simp [peer, Host.recording]

/-- A peer takes a reply. -/
theorem look_peer_reply {p : Packet} (hp : p.IsReply) (c : Session) (trace : List Event) :
    ∃ trace', look peer (c, (), trace) p.bytes = .take p.bytes.length (c, (), trace') ∧
      Noted (k := k) (.reply p hp) trace trace' := by
  refine ⟨trace ++ [.raw p], look_reply hp c ((), trace), ?_, ?_, ?_⟩
  · simp [deliveries]
  · simp [replies, hp.flag, Traffic.answers]
  · simp

section Accounts

variable {s : Kept} {toClient fromServer toServer fromClient : List (Traffic k)} {t : Traffic k}
  {trace : List Event}

theorem Accounts.clientTakes
    (h : Accounts k s (t :: toClient) fromServer toServer fromClient)
    (ht : Noted t s.clientTrace trace) :
    Accounts k { s with clientTrace := trace } toClient fromServer toServer fromClient where
  serverSent := by
    rw [← h.serverSent, ht.deliveries_eq, List.append_assoc (deliveries _), ← payloads_append,
      ← framesIn_append]
    rfl
  clientSent := h.clientSent
  serverAsked := h.serverAsked
  clientAsked := by
    rw [← h.clientAsked, ht.replies_eq, ← List.singleton_append (l := toClient), List.countP_append]
    omega
  serverUnasked := h.serverUnasked
  clientUnasked := ht.unasked h.clientUnasked

theorem Accounts.serverTakes
    (h : Accounts k s toClient fromServer (t :: toServer) fromClient)
    (ht : Noted t s.serverTrace trace) :
    Accounts k { s with serverTrace := trace } toClient fromServer toServer fromClient where
  serverSent := h.serverSent
  clientSent := by
    rw [← h.clientSent, ht.deliveries_eq, List.append_assoc (deliveries _), ← payloads_append,
      ← framesIn_append]
    rfl
  serverAsked := by
    rw [← h.serverAsked, ht.replies_eq, ← List.singleton_append (l := toServer), List.countP_append]
    omega
  clientAsked := h.clientAsked
  serverUnasked := ht.unasked h.serverUnasked
  clientUnasked := h.clientUnasked

end Accounts

/-- A delivery to the client. -/
theorem Kept.Relayed.clientEvent {s : Kept} (h : s.Relayed k) {packet rest : List UInt8}
    (hread : IsRead packet) (hline : s.outside.toClient = packet ++ rest) :
    ∃ c trace, s.client.onEvent peer packet ((), s.clientTrace) = .returned true c ((), trace) ∧
      Kept.Relayed k { s with
        client := c
        outside := { s.outside with toClient := rest }
        clientTrace := trace } := by
  obtain ⟨toClient, fromServer, toServer, fromClient, hclient, hfrom, hserver, hfromClient,
    hcstream, hrstream, hsstream, hlstream, haccounts⟩ := h.carried
  let P (st : Session × Unit × List Event) (ts : List (Traffic k)) : Prop :=
    ToClient k st.1 s.proxy.localConnection.haveKey ts ∧
      Accounts k { s with clientTrace := st.2.2 } ts fromServer toServer fromClient
  have hstep : ∀ {st t ts}, P st (t :: ts) → ∃ st', look peer st t.bytes =
      .take t.bytes.length st' ∧ P st' ts := by
    intro st t ts hP
    obtain ⟨c, u, trace⟩ := st
    obtain ⟨⟨hline, hall⟩, haccounts⟩ := hP
    obtain ⟨hfirst, hunasked⟩ := List.forall_mem_cons.1 hall
    clear hall
    cases t with
    | request p hp => exact absurd hfirst.symm Bool.false_ne_true
    | reply p hp =>
        obtain ⟨trace', hlook, hnoted⟩ := look_peer_reply (k := k) hp c trace
        exact ⟨_, hlook, ⟨hline, hunasked⟩, haccounts.clientTakes hnoted⟩
    | frame f =>
        obtain ⟨hopen, hfs, ⟨-, p, hp, rfl⟩ | ⟨hk, p, payload, hp, rfl⟩⟩ := hline.cases_cons
        · -- the key comes first, and all that follows it is data
          obtain ⟨trace', hlook, hnoted⟩ := look_peer_key hp c trace
          exact ⟨_, hlook, ⟨by rw [hopen]; exact .data ⟨rfl, rfl⟩ hfs, hunasked⟩,
            haccounts.clientTakes hnoted⟩
        · obtain ⟨trace', hlook, hnoted⟩ := look_peer_data hp hk trace
          exact ⟨_, hlook, ⟨by rw [hopen]; exact .data hk hfs, hunasked⟩,
            haccounts.clientTakes hnoted⟩
  obtain ⟨c', ⟨u, trace'⟩, ts', hevent, ⟨hclient', haccounts'⟩, hstream, hsettled⟩ :=
    ROMConnection.onEvent_of_traffic (P := P) (w := ((), s.clientTrace)) hstep ⟨hclient, haccounts⟩
      h.settledClient hread (hline ▸ hcstream)
  exact ⟨c', trace', hevent, h.server, h.sameKey, h.localKey, h.settledServer, hsettled,
    h.settledLocal, h.settledRemote, ts', fromServer, toServer, fromClient, hclient', hfrom,
    hserver, hfromClient, hstream, hrstream, hsstream, hlstream, haccounts'.serverSent,
    haccounts'.clientSent, haccounts'.serverAsked, haccounts'.clientAsked,
    haccounts'.serverUnasked, haccounts'.clientUnasked⟩

/-- A delivery to the server. -/
theorem Kept.Relayed.serverEvent {s : Kept} (h : s.Relayed k) {packet rest : List UInt8}
    (hread : IsRead packet) (hline : s.outside.toServer = packet ++ rest) :
    ∃ c trace, s.server.onEvent peer packet ((), s.serverTrace) = .returned true c ((), trace) ∧
      Kept.Relayed k { s with
        server := c
        outside := { s.outside with toServer := rest }
        serverTrace := trace } := by
  obtain ⟨toClient, fromServer, toServer, fromClient, hclient, hfrom, hserver, hfromClient,
    hcstream, hrstream, hsstream, hlstream, haccounts⟩ := h.carried
  let P (st : Session × Unit × List Event) (ts : List (Traffic k)) : Prop :=
    st.1.Holds k ∧ ToServer k ts ∧
      Accounts k { s with serverTrace := st.2.2 } toClient fromServer ts fromClient
  have hstep : ∀ {st t ts}, P st (t :: ts) → ∃ st', look peer st t.bytes =
      .take t.bytes.length st' ∧ P st' ts := by
    intro st t ts hP
    obtain ⟨c, u, trace⟩ := st
    obtain ⟨hk, ⟨hdata, hall⟩, haccounts⟩ := hP
    obtain ⟨hfirst, hunasked⟩ := List.forall_mem_cons.1 hall
    clear hall
    cases t with
    -- nobody asks the server, and nobody sends it a key
    | request p hp => exact absurd hfirst.symm Bool.false_ne_true
    | reply p hp =>
        obtain ⟨trace', hlook, hnoted⟩ := look_peer_reply (k := k) hp c trace
        exact ⟨_, hlook, hk, ⟨hdata, hunasked⟩, haccounts.serverTakes hnoted⟩
    | frame f =>
        obtain ⟨hfdata, hfs⟩ := List.forall_mem_cons.1 hdata
        cases f with
        | key p hp => exact absurd hfdata id
        | data p payload hp =>
            obtain ⟨trace', hlook, hnoted⟩ := look_peer_data hp hk trace
            exact ⟨_, hlook, hk, ⟨hfs, hunasked⟩, haccounts.serverTakes hnoted⟩
  obtain ⟨c', ⟨u, trace'⟩, ts', hevent, ⟨hk, hserver', haccounts'⟩, hstream, hsettled⟩ :=
    ROMConnection.onEvent_of_traffic (P := P) (w := ((), s.serverTrace)) hstep
      ⟨h.server, hserver, haccounts⟩ h.settledServer hread (hline ▸ hsstream)
  exact ⟨c', trace', hevent, hk, h.sameKey, h.localKey, hsettled, h.settledClient, h.settledLocal,
    h.settledRemote, toClient, fromServer, ts', fromClient, hclient, hfrom, hserver', hfromClient,
    hcstream, hrstream, hstream, hlstream, haccounts'.serverSent, haccounts'.clientSent,
    haccounts'.serverAsked, haccounts'.clientAsked, haccounts'.serverUnasked,
    haccounts'.clientUnasked⟩

/-! ## Sending -/

theorem FromServer.pushRequest {remote : Session} {opened : Bool} {ts : List (Traffic k)}
    (h : FromServer k remote opened ts) {p : Packet} (hp : p.IsRequest) :
    FromServer k remote opened (ts ++ [.request p hp]) where
  line := by
    rw [framesIn_append, framesIn_request, framesIn_nil, List.append_nil]
    exact h.line
  unanswered := List.forall_mem_append.2 ⟨h.unanswered, List.forall_mem_singleton.2 rfl⟩

theorem FromServer.pushKey {remote : Session} {ts : List (Traffic k)}
    (h : FromServer k remote false ts) {f : Packet} (hf : CarriesKey k f) :
    FromServer k remote true (ts ++ [.frame (.key f hf)]) := by
  obtain ⟨hline, hunanswered⟩ := h
  refine ⟨?_, List.forall_mem_append.2 ⟨hunanswered, List.forall_mem_singleton.2 rfl⟩⟩
  rw [framesIn_append]
  generalize framesIn ts = fs at hline
  cases hline with
  | closed hno => exact .key hno (List.forall_mem_nil _)

theorem FromServer.pushData {remote : Session} {ts : List (Traffic k)}
    (h : FromServer k remote true ts) {f : Packet} {payload : List UInt8}
    (hf : Carries k f payload) :
    FromServer k remote true (ts ++ [.frame (.data f payload hf)]) where
  line := by
    rw [framesIn_append]
    exact h.line.push trivial
  unanswered := List.forall_mem_append.2 ⟨h.unanswered, List.forall_mem_singleton.2 rfl⟩

theorem FromClient.pushRequest {haveKey : Bool} {ts : List (Traffic k)}
    (h : FromClient k haveKey ts) {p : Packet} (hp : p.IsRequest) :
    FromClient k haveKey (ts ++ [.request p hp]) := by
  have hframes : framesIn (ts ++ [.request p hp]) = framesIn ts := by
    rw [framesIn_append, framesIn_request, framesIn_nil, List.append_nil]
  exact ⟨by rw [hframes]; exact h.data,
    List.forall_mem_append.2 ⟨h.unanswered, List.forall_mem_singleton.2 rfl⟩,
    by rw [hframes]; exact h.hasKey⟩

theorem FromClient.pushData {haveKey : Bool} {ts : List (Traffic k)} (h : FromClient k haveKey ts)
    (hhave : haveKey = true) {f : Packet} {payload : List UInt8} (hf : Carries k f payload) :
    FromClient k haveKey (ts ++ [.frame (.data f payload hf)]) where
  data := by
    rw [framesIn_append]
    exact List.forall_mem_append.2 ⟨h.data, List.forall_mem_singleton.2 trivial⟩
  unanswered := List.forall_mem_append.2 ⟨h.unanswered, List.forall_mem_singleton.2 rfl⟩
  hasKey _ := hhave

/-- The bytes of one more frame. -/
theorem traffic_push {buffer line : List UInt8} {ts : List (Traffic k)}
    (h : buffer ++ line = traffic ts) (t : Traffic k) :
    buffer ++ (line ++ t.bytes) = traffic (ts ++ [t]) := by
  rw [← List.append_assoc, h, traffic_snoc]

/-- The server sends its key frame. -/
theorem Kept.Relayed.sendKey {s : Kept} (h : s.Relayed k) (hopen : s.opened = false)
    {p p' : Packet} {ok : Bool} {out : List UInt8}
    (hsend : s.server.sendKey wire p s.fromServer = some (ok, p', out)) :
    Kept.Relayed k { s with opened := true, fromServer := out } := by
  obtain ⟨toClient, fromServer, toServer, fromClient, hclient, hfrom, hserver, hfromClient,
    hcstream, hrstream, hsstream, hlstream, haccounts⟩ := h.carried
  obtain ⟨q, hf, -, hsend'⟩ :=
    s.server.sendKey_eq wire (Session.room_of_sendKey hsend) s.fromServer
  rw [hsend] at hsend'
  cases hsend'
  rw [h.server.2] at hf
  rw [hopen] at hfrom
  have hstream := traffic_push hrstream (.frame (.key p'.frame hf))
  refine ⟨h.server, h.sameKey, h.localKey, h.settledServer, h.settledClient, h.settledLocal,
    h.settledRemote, toClient, _, toServer, fromClient, hclient, hfrom.pushKey hf, hserver,
    hfromClient, hcstream, hstream, hsstream, hlstream, ?_, haccounts.clientSent, ?_,
    haccounts.clientAsked, haccounts.serverUnasked, haccounts.clientUnasked⟩
  · rw [← haccounts.serverSent, framesIn_append, payloads_append]
    exact congrArg _ (List.append_nil _)
  · rw [← haccounts.serverAsked, List.countP_append]
    rfl

/-- The server sends data. -/
theorem Kept.Relayed.serverSend {s : Kept} (h : s.Relayed k) (hopen : s.opened = true)
    {p p' : Packet} (hp : p.Fits) {ok : Bool} {session : Session} {out : List UInt8}
    (hsend : s.server.sendPacket wire p s.fromServer = some (ok, session, p', out)) :
    Kept.Relayed k { s with
      server := ⟨session, s.server.buffer⟩
      fromServer := out
      serverSent := s.serverSent ++ [(p.pLength, p.pData)] } := by
  obtain ⟨toClient, fromServer, toServer, fromClient, hclient, hfrom, hserver, hfromClient,
    hcstream, hrstream, hsstream, hlstream, haccounts⟩ := h.carried
  obtain ⟨f, hf, hlen, hsend'⟩ := s.server.sendPacket_eq wire hp s.fromServer
  rw [hsend] at hsend'
  cases hsend'
  rw [h.server.2] at hf
  rw [hopen] at hfrom
  have hsent : FromServer k s.proxy.remoteConnection.toSession s.opened
      (fromServer ++ [.frame (.data p' p.pData hf)]) := by
    rw [hopen]
    exact hfrom.pushData hf
  have hstream := traffic_push hrstream (.frame (.data p' p.pData hf))
  refine ⟨h.server, h.sameKey, h.localKey, h.settledServer, h.settledClient, h.settledLocal,
    h.settledRemote, toClient, _, toServer, fromClient, hclient, hsent, hserver, hfromClient,
    hcstream, hstream, hsstream, hlstream, ?_, haccounts.clientSent, ?_, haccounts.clientAsked,
    haccounts.serverUnasked, haccounts.clientUnasked⟩
  · rw [← haccounts.serverSent, framesIn_append, payloads_append, ← hlen, List.append_assoc]
    simp
  · rw [← haccounts.serverAsked, List.countP_append]
    rfl

/-- The client sends data. -/
theorem Kept.Relayed.clientSend {s : Kept} (h : s.Relayed k) (hhave : s.client.haveKey = true)
    {p p' : Packet} (hp : p.Fits) {ok : Bool} {session : Session} {out : List UInt8}
    (hsend : s.client.sendPacket wire p s.fromClient = some (ok, session, p', out)) :
    Kept.Relayed k { s with
      client := ⟨session, s.client.buffer⟩
      fromClient := out
      clientSent := s.clientSent ++ [(p.pLength, p.pData)] } := by
  obtain ⟨toClient, fromServer, toServer, fromClient, hclient, hfrom, hserver, hfromClient,
    hcstream, hrstream, hsstream, hlstream, haccounts⟩ := h.carried
  obtain ⟨f, hf, hlen, hsend'⟩ := s.client.sendPacket_eq wire hp s.fromClient
  rw [hsend] at hsend'
  cases hsend'
  rw [(hclient.line.holds hhave).2] at hf
  have hstream := traffic_push hlstream (.frame (.data p' p.pData hf))
  refine ⟨h.server, h.sameKey, h.localKey, h.settledServer, h.settledClient, h.settledLocal,
    h.settledRemote, toClient, fromServer, toServer, _,
    ⟨hclient.line.of_sameKey ⟨rfl, rfl⟩, hclient.unasked⟩, hfrom, hserver,
    hfromClient.pushData (hclient.line.opened hhave) hf, hcstream, hrstream, hsstream,
    hstream, haccounts.serverSent, ?_, haccounts.serverAsked, ?_,
    haccounts.serverUnasked, haccounts.clientUnasked⟩
  · rw [← haccounts.clientSent, framesIn_append, payloads_append, ← hlen, List.append_assoc]
    simp
  · rw [← haccounts.clientAsked, List.countP_append]
    rfl

/-- The server asks for a reply. -/
theorem Kept.Relayed.serverAsks {s : Kept} (h : s.Relayed k) {p : Packet} (hp : p.IsRequest) :
    Kept.Relayed k { s with
      fromServer := s.fromServer ++ p.bytes
      serverAsked := s.serverAsked + 1 } := by
  obtain ⟨toClient, fromServer, toServer, fromClient, hclient, hfrom, hserver, hfromClient,
    hcstream, hrstream, hsstream, hlstream, haccounts⟩ := h.carried
  have hstream := traffic_push hrstream (.request p hp)
  refine ⟨h.server, h.sameKey, h.localKey, h.settledServer, h.settledClient, h.settledLocal,
    h.settledRemote, toClient, _, toServer, fromClient, hclient, hfrom.pushRequest hp, hserver,
    hfromClient, hcstream, hstream, hsstream, hlstream, ?_, haccounts.clientSent, ?_,
    haccounts.clientAsked, haccounts.serverUnasked, haccounts.clientUnasked⟩
  · rw [← haccounts.serverSent, framesIn_append, framesIn_request, framesIn_nil, List.append_nil]
  · rw [← haccounts.serverAsked, List.countP_append]
    rfl

/-- The client asks for a reply. -/
theorem Kept.Relayed.clientAsks {s : Kept} (h : s.Relayed k) {p : Packet} (hp : p.IsRequest) :
    Kept.Relayed k { s with
      fromClient := s.fromClient ++ p.bytes
      clientAsked := s.clientAsked + 1 } := by
  obtain ⟨toClient, fromServer, toServer, fromClient, hclient, hfrom, hserver, hfromClient,
    hcstream, hrstream, hsstream, hlstream, haccounts⟩ := h.carried
  have hstream := traffic_push hlstream (.request p hp)
  refine ⟨h.server, h.sameKey, h.localKey, h.settledServer, h.settledClient, h.settledLocal,
    h.settledRemote, toClient, fromServer, toServer, _, hclient, hfrom, hserver,
    hfromClient.pushRequest hp, hcstream, hrstream, hsstream, hstream, haccounts.serverSent, ?_,
    haccounts.serverAsked, ?_, haccounts.serverUnasked, haccounts.clientUnasked⟩
  · rw [← haccounts.clientSent, framesIn_append, framesIn_request, framesIn_nil, List.append_nil]
  · rw [← haccounts.clientAsked, List.countP_append]
    rfl

/-! ## Runs -/

theorem Kept.Relayed.start (k : Key) (sequence : UInt32) :
    Kept.Relayed k (.start k sequence) where
  server := ⟨rfl, rfl⟩
  sameKey := rfl
  localKey h := absurd h Bool.false_ne_true
  settledServer := settled_nil
  settledClient := settled_nil
  settledLocal := settled_nil
  settledRemote := settled_nil
  carried := ⟨[], [], [], [], ⟨.closed rfl, List.forall_mem_nil _⟩,
    ⟨.closed rfl, List.forall_mem_nil _⟩, ⟨List.forall_mem_nil _, List.forall_mem_nil _⟩,
    ⟨List.forall_mem_nil _, List.forall_mem_nil _, fun h => absurd rfl h⟩, rfl, rfl, rfl, rfl,
    rfl, rfl, rfl, rfl, fun _ => List.not_mem_nil, fun _ => List.not_mem_nil⟩

/-- Every step leads from such a state to another. -/
theorem Kept.Relayed.step {px : ROMProxy} (hpx : px.CompleteWrites) {s s' : Kept}
    (h : s.Relayed k) (hstep : Kept.Step px Packet.Fits s s') : s'.Relayed k := by
  cases hstep with
  | serverAsks hp => exact h.serverAsks hp
  | clientAsks hp => exact h.clientAsks hp
  | plain hstep =>
      cases hstep with
      | sendKey hopen hsend => exact h.sendKey hopen hsend
      | serverSend hopen hp hsend => exact h.serverSend hopen hp hsend
      | clientSend hhave hp hsend => exact h.clientSend hhave hp hsend
      | remoteEvent hread hline he =>
          rcases h.remoteEvent hpx hread hline with ⟨pc, out, he', h'⟩ | ⟨he', -⟩
          · rw [he] at he'
            cases he'
            exact h'
          · rw [he] at he'
            cases he'
      | localEvent hread hline he =>
          rcases h.localEvent hpx hread hline with ⟨pc, out, he', h'⟩ | ⟨he', -⟩
          · rw [he] at he'
            cases he'
            exact h'
          · rw [he] at he'
            cases he'
      | clientEvent hread hline he =>
          obtain ⟨c, trace, he', h'⟩ := h.clientEvent hread hline
          rw [he] at he'
          cases he'
          exact h'
      | serverEvent hread hline he =>
          obtain ⟨c, trace, he', h'⟩ := h.serverEvent hread hline
          rw [he] at he'
          cases he'
          exact h'

theorem Kept.Relayed.of_reachable {px : ROMProxy} (hpx : px.CompleteWrites) {s : Kept}
    (hs : Kept.Reachable px Packet.Fits s) : ∃ k, s.Relayed k := by
  induction hs with
  | start k sequence => exact ⟨k, .start k sequence⟩
  | step _ hstep ih =>
      obtain ⟨k, h⟩ := ih
      exact ⟨k, h.step hpx hstep⟩

theorem Kept.Relayed.flows {px : ROMProxy} (hpx : px.CompleteWrites) {s : Kept}
    (h : s.Relayed k) : s.Flows px := by
  refine ⟨?_, ?_, ?_, ?_⟩
  · intro packet rest hread hline
    exact (h.remoteEvent hpx hread hline).imp_left fun ⟨pc, out, he, _⟩ => ⟨pc, out, he⟩
  · intro packet rest hread hline
    exact (h.localEvent hpx hread hline).imp_left fun ⟨pc, out, he, _⟩ => ⟨pc, out, he⟩
  · intro packet rest hread hline
    obtain ⟨c, trace, he, -⟩ := h.clientEvent hread hline
    exact ⟨c, trace, he⟩
  · intro packet rest hread hline
    obtain ⟨c, trace, he, -⟩ := h.serverEvent hread hline
    exact ⟨c, trace, he⟩

/-- Where nothing is in flight, no traffic is on its way. -/
theorem traffic_eq_nil {buffer line : List UInt8} {ts : List (Traffic k)} (hs : Settled buffer)
    (h : buffer ++ line = traffic ts) (hline : line = []) : ts = [] := by
  rw [hline, List.append_nil] at h
  exact (h ▸ hs).traffic_eq_nil

theorem Kept.Relayed.inOrder {s : Kept} (h : s.Relayed k) : s.toSystem.InOrder ∧ s.Answered := by
  obtain ⟨toClient, fromServer, toServer, fromClient, -, -, -, -, hcstream, hrstream, hsstream,
    hlstream, haccounts⟩ := h.carried
  refine ⟨⟨?_, ?_, fun hfrom hto => ?_, fun hfrom hto => ?_⟩,
    ⟨?_, ?_, fun hfrom hto => ?_, fun hfrom hto => ?_, haccounts.serverUnasked,
      haccounts.clientUnasked⟩⟩
  · rw [← haccounts.serverSent, List.append_assoc]
    exact List.prefix_append _ _
  · rw [← haccounts.clientSent, List.append_assoc]
    exact List.prefix_append _ _
  · obtain rfl := traffic_eq_nil h.settledClient hcstream hto
    obtain rfl := traffic_eq_nil h.settledRemote hrstream hfrom
    simpa using haccounts.serverSent
  · obtain rfl := traffic_eq_nil h.settledServer hsstream hto
    obtain rfl := traffic_eq_nil h.settledLocal hlstream hfrom
    simpa using haccounts.clientSent
  · have hasked := haccounts.serverAsked
    omega
  · have hasked := haccounts.clientAsked
    omega
  · obtain rfl := traffic_eq_nil h.settledServer hsstream hto
    obtain rfl := traffic_eq_nil h.settledRemote hrstream hfrom
    exact haccounts.serverAsked
  · obtain rfl := traffic_eq_nil h.settledClient hcstream hto
    obtain rfl := traffic_eq_nil h.settledLocal hlstream hfrom
    exact haccounts.clientAsked

end Carried

/-- Whatever the peers ask for and whenever they do, as long as the proxy runs: either has decoded
the front of what the other has sent, all of it once nothing is in flight; each gets as many replies
as it has asked for, of the proxy, which asks the other peer for none; and no delivery makes an
event return `false`, though a reply can end the proxy. -/
theorem Kept.relay_answers (px : ROMProxy) (hpx : px.CompleteWrites) {s : Kept}
    (hs : Reachable px Packet.Fits s) :
    s.toSystem.InOrder ∧ s.Flows px ∧ s.Answered := by
  obtain ⟨k, h⟩ := Relayed.of_reachable hpx hs
  exact ⟨h.inOrder.1, h.flows hpx, h.inOrder.2⟩

/-- A request with the right header checksum, and no data. -/
def requestPacket : Packet := ⟨12, ROM_PACKET_FLAG_ALIVE_REQUEST, 0, 15, 0xff, 0, []⟩

theorem isRequest_requestPacket : requestPacket.IsRequest where
  fits := ⟨by decide, by decide⟩
  request := by unfold Packet.IsKeepaliveRequest; decide

/-- The relay with a request in flight, and no key yet. -/
theorem Kept.relay_answers_requestPacket : ∃ s : Kept, s.serverAsked = 1 ∧ s.fromServer ≠ [] ∧
    s.toSystem.InOrder ∧ s.Flows .plain ∧ s.Answered := by
  have hs : Reachable .plain Packet.Fits
      { start .zero 1 with
        fromServer := (start .zero 1).fromServer ++ requestPacket.bytes
        serverAsked := (start .zero 1).serverAsked + 1 } :=
    .step (.start .zero 1) (.serverAsks isRequest_requestPacket)
  exact ⟨_, rfl, List.cons_ne_nil _ _, relay_answers .plain ROMProxy.completeWrites_plain hs⟩

end OpenRom
