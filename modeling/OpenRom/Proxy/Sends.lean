import OpenRom.Connection.Noting
import OpenRom.Connection.Receive
import OpenRom.Connection.Sending
import OpenRom.Proxy.ProxiedConnection

/-!
# The sends of a run

Runs of a proxied connection, with every call of a send path noted. In a run to which no keepalive
request has come, all of them stay inside the objects that they are called with, and in any other
one of them does not (`sends_good_iff`).
-/

set_option autoImplicit false

namespace OpenRom

open ROMConnection (turn)

variable {ω : Type}

/-- The frames that were handled and the sends that were made. -/
structure Calls where
  frames : List Packet
  sends : List Send
  deriving DecidableEq, Repr

/-- The sends stay inside their objects exactly when no frame is a keepalive request. -/
def Calls.Sound (calls : Calls) : Prop :=
  (∀ c ∈ calls.sends, c.Good) ↔ ∀ f ∈ calls.frames, ¬ f.IsKeepaliveRequest

theorem Calls.Sound.append {calls : Calls} (hs : calls.Sound) {f : Packet} {sends : List Send}
    (hf : ¬ f.IsKeepaliveRequest) (hsends : ∀ c ∈ sends, c.Good) :
    Calls.Sound ⟨calls.frames ++ [f], calls.sends ++ sends⟩ := by
  simp only [Sound, List.forall_mem_append, List.forall_mem_singleton]
  exact ⟨fun hall => ⟨hs.1 hall.1, hf⟩, fun hall => ⟨hs.2 hall.1, hsends⟩⟩

theorem Calls.sound_keepaliveReply (calls : Calls) {f : Packet} (hf : f.IsKeepaliveRequest) :
    Calls.Sound ⟨calls.frames ++ [f], calls.sends ++ [.keepaliveReply]⟩ := by
  simp only [Sound, List.forall_mem_append, List.forall_mem_singleton]
  exact ⟨fun hall => absurd hall.2 Send.not_good_keepaliveReply, fun hall => absurd hf hall.2⟩

/-- A host that notes the calls: its `Write` is called by `SendKeepaliveReply` only. `session` is
that of the connection on which packets are sent on. -/
def Host.noteSends (h : Host ω) (keySends : Session → ω → List Send) (session : ω → Session) :
    Host (ω × Calls) where
  onRawPacketReceived p st :=
    (h.onRawPacketReceived p st.1, { st.2 with frames := st.2.frames ++ [p] })
  onNewKey s st := (h.onNewKey s st.1).map fun w =>
    (w, { st.2 with sends := st.2.sends ++ keySends s st.1 })
  onPacket p st := (h.onPacket p st.1).map fun r =>
    (r.1, r.2, { st.2 with sends := st.2.sends ++ [.packet (session st.1) p] })
  write bs st :=
    ((h.write bs st.1).1, (h.write bs st.1).2,
      { st.2 with sends := st.2.sends ++ [.keepaliveReply] })
  stack := h.stack.comap Prod.fst
  onPacket_length := by
    intro p p' st st' hp
    obtain ⟨r, hr, heq⟩ := Option.map_eq_some_iff.1 hp
    cases heq
    exact h.onPacket_length hr

/-- The world that is left after a frame. -/
def Handled.world : Handled ω → ω
  | .flush _ _ w => w
  | .stop _ _ w => w
  | .fault w => w

/-- The world that is left after an event. -/
def Outcome.world : Outcome ω → ω
  | .fault w => w
  | .returned _ _ w => w

section NoteSends

variable (h : Host ω) (keySends : Session → ω → List Send) (session : ω → Session)

theorem Host.noteSends_seenAs : (h.noteSends keySends session).SeenAs Prod.fst h where
  onRawPacketReceived _ _ := rfl
  onNewKey s st := by
    simp only [noteSends]
    cases h.onNewKey s st.1 <;> rfl
  onPacket p st := by
    simp only [noteSends]
    cases h.onPacket p st.1 <;> rfl
  write _ _ := rfl
  stackBytes _ := rfl
  stackSpare _ := rfl

theorem Session.sendKeepaliveReply_noteSends (s : Session) (st : ω × Calls) :
    ∃ ok w, s.sendKeepaliveReply (h.noteSends keySends session) st =
      some (ok, w, { st.2 with sends := st.2.sends ++ [.keepaliveReply] }) := by
  simp [sendKeepaliveReply, checksumAndSend, Key.byteFor, Host.noteSends]

variable {keySends}

/-- One frame keeps the notes sound: it is a keepalive request, which is answered, or its sends, if
it makes any, are good. -/
theorem Session.handlePacket_noteSends (hkey : ∀ s w, ∀ c ∈ keySends s w, c.Good) (s : Session)
    {f : Packet} (hf : f.pLength.toNat = f.bytes.length) {st : ω × Calls} (hs : st.2.Sound) :
    (s.handlePacket (h.noteSends keySends session) f st).world.2.Sound := by
  have hcourse := s.handlePacket_course (h.noteSends keySends session) f st
  have hrequest := Session.course_eq_keepalive_iff (s := s) (f := f)
  have hraw : s.course f ≠ .keepalive →
      ((h.noteSends keySends session).onRawPacketReceived f st).2.Sound := by
    intro hne
    have hnone : ∀ c ∈ ([] : List Send), c.Good := nofun
    have happend := hs.append (fun halive => hne (hrequest.2 halive)) hnone
    rw [List.append_nil] at happend
    exact happend
  cases hc : s.course f with
  | newKey =>
      rw [hc] at hcourse
      obtain ⟨hlen, hhandle⟩ := hcourse
      rw [hhandle]
      cases hnew : (h.noteSends keySends session).onNewKey (s.installKey f.pData hlen)
          ((h.noteSends keySends session).onRawPacketReceived f st) with
      | none => exact hraw (by simp [hc])
      | some w =>
          obtain ⟨w', -, hw⟩ := Option.map_eq_some_iff.1 hnew
          cases hw
          exact hs.append (fun halive => by rw [hrequest.2 halive] at hc; cases hc) (hkey _ _)
  | keepalive =>
      rw [hc] at hcourse
      obtain ⟨ok, w, hreply⟩ := Session.sendKeepaliveReply_noteSends h keySends session s
        ((h.noteSends keySends session).onRawPacketReceived f st)
      simp only [hreply] at hcourse
      rw [hcourse]
      -- the reply has been written, whether the program goes on or not
      split
      · exact st.2.sound_keepaliveReply (hrequest.1 hc)
      · cases ok <;> exact st.2.sound_keepaliveReply (hrequest.1 hc)
  | deliver key =>
      rw [hc] at hcourse
      simp only at hcourse
      rw [hcourse]
      cases hon : (h.noteSends keySends session).onPacket (f.decrypt key)
          ((h.noteSends keySends session).onRawPacketReceived f st) with
      | none => exact hraw (by simp [hc])
      | some r =>
          obtain ⟨r', -, hr⟩ := Option.map_eq_some_iff.1 hon
          cases hr
          refine hs.append (fun halive => by rw [hrequest.2 halive] at hc; cases hc) ?_
          refine List.forall_mem_singleton.2 (Send.good_packet _ ?_)
          rw [Packet.length_bytes] at hf
          simpa [Send.Proper, Packet.decrypt] using hf
  | badKeyLength | badHeader | notEncrypted | noKey | outsideKey | badData key =>
      rw [hc] at hcourse
      simp only at hcourse
      rw [hcourse]
      exact hraw (by simp [hc])

/-- A turn keeps the notes sound, whether the loop goes on or is left. -/
theorem ROMConnection.turn_noteSends (hkey : ∀ s w, ∀ c ∈ keySends s w, c.Good)
    {c : ROMConnection} {st : ω × Calls} (hs : st.2.Sound) :
    (∀ {c' st'}, turn (h.noteSends keySends session) (c, st) = .again (c', st') → st'.2.Sound) ∧
      ∀ {o}, turn (h.noteSends keySends session) (c, st) = .leave o → o.world.2.Sound := by
  let Again (_ : Session) (st : ω × Calls) : Prop := st.2.Sound
  let Left (o : Outcome (ω × Calls)) : Prop := o.world.2.Sound
  refine turn_of_handled Again Left (fun _ => hs) fun f hf => ?_
  have hsound := c.handlePacket_noteSends h session hkey (nextFrame_eq_some hf).1 hs
  cases hp : c.handlePacket (h.noteSends keySends session) f st with
  | fault w =>
      rw [hp] at hsound
      exact hsound
  | stop s p w =>
      rw [hp] at hsound
      exact fun _ => hsound
  | flush s p w =>
      rw [hp] at hsound
      exact ⟨hsound, hsound⟩

theorem ROMConnection.onEvent_noteSends (hkey : ∀ s w, ∀ c ∈ keySends s w, c.Good)
    (c : ROMConnection) (packet : List UInt8) {st : ω × Calls} (hs : st.2.Sound) :
    (c.onEvent (h.noteSends keySends session) packet st).world.2.Sound := by
  let Again (_ : Session) (st : ω × Calls) : Prop := st.2.Sound
  let Left (o : Outcome (ω × Calls)) : Prop := o.world.2.Sound
  refine onEvent_of_turns Again Left hs hs fun _ hst => ?_
  exact turn_noteSends h session hkey hst

end NoteSends

/-! ## Runs of a proxied connection -/

namespace ROMProxy

variable (px : ROMProxy)

/-- What the connection to the client calls, with notes: it sends no key. -/
def localSending : Host ((Session × Outside) × Calls) :=
  px.localHost.noteSends (fun _ _ => []) Prod.fst

/-- What the connection to the server calls, with notes: a new key is sent on. -/
def remoteSending : Host ((Session × Outside) × Calls) :=
  px.remoteHost.noteSends
    (fun s w => (w.1.copyKey s).toList.map fun loc => .key loc (px.packet w.2)) Prod.fst

end ROMProxy

namespace ROMProxiedConnection

/-- `OnLocalEvent`, with notes. There is no connection left when it ends in a fault. -/
def sendLocalEvent (px : ROMProxy) (pc : ROMProxiedConnection) (packet : List UInt8)
    (out : Outside) (calls : Calls) : Option (Bool × ROMProxiedConnection) × Outside × Calls :=
  match pc.localConnection.onEvent px.localSending packet
      ((pc.remoteConnection.toSession, out), calls) with
  | .fault ((_, out), calls) => (none, out, calls)
  | .returned ok c ((remote, out), calls) =>
      (some (ok, ⟨c, ⟨remote, pc.remoteConnection.buffer⟩⟩), out, calls)

/-- `OnRemoteEvent`, with notes. -/
def sendRemoteEvent (px : ROMProxy) (pc : ROMProxiedConnection) (packet : List UInt8)
    (out : Outside) (calls : Calls) : Option (Bool × ROMProxiedConnection) × Outside × Calls :=
  match pc.remoteConnection.onEvent px.remoteSending packet
      ((pc.localConnection.toSession, out), calls) with
  | .fault ((_, out), calls) => (none, out, calls)
  | .returned ok c ((loc, out), calls) =>
      (some (ok, ⟨⟨loc, pc.localConnection.buffer⟩, c⟩), out, calls)

/-- The notes change nothing. -/
theorem onLocalEvent_eq_sendLocalEvent (px : ROMProxy) (pc : ROMProxiedConnection)
    (packet : List UInt8) (out : Outside) (calls : Calls) :
    pc.onLocalEvent px packet out = (pc.sendLocalEvent px packet out calls).1.map fun r =>
      (r.1, r.2, (pc.sendLocalEvent px packet out calls).2.1) := by
  have hseen := ROMConnection.onEvent_seenAs
    (px.localHost.noteSends_seenAs (fun _ _ => []) Prod.fst) pc.localConnection packet
    ((pc.remoteConnection.toSession, out), calls)
  rw [onLocalEvent, sendLocalEvent, ROMProxy.localSending, hseen]
  cases pc.localConnection.onEvent (px.localHost.noteSends (fun _ _ => []) Prod.fst) packet
    ((pc.remoteConnection.toSession, out), calls) <;> rfl

theorem onRemoteEvent_eq_sendRemoteEvent (px : ROMProxy) (pc : ROMProxiedConnection)
    (packet : List UInt8) (out : Outside) (calls : Calls) :
    pc.onRemoteEvent px packet out = (pc.sendRemoteEvent px packet out calls).1.map fun r =>
      (r.1, r.2, (pc.sendRemoteEvent px packet out calls).2.1) := by
  have hseen := ROMConnection.onEvent_seenAs (px.remoteHost.noteSends_seenAs
    (fun s w => (w.1.copyKey s).toList.map fun loc => .key loc (px.packet w.2)) Prod.fst)
    pc.remoteConnection packet ((pc.localConnection.toSession, out), calls)
  rw [onRemoteEvent, sendRemoteEvent, ROMProxy.remoteSending, hseen]
  cases pc.remoteConnection.onEvent (px.remoteHost.noteSends
    (fun s w => (w.1.copyKey s).toList.map fun loc => .key loc (px.packet w.2)) Prod.fst) packet
    ((pc.localConnection.toSession, out), calls) <;> rfl

/-- Runs with notes: events of the two sides in any order, and anything that happens outside. A
fault is the end of a run. -/
inductive SendRuns (px : ROMProxy) : Option ROMProxiedConnection → Outside → Calls → Prop
  | start (out : Outside) : SendRuns px (some .fresh) out ⟨[], []⟩
  | outside {pc : ROMProxiedConnection} {out : Outside} {calls : Calls} (out' : Outside) :
      SendRuns px (some pc) out calls → SendRuns px (some pc) out' calls
  | localEvent {pc : ROMProxiedConnection} {out : Outside} {calls : Calls}
      (packet : List UInt8) : SendRuns px (some pc) out calls →
        SendRuns px ((pc.sendLocalEvent px packet out calls).1.map Prod.snd)
          (pc.sendLocalEvent px packet out calls).2.1 (pc.sendLocalEvent px packet out calls).2.2
  | remoteEvent {pc : ROMProxiedConnection} {out : Outside} {calls : Calls}
      (packet : List UInt8) : SendRuns px (some pc) out calls →
        SendRuns px ((pc.sendRemoteEvent px packet out calls).1.map Prod.snd)
          (pc.sendRemoteEvent px packet out calls).2.1 (pc.sendRemoteEvent px packet out calls).2.2

theorem sendLocalEvent_sound (px : ROMProxy) (pc : ROMProxiedConnection) (packet : List UInt8)
    (out : Outside) {calls : Calls} (hs : calls.Sound) :
    (pc.sendLocalEvent px packet out calls).2.2.Sound := by
  let keySends (_ : Session) (_ : Session × Outside) : List Send := []
  have hkey : ∀ s w, ∀ c ∈ keySends s w, c.Good := fun _ _ => nofun
  let st : (Session × Outside) × Calls := ((pc.remoteConnection.toSession, out), calls)
  have hst : st.2.Sound := hs
  have hsound := ROMConnection.onEvent_noteSends px.localHost Prod.fst hkey pc.localConnection
    packet hst
  rw [sendLocalEvent, ROMProxy.localSending]
  cases ho : pc.localConnection.onEvent (px.localHost.noteSends keySends Prod.fst) packet
      st <;> rw [ho] at hsound <;> exact hsound

theorem sendRemoteEvent_sound (px : ROMProxy) (pc : ROMProxiedConnection) (packet : List UInt8)
    (out : Outside) {calls : Calls} (hs : calls.Sound) :
    (pc.sendRemoteEvent px packet out calls).2.2.Sound := by
  let keySends (s : Session) (w : Session × Outside) : List Send :=
    (w.1.copyKey s).toList.map fun loc => .key loc (px.packet w.2)
  have hkey : ∀ s w, ∀ c ∈ keySends s w, c.Good := by
    intro s w c hc
    obtain ⟨loc, -, rfl⟩ := List.mem_map.1 hc
    exact Send.good_key loc (px.length_packet w.2)
  let st : (Session × Outside) × Calls := ((pc.localConnection.toSession, out), calls)
  have hst : st.2.Sound := hs
  have hsound := ROMConnection.onEvent_noteSends px.remoteHost Prod.fst hkey pc.remoteConnection
    packet hst
  rw [sendRemoteEvent, ROMProxy.remoteSending]
  cases ho : pc.remoteConnection.onEvent (px.remoteHost.noteSends keySends Prod.fst) packet
      st <;> rw [ho] at hsound <;> exact hsound

theorem SendRuns.sound {px : ROMProxy} {pc : Option ROMProxiedConnection} {out : Outside}
    {calls : Calls} (hr : SendRuns px pc out calls) : calls.Sound := by
  induction hr with
  | start out => exact iff_of_true nofun nofun
  | outside out' _ ih => exact ih
  | localEvent packet _ ih => exact sendLocalEvent_sound px _ packet _ ih
  | remoteEvent packet _ ih => exact sendRemoteEvent_sound px _ packet _ ih

/-- `SendPacket` and `SendKey` stay inside their objects in every state, and `SendKeepaliveReply` in
none. So a run has only such sends exactly when no keepalive request has come. -/
theorem sends_good_iff {px : ROMProxy} {pc : Option ROMProxiedConnection} {out : Outside}
    {calls : Calls} (hr : SendRuns px pc out calls) :
    (∀ c : Send, c.Proper → (c.Good ↔ c ≠ .keepaliveReply)) ∧
      ((∀ c ∈ calls.sends, c.Good) ↔ ∀ f ∈ calls.frames, ¬ f.IsKeepaliveRequest) :=
  ⟨fun _ => Send.good_iff, hr.sound⟩

/-- The proxy when the server has sent the frame. -/
def afterFrame (px : ROMProxy) (f : Packet) :
    Option (Bool × ROMProxiedConnection) × Outside × Calls :=
  fresh.sendRemoteEvent px f.bytes ⟨[], [], []⟩ ⟨[], []⟩

/-- A key frame, which is sent on to the client. -/
theorem sends_good_iff_keyPacket :
    (afterFrame .plain ROMConnection.keyPacket).2.2.sends.length = 1 ∧
      ((∀ c ∈ (afterFrame .plain ROMConnection.keyPacket).2.2.sends, c.Good) ↔
        ∀ f ∈ (afterFrame .plain ROMConnection.keyPacket).2.2.frames, ¬ f.IsKeepaliveRequest) ∧
      (Send.packet ROMConnection.keyed ROMConnection.keepalivePacket).Good := by
  obtain ⟨hsend, hrun⟩ := sends_good_iff
    (.remoteEvent ROMConnection.keyPacket.bytes (.start ⟨[], [], []⟩))
  exact ⟨by decide, hrun,
    (hsend (.packet ROMConnection.keyed ROMConnection.keepalivePacket) rfl).2 nofun⟩

/-- A keepalive request is answered from outside the packet, with what is on the stack. -/
theorem sends_not_good_keepalivePacket :
    (¬ ∀ (px : ROMProxy) (pc : Option ROMProxiedConnection) (out : Outside) (calls : Calls),
      SendRuns px pc out calls → ∀ c ∈ calls.sends, c.Good) ∧
    (afterFrame .plain ROMConnection.keepalivePacket).2.1.toServer ≠
      (afterFrame { ROMProxy.plain with stack := ⟨fun _ => 1, fun _ => true⟩ }
        ROMConnection.keepalivePacket).2.1.toServer := by
  refine ⟨fun hall => ?_, by decide⟩
  have hgood := hall .plain _ _ _
    (.remoteEvent ROMConnection.keepalivePacket.bytes (.start ⟨[], [], []⟩))
  have hmem : Send.keepaliveReply ∈
      (afterFrame .plain ROMConnection.keepalivePacket).2.2.sends := by decide
  exact Send.not_good_keepaliveReply (hgood _ hmem)

end ROMProxiedConnection

end OpenRom
