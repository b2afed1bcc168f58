import OpenRom.Proxy.System

/-!
# The relay

The frames on their way in each direction are two lines, one before and one after the proxy, and
what a peer has decoded together with what the lines carry is what the other has sent (`Relayed`).
Every step keeps that (`Relayed.step`), and in such a state every delivery succeeds
(`Relayed.flows`).
-/

set_option autoImplicit false

namespace OpenRom

open ROMConnection (IsRead)
open Reassembly

/-! ## Frames on their way -/

/-- The bytes of some frames. -/
def stream {k : Key} (fs : List (Frame k)) : List UInt8 := (fs.map Frame.bytes).flatten

theorem stream_append {k : Key} (fs gs : List (Frame k)) :
    stream (fs ++ gs) = stream fs ++ stream gs := by
  rw [stream, List.map_append, List.flatten_append]
  rfl

theorem stream_singleton {k : Key} (f : Frame k) : stream [f] = f.bytes := List.append_nil _

/-- The frames that the server has sent: those that have left the proxy, and those that have not
reached it. -/
structure Down (k : Key) (s : System) (toClient fromServer : List (Frame k)) : Prop where
  clientLine : Line k s.client.toSession s.proxy.localConnection.haveKey toClient
  remoteLine : Line k s.proxy.remoteConnection.toSession s.opened fromServer
  clientStream : s.client.buffer.data ++ s.outside.toClient = stream toClient
  remoteStream : s.proxy.remoteConnection.buffer.data ++ s.fromServer = stream fromServer
  sent : deliveries s.clientTrace ++ payloads toClient ++ payloads fromServer = s.serverSent

/-- The frames that the client has sent. -/
structure Up (k : Key) (s : System) (toServer fromClient : List (Frame k)) : Prop where
  toServerData : ∀ f ∈ toServer, f.IsData
  fromClientData : ∀ f ∈ fromClient, f.IsData
  localHasKey : fromClient ≠ [] → s.proxy.localConnection.haveKey = true
  serverStream : s.server.buffer.data ++ s.outside.toServer = stream toServer
  localStream : s.proxy.localConnection.buffer.data ++ s.fromClient = stream fromClient
  sent : deliveries s.serverTrace ++ payloads toServer ++ payloads fromClient = s.clientSent

/-- The states that the relay comes to. -/
structure Relayed (k : Key) (s : System) : Prop where
  server : s.server.Holds k
  sameKey : s.proxy.localConnection.haveKey = s.proxy.remoteConnection.haveKey
  localKey : s.proxy.localConnection.haveKey = true → s.proxy.localConnection.key = k
  settledServer : Settled s.server.buffer.data
  settledClient : Settled s.client.buffer.data
  settledLocal : Settled s.proxy.localConnection.buffer.data
  settledRemote : Settled s.proxy.remoteConnection.buffer.data
  down : ∃ toClient fromServer, Down k s toClient fromServer
  up : ∃ toServer fromClient, Up k s toServer fromClient

/-! ## What the callbacks send -/

namespace ROMProxy

variable {px : ROMProxy}

@[simp] theorem toClient_logClient (a b : Endpoint) (p : Packet) (out : Outside) :
    (px.logClient a b p out).toClient = out.toClient := by
  unfold logClient
  split <;> rfl

@[simp] theorem toServer_logClient (a b : Endpoint) (p : Packet) (out : Outside) :
    (px.logClient a b p out).toServer = out.toServer := by
  unfold logClient
  split <;> rfl

@[simp] theorem toClient_logServer (a b : Endpoint) (p : Packet) (out : Outside) :
    (px.logServer a b p out).toClient = out.toClient := by
  unfold logServer
  split <;> rfl

@[simp] theorem toServer_logServer (a b : Endpoint) (p : Packet) (out : Outside) :
    (px.logServer a b p out).toServer = out.toServer := by
  unfold logServer
  split <;> rfl

section CompleteWrites

variable (hpx : px.CompleteWrites)

include hpx

theorem writeClient_eq (bs : List UInt8) (out : Outside) :
    px.writeClient bs out = ((bs.length : Int), { out with toClient := out.toClient ++ bs }) := by
  simp [writeClient, (hpx out bs).1]

theorem writeServer_eq (bs : List UInt8) (out : Outside) :
    px.writeServer bs out = ((bs.length : Int), { out with toServer := out.toServer ++ bs }) := by
  simp [writeServer, (hpx out bs).2]

/-- A new key is passed on as a key frame. -/
theorem onRemoteNewKey_eq (remote : Session) (hhave : remote.haveKey = true) (loc : Session)
    (out : Outside) :
    ∃ p, CarriesKey remote.key p.frame ∧
      p.pFlag = ROM_PACKET_FLAG_KEY ||| ROM_PACKET_FLAG_ENCRYPTED ∧
      px.onRemoteNewKey remote loc out =
        some ({ loc with key := remote.key, haveKey := true },
          px.logClient .localRemote .localLocal p
            { out with toClient := out.toClient ++ p.frame.bytes }) := by
  have hcopy : loc.copyKey remote = some { loc with key := remote.key, haveKey := true } :=
    if_pos hhave
  have hroom : ROM_KEY_LENGTH ≤ (px.packet out).pData.length := by
    rw [px.length_packet]
    decide
  obtain ⟨p, hp, hflag, hsend⟩ := Session.sendKey_eq px.writeClient
    { loc with key := remote.key, haveKey := true } hroom out
  refine ⟨p, hp, hflag, ?_⟩
  simp only [onRemoteNewKey, hcopy, hsend, writeClient_eq hpx, Option.bind_eq_bind,
    Option.bind_some]
  rfl

/-- A packet of the server is passed on as a frame with the same payload. -/
theorem onRemotePacket_eq {q : Packet} (hq : q.Fits) (loc : Session) (out : Outside) :
    ∃ f, Carries loc.key f q.pData ∧ f.pLength = q.pLength ∧
      px.onRemotePacket q loc out =
        some (f, { loc with sequence := loc.sequence + 1 },
          px.logClient .localRemote .localLocal f
            { out with toClient := out.toClient ++ f.bytes }) := by
  obtain ⟨f, hf, hlen, hsend⟩ := loc.sendPacket_eq px.writeClient hq out
  refine ⟨f, hf, hlen, ?_⟩
  simp only [onRemotePacket, hsend, writeClient_eq hpx, Option.bind_eq_bind, Option.bind_some]
  rfl

/-- A packet of the client is passed on as a frame with the same payload. -/
theorem onLocalPacket_eq {q : Packet} (hq : q.Fits) (remote : Session) (out : Outside) :
    ∃ f, Carries remote.key f q.pData ∧ f.pLength = q.pLength ∧
      px.onLocalPacket q remote out =
        some (f, { remote with sequence := remote.sequence + 1 },
          px.logServer .remoteLocal .remoteRemote f
            { out with toServer := out.toServer ++ f.bytes }) := by
  obtain ⟨f, hf, hlen, hsend⟩ := remote.sendPacket_eq px.writeServer hq out
  refine ⟨f, hf, hlen, ?_⟩
  simp only [onLocalPacket, hsend, writeServer_eq hpx, Option.bind_eq_bind, Option.bind_some]
  rfl

end CompleteWrites

end ROMProxy

/-! ## Events of the proxy -/

/-- What a connection with the key hands on fits a packet again. -/
theorem Carries.fits_payload {k : Key} {f q : Packet} {payload : List UInt8}
    (hf : Carries k f payload) (hlen : q.pLength = f.pLength) (hdata : q.pData = payload) :
    q.Fits :=
  ⟨by rw [hlen, hdata, hf.length_payload, hf.fits.length_eq], by rw [hlen]; exact hf.fits.length_lt⟩

/-- While the connection to the server takes frames: the session it has, that of the connection to
the client, what has been written, and the frames that are left. -/
structure RemoteTakes (k : Key) (s : System) (r l : Session) (out : Outside)
    (fromServer : List (Frame k)) : Prop where
  line : Line k r s.opened fromServer
  sameKey : l.haveKey = r.haveKey
  localKey : l.haveKey = true → l.key = k
  localHasKey : s.proxy.localConnection.haveKey = true → l.haveKey = true
  toServer : out.toServer = s.outside.toServer
  down : ∃ toClient, Line k s.client.toSession l.haveKey toClient ∧
    s.client.buffer.data ++ out.toClient = stream toClient ∧
    deliveries s.clientTrace ++ payloads toClient ++ payloads fromServer = s.serverSent

/-- The connection to the server takes one frame. -/
theorem RemoteTakes.step {px : ROMProxy} (hpx : px.CompleteWrites) {k : Key} {s : System}
    {r l : Session} {out : Outside} {f : Frame k} {fs : List (Frame k)}
    (h : RemoteTakes k s r l out (f :: fs)) :
    ∃ r' l' out', look px.remoteHost (r, l, out) f.bytes = .take f.bytes.length (r', l', out') ∧
      RemoteTakes k s r' l' out' fs := by
  obtain ⟨hline, hsame, hlkey, hmono, hserver, toClient, hclient, hstream, hsent⟩ := h
  obtain ⟨hopen, hfs, ⟨hno, p, hp, rfl⟩ | ⟨hk, p, payload, hp, rfl⟩⟩ := hline.cases_cons
  · -- the key frame: the key is installed on both sides, and sent on
    obtain ⟨g, hg, -, hnew⟩ := ROMProxy.onRemoteNewKey_eq hpx
      { r with key := k, haveKey := true } rfl l (px.onRemoteRawPacket p out)
    have hhandle := Session.handlePacket_carriesKey (h := px.remoteHost) hp r (l, out)
    rw [show px.remoteHost.onNewKey { r with key := k, haveKey := true }
        (px.remoteHost.onRawPacketReceived p (l, out)) = _ from hnew] at hhandle
    -- before the key there is nothing on the way to the client
    rw [hsame, hno] at hclient
    cases hclient with
    | closed hcno =>
        refine ⟨_, _, _, look_bytes hp.fits hhandle, ?_⟩
        refine ⟨by rw [hopen]; exact .data ⟨rfl, rfl⟩ hfs, rfl, fun _ => rfl, fun _ => rfl, ?_,
          [.key g.frame hg], ?_, ?_, ?_⟩
        · rw [ROMProxy.toServer_logClient, ROMProxy.onRemoteRawPacket, ROMProxy.toServer_logServer,
            hserver]
        · exact .key hcno nofun
        · rw [ROMProxy.toClient_logClient, ROMProxy.onRemoteRawPacket, ROMProxy.toClient_logServer,
            ← List.append_assoc, hstream, stream_singleton]
          rfl
        · exact hsent
  · -- a data frame: what it carries is sent on under the same key
    have hlhave : l.haveKey = true := hsame.trans hk.1
    obtain ⟨q, hqlen, hqdata, hhandle⟩ := Session.handlePacket_carries (h := px.remoteHost)
      (hk.2.symm ▸ hp) hk.1 (l, out)
    obtain ⟨g, hg, hglen, hon⟩ := ROMProxy.onRemotePacket_eq hpx
      (hp.fits_payload hqlen hqdata) l (px.onRemoteRawPacket p out)
    rw [show px.remoteHost.onPacket q (px.remoteHost.onRawPacketReceived p (l, out)) = _ from hon]
      at hhandle
    -- both connections have the same key, so the client will decrypt what is sent on
    rw [hlkey hlhave, hqdata] at hg
    rw [hlhave] at hclient
    refine ⟨_, _, _, look_bytes hp.fits hhandle, ?_⟩
    refine ⟨by rw [hopen]; exact .data hk hfs, hsame, hlkey, hmono, ?_,
      toClient ++ [.data g payload hg], ?_, ?_, ?_⟩
    · rw [ROMProxy.toServer_logClient, ROMProxy.onRemoteRawPacket, ROMProxy.toServer_logServer,
        hserver]
    · rw [hlhave]
      exact hclient.push trivial
    · rw [ROMProxy.toClient_logClient, ROMProxy.onRemoteRawPacket, ROMProxy.toClient_logServer,
        ← List.append_assoc, hstream, stream_append, stream_singleton]
      rfl
    · rw [← hsent, payloads_append]
      simp [hglen, hqlen]

/-- A delivery from the server goes through the proxy. -/
theorem Relayed.remoteEvent {px : ROMProxy} (hpx : px.CompleteWrites) {k : Key} {s : System}
    (h : Relayed k s) {packet rest : List UInt8} (hread : IsRead packet)
    (hline : s.fromServer = packet ++ rest) :
    ∃ pc out, s.proxy.onRemoteEvent px packet s.outside = some (true, pc, out) ∧
      Relayed k { s with fromServer := rest, proxy := pc, outside := out } := by
  obtain ⟨toClient, fromServer, hdown⟩ := h.down
  obtain ⟨toServer, fromClient, hup⟩ := h.up
  let P (st : Session × Session × Outside) (fs : List (Frame k)) : Prop :=
    RemoteTakes k s st.1 st.2.1 st.2.2 fs
  -- each frame in turn, by the step of the connection to the server
  have hstep : ∀ {st f fs}, P st (f :: fs) → ∃ st', look px.remoteHost st f.bytes =
      .take f.bytes.length st' ∧ P st' fs := by
    intro st f fs hP
    obtain ⟨r', l', out', hlook, hP'⟩ := hP.step hpx
    exact ⟨(r', l', out'), hlook, hP'⟩
  have hstart : P (s.proxy.remoteConnection.toSession, s.proxy.localConnection.toSession, s.outside)
      fromServer :=
    ⟨hdown.remoteLine, h.sameKey, h.localKey, id, rfl, toClient, hdown.clientLine,
      hdown.clientStream, hdown.sent⟩
  obtain ⟨c', ⟨l', out'⟩, fs', hevent, hP', hstream, hsettled⟩ :=
    ROMConnection.onEvent_of_frames hstep hstart h.settledRemote hread
      (hline ▸ hdown.remoteStream)
  obtain ⟨toClient', hclient', hstream', hsent'⟩ := hP'.down
  refine ⟨⟨⟨l', s.proxy.localConnection.buffer⟩, c'⟩, out', ?_, ?_⟩
  · rw [ROMProxiedConnection.onRemoteEvent, hevent]
  · refine ⟨h.server, hP'.sameKey, hP'.localKey, h.settledServer, h.settledClient, h.settledLocal,
      hsettled, ⟨toClient', fs', hclient', hP'.line, hstream', hstream, hsent'⟩,
      ⟨toServer, fromClient, hup.toServerData, hup.fromClientData, ?_, ?_, hup.localStream,
        hup.sent⟩⟩
    · -- the client's direction is as it was, but for the key that may have come
      exact fun hne => hP'.localHasKey (hup.localHasKey hne)
    · show s.server.buffer.data ++ out'.toServer = stream toServer
      rw [hP'.toServer]
      exact hup.serverStream

/-- While the connection to the client takes frames. -/
structure LocalTakes (k : Key) (s : System) (l r : Session) (out : Outside)
    (fromClient : List (Frame k)) : Prop where
  data : ∀ f ∈ fromClient, f.IsData
  hasKey : fromClient ≠ [] → l.haveKey = true
  localSame : l = s.proxy.localConnection.toSession
  remoteSame : r.key = s.proxy.remoteConnection.key ∧ r.haveKey = s.proxy.remoteConnection.haveKey
  toClient : out.toClient = s.outside.toClient
  up : ∃ toServer : List (Frame k), (∀ f ∈ toServer, f.IsData) ∧
    s.server.buffer.data ++ out.toServer = stream toServer ∧
    deliveries s.serverTrace ++ payloads toServer ++ payloads fromClient = s.clientSent

/-- The connection to the client takes one frame. -/
theorem LocalTakes.step {px : ROMProxy} (hpx : px.CompleteWrites) {k : Key} {s : System}
    (hrelayed : Relayed k s) {l r : Session} {out : Outside} {f : Frame k} {fs : List (Frame k)}
    (h : LocalTakes k s l r out (f :: fs)) :
    ∃ l' r' out', look px.localHost (l, r, out) f.bytes = .take f.bytes.length (l', r', out') ∧
      LocalTakes k s l' r' out' fs := by
  obtain ⟨hdata, hhas, rfl, hremote, hclient, toServer, htoServer, hstream, hsent⟩ := h
  have hhave := hhas (List.cons_ne_nil _ _)
  have hkey := hrelayed.localKey hhave
  obtain ⟨toClient, fromServer, hdown⟩ := hrelayed.down
  -- the client sends only once it has the key, so the server's connection has it too
  have hrkey : r.key = k := by
    have hrhave := hrelayed.sameKey.symm.trans hhave
    rw [hremote.1]
    exact (hdown.remoteLine.holds hrhave).2
  cases f with
  | key p hp => exact absurd (hdata _ List.mem_cons_self) id
  | data p payload hp =>
      obtain ⟨q, hqlen, hqdata, hhandle⟩ := Session.handlePacket_carries (h := px.localHost)
        (hkey.symm ▸ hp) hhave (r, out)
      obtain ⟨g, hg, hglen, hon⟩ := ROMProxy.onLocalPacket_eq hpx
        (hp.fits_payload hqlen hqdata) r (px.onLocalRawPacket p out)
      rw [show px.localHost.onPacket q (px.localHost.onRawPacketReceived p (r, out)) = _ from hon]
        at hhandle
      rw [hrkey, hqdata] at hg
      refine ⟨_, _, _, look_bytes hp.fits hhandle, ?_⟩
      refine ⟨fun f hf => hdata f (List.mem_cons_of_mem _ hf), fun _ => hhave, rfl, hremote, ?_,
        toServer ++ [.data g payload hg], ?_, ?_, ?_⟩
      · rw [ROMProxy.toClient_logServer, ROMProxy.onLocalRawPacket, ROMProxy.toClient_logClient,
          hclient]
      · intro f hf
        rcases List.mem_append.1 hf with hf | hf
        · exact htoServer f hf
        · obtain rfl := List.mem_singleton.1 hf
          trivial
      · rw [ROMProxy.toServer_logServer, ROMProxy.onLocalRawPacket, ROMProxy.toServer_logClient,
          ← List.append_assoc, hstream, stream_append, stream_singleton]
        rfl
      · rw [← hsent, payloads_append]
        simp [hglen, hqlen]

/-- A delivery from the client goes through the proxy. -/
theorem Relayed.localEvent {px : ROMProxy} (hpx : px.CompleteWrites) {k : Key} {s : System}
    (h : Relayed k s) {packet rest : List UInt8} (hread : IsRead packet)
    (hline : s.fromClient = packet ++ rest) :
    ∃ pc out, s.proxy.onLocalEvent px packet s.outside = some (true, pc, out) ∧
      Relayed k { s with fromClient := rest, proxy := pc, outside := out } := by
  obtain ⟨toClient, fromServer, hdown⟩ := h.down
  obtain ⟨toServer, fromClient, hup⟩ := h.up
  let P (st : Session × Session × Outside) (fs : List (Frame k)) : Prop :=
    LocalTakes k s st.1 st.2.1 st.2.2 fs
  -- each frame in turn, by the step of the connection to the client
  have hstep : ∀ {st f fs}, P st (f :: fs) → ∃ st', look px.localHost st f.bytes =
      .take f.bytes.length st' ∧ P st' fs := by
    intro st f fs hP
    obtain ⟨l', r', out', hlook, hP'⟩ := hP.step hpx h
    exact ⟨(l', r', out'), hlook, hP'⟩
  have hstart : P (s.proxy.localConnection.toSession, s.proxy.remoteConnection.toSession, s.outside)
      fromClient :=
    ⟨hup.fromClientData, hup.localHasKey, rfl, ⟨rfl, rfl⟩, rfl, toServer, hup.toServerData,
      hup.serverStream, hup.sent⟩
  obtain ⟨c', ⟨r', out'⟩, fs', hevent, hP', hstream, hsettled⟩ :=
    ROMConnection.onEvent_of_frames hstep hstart h.settledLocal hread (hline ▸ hup.localStream)
  obtain ⟨toServer', hdata', hstream', hsent'⟩ := hP'.up
  refine ⟨⟨c', ⟨r', s.proxy.remoteConnection.buffer⟩⟩, out', ?_, ?_⟩
  · rw [ROMProxiedConnection.onLocalEvent, hevent]
  · have hsame : c'.toSession = s.proxy.localConnection.toSession := hP'.localSame
    have hrhave : r'.haveKey = s.proxy.remoteConnection.haveKey := hP'.remoteSame.2
    refine ⟨h.server, ?_, ?_, h.settledServer, h.settledClient, hsettled, h.settledRemote,
      ⟨toClient, fromServer, ?_, ?_, ?_, hdown.remoteStream, hdown.sent⟩,
      ⟨toServer', fs', hdata', hP'.data, hP'.hasKey, hstream', hstream, hsent'⟩⟩
    · show c'.haveKey = r'.haveKey
      rw [hsame, hrhave, h.sameKey]
    · show c'.haveKey = true → c'.key = k
      rw [hsame]
      exact h.localKey
    · show Line k s.client.toSession c'.haveKey toClient
      rw [hsame]
      exact hdown.clientLine
    · exact hdown.remoteLine.of_sameKey hP'.remoteSame
    · show s.client.buffer.data ++ out'.toClient = stream toClient
      rw [hP'.toClient]
      exact hdown.clientStream

/-! ## Events of the peers -/

/-- A delivery to the client. -/
theorem Relayed.clientEvent {k : Key} {s : System} (h : Relayed k s) {packet rest : List UInt8}
    (hread : IsRead packet) (hline : s.outside.toClient = packet ++ rest) :
    ∃ c trace, s.client.onEvent peer packet ((), s.clientTrace) = .returned true c ((), trace) ∧
      Relayed k { s with
        client := c
        outside := { s.outside with toClient := rest }
        clientTrace := trace } := by
  obtain ⟨toClient, fromServer, hdown⟩ := h.down
  let P (st : Session × Unit × List Event) (fs : List (Frame k)) : Prop :=
    Line k st.1 s.proxy.localConnection.haveKey fs ∧
      deliveries st.2.2 ++ payloads fs ++ payloads fromServer = s.serverSent
  have hstep : ∀ {st f fs}, P st (f :: fs) → ∃ st', look peer st f.bytes =
      .take f.bytes.length st' ∧ P st' fs := by
    intro st f fs hP
    obtain ⟨c, u, trace⟩ := st
    obtain ⟨hline, hsent⟩ := hP
    obtain ⟨hopen, hfs, ⟨-, p, hp, rfl⟩ | ⟨hk, p, payload, hp, rfl⟩⟩ := hline.cases_cons
    · -- the key frame, which carries no payload
      have hhandle := Session.handlePacket_carriesKey (h := peer) hp c (u, trace)
      refine ⟨_, look_bytes hp.fits hhandle, by rw [hopen]; exact .data ⟨rfl, rfl⟩ hfs, ?_⟩
      rw [← hsent]
      simp [peer, Host.recording, deliveries]
    · -- a data frame, whose payload moves from the line to what is decoded
      obtain ⟨w', trace', hlook, htrace⟩ := look_data (h := Host.quiet) .unused
        (fun _ _ => rfl) hk (f := .data p payload hp) trivial u trace
      refine ⟨_, hlook, by rw [hopen]; exact .data hk hfs, ?_⟩
      rw [← hsent, htrace]
      simp
  obtain ⟨c', ⟨u, trace'⟩, fs', hevent, hP', hstream, hsettled⟩ :=
    ROMConnection.onEvent_of_frames (P := P) (w := ((), s.clientTrace)) hstep
      ⟨hdown.clientLine, hdown.sent⟩ h.settledClient hread (hline ▸ hdown.clientStream)
  refine ⟨c', trace', hevent, h.server, h.sameKey, h.localKey, h.settledServer, hsettled,
    h.settledLocal, h.settledRemote, ⟨fs', fromServer, hP'.1, hdown.remoteLine, hstream,
      hdown.remoteStream, hP'.2⟩, ?_⟩
  obtain ⟨toServer, fromClient, hup⟩ := h.up
  exact ⟨toServer, fromClient, hup.toServerData, hup.fromClientData, hup.localHasKey,
    hup.serverStream, hup.localStream, hup.sent⟩

/-- A delivery to the server. -/
theorem Relayed.serverEvent {k : Key} {s : System} (h : Relayed k s) {packet rest : List UInt8}
    (hread : IsRead packet) (hline : s.outside.toServer = packet ++ rest) :
    ∃ c trace, s.server.onEvent peer packet ((), s.serverTrace) = .returned true c ((), trace) ∧
      Relayed k { s with
        server := c
        outside := { s.outside with toServer := rest }
        serverTrace := trace } := by
  obtain ⟨toServer, fromClient, hup⟩ := h.up
  let P (st : Session × Unit × List Event) (fs : List (Frame k)) : Prop :=
    st.1.Holds k ∧ (∀ f ∈ fs, f.IsData) ∧
      deliveries st.2.2 ++ payloads fs ++ payloads fromClient = s.clientSent
  -- only data come to the server, which has the key from the start
  have hstep : ∀ {st f fs}, P st (f :: fs) → ∃ st', look peer st f.bytes =
      .take f.bytes.length st' ∧ P st' fs := by
    intro st f fs hP
    obtain ⟨c, u, trace⟩ := st
    obtain ⟨hk, hfs, hsent⟩ := hP
    obtain ⟨w', trace', hlook, htrace⟩ := look_data (h := Host.quiet) .unused
      (fun _ _ => rfl) hk (hfs f List.mem_cons_self) u trace
    refine ⟨_, hlook, hk, fun f hf => hfs f (List.mem_cons_of_mem _ hf), ?_⟩
    rw [← hsent, htrace, List.append_assoc (deliveries trace), ← payloads_append]
    rfl
  obtain ⟨c', ⟨u, trace'⟩, fs', hevent, hP', hstream, hsettled⟩ :=
    ROMConnection.onEvent_of_frames (P := P) (w := ((), s.serverTrace)) hstep
      ⟨h.server, hup.toServerData, hup.sent⟩ h.settledServer hread (hline ▸ hup.serverStream)
  obtain ⟨toClient, fromServer, hdown⟩ := h.down
  exact ⟨c', trace', hevent, hP'.1, h.sameKey, h.localKey, hsettled, h.settledClient,
    h.settledLocal, h.settledRemote, ⟨toClient, fromServer, hdown.clientLine, hdown.remoteLine,
      hdown.clientStream, hdown.remoteStream, hdown.sent⟩,
    ⟨fs', fromClient, hP'.2.1, hup.fromClientData, hup.localHasKey, hstream, hup.localStream,
      hP'.2.2⟩⟩

/-! ## Sending -/

/-- The server sends its key frame. -/
theorem Relayed.sendKey {k : Key} {s : System} (h : Relayed k s) (hopen : s.opened = false)
    {p p' : Packet} {ok : Bool} {out : List UInt8}
    (hsend : s.server.sendKey wire p s.fromServer = some (ok, p', out)) :
    Relayed k { s with opened := true, fromServer := out } := by
  obtain ⟨toClient, fromServer, hdown⟩ := h.down
  obtain ⟨q, hf, -, hsend'⟩ :=
    s.server.sendKey_eq wire (Session.room_of_sendKey hsend) s.fromServer
  rw [hsend] at hsend'
  cases hsend'
  rw [h.server.2] at hf
  have hremote := hdown.remoteLine
  rw [hopen] at hremote
  obtain ⟨toServer, fromClient, hup⟩ := h.up
  refine ⟨h.server, h.sameKey, h.localKey, h.settledServer, h.settledClient, h.settledLocal,
    h.settledRemote, ?_, ⟨toServer, fromClient, hup.toServerData, hup.fromClientData,
      hup.localHasKey, hup.serverStream, hup.localStream, hup.sent⟩⟩
  -- no key frame has been sent, so the line is empty
  generalize fromServer = fs at hdown hremote
  cases hremote with
  | closed hno =>
      refine ⟨toClient, [.key p'.frame hf], hdown.clientLine, .key hno nofun, hdown.clientStream,
        ?_, hdown.sent⟩
      show s.proxy.remoteConnection.buffer.data ++ (s.fromServer ++ p'.frame.bytes) = _
      rw [← List.append_assoc, hdown.remoteStream, stream_singleton]
      rfl

/-- The server sends data. -/
theorem Relayed.serverSend {k : Key} {s : System} (h : Relayed k s) (hopen : s.opened = true)
    {p p' : Packet} (hp : p.Fits) {ok : Bool} {session : Session} {out : List UInt8}
    (hsend : s.server.sendPacket wire p s.fromServer = some (ok, session, p', out)) :
    Relayed k { s with
      server := ⟨session, s.server.buffer⟩
      fromServer := out
      serverSent := s.serverSent ++ [(p.pLength, p.pData)] } := by
  obtain ⟨toClient, fromServer, hdown⟩ := h.down
  obtain ⟨toServer, fromClient, hup⟩ := h.up
  obtain ⟨f, hf, hlen, hsend'⟩ := s.server.sendPacket_eq wire hp s.fromServer
  rw [hsend] at hsend'
  cases hsend'
  rw [h.server.2] at hf
  have hremote := hdown.remoteLine
  rw [hopen] at hremote
  refine ⟨h.server, h.sameKey, h.localKey, h.settledServer, h.settledClient, h.settledLocal,
    h.settledRemote, ⟨toClient, fromServer ++ [.data p' p.pData hf], hdown.clientLine, ?_,
      hdown.clientStream, ?_, ?_⟩, ⟨toServer, fromClient, hup.toServerData, hup.fromClientData,
      hup.localHasKey, hup.serverStream, hup.localStream, hup.sent⟩⟩
  · show Line k s.proxy.remoteConnection.toSession s.opened (fromServer ++ [.data p' p.pData hf])
    rw [hopen]
    exact hremote.push trivial
  · show s.proxy.remoteConnection.buffer.data ++ (s.fromServer ++ p'.bytes) = _
    rw [← List.append_assoc, hdown.remoteStream, stream_append, stream_singleton]
    rfl
  · rw [← hdown.sent, payloads_append]
    simp [hlen]

/-- The client sends data. -/
theorem Relayed.clientSend {k : Key} {s : System} (h : Relayed k s)
    (hhave : s.client.haveKey = true) {p p' : Packet} (hp : p.Fits) {ok : Bool}
    {session : Session} {out : List UInt8}
    (hsend : s.client.sendPacket wire p s.fromClient = some (ok, session, p', out)) :
    Relayed k { s with
      client := ⟨session, s.client.buffer⟩
      fromClient := out
      clientSent := s.clientSent ++ [(p.pLength, p.pData)] } := by
  obtain ⟨toClient, fromServer, hdown⟩ := h.down
  obtain ⟨toServer, fromClient, hup⟩ := h.up
  obtain ⟨f, hf, hlen, hsend'⟩ := s.client.sendPacket_eq wire hp s.fromClient
  rw [hsend] at hsend'
  cases hsend'
  rw [(hdown.clientLine.holds hhave).2] at hf
  refine ⟨h.server, h.sameKey, h.localKey, h.settledServer, h.settledClient, h.settledLocal,
    h.settledRemote, ⟨toClient, fromServer, hdown.clientLine.of_sameKey ⟨rfl, rfl⟩,
      hdown.remoteLine, hdown.clientStream, hdown.remoteStream, hdown.sent⟩,
    ⟨toServer, fromClient ++ [.data p' p.pData hf], hup.toServerData, ?_,
      fun _ => hdown.clientLine.opened hhave, hup.serverStream, ?_, ?_⟩⟩
  · intro f' hf'
    rcases List.mem_append.1 hf' with hf' | hf'
    · exact hup.fromClientData f' hf'
    · obtain rfl := List.mem_singleton.1 hf'
      trivial
  · show s.proxy.localConnection.buffer.data ++ (s.fromClient ++ p'.bytes) = _
    rw [← List.append_assoc, hup.localStream, stream_append, stream_singleton]
    rfl
  · rw [← hup.sent, payloads_append]
    simp [hlen]

/-! ## Runs -/

theorem Relayed.start (k : Key) (sequence : UInt32) : Relayed k (.start k sequence) := by
  refine ⟨⟨rfl, rfl⟩, rfl, nofun, nofun, nofun, nofun, nofun, ⟨[], [], .closed rfl, .closed rfl,
    rfl, rfl, rfl⟩, ⟨[], [], nofun, nofun, fun h => absurd rfl h, rfl, rfl, rfl⟩⟩

/-- Every step leads from such a state to another. -/
theorem Relayed.step {px : ROMProxy} (hpx : px.CompleteWrites) {k : Key} {s s' : System}
    (h : Relayed k s) (hstep : System.Step px Packet.Fits s s') : Relayed k s' := by
  cases hstep with
  | sendKey hopen hsend => exact h.sendKey hopen hsend
  | serverSend hopen hp hsend => exact h.serverSend hopen hp hsend
  | clientSend hhave hp hsend => exact h.clientSend hhave hp hsend
  | remoteEvent hread hline he =>
      obtain ⟨pc, out, he', h'⟩ := h.remoteEvent hpx hread hline
      rw [he] at he'
      cases he'
      exact h'
  | localEvent hread hline he =>
      obtain ⟨pc, out, he', h'⟩ := h.localEvent hpx hread hline
      rw [he] at he'
      cases he'
      exact h'
  | clientEvent hread hline he =>
      obtain ⟨c, trace, he', h'⟩ := h.clientEvent hread hline
      rw [he] at he'
      cases he'
      exact h'
  | serverEvent hread hline he =>
      obtain ⟨c, trace, he', h'⟩ := h.serverEvent hread hline
      rw [he] at he'
      cases he'
      exact h'

theorem Relayed.of_reachable {px : ROMProxy} (hpx : px.CompleteWrites) {s : System}
    (hs : System.Reachable px Packet.Fits s) : ∃ k, Relayed k s := by
  induction hs with
  | start k sequence => exact ⟨k, .start k sequence⟩
  | step _ hstep ih =>
      obtain ⟨k, h⟩ := ih
      exact ⟨k, h.step hpx hstep⟩

theorem Relayed.flows {px : ROMProxy} (hpx : px.CompleteWrites) {k : Key} {s : System}
    (h : Relayed k s) : s.Flows px := by
  refine ⟨?_, ?_, ?_, ?_⟩
  · intro packet rest hread hline
    obtain ⟨pc, out, he, -⟩ := h.remoteEvent hpx hread hline
    exact ⟨pc, out, he⟩
  · intro packet rest hread hline
    obtain ⟨pc, out, he, -⟩ := h.localEvent hpx hread hline
    exact ⟨pc, out, he⟩
  · intro packet rest hread hline
    obtain ⟨c, trace, he, -⟩ := h.clientEvent hread hline
    exact ⟨c, trace, he⟩
  · intro packet rest hread hline
    obtain ⟨c, trace, he, -⟩ := h.serverEvent hread hline
    exact ⟨c, trace, he⟩

theorem Relayed.inOrder {k : Key} {s : System} (h : Relayed k s) : s.InOrder := by
  obtain ⟨toClient, fromServer, hdown⟩ := h.down
  obtain ⟨toServer, fromClient, hup⟩ := h.up
  refine ⟨?_, ?_, ?_, ?_⟩
  · rw [← hdown.sent, List.append_assoc]
    exact List.prefix_append _ _
  · rw [← hup.sent, List.append_assoc]
    exact List.prefix_append _ _
  · intro hfrom hto
    -- without bytes in flight a line can only be in a buffer, which holds no whole frame
    have hclient := hdown.clientStream
    have hremote := hdown.remoteStream
    rw [hto, List.append_nil] at hclient
    rw [hfrom, List.append_nil] at hremote
    obtain rfl := Settled.eq_nil (hclient ▸ h.settledClient)
    obtain rfl := Settled.eq_nil (hremote ▸ h.settledRemote)
    simpa using hdown.sent
  · intro hfrom hto
    have hserver := hup.serverStream
    have hlocal := hup.localStream
    rw [hto, List.append_nil] at hserver
    rw [hfrom, List.append_nil] at hlocal
    obtain rfl := Settled.eq_nil (hserver ▸ h.settledServer)
    obtain rfl := Settled.eq_nil (hlocal ▸ h.settledLocal)
    simpa using hup.sent

/-- What either peer has decoded is the front of what the other has sent, all of it once nothing is
in flight, and no delivery makes an event return `false`. -/
theorem System.relay (px : ROMProxy) (hpx : px.CompleteWrites) {s : System}
    (hs : Reachable px Packet.Fits s) : s.InOrder ∧ s.Flows px := by
  obtain ⟨k, h⟩ := Relayed.of_reachable hpx hs
  exact ⟨h.inOrder, h.flows hpx⟩

theorem ROMProxy.completeWrites_plain : ROMProxy.plain.CompleteWrites := fun _ _ => ⟨rfl, rfl⟩

/-- The memory that the server's key frame is built in. -/
def keyMemory : Packet := ⟨0, 0, 0, 0, 0, 0, List.replicate ROM_KEY_LENGTH 0⟩

/-- The server has sent its key frame. -/
theorem System.exists_opened (px : ROMProxy) (Sendable : Packet → Prop) (k : Key) :
    ∃ f, CarriesKey k f ∧
      Reachable px Sendable { start k 1 with opened := true, fromServer := f.bytes } := by
  have hroom : ROM_KEY_LENGTH ≤ keyMemory.pData.length := by decide
  obtain ⟨p, hf, -, hsend⟩ := (start k 1).server.sendKey_eq wire hroom []
  exact ⟨p.frame, hf, .step (.start k 1) (.sendKey rfl hsend)⟩

/-- A packet of one byte. -/
def oneBytePacket : Packet := ⟨13, 0, 0, 0, 0, 0, [7]⟩

/-- The server sends a packet, and the proxy passes it on in the read that has the key as well. -/
theorem System.relay_passedOn : ∃ s : System, s.serverSent = [(13, [7])] ∧ s.fromServer = [] ∧
    s.outside.toClient ≠ [] ∧ s.InOrder ∧ s.Flows .plain := by
  obtain ⟨f, hf, hs⟩ := exists_opened .plain Packet.Fits .zero
  have hfits : oneBytePacket.Fits := ⟨rfl, by decide⟩
  obtain ⟨g, hg, hlength, hsend⟩ := (start .zero 1).server.sendPacket_eq wire hfits f.bytes
  have hsent := hs.step (.serverSend rfl hfits hsend)
  have hread : IsRead (f.bytes ++ g.bytes) := by
    have hkey := congrArg List.length hf.data
    rw [List.length_map, Key.length_bytes] at hkey
    have hlen : (f.bytes ++ g.bytes).length = 35 := by
      rw [List.length_append, Packet.length_bytes, hkey, hg.fits.length_bytes, hlength]
      rfl
    refine ⟨fun hnil => ?_, by rw [hlen]; decide⟩
    rw [hnil] at hlen
    cases hlen
  obtain ⟨pc, out, hevent⟩ := (relay .plain ROMProxy.completeWrites_plain hsent).2.remoteEvent
    (f.bytes ++ g.bytes) [] hread (List.append_nil _).symm
  have hpassed := hsent.step (.remoteEvent hread (List.append_nil _).symm hevent)
  have hrelay := relay .plain ROMProxy.completeWrites_plain hpassed
  refine ⟨_, rfl, rfl, fun hnone => ?_, hrelay⟩
  -- the client has not decoded it yet, so it is still in flight
  have hcomplete := hrelay.1.clientComplete rfl hnone
  cases hcomplete

/-- The length of a packet is that of its header and data. -/
def Packet.Sized (p : Packet) : Prop := p.pLength.toNat = sizeofPacket + p.pData.length

/-- A packet whose frame is as long as the longest read. -/
def oversized : Packet := ⟨131072, 0, 0, 0, 0, 0, List.replicate 131060 0⟩

theorem sized_oversized : oversized.Sized := by
  have hdata : oversized.pData.length = 131060 := List.length_replicate
  rw [Packet.Sized, hdata]
  rfl

/-- When the key frame and the header of an oversized frame arrive, the proxy gives up. -/
theorem ROMProxiedConnection.onRemoteEvent_oversized {px : ROMProxy} (hpx : px.CompleteWrites)
    {f g : Packet} (hf : CarriesKey .zero f) (hg : g.pLength.toNat ≥ s_MaxPacketSize)
    (hread : IsRead (f.bytes ++ g.header)) (pc : ROMProxiedConnection) (out : Outside) :
    fresh.onRemoteEvent px (f.bytes ++ g.header) ⟨[], [], []⟩ ≠ some (true, pc, out) := by
  have htakes : RemoteTakes .zero { System.start .zero 1 with opened := true }
      fresh.remoteConnection.toSession fresh.localConnection.toSession ⟨[], [], []⟩ [.key f hf] :=
    ⟨.key rfl nofun, rfl, nofun, nofun, rfl, [], .closed rfl, rfl, rfl⟩
  obtain ⟨r', l', out', hlook, -⟩ := htakes.step hpx
  -- the key frame is taken, and the header after it halts the loop
  have hdrained :=
    ROMConnection.drained_onEvent_of_halt (c := fresh.remoteConnection) rfl hread hlook
      (look_header hg)
  intro he
  unfold onRemoteEvent at he
  split at he
  · cases he
  next c loc out₁ ho =>
    rw [ho] at hdrained
    cases he
    cases hdrained

/-- `SendPacket` sends packets that `OnEvent` does not accept: the proxy gives the connection up
when the header of such a frame arrives. -/
theorem System.relay_fails_oversized :
    ¬ ∀ (px : ROMProxy), px.CompleteWrites → ∀ s, Reachable px Packet.Sized s →
      s.InOrder ∧ s.Flows px := by
  intro hall
  obtain ⟨f, hf, hs⟩ := exists_opened .plain Packet.Sized .zero
  obtain ⟨key, q, hlen, -, -, -, hsend⟩ :=
    (start .zero 1).server.sendPacket_sealWith wire sized_oversized f.bytes
  have hreach := hs.step (.serverSend rfl sized_oversized hsend)
  have hflows := (hall .plain ROMProxy.completeWrites_plain _ hreach).2
  -- its length is the limit itself
  have hg : (q.sealWith key).pLength.toNat ≥ s_MaxPacketSize := by
    rw [Packet.pLength_sealWith, hlen]
    decide
  have hread : IsRead (f.bytes ++ (q.sealWith key).header) := by
    have hdata := congrArg List.length hf.data
    rw [List.length_map, Key.length_bytes] at hdata
    refine ⟨?_, ?_⟩
    · simp [Packet.header]
    · rw [List.length_append, Packet.length_bytes, hdata, Packet.length_header]
      decide
  -- the key frame and the header are the first bytes in flight
  have hline : f.bytes ++ (q.sealWith key).bytes =
      (f.bytes ++ (q.sealWith key).header) ++ (q.sealWith key).pData := by
    rw [List.append_assoc]
    rfl
  obtain ⟨pc, out, he⟩ := hflows.remoteEvent _ _ hread hline
  exact ROMProxiedConnection.onRemoteEvent_oversized ROMProxy.completeWrites_plain hf hg hread pc
    out he

end OpenRom
