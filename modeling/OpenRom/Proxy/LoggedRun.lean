import OpenRom.Connection.Noting
import OpenRom.Proxy.Relay

/-!
# Runs with notes

A proxied connection between a server and a client that send whatever `SendPacket` makes of their
packets, until an event returns `false` and the proxy closes the connection. Beside the run, every
data frame that the proxy exchanges is noted with the payload that the proxy has for it. The log
holds the frames of the key and then the noted frames (`LogHolds`), in every run
(`LoggedRun.Sound.of_reachable`).
-/

set_option autoImplicit false

namespace OpenRom

open ROMConnection (IsRead)
open Reassembly

/-! ## The run -/

/-- `ROMProxy::MustLogProxyClientTraffic` or the one for the server, by the connection that the
frame was exchanged on. -/
def ROMProxy.logs (px : ROMProxy) (x : Exchange Endpoint) : Bool :=
  match x.source with
  | .localLocal | .localRemote => px.mustLogProxyClientTraffic
  | .remoteLocal | .remoteRemote => px.mustLogProxyServerTraffic

/-- What the connection to the client calls, with notes. -/
def ROMProxy.localNoting (px : ROMProxy) : Host ((Session × Outside) × Notes Endpoint) :=
  px.localHost.noting (.localLocal, .localRemote) (.remoteLocal, .remoteRemote)

/-- What the connection to the server calls, with notes. -/
def ROMProxy.remoteNoting (px : ROMProxy) : Host ((Session × Outside) × Notes Endpoint) :=
  px.remoteHost.noting (.remoteRemote, .remoteLocal) (.localRemote, .localLocal)

namespace ROMProxiedConnection

/-- `OnLocalEvent`, with notes. -/
def noteLocalEvent (px : ROMProxy) (pc : ROMProxiedConnection) (packet : List UInt8)
    (out : Outside) (notes : Notes Endpoint) :
    Option (Bool × ROMProxiedConnection × Outside × Notes Endpoint) :=
  match pc.localConnection.onEvent px.localNoting packet
      ((pc.remoteConnection.toSession, out), notes) with
  | .fault _ => none
  | .returned ok c ((remote, out), notes) =>
      some (ok, ⟨c, ⟨remote, pc.remoteConnection.buffer⟩⟩, out, notes)

/-- `OnRemoteEvent`, with notes. -/
def noteRemoteEvent (px : ROMProxy) (pc : ROMProxiedConnection) (packet : List UInt8)
    (out : Outside) (notes : Notes Endpoint) :
    Option (Bool × ROMProxiedConnection × Outside × Notes Endpoint) :=
  match pc.remoteConnection.onEvent px.remoteNoting packet
      ((pc.localConnection.toSession, out), notes) with
  | .fault _ => none
  | .returned ok c ((loc, out), notes) =>
      some (ok, ⟨⟨loc, pc.localConnection.buffer⟩, c⟩, out, notes)

/-- The notes change nothing. -/
theorem onLocalEvent_eq (px : ROMProxy) (pc : ROMProxiedConnection) (packet : List UInt8)
    (out : Outside) (notes : Notes Endpoint) :
    pc.onLocalEvent px packet out =
      (pc.noteLocalEvent px packet out notes).map fun r => (r.1, r.2.1, r.2.2.1) := by
  rw [onLocalEvent, noteLocalEvent, ROMProxy.localNoting,
    ROMConnection.onEvent_noting px.localHost (.localLocal, .localRemote)
      (.remoteLocal, .remoteRemote) pc.localConnection packet
      ((pc.remoteConnection.toSession, out), notes)]
  cases pc.localConnection.onEvent (px.localHost.noting (.localLocal, .localRemote)
    (.remoteLocal, .remoteRemote)) packet ((pc.remoteConnection.toSession, out), notes) <;> rfl

theorem onRemoteEvent_eq (px : ROMProxy) (pc : ROMProxiedConnection) (packet : List UInt8)
    (out : Outside) (notes : Notes Endpoint) :
    pc.onRemoteEvent px packet out =
      (pc.noteRemoteEvent px packet out notes).map fun r => (r.1, r.2.1, r.2.2.1) := by
  rw [onRemoteEvent, noteRemoteEvent, ROMProxy.remoteNoting,
    ROMConnection.onEvent_noting px.remoteHost (.remoteRemote, .remoteLocal)
      (.localRemote, .localLocal) pc.remoteConnection packet
      ((pc.localConnection.toSession, out), notes)]
  cases pc.remoteConnection.onEvent (px.remoteHost.noting (.remoteRemote, .remoteLocal)
    (.localRemote, .localLocal)) packet ((pc.localConnection.toSession, out), notes) <;> rfl

end ROMProxiedConnection

/-- The peers, the proxy, and what is in flight. `opened` says that the server has sent its key
frame, `closed` that the proxy has closed the connection. -/
structure LoggedRun where
  server : Session
  client : ROMConnection
  proxy : ROMProxiedConnection
  fromServer : List UInt8
  fromClient : List UInt8
  outside : Outside
  opened : Bool
  closed : Bool
  notes : Notes Endpoint

namespace LoggedRun

/-- Nothing has been sent, and only the server has a key. -/
def start (k : Key) (sequence : UInt32) : LoggedRun where
  server := ⟨k, true, sequence⟩
  client := .fresh
  proxy := .fresh
  fromServer := []
  fromClient := []
  outside := ⟨[], [], []⟩
  opened := false
  closed := false
  notes := ⟨⟨0, 0, 0, 0, 0, 0, []⟩, []⟩

/-- What can happen. An event of the proxy reads some of the bytes in flight, or nothing when `Read`
fails; what an event of the proxy returns decides whether there are more. -/
inductive Step (px : ROMProxy) (s : LoggedRun) : LoggedRun → Prop
  | sendKey {p p' : Packet} {ok : Bool} {out : List UInt8} : s.opened = false →
      s.server.sendKey wire p s.fromServer = some (ok, p', out) →
        Step px s { s with opened := true, fromServer := out }
  | serverSend {p p' : Packet} {ok : Bool} {session : Session} {out : List UInt8} :
      s.opened = true → p.Sized →
        s.server.sendPacket wire p s.fromServer = some (ok, session, p', out) →
          Step px s { s with server := session, fromServer := out }
  | clientSend {p p' : Packet} {ok : Bool} {session : Session} {out : List UInt8} :
      s.client.haveKey = true → p.Sized →
        s.client.sendPacket wire p s.fromClient = some (ok, session, p', out) →
          Step px s { s with client := ⟨session, s.client.buffer⟩, fromClient := out }
  | serverRead {packet rest : List UInt8} : s.outside.toServer = packet ++ rest →
      Step px s { s with outside := { s.outside with toServer := rest } }
  | clientEvent {packet rest : List UInt8} {c : ROMConnection} {ok : Bool} :
      IsRead packet → s.outside.toClient = packet ++ rest →
        s.client.onEvent Host.quiet packet () = .returned ok c () →
          Step px s { s with client := c, outside := { s.outside with toClient := rest } }
  | remoteEvent {packet rest : List UInt8} {ok : Bool} {pc : ROMProxiedConnection}
      {out : Outside} {notes : Notes Endpoint} :
      s.closed = false → packet.length ≤ s_MaxPacketSize → s.fromServer = packet ++ rest →
        s.proxy.noteRemoteEvent px packet s.outside s.notes = some (ok, pc, out, notes) →
          Step px s { s with
            fromServer := rest
            proxy := pc
            outside := out
            closed := !ok
            notes := notes }
  | localEvent {packet rest : List UInt8} {ok : Bool} {pc : ROMProxiedConnection}
      {out : Outside} {notes : Notes Endpoint} :
      s.closed = false → packet.length ≤ s_MaxPacketSize → s.fromClient = packet ++ rest →
        s.proxy.noteLocalEvent px packet s.outside s.notes = some (ok, pc, out, notes) →
          Step px s { s with
            fromClient := rest
            proxy := pc
            outside := out
            closed := !ok
            notes := notes }

inductive Reachable (px : ROMProxy) : LoggedRun → Prop
  | start (k : Key) (sequence : UInt32) : Reachable px (start k sequence)
  | step {s s' : LoggedRun} : Reachable px s → Step px s s' → Reachable px s'

end LoggedRun

/-! ## The log -/

/-- The flags of the packets that `SendKey` writes. -/
def Frame.HasKeyFlags {k : Key} : Frame k → Prop
  | .key f _ => f.pFlag = ROM_PACKET_FLAG_KEY ||| ROM_PACKET_FLAG_ENCRYPTED
  | .data _ _ _ => True

theorem Frame.IsData.hasKeyFlags {k : Key} {f : Frame k} (hf : f.IsData) : f.HasKeyFlags := by
  cases f with
  | key f h => exact absurd hf id
  | data f payload h => trivial

/-- What is written to the log for a frame. -/
def Exchange.entry (x : Exchange Endpoint) : LogEntry := ⟨x.source, x.dest, x.frame⟩

/-- The log holds one or two frames with the key, and then the frames that have been exchanged, as
far as they are logged; before there is a key it is empty. -/
structure LogHolds (px : ROMProxy) (k : Key) (log : List LogEntry)
    (exchanges : List (Exchange Endpoint)) (haveKey : Bool) : Prop where
  carries : ∀ x ∈ exchanges, Carries k x.frame x.payload
  before : haveKey = false → log = [] ∧ exchanges = []
  after : haveKey = true → ∃ keys, log = keys ++ (exchanges.filter px.logs).map Exchange.entry ∧
    keys ≠ [] ∧ keys.length ≤ 2 ∧ ∀ e ∈ keys, CarriesKey k e.packet.frame ∧
      e.packet.pFlag = ROM_PACKET_FLAG_KEY ||| ROM_PACKET_FLAG_ENCRYPTED

namespace ROMProxy

theorem log_logClient (px : ROMProxy) (a b : Endpoint) (p : Packet) (out : Outside) :
    (px.logClient a b p out).log =
      out.log ++ if px.mustLogProxyClientTraffic then [⟨a, b, p⟩] else [] := by
  unfold logClient
  split
  · rfl
  · exact (List.append_nil _).symm

theorem log_logServer (px : ROMProxy) (a b : Endpoint) (p : Packet) (out : Outside) :
    (px.logServer a b p out).log =
      out.log ++ if px.mustLogProxyServerTraffic then [⟨a, b, p⟩] else [] := by
  unfold logServer
  split
  · rfl
  · exact (List.append_nil _).symm

end ROMProxy

namespace LogHolds

variable {px : ROMProxy} {k : Key} {log : List LogEntry} {exchanges : List (Exchange Endpoint)}

/-- One more frame is exchanged. -/
theorem exchange (h : LogHolds px k log exchanges true) {x : Exchange Endpoint}
    (hx : Carries k x.frame x.payload) :
    LogHolds px k (log ++ if px.logs x then [x.entry] else []) (exchanges ++ [x]) true := by
  obtain ⟨keys, rfl, hne, hlen, hkeys⟩ := h.after rfl
  refine ⟨fun y hy => ?_, nofun, fun _ => ⟨keys, ?_, hne, hlen, hkeys⟩⟩
  · rcases List.mem_append.1 hy with hy | hy
    · exact h.carries y hy
    · obtain rfl := List.mem_singleton.1 hy
      exact hx
  · rw [List.filter_append, List.map_append, List.append_assoc]
    cases hlogs : px.logs x with
    | false => rw [if_neg Bool.false_ne_true, List.filter_cons_of_neg (by simp [hlogs])]; rfl
    | true => rw [if_pos rfl, List.filter_cons_of_pos hlogs]; rfl

/-- The key comes, in one frame from the server and one to the client. -/
theorem newKey (h : LogHolds px k log exchanges false) (hlog : px.mustLogProxyClientTraffic = true)
    {f p : Packet} (hf : CarriesKey k f)
    (hfflag : f.pFlag = ROM_PACKET_FLAG_KEY ||| ROM_PACKET_FLAG_ENCRYPTED)
    (hp : CarriesKey k p.frame)
    (hpflag : p.pFlag = ROM_PACKET_FLAG_KEY ||| ROM_PACKET_FLAG_ENCRYPTED) (a b c d : Endpoint) :
    LogHolds px k ((log ++ if px.mustLogProxyServerTraffic then [⟨a, b, f⟩] else []) ++
      if px.mustLogProxyClientTraffic then [⟨c, d, p⟩] else []) exchanges true := by
  obtain ⟨rfl, rfl⟩ := h.before rfl
  rw [if_pos hlog, List.nil_append]
  refine ⟨nofun, nofun, fun _ => ⟨_, (List.append_nil _).symm, by simp, ?_, fun e he => ?_⟩⟩
  · split <;> simp
  · rcases List.mem_append.1 he with he | he
    · split at he
      · obtain rfl := List.mem_singleton.1 he
        rw [show (⟨a, b, f⟩ : LogEntry).packet.frame = f from hf.fits.frame]
        exact ⟨hf, hfflag⟩
      · exact absurd he List.not_mem_nil
    · obtain rfl := List.mem_singleton.1 he
      exact ⟨hp, hpflag⟩

end LogHolds

/-! ## Events of the proxy -/

/-- The states of runs. Once the connection is closed, what is in flight to the proxy is not read.
-/
structure LoggedRun.Sound (px : ROMProxy) (k : Key) (s : LoggedRun) : Prop where
  server : s.server.Holds k
  sameKey : s.proxy.localConnection.haveKey = s.proxy.remoteConnection.haveKey
  localKey : s.proxy.localConnection.haveKey = true → s.proxy.localConnection.key = k
  settledClient : Settled s.client.buffer.data
  client : ∃ toClient : List (Frame k),
    Line k s.client.toSession s.proxy.localConnection.haveKey toClient ∧
      s.client.buffer.data ++ s.outside.toClient = stream toClient
  log : LogHolds px k s.outside.log s.notes.exchanges s.proxy.localConnection.haveKey
  fromServer : s.closed = false → Settled s.proxy.remoteConnection.buffer.data ∧
    ∃ (fromServer : List (Frame k)) (tail : List UInt8),
      Line k s.proxy.remoteConnection.toSession s.opened fromServer ∧
        (∀ f ∈ fromServer, f.HasKeyFlags) ∧ Stuck tail ∧ (s.opened = false → tail = []) ∧
          s.proxy.remoteConnection.buffer.data ++ s.fromServer = stream fromServer ++ tail
  fromClient : s.closed = false → Settled s.proxy.localConnection.buffer.data ∧
    ∃ (fromClient : List (Frame k)) (tail : List UInt8),
      (∀ f ∈ fromClient, f.IsData) ∧
        (fromClient ≠ [] → s.proxy.localConnection.haveKey = true) ∧ Stuck tail ∧
        s.proxy.localConnection.buffer.data ++ s.fromClient = stream fromClient ++ tail

/-- A data frame of the server is noted as it came and as it was sent on. -/
theorem ROMProxy.look_remoteNoting {px : ROMProxy} (hpx : px.CompleteWrites) {k : Key}
    {r l : Session} (hr : r.Holds k) (hl : l.key = k) {f : Packet} {payload : List UInt8}
    (hf : Carries k f payload) (out : Outside) (notes : Notes Endpoint) :
    ∃ g, Carries k g payload ∧ g.pLength = f.pLength ∧
      look px.remoteNoting (r, (l, out), notes) f.bytes = .take f.bytes.length
        (r, ({ l with sequence := l.sequence + 1 },
          px.logClient .localRemote .localLocal g { px.onRemoteRawPacket f out with
            toClient := (px.onRemoteRawPacket f out).toClient ++ g.bytes }),
          ⟨f, notes.exchanges ++ [⟨.remoteRemote, .remoteLocal, f, payload⟩,
            ⟨.localRemote, .localLocal, g, payload⟩]⟩) := by
  obtain ⟨q, hqlen, hqdata, hhandle⟩ := Session.handlePacket_noting_carries px.remoteHost
    (Endpoint.remoteRemote, .remoteLocal) (.localRemote, .localLocal) (hr.2.symm ▸ hf) hr.1
    ((l, out), notes)
  obtain ⟨g, hg, hglen, hon⟩ := onRemotePacket_eq hpx (hf.fits_payload hqlen hqdata) l
    (px.onRemoteRawPacket f out)
  rw [hl, hqdata] at hg
  exact ⟨g, hg, hglen.trans hqlen, look_bytes hf.fits (hhandle hon)⟩

/-- While the connection to the server takes frames. -/
structure RemoteLogs (px : ROMProxy) (k : Key) (s : LoggedRun) (r l : Session) (out : Outside)
    (notes : Notes Endpoint) (fromServer : List (Frame k)) : Prop where
  line : Line k r s.opened fromServer
  keyFlags : ∀ f ∈ fromServer, f.HasKeyFlags
  sameKey : l.haveKey = r.haveKey
  localKey : l.haveKey = true → l.key = k
  localHasKey : s.proxy.localConnection.haveKey = true → l.haveKey = true
  client : ∃ toClient : List (Frame k), Line k s.client.toSession l.haveKey toClient ∧
    s.client.buffer.data ++ out.toClient = stream toClient
  log : LogHolds px k out.log notes.exchanges l.haveKey

theorem RemoteLogs.step {px : ROMProxy} (hpx : px.CompleteWrites)
    (hlog : px.mustLogProxyClientTraffic = true) {k : Key} {s : LoggedRun} {r l : Session}
    {out : Outside} {notes : Notes Endpoint} {f : Frame k} {fs : List (Frame k)}
    (h : RemoteLogs px k s r l out notes (f :: fs)) :
    ∃ r' l' out' notes', look px.remoteNoting (r, (l, out), notes) f.bytes =
        .take f.bytes.length (r', (l', out'), notes') ∧
      RemoteLogs px k s r' l' out' notes' fs := by
  obtain ⟨hline, hflags, hsame, hlkey, hmono, ⟨toClient, hclient, hstream⟩, hholds⟩ := h
  have hflags' : ∀ f ∈ fs, f.HasKeyFlags := fun f hf => hflags f (List.mem_cons_of_mem _ hf)
  obtain ⟨hopen, hfs, ⟨hno, p, hp, rfl⟩ | ⟨hk, p, payload, hp, rfl⟩⟩ := hline.cases_cons
  · -- the key frame
    obtain ⟨g, hg, hgflag, hnew⟩ := ROMProxy.onRemoteNewKey_eq hpx
      { r with key := k, haveKey := true } rfl l (px.onRemoteRawPacket p out)
    have hhandle := Session.handlePacket_carriesKey (h := px.remoteNoting) hp r ((l, out), notes)
    have hnoted : px.remoteNoting.onNewKey { r with key := k, haveKey := true }
        (px.remoteNoting.onRawPacketReceived p ((l, out), notes)) = _ :=
      congrArg (Option.map fun w => (w, ({ notes with raw := p } : Notes Endpoint))) hnew
    rw [hnoted] at hhandle
    rw [hsame, hno] at hclient hholds
    cases hclient with
    | closed hcno =>
        refine ⟨_, _, _, _, look_bytes hp.fits hhandle, ?_⟩
        refine ⟨by rw [hopen]; exact .data ⟨rfl, rfl⟩ hfs, hflags', rfl, fun _ => rfl, fun _ => rfl,
          ⟨[.key g.frame hg], .key hcno nofun, ?_⟩, ?_⟩
        · rw [ROMProxy.toClient_logClient, ROMProxy.onRemoteRawPacket, ROMProxy.toClient_logServer,
            ← List.append_assoc, hstream, stream_singleton]
          rfl
        · have hkeyed := hholds.newKey hlog hp (hflags _ List.mem_cons_self) hg hgflag .remoteRemote
            .remoteLocal .localRemote .localLocal
          rw [← ROMProxy.log_logServer] at hkeyed
          rw [ROMProxy.log_logClient]
          exact hkeyed
  · -- a data frame
    have hlhave : l.haveKey = true := hsame.trans hk.1
    obtain ⟨g, hg, -, hlook⟩ := ROMProxy.look_remoteNoting hpx hk (hlkey hlhave) hp out notes
    rw [hlhave] at hclient hholds
    refine ⟨_, _, _, _, hlook, ?_⟩
    refine ⟨by rw [hopen]; exact .data hk hfs, hflags', hsame, hlkey, hmono,
      ⟨toClient ++ [.data g payload hg], ?_, ?_⟩, ?_⟩
    · rw [hlhave]
      exact hclient.push trivial
    · rw [ROMProxy.toClient_logClient, ROMProxy.onRemoteRawPacket, ROMProxy.toClient_logServer,
        ← List.append_assoc, hstream, stream_append, stream_singleton]
      rfl
    · -- the frame as it came, and the frame as it was sent on
      have hnoted := (hholds.exchange (x := ⟨.remoteRemote, .remoteLocal, p, payload⟩) hp).exchange
        (x := ⟨.localRemote, .localLocal, g, payload⟩) hg
      rw [List.append_assoc notes.exchanges] at hnoted
      rw [hlhave, ROMProxy.log_logClient, ROMProxy.onRemoteRawPacket]
      dsimp only
      rw [ROMProxy.log_logServer]
      exact hnoted

/-- While the connection to the client takes frames. -/
structure LocalLogs (px : ROMProxy) (k : Key) (s : LoggedRun) (l r : Session) (out : Outside)
    (notes : Notes Endpoint) (fromClient : List (Frame k)) : Prop where
  data : ∀ f ∈ fromClient, f.IsData
  hasKey : fromClient ≠ [] → l.haveKey = true
  localSame : l = s.proxy.localConnection.toSession
  remoteSame : r.key = s.proxy.remoteConnection.key ∧ r.haveKey = s.proxy.remoteConnection.haveKey
  toClient : out.toClient = s.outside.toClient
  log : LogHolds px k out.log notes.exchanges l.haveKey

theorem LocalLogs.step {px : ROMProxy} (hpx : px.CompleteWrites) {k : Key} {s : LoggedRun}
    (hkey : s.proxy.localConnection.haveKey = true → s.proxy.localConnection.key = k ∧
      s.proxy.remoteConnection.key = k) {l r : Session} {out : Outside} {notes : Notes Endpoint}
    {f : Frame k} {fs : List (Frame k)} (h : LocalLogs px k s l r out notes (f :: fs)) :
    ∃ l' r' out' notes', look px.localNoting (l, (r, out), notes) f.bytes =
        .take f.bytes.length (l', (r', out'), notes') ∧
      LocalLogs px k s l' r' out' notes' fs := by
  obtain ⟨hdata, hhas, rfl, hremote, hclient, hholds⟩ := h
  have hhave := hhas (List.cons_ne_nil _ _)
  obtain ⟨hlkey, hrkey⟩ := hkey hhave
  cases f with
  | key p hp => exact absurd (hdata _ List.mem_cons_self) id
  | data p payload hp =>
      obtain ⟨q, hqlen, hqdata, hhandle⟩ := Session.handlePacket_noting_carries px.localHost
        (Endpoint.localLocal, .localRemote) (.remoteLocal, .remoteRemote) (hlkey.symm ▸ hp) hhave
        ((r, out), notes)
      obtain ⟨g, hg, -, hon⟩ := ROMProxy.onLocalPacket_eq hpx
        (hp.fits_payload hqlen hqdata) r (px.onLocalRawPacket p out)
      have hhandled := hhandle hon
      rw [hremote.1, hrkey, hqdata] at hg
      refine ⟨_, _, _, _, look_bytes hp.fits hhandled, ?_⟩
      refine ⟨fun f hf => hdata f (List.mem_cons_of_mem _ hf), fun _ => hhave, rfl, hremote, ?_, ?_⟩
      · rw [ROMProxy.toClient_logServer, ROMProxy.onLocalRawPacket, ROMProxy.toClient_logClient,
          hclient]
      · rw [hhave] at hholds ⊢
        have hnoted := (hholds.exchange (x := ⟨.localLocal, .localRemote, p, payload⟩) hp).exchange
          (x := ⟨.remoteLocal, .remoteRemote, g, payload⟩) hg
        rw [List.append_assoc notes.exchanges] at hnoted
        rw [ROMProxy.log_logServer, ROMProxy.onLocalRawPacket]
        dsimp only
        rw [ROMProxy.log_logClient]
        exact hnoted

namespace LoggedRun

/-- What an event of the connection to the server leads to. -/
theorem Sound.remoteEvent {px : ROMProxy} (hpx : px.CompleteWrites)
    (hlog : px.mustLogProxyClientTraffic = true) {k : Key} {s : LoggedRun} (h : s.Sound px k)
    (hclosed : s.closed = false) {packet rest : List UInt8}
    (hread : packet.length ≤ s_MaxPacketSize)
    (hline : s.fromServer = packet ++ rest) :
    ∃ ok pc out notes,
      s.proxy.noteRemoteEvent px packet s.outside s.notes = some (ok, pc, out, notes) ∧
      Sound px k { s with
        fromServer := rest
        proxy := pc
        outside := out
        closed := !ok
        notes := notes } := by
  obtain ⟨hsettled, fromServer, tail, hremote, hflags, htail, hopen, hstream⟩ :=
    h.fromServer hclosed
  -- what holds between two frames, whatever comes behind the last one
  let P (st : Session × (Session × Outside) × Notes Endpoint) (fs : List (Frame k)) : Prop :=
    RemoteLogs px k s st.1 st.2.1.1 st.2.1.2 st.2.2 fs
  have hstep : ∀ {st f fs}, P st (f :: fs) → ∃ st', look px.remoteNoting st f.bytes =
      .take f.bytes.length st' ∧ P st' fs := by
    intro st f fs hP
    obtain ⟨r', l', out', notes', hlook, hP'⟩ := RemoteLogs.step hpx hlog hP
    exact ⟨(r', (l', out'), notes'), hlook, hP'⟩
  have hstart : P (s.proxy.remoteConnection.toSession,
      (s.proxy.localConnection.toSession, s.outside), s.notes) fromServer :=
    ⟨hremote, hflags, h.sameKey, h.localKey, id, h.client, h.log⟩
  obtain ⟨ok, c', ⟨⟨l', out'⟩, notes'⟩, fs', hevent, hP', hrest⟩ :=
    ROMConnection.onEvent_of_stream hstep hstart hsettled hread htail (hline ▸ hstream)
  refine ⟨ok, ⟨⟨l', s.proxy.localConnection.buffer⟩, c'⟩, out', notes', ?_, ?_⟩
  · rw [ROMProxiedConnection.noteRemoteEvent, hevent]
  refine ⟨h.server, hP'.sameKey, hP'.localKey, h.settledClient, hP'.client, hP'.log,
    fun hok => ?_, fun _ => ?_⟩
  · -- as long as the connection is open, what is left is frames and a tail
    obtain ⟨hstream', hsettled'⟩ := hrest (by simpa using hok)
    exact ⟨hsettled', fs', tail, hP'.line, hP'.keyFlags, htail, hopen, hstream'⟩
  · obtain ⟨hsettledLocal, fromClient, tail', hdata, hhas, htail', hlocal⟩ := h.fromClient hclosed
    exact ⟨hsettledLocal, fromClient, tail', hdata, fun hne => hP'.localHasKey (hhas hne), htail',
      hlocal⟩

/-- What an event of the connection to the client leads to. -/
theorem Sound.localEvent {px : ROMProxy} (hpx : px.CompleteWrites) {k : Key} {s : LoggedRun}
    (h : s.Sound px k) (hclosed : s.closed = false) {packet rest : List UInt8}
    (hread : packet.length ≤ s_MaxPacketSize) (hline : s.fromClient = packet ++ rest) :
    ∃ ok pc out notes,
      s.proxy.noteLocalEvent px packet s.outside s.notes = some (ok, pc, out, notes) ∧
      Sound px k { s with
        fromClient := rest
        proxy := pc
        outside := out
        closed := !ok
        notes := notes } := by
  obtain ⟨hsettledRemote, fromServer, tail', hremote, hflags, htail', hopen, hserver⟩ :=
    h.fromServer hclosed
  obtain ⟨hsettled, fromClient, tail, hdata, hhas, htail, hstream⟩ := h.fromClient hclosed
  -- the connections have the same key, if any
  have hkey : s.proxy.localConnection.haveKey = true → s.proxy.localConnection.key = k ∧
      s.proxy.remoteConnection.key = k := fun hhave =>
    ⟨h.localKey hhave, (hremote.holds (h.sameKey.symm.trans hhave)).2⟩
  let P (st : Session × (Session × Outside) × Notes Endpoint) (fs : List (Frame k)) : Prop :=
    LocalLogs px k s st.1 st.2.1.1 st.2.1.2 st.2.2 fs
  have hstep : ∀ {st f fs}, P st (f :: fs) → ∃ st', look px.localNoting st f.bytes =
      .take f.bytes.length st' ∧ P st' fs := by
    intro st f fs hP
    obtain ⟨l', r', out', notes', hlook, hP'⟩ := LocalLogs.step hpx hkey hP
    exact ⟨(l', (r', out'), notes'), hlook, hP'⟩
  have hstart : P (s.proxy.localConnection.toSession,
      (s.proxy.remoteConnection.toSession, s.outside), s.notes) fromClient :=
    ⟨hdata, hhas, rfl, ⟨rfl, rfl⟩, rfl, h.log⟩
  obtain ⟨ok, c', ⟨⟨r', out'⟩, notes'⟩, fs', hevent, hP', hrest⟩ :=
    ROMConnection.onEvent_of_stream hstep hstart hsettled hread htail (hline ▸ hstream)
  refine ⟨ok, ⟨c', ⟨r', s.proxy.remoteConnection.buffer⟩⟩, out', notes', ?_, ?_⟩
  · rw [ROMProxiedConnection.noteLocalEvent, hevent]
  have hsame : c'.toSession = s.proxy.localConnection.toSession := hP'.localSame
  have hhave : c'.haveKey = s.proxy.localConnection.haveKey := congrArg Session.haveKey hsame
  refine ⟨h.server, ?_, ?_, h.settledClient, ?_, hP'.log, fun _ => ?_, fun hok => ?_⟩
  · exact hhave.trans (h.sameKey.trans hP'.remoteSame.2.symm)
  · intro hc
    exact (congrArg Session.key hsame).trans (h.localKey (hhave.symm.trans hc))
  · obtain ⟨toClient, hclient, hto⟩ := h.client
    refine ⟨toClient, ?_, ?_⟩
    · show Line k s.client.toSession c'.haveKey toClient
      rw [hhave]
      exact hclient
    · show s.client.buffer.data ++ out'.toClient = stream toClient
      rw [hP'.toClient]
      exact hto
  · exact ⟨hsettledRemote, fromServer, tail', hremote.of_sameKey hP'.remoteSame, hflags, htail',
      hopen, hserver⟩
  · obtain ⟨hstream', hsettled'⟩ := hrest (by simpa using hok)
    exact ⟨hsettled', fs', tail, hP'.data, hP'.hasKey, htail, hstream'⟩

/-! ## Sending -/

/-- A packet that is sent adds a frame to a stream, or to what is stuck behind it. -/
theorem stream_sendPacket {k : Key} {c c' : Session} (hk : c.Holds k) {p p' : Packet}
    (hp : p.Sized) {ok : Bool} {line out : List UInt8}
    (hsend : c.sendPacket wire p line = some (ok, c', p', out)) {buffer tail : List UInt8}
    {fs : List (Frame k)} (htail : Stuck tail) (hstream : buffer ++ line = stream fs ++ tail) :
    ∃ (fs' : List (Frame k)) (tail' : List UInt8), (fs' = fs ∨ ∃ f, f.IsData ∧ fs' = fs ++ [f]) ∧
      Stuck tail' ∧ buffer ++ out = stream fs' ++ tail' := by
  obtain ⟨key, q, hlen, -, -, -, hsend'⟩ := c.sendPacket_sealWith wire hp line
  rw [hsend] at hsend'
  cases hsend'
  have hmore : buffer ++ (line ++ (q.sealWith key).bytes) =
      stream fs ++ (tail ++ (q.sealWith key).bytes) := by
    rw [← List.append_assoc, hstream, List.append_assoc]
  by_cases hempty : tail = []
  · subst hempty
    by_cases hlong : p.pLength.toNat ≥ s_MaxPacketSize
    · refine ⟨fs, _, Or.inl rfl, Or.inr ⟨q.sealWith key, [], ?_, rfl⟩, ?_⟩
      · rw [Packet.pLength_sealWith, hlen]
        exact hlong
      · rw [List.append_nil]
        exact hmore
    · -- a frame that the other side accepts
      obtain ⟨f, hf, -, hsend''⟩ := c.sendPacket_eq wire ⟨hp, Nat.lt_of_not_le hlong⟩ line
      rw [hsend] at hsend''
      simp only [Option.some.injEq, Prod.mk.injEq] at hsend''
      obtain ⟨-, -, rfl, -⟩ := hsend''
      rw [hk.2] at hf
      let f : Frame k := .data _ p.pData hf
      have hf : f.IsData := trivial
      refine ⟨fs ++ [f], [], Or.inr ⟨f, hf, rfl⟩, Or.inl rfl, ?_⟩
      rw [stream_append, stream_singleton, List.append_nil]
      exact hmore
  · exact ⟨fs, _, Or.inl rfl, htail.append hempty _, hmore⟩

theorem Sound.sendKey {px : ROMProxy} {k : Key} {s : LoggedRun} (h : s.Sound px k)
    (hopen : s.opened = false) {p p' : Packet} {ok : Bool} {out : List UInt8}
    (hsend : s.server.sendKey wire p s.fromServer = some (ok, p', out)) :
    Sound px k { s with opened := true, fromServer := out } := by
  refine ⟨h.server, h.sameKey, h.localKey, h.settledClient, h.client, h.log, fun hclosed => ?_,
    h.fromClient⟩
  obtain ⟨hsettled, fromServer, tail, hremote, -, -, hnone, hstream⟩ := h.fromServer hclosed
  obtain rfl := hnone hopen
  obtain ⟨q, hf, hflag, hsend'⟩ :=
    s.server.sendKey_eq wire (Session.room_of_sendKey hsend) s.fromServer
  rw [hsend] at hsend'
  cases hsend'
  rw [h.server.2] at hf
  rw [hopen] at hremote
  -- no key frame has been sent, so the line is empty
  cases hremote with
  | closed hno =>
      refine ⟨hsettled, [.key p'.frame hf], [], .key hno nofun, fun f hmem => ?_, Or.inl rfl,
        fun _ => rfl, ?_⟩
      · obtain rfl := List.mem_singleton.1 hmem
        exact hflag
      show s.proxy.remoteConnection.buffer.data ++ (s.fromServer ++ p'.frame.bytes) = _
      rw [← List.append_assoc, hstream, stream_singleton, List.append_nil, List.append_nil]
      rfl

theorem Sound.serverSend {px : ROMProxy} {k : Key} {s : LoggedRun} (h : s.Sound px k)
    (hopen : s.opened = true) {p p' : Packet} (hp : p.Sized) {ok : Bool} {session : Session}
    {out : List UInt8}
    (hsend : s.server.sendPacket wire p s.fromServer = some (ok, session, p', out)) :
    Sound px k { s with server := session, fromServer := out } := by
  obtain ⟨-, rfl⟩ := Session.sendPacket_eq_some hsend
  refine ⟨h.server, h.sameKey, h.localKey, h.settledClient, h.client, h.log, fun hclosed => ?_,
    h.fromClient⟩
  obtain ⟨hsettled, fromServer, tail, hremote, hflags, htail, -, hstream⟩ := h.fromServer hclosed
  obtain ⟨fs', tail', hfs', htail', hstream'⟩ :=
    stream_sendPacket h.server hp hsend htail hstream
  refine ⟨hsettled, fs', tail', ?_, ?_, htail', fun hno => ?_, hstream'⟩
  · obtain rfl | ⟨f, hf, rfl⟩ := hfs'
    · exact hremote
    · show Line k s.proxy.remoteConnection.toSession s.opened (fromServer ++ [f])
      rw [hopen] at hremote ⊢
      exact hremote.push hf
  · obtain rfl | ⟨f, hf, rfl⟩ := hfs'
    · exact hflags
    · intro f' hf'
      rcases List.mem_append.1 hf' with hf' | hf'
      · exact hflags f' hf'
      · obtain rfl := List.mem_singleton.1 hf'
        exact hf.hasKeyFlags
  · exact absurd (hopen.symm.trans hno) nofun

theorem Sound.clientSend {px : ROMProxy} {k : Key} {s : LoggedRun} (h : s.Sound px k)
    (hhave : s.client.haveKey = true) {p p' : Packet} (hp : p.Sized) {ok : Bool}
    {session : Session} {out : List UInt8}
    (hsend : s.client.sendPacket wire p s.fromClient = some (ok, session, p', out)) :
    Sound px k { s with client := ⟨session, s.client.buffer⟩, fromClient := out } := by
  obtain ⟨-, rfl⟩ := Session.sendPacket_eq_some hsend
  obtain ⟨toClient, hclient, hto⟩ := h.client
  have hlocal : s.proxy.localConnection.haveKey = true := hclient.opened hhave
  refine ⟨h.server, h.sameKey, h.localKey, h.settledClient,
    ⟨toClient, hclient.of_sameKey ⟨rfl, rfl⟩, hto⟩, h.log, h.fromServer, fun hclosed => ?_⟩
  obtain ⟨hsettled, fromClient, tail, hdata, -, htail, hstream⟩ := h.fromClient hclosed
  obtain ⟨fs', tail', hfs', htail', hstream'⟩ :=
    stream_sendPacket (hclient.holds hhave) hp hsend htail hstream
  refine ⟨hsettled, fs', tail', ?_, fun _ => hlocal, htail', hstream'⟩
  obtain rfl | ⟨f, hf, rfl⟩ := hfs'
  · exact hdata
  · intro f' hf'
    rcases List.mem_append.1 hf' with hf' | hf'
    · exact hdata f' hf'
    · obtain rfl := List.mem_singleton.1 hf'
      exact hf

/-! ## Events of the client -/

theorem Sound.clientEvent {px : ROMProxy} {k : Key} {s : LoggedRun} (h : s.Sound px k)
    {packet rest : List UInt8} (hread : IsRead packet) (hline : s.outside.toClient = packet ++ rest)
    {ok : Bool} {c : ROMConnection}
    (hevent : s.client.onEvent Host.quiet packet () = .returned ok c ()) :
    Sound px k { s with client := c, outside := { s.outside with toClient := rest } } := by
  obtain ⟨toClient, hclient, hto⟩ := h.client
  let P (st : Session × Unit) (fs : List (Frame k)) : Prop :=
    Line k st.1 s.proxy.localConnection.haveKey fs
  have hstep : ∀ {st f fs}, P st (f :: fs) → ∃ st', look Host.quiet st f.bytes =
      .take f.bytes.length st' ∧ P st' fs := by
    intro st f fs hP
    obtain ⟨c, u⟩ := st
    have hkeyed : ∀ {c : Session}, s.proxy.localConnection.haveKey = true → c.Holds k →
        (∀ f ∈ fs, f.IsData) → Line k c s.proxy.localConnection.haveKey fs := by
      intro c hopen hk hfs
      rw [hopen]
      exact .data hk hfs
    obtain ⟨hopen, hfs, ⟨-, p, hp, rfl⟩ | ⟨hk, p, payload, hp, rfl⟩⟩ := Line.cases_cons hP
    · have hhandle := Session.handlePacket_carriesKey (h := Host.quiet) hp c u
      exact ⟨_, look_bytes hp.fits hhandle, hkeyed hopen ⟨rfl, rfl⟩ hfs⟩
    · obtain ⟨q, -, -, hhandle⟩ := Session.handlePacket_carries (h := Host.quiet)
        (hk.2.symm ▸ hp) hk.1 u
      exact ⟨_, look_bytes hp.fits hhandle, hkeyed hopen hk hfs⟩
  obtain ⟨c', u, fs', hevent', hP', hstream, hsettled⟩ :=
    ROMConnection.onEvent_of_frames (P := P) (w := ()) hstep hclient h.settledClient hread
      (hline ▸ hto)
  rw [hevent] at hevent'
  cases hevent'
  exact ⟨h.server, h.sameKey, h.localKey, hsettled, ⟨fs', hP', hstream⟩, h.log, h.fromServer,
    h.fromClient⟩

/-! ## Runs -/

theorem Sound.start (px : ROMProxy) (k : Key) (sequence : UInt32) :
    (start k sequence).Sound px k := by
  refine ⟨⟨rfl, rfl⟩, rfl, nofun, nofun, ⟨[], .closed rfl, rfl⟩,
    ⟨nofun, fun _ => ⟨rfl, rfl⟩, nofun⟩,
    fun _ => ⟨nofun, [], [], .closed rfl, nofun, Or.inl rfl, fun _ => rfl, rfl⟩,
    fun _ => ⟨nofun, [], [], nofun, fun h => absurd rfl h, Or.inl rfl, rfl⟩⟩

theorem Sound.step {px : ROMProxy} (hpx : px.CompleteWrites)
    (hlog : px.mustLogProxyClientTraffic = true) {k : Key} {s s' : LoggedRun} (h : s.Sound px k)
    (hstep : Step px s s') : s'.Sound px k := by
  cases hstep with
  | sendKey hopen hsend => exact h.sendKey hopen hsend
  | serverSend hopen hp hsend => exact h.serverSend hopen hp hsend
  | clientSend hhave hp hsend => exact h.clientSend hhave hp hsend
  | serverRead _ =>
      exact ⟨h.server, h.sameKey, h.localKey, h.settledClient, h.client, h.log, h.fromServer,
        h.fromClient⟩
  | clientEvent hread hline he => exact h.clientEvent hread hline he
  | remoteEvent hclosed hread hline he =>
      obtain ⟨ok, pc, out, notes, he', h'⟩ := h.remoteEvent hpx hlog hclosed hread hline
      rw [he] at he'
      cases he'
      exact h'
  | localEvent hclosed hread hline he =>
      obtain ⟨ok, pc, out, notes, he', h'⟩ := h.localEvent hpx hclosed hread hline
      rw [he] at he'
      cases he'
      exact h'

theorem Sound.of_reachable {px : ROMProxy} (hpx : px.CompleteWrites)
    (hlog : px.mustLogProxyClientTraffic = true) {s : LoggedRun} (hs : Reachable px s) :
    ∃ k, s.Sound px k := by
  induction hs with
  | start k sequence => exact ⟨k, .start px k sequence⟩
  | step _ hstep ih =>
      obtain ⟨k, h⟩ := ih
      exact ⟨k, h.step hpx hlog hstep⟩

end LoggedRun

end OpenRom
