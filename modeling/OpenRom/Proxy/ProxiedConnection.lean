import OpenRom.Connection.Connection

/-!
# The proxied connection

`ROMProxiedConnection`: a connection to the client and one to the server, each the host of the other
through its callbacks. A callback sees the session of the other connection, never its buffer, and
what lies outside both, the bytes on the sockets and the log. Messages on `stderr` are left out.
-/

set_option autoImplicit false

namespace OpenRom

/-- The addresses of the two sockets. -/
inductive Endpoint
  | localLocal
  | localRemote
  | remoteLocal
  | remoteRemote
  deriving DecidableEq, Repr

/-- A record that is given to the logger. -/
structure LogEntry where
  source : Endpoint
  dest : Endpoint
  packet : Packet
  deriving DecidableEq, Repr

/-- What the proxy has written: to the client and to the server, as far as they have not read it,
and to the log. -/
structure Outside where
  toClient : List UInt8
  toServer : List UInt8
  log : List LogEntry
  deriving DecidableEq, Repr

/-- `g_ROMProxy`, and what of the system around it decides how a call goes: how much a `write` on a
socket takes, and what is found in memory that is not set. -/
structure ROMProxy where
  mustLogProxyClientTraffic : Bool
  mustLogProxyServerTraffic : Bool
  takenByClient : Outside → List UInt8 → Int
  takenByServer : Outside → List UInt8 → Int
  stack : Stack Outside
  /-- the array of `OnRemoteNewKey`, 64 bytes -/
  packet : Outside → Packet
  length_packet : ∀ out, (packet out).pData.length = 64 - sizeofPacket

/-- A packet that has been sent is as long as before, and only the sequence number of the session
has changed. -/
theorem Session.sendPacket_eq_some {ω : Type} {write : List UInt8 → ω → Int × ω} {s s' : Session}
    {p p' : Packet} {w w' : ω} {ok : Bool}
    (h : s.sendPacket write p w = some (ok, s', p', w')) :
    (p'.pLength = p.pLength ∧ p'.pData.length = p.pData.length) ∧
      s' = { s with sequence := s.sequence + 1 } := by
  simp only [sendPacket, checksumAndSend, Option.bind_eq_bind, Option.bind_eq_some_iff] at h
  obtain ⟨-, -, r, ⟨key, -, hr⟩, hp⟩ := h
  cases hr
  cases hp
  exact ⟨⟨rfl, Packet.length_sealWith _⟩, rfl⟩

namespace ROMProxy

variable (px : ROMProxy)

/-- `Write` on the socket of the client. -/
def writeClient (bs : List UInt8) (out : Outside) : Int × Outside :=
  (px.takenByClient out bs,
    { out with toClient := out.toClient ++ bs.take (px.takenByClient out bs).toNat })

/-- `Write` on the socket of the server. -/
def writeServer (bs : List UInt8) (out : Outside) : Int × Outside :=
  (px.takenByServer out bs,
    { out with toServer := out.toServer ++ bs.take (px.takenByServer out bs).toNat })

def logClient (source dest : Endpoint) (p : Packet) (out : Outside) : Outside :=
  if px.mustLogProxyClientTraffic then { out with log := out.log ++ [⟨source, dest, p⟩] } else out

def logServer (source dest : Endpoint) (p : Packet) (out : Outside) : Outside :=
  if px.mustLogProxyServerTraffic then { out with log := out.log ++ [⟨source, dest, p⟩] } else out

/-- `OnRemoteNewKey`: the key is used both ways. -/
def onRemoteNewKey (remote : Session) (loc : Session) (out : Outside) :
    Option (Session × Outside) := do
  let loc ← loc.copyKey remote
  -- what `SendKey` returns is not looked at
  let (_, p, out) ← loc.sendKey px.writeClient (px.packet out) out
  return (loc, px.logClient .localRemote .localLocal p out)

/-- `OnRemotePacket` -/
def onRemotePacket (p : Packet) (loc : Session) (out : Outside) :
    Option (Packet × Session × Outside) := do
  let (_, loc, p, out) ← loc.sendPacket px.writeClient p out
  return (p, loc, px.logClient .localRemote .localLocal p out)

/-- `OnRemoteRawPacket` -/
def onRemoteRawPacket (p : Packet) (out : Outside) : Outside :=
  px.logServer .remoteRemote .remoteLocal p out

/-- `OnLocalNewKey`, which only says that the key will be ignored. -/
def onLocalNewKey (remote : Session) (out : Outside) : Option (Session × Outside) :=
  some (remote, out)

/-- `OnLocalPacket` -/
def onLocalPacket (p : Packet) (remote : Session) (out : Outside) :
    Option (Packet × Session × Outside) := do
  let (_, remote, p, out) ← remote.sendPacket px.writeServer p out
  return (p, remote, px.logServer .remoteLocal .remoteRemote p out)

/-- `OnLocalRawPacket` -/
def onLocalRawPacket (p : Packet) (out : Outside) : Outside :=
  px.logClient .localLocal .localRemote p out

/-- What the connection to the client calls. -/
def localHost : Host (Session × Outside) where
  onRawPacketReceived p w := (w.1, px.onLocalRawPacket p w.2)
  onNewKey _ w := onLocalNewKey w.1 w.2
  onPacket p w := px.onLocalPacket p w.1 w.2
  write bs w := ((px.writeClient bs w.2).1, w.1, (px.writeClient bs w.2).2)
  stack := px.stack.comap Prod.snd
  onPacket_length := by
    intro p p' w w' h
    simp only [onLocalPacket, Option.bind_eq_bind, Option.bind_eq_some_iff] at h
    obtain ⟨r, hr, hp⟩ := h
    cases hp
    exact (Session.sendPacket_eq_some hr).1

/-- What the connection to the server calls. -/
def remoteHost : Host (Session × Outside) where
  onRawPacketReceived p w := (w.1, px.onRemoteRawPacket p w.2)
  onNewKey s w := px.onRemoteNewKey s w.1 w.2
  onPacket p w := px.onRemotePacket p w.1 w.2
  write bs w := ((px.writeServer bs w.2).1, w.1, (px.writeServer bs w.2).2)
  stack := px.stack.comap Prod.snd
  onPacket_length := by
    intro p p' w w' h
    simp only [onRemotePacket, Option.bind_eq_bind, Option.bind_eq_some_iff] at h
    obtain ⟨r, hr, hp⟩ := h
    cases hp
    exact (Session.sendPacket_eq_some hr).1

end ROMProxy

/-- A proxy without logs, on sockets that take all they are given. -/
def ROMProxy.plain : ROMProxy where
  mustLogProxyClientTraffic := false
  mustLogProxyServerTraffic := false
  takenByClient _ bs := bs.length
  takenByServer _ bs := bs.length
  stack := .unused
  packet _ := ⟨0, 0, 0, 0, 0, 0, List.replicate 52 0⟩
  length_packet _ := rfl

structure ROMProxiedConnection where
  localConnection : ROMConnection
  remoteConnection : ROMConnection
  deriving DecidableEq, Repr

namespace ROMProxiedConnection

/-- A proxied connection as the constructor leaves it. -/
def fresh : ROMProxiedConnection := ⟨.fresh, .fresh⟩

/-- `OnLocalEvent`; there is no result when it ends in a fault. -/
def onLocalEvent (px : ROMProxy) (pc : ROMProxiedConnection) (packet : List UInt8)
    (out : Outside) : Option (Bool × ROMProxiedConnection × Outside) :=
  match pc.localConnection.onEvent px.localHost packet
      (pc.remoteConnection.toSession, out) with
  | .fault _ => none
  | .returned ok c (remote, out) => some (ok, ⟨c, ⟨remote, pc.remoteConnection.buffer⟩⟩, out)

/-- `OnRemoteEvent` -/
def onRemoteEvent (px : ROMProxy) (pc : ROMProxiedConnection) (packet : List UInt8)
    (out : Outside) : Option (Bool × ROMProxiedConnection × Outside) :=
  match pc.remoteConnection.onEvent px.remoteHost packet
      (pc.localConnection.toSession, out) with
  | .fault _ => none
  | .returned ok c (loc, out) => some (ok, ⟨⟨loc, pc.localConnection.buffer⟩, c⟩, out)

end ROMProxiedConnection

end OpenRom
