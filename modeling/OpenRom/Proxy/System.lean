import OpenRom.Connection.Delivery
import OpenRom.Proxy.ProxiedConnection

/-!
# A server, the proxy and a client

The two peers of a proxied connection and the bytes in flight in the four directions. The server
sends a key frame and then data, the client data once it has the key; deliveries happen in any
order and in pieces of any size (`System.Step`). `System.InOrder` and `System.Flows` say what a
relay should do.
-/

set_option autoImplicit false

namespace OpenRom

open ROMConnection (IsRead)

/-- The two peers, the proxy, and what is in flight. The peers are connections whose callbacks keep
a trace. `opened` says that the server has sent its key frame. -/
structure System where
  server : ROMConnection
  client : ROMConnection
  proxy : ROMProxiedConnection
  fromServer : List UInt8
  fromClient : List UInt8
  outside : Outside
  opened : Bool
  serverSent : List (UInt32 × List UInt8)
  clientSent : List (UInt32 × List UInt8)
  serverTrace : List Event
  clientTrace : List Event

/-- The host of a peer. -/
def peer : Host (Unit × List Event) := Host.quiet.recording .unused

namespace System

/-- Nothing has been sent, and only the server has a key. -/
def start (k : Key) (sequence : UInt32) : System where
  server := ⟨⟨k, true, sequence⟩, .empty⟩
  client := .fresh
  proxy := .fresh
  fromServer := []
  fromClient := []
  outside := ⟨[], [], []⟩
  opened := false
  serverSent := []
  clientSent := []
  serverTrace := []
  clientTrace := []

/-- What can happen. Peers send packets that `Sendable` admits; a delivery hands over some of the
bytes in flight to an event that returns `true`. -/
inductive Step (px : ROMProxy) (Sendable : Packet → Prop) (s : System) : System → Prop
  | sendKey {p p' : Packet} {ok : Bool} {out : List UInt8} : s.opened = false →
      s.server.sendKey wire p s.fromServer = some (ok, p', out) →
        Step px Sendable s { s with opened := true, fromServer := out }
  | serverSend {p p' : Packet} {ok : Bool} {session : Session} {out : List UInt8} :
      s.opened = true → Sendable p →
        s.server.sendPacket wire p s.fromServer = some (ok, session, p', out) →
          Step px Sendable s { s with
            server := ⟨session, s.server.buffer⟩
            fromServer := out
            serverSent := s.serverSent ++ [(p.pLength, p.pData)] }
  | clientSend {p p' : Packet} {ok : Bool} {session : Session} {out : List UInt8} :
      s.client.haveKey = true → Sendable p →
        s.client.sendPacket wire p s.fromClient = some (ok, session, p', out) →
          Step px Sendable s { s with
            client := ⟨session, s.client.buffer⟩
            fromClient := out
            clientSent := s.clientSent ++ [(p.pLength, p.pData)] }
  | remoteEvent {packet rest : List UInt8} {pc : ROMProxiedConnection} {out : Outside} :
      IsRead packet → s.fromServer = packet ++ rest →
        s.proxy.onRemoteEvent px packet s.outside = some (true, pc, out) →
          Step px Sendable s { s with fromServer := rest, proxy := pc, outside := out }
  | localEvent {packet rest : List UInt8} {pc : ROMProxiedConnection} {out : Outside} :
      IsRead packet → s.fromClient = packet ++ rest →
        s.proxy.onLocalEvent px packet s.outside = some (true, pc, out) →
          Step px Sendable s { s with fromClient := rest, proxy := pc, outside := out }
  | clientEvent {packet rest : List UInt8} {c : ROMConnection} {trace : List Event} :
      IsRead packet → s.outside.toClient = packet ++ rest →
        s.client.onEvent peer packet ((), s.clientTrace) = .returned true c ((), trace) →
          Step px Sendable s { s with
            client := c
            outside := { s.outside with toClient := rest }
            clientTrace := trace }
  | serverEvent {packet rest : List UInt8} {c : ROMConnection} {trace : List Event} :
      IsRead packet → s.outside.toServer = packet ++ rest →
        s.server.onEvent peer packet ((), s.serverTrace) = .returned true c ((), trace) →
          Step px Sendable s { s with
            server := c
            outside := { s.outside with toServer := rest }
            serverTrace := trace }

/-- Everything that can happen after the start. -/
inductive Reachable (px : ROMProxy) (Sendable : Packet → Prop) : System → Prop
  | start (k : Key) (sequence : UInt32) : Reachable px Sendable (start k sequence)
  | step {s s' : System} : Reachable px Sendable s → Step px Sendable s s' →
      Reachable px Sendable s'

/-- No delivery that is possible makes an event return `false`. -/
structure Flows (px : ROMProxy) (s : System) : Prop where
  remoteEvent : ∀ packet rest, IsRead packet → s.fromServer = packet ++ rest →
    ∃ pc out, s.proxy.onRemoteEvent px packet s.outside = some (true, pc, out)
  localEvent : ∀ packet rest, IsRead packet → s.fromClient = packet ++ rest →
    ∃ pc out, s.proxy.onLocalEvent px packet s.outside = some (true, pc, out)
  clientEvent : ∀ packet rest, IsRead packet → s.outside.toClient = packet ++ rest →
    ∃ c trace, s.client.onEvent peer packet ((), s.clientTrace) = .returned true c ((), trace)
  serverEvent : ∀ packet rest, IsRead packet → s.outside.toServer = packet ++ rest →
    ∃ c trace, s.server.onEvent peer packet ((), s.serverTrace) = .returned true c ((), trace)

/-- What is decoded is the front of what was sent, and all of it when nothing is in flight. -/
structure InOrder (s : System) : Prop where
  clientDecoded : deliveries s.clientTrace <+: s.serverSent
  serverDecoded : deliveries s.serverTrace <+: s.clientSent
  clientComplete : s.fromServer = [] → s.outside.toClient = [] →
    deliveries s.clientTrace = s.serverSent
  serverComplete : s.fromClient = [] → s.outside.toServer = [] →
    deliveries s.serverTrace = s.clientSent

end System

/-- The sockets of the proxy take all they are given. -/
def ROMProxy.CompleteWrites (px : ROMProxy) : Prop :=
  ∀ out bs, px.takenByClient out bs = (bs.length : Int) ∧
    px.takenByServer out bs = (bs.length : Int)

end OpenRom
