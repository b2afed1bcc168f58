import Mathlib.Data.Option.Basic
import OpenRom.Library.Loop
import OpenRom.Connection.Packet

/-!
# Connections

`Buffer` and `ROMConnection`. What a connection calls and does not own is a `Host`: the callback
object, `Write` on the socket, and the memory behind the packet that `SendKeepaliveReply` builds on
its stack, which it overruns. The world `ω` is whatever the host keeps. A failed assertion, an index
outside the key, or four bytes stored over what the program still needs, is a fault, after which
nothing is said.

The loop of `OnEvent` is a `Loop.Turn`; its body is split where the frame has been cut from the
buffer (`ROMConnection.handlePacket`).
-/

set_option autoImplicit false

namespace OpenRom

/-- `Buffer::s_BufferSize` -/
def s_BufferSize : Nat := 262144

/-- `ROMConnection::s_MaxPacketSize` -/
def s_MaxPacketSize : Nat := 131072

/-- The bytes that are available, fewer than the buffer's size. -/
structure Buffer where
  data : List UInt8
  length_lt : data.length < s_BufferSize
  deriving DecidableEq, Repr

namespace Buffer

def empty : Buffer := ⟨[], by decide⟩

@[simp] theorem data_empty : empty.data = [] := rfl

def addData (b : Buffer) (data : List UInt8) : Option Buffer :=
  if h : b.data.length + data.length ≥ s_BufferSize then none
  else some ⟨b.data ++ data, by rw [List.length_append]; omega⟩

/-- There is no result when the assertion fails. -/
def flushData (b : Buffer) (len : Nat) : Option Buffer :=
  if b.data.length ≥ len then
    some ⟨b.data.drop len, by
      rw [List.length_drop]
      exact Nat.lt_of_le_of_lt (Nat.sub_le _ _) b.length_lt⟩
  else none

/-- `PeekData(sizeof(struct ROM::Packet))` with the cast; the data go on to the end of the
buffer. -/
def peekPacket (b : Buffer) : Option Packet := Packet.read b.data

/-- Whether `PeekData(len)` returns a pointer. -/
def canPeek (b : Buffer) (len : Nat) : Bool := len ≤ b.data.length

theorem canPeek_iff {b : Buffer} {len : Nat} : b.canPeek len = true ↔ len ≤ b.data.length :=
  decide_eq_true_iff

/-- What writing through the pointer from `PeekData` leaves in the buffer. -/
def overwrite (b : Buffer) (bs : List UInt8) : Buffer where
  data := (bs ++ b.data.drop bs.length).take b.data.length
  length_lt := Nat.lt_of_le_of_lt (List.length_take_le _ _) b.length_lt

end Buffer

/-- The encryption key. -/
structure Key where
  bytes : List UInt8
  length_bytes : bytes.length = ROM_KEY_LENGTH
  deriving DecidableEq, Repr

namespace Key

def zero : Key := ⟨List.replicate ROM_KEY_LENGTH 0, List.length_replicate⟩

/-- `keynum != 0xff ? m_Key[keynum] : 8`; there is no result outside the key. -/
def byteFor (k : Key) (keynum : UInt8) : Option UInt8 :=
  if keynum ≠ 0xff then k.bytes[keynum.toNat]? else some 8

end Key

/-- All of a connection but its buffer. -/
structure Session where
  key : Key
  haveKey : Bool
  sequence : UInt32
  deriving DecidableEq, Repr

structure ROMConnection extends Session where
  buffer : Buffer
  deriving DecidableEq, Repr

/-- The four bytes behind the packet of `SendKeepaliveReply`: what it reads there, and whether the
program can do without them once it has stored there. -/
structure Stack (ω : Type) where
  bytes : ω → UInt32
  spare : ω → Bool

namespace Stack

variable {ω : Type}

/-- Zeros that nothing else uses. -/
def unused : Stack ω := ⟨fun _ => 0, fun _ => true⟩

/-- The stack, seen from a world that has more in it. -/
def comap {ω' : Type} (f : ω' → ω) (stack : Stack ω) : Stack ω' where
  bytes w := stack.bytes (f w)
  spare w := stack.spare (f w)

end Stack

/-- What a connection calls. Its callbacks may write to a packet, but keep its length; they do not
return when they fail an assertion. -/
structure Host (ω : Type) where
  onRawPacketReceived : Packet → ω → ω
  onNewKey : Session → ω → Option ω
  onPacket : Packet → ω → Option (Packet × ω)
  /-- `Client::Write`, with the number of bytes it has written -/
  write : List UInt8 → ω → Int × ω
  /-- what `SendKeepaliveReply` overruns -/
  stack : Stack ω
  onPacket_length : ∀ {p p' w w'}, onPacket p w = some (p', w') →
    p'.pLength = p.pLength ∧ p'.pData.length = p.pData.length

/-- How an event ends: in a fault, or with the value `OnEvent` returns. -/
inductive Outcome (ω : Type)
  | fault (w : ω)
  | returned (ok : Bool) (c : ROMConnection) (w : ω)

/-- What the code makes of a frame: it is flushed and the loop goes on, `OnEvent` returns `false`,
or there is a fault. The packet is what is left in the buffer. -/
inductive Handled (ω : Type)
  | flush (s : Session) (p : Packet) (w : ω)
  | stop (s : Session) (p : Packet) (w : ω)
  | fault (w : ω)

namespace Session

variable {ω : Type}

/-- `ROMConnection::ChecksumAndSend`; the packet it leaves behind is the one it has sent. -/
def checksumAndSend (write : List UInt8 → ω → Int × ω) (s : Session) (p : Packet) (w : ω) :
    Option (Bool × Packet × ω) := do
  let key ← s.key.byteFor p.pKeynum
  let p := p.sealWith key
  let (n, w) := write (p.bytes.take p.pLength.toNat) w
  return (n == p.pLength.toNat, p, w)

/-- `ROMConnection::SendPacket` -/
def sendPacket (write : List UInt8 → ω → Int × ω) (s : Session) (p : Packet) (w : ω) :
    Option (Bool × Session × Packet × ω) := do
  guard (p.pLength.toNat ≥ sizeofPacket)
  let p := { p with
    pFlag := ROM_PACKET_FLAG_ENCRYPTED
    pSeq := s.sequence
    pKeynum := ((s.sequence - 1) % 10).toUInt8 }
  let s := { s with sequence := s.sequence + 1 }
  let (ok, p, w) ← s.checksumAndSend write p w
  return (ok, s, p, w)

/-- `ROMConnection::SendKey`, in the memory of `p`. -/
def sendKey (write : List UInt8 → ω → Int × ω) (s : Session) (p : Packet) (w : ω) :
    Option (Bool × Packet × ω) := do
  guard (sizeofPacket + ROM_KEY_LENGTH ≤ sizeofPacket + p.pData.length)
  let p := { p with
    pLength := 22
    pFlag := ROM_PACKET_FLAG_KEY ||| ROM_PACKET_FLAG_ENCRYPTED
    pSeq := 0
    pKeynum := 0xff
    pData := s.key.bytes ++ p.pData.drop ROM_KEY_LENGTH }
  s.checksumAndSend write p w

/-- `ROMConnection::SendKeepaliveReply`. The packet has no data, but a length of 16: the last four
bytes are those behind it on the stack, which are encrypted in place. -/
def sendKeepaliveReply (h : Host ω) (s : Session) (w : ω) : Option (Bool × ω) := do
  let p : Packet := {
    pLength := 0x10
    pFlag := ROM_PACKET_FLAG_ALIVE_REPLY
    pDataChecksum := 0
    pHeaderChecksum := 0
    pKeynum := 0xff
    pSeq := 0
    pData := le32 (h.stack.bytes w) }
  let (ok, _, w) ← s.checksumAndSend h.write p w
  return (ok, w)

/-- `ROMConnection::CopyKey`; there is no result when the assertion fails. -/
def copyKey (s conn : Session) : Option Session :=
  if conn.haveKey then some { s with key := conn.key, haveKey := true } else none

/-- The key of a key packet, from its data. -/
def installKey (s : Session) (data : List UInt8) (h : data.length = ROM_KEY_LENGTH) : Session :=
  { s with key := ⟨data.map (unmangle 8), by rw [List.length_map, h]⟩, haveKey := true }

/-- The body of the loop of `OnEvent`, from where it has an entire packet. -/
def handlePacket (h : Host ω) (s : Session) (p : Packet) (w : ω) : Handled ω :=
  let w := h.onRawPacketReceived p w
  if p.pFlag &&& ROM_PACKET_FLAG_KEY ≠ 0 then
    -- the key is installed before the callback is told of it
    if hlen : p.pData.length = ROM_KEY_LENGTH then
      let s := s.installKey p.pData hlen
      match h.onNewKey s w with
      | none => .fault w
      | some w => .flush s p w
    else .flush s p w
  else if ¬ p.headerChecksumOK then .stop s p w
  else if p.pFlag &&& ROM_PACKET_FLAG_ALIVE_REQUEST ≠ 0 then
    match s.sendKeepaliveReply h w with
    | none => .fault w
    | some (ok, w) =>
        -- the reply has been written, and with it four bytes that are not of the packet
        if ¬ h.stack.spare w then .fault w
        else if ok then .flush s p w
        else .stop s p w
  -- what is not encrypted, and what comes before any key, is ignored
  else if p.pFlag ≠ ROM_PACKET_FLAG_ENCRYPTED then .flush s p w
  else if ¬ s.haveKey then .flush s p w
  else
    match s.key.byteFor p.pKeynum with
    | none => .fault w
    | some key =>
        let p := p.decrypt key
        if ¬ p.dataChecksumOK key then .stop s p w
        else
          match h.onPacket p w with
          | none => .fault w
          | some (p, w) => .flush s p w

end Session

namespace ROMConnection

variable {ω : Type}

/-- A connection as the constructor leaves it. -/
def fresh : ROMConnection where
  key := .zero
  haveKey := false
  sequence := 1
  buffer := .empty

/-- The loop of `OnEvent`. -/
def turn (h : Host ω) (st : ROMConnection × ω) :
    Loop.Turn (ROMConnection × ω) (Outcome ω) :=
  let (c, w) := st
  match c.buffer.peekPacket with
  | none => .leave (.returned true c w)
  | some p =>
      if p.pLength.toNat < sizeofPacket ∨ p.pLength.toNat ≥ s_MaxPacketSize then
        .leave (.returned false c w)
      else if ¬ c.buffer.canPeek p.pLength.toNat then .leave (.returned true c w)
      else
        match c.handlePacket h p.frame w with
        | .fault w => .leave (.fault w)
        | .stop s p w => .leave (.returned false ⟨s, c.buffer.overwrite p.bytes⟩ w)
        | .flush s p w =>
            match (c.buffer.overwrite p.bytes).flushData p.pLength.toNat with
            | none => .leave (.fault w)
            | some b => .again (⟨s, b⟩, w)

/-- `ROMConnection::OnEvent`, where `Read` returns `packet`, or something not positive when that is
empty. The fuel is enough for the loop (`onEvent_eq`). -/
def onEvent (h : Host ω) (c : ROMConnection) (packet : List UInt8) (w : ω) : Outcome ω :=
  if packet.length = 0 then .returned false c w
  else
    match c.buffer.addData packet with
    | none => .returned false c w
    | some b =>
        (Loop.run (turn h) (b.data.length + 1) ({ c with buffer := b }, w)).getD (.fault w)

end ROMConnection

end OpenRom
