import OpenRom.Library.Object
import OpenRom.Connection.Frames

/-!
# The memory that a send touches

`ChecksumAndSend` in the object that its caller provides: what it sums, encrypts and writes are
loads and stores that have to lie inside (`Session.checksumAndSendIn`). They do exactly when
`p_length` is no more than the object (`checksumAndSendIn_bytes`). `SendPacket` and `SendKey` keep
to that, `SendKeepaliveReply` does not: its object is a header, its length is sixteen.
-/

set_option autoImplicit false

namespace OpenRom

open Object

/-- `p_length - sizeof(struct ROM::Packet)`, which is computed in 64 bits. -/
def dataCount (length : UInt32) : Nat := (length.toUInt64 - UInt64.ofNat sizeofPacket).toNat

theorem dataCount_eq {length : UInt32} (h : sizeofPacket ≤ length.toNat) :
    dataCount length = length.toNat - sizeofPacket := by
  have hle : UInt64.ofNat sizeofPacket ≤ length.toUInt64 := by
    rw [UInt64.le_iff_toNat_le]
    simpa [sizeofPacket] using h
  rw [dataCount, UInt64.toNat_sub_of_le _ _ hle]
  simp [sizeofPacket]

/-- `ROMConnection::ChecksumAndSend` in the memory of an object: what it hands to `Write`, and the
object afterwards. There is no result when a byte lies outside the object, or the key. -/
def Session.checksumAndSendIn (s : Session) (object : List UInt8) :
    Option (List UInt8 × List UInt8) := do
  let keynum ← load object 7
  let key ← s.key.byteFor keynum
  let object ← store 6 0 object
  let object ← store 5 0 object
  let length := ofLe32 (object.take 4)
  let hdrCksum ← foldTo (· + ·) 0 object 11
  let dataCksum ← foldTo (· + ·) 0 object length.toNat
  let dataCksum := dataCksum + key
  let object ← store 6 (hdrCksum + dataCksum) object
  let object ← store 5 dataCksum object
  let object ← updateFrom (mangle key) sizeofPacket object (dataCount length)
  guard (length.toNat ≤ object.length)
  return (object.take length.toNat, object)

/-! ## A packet as an object -/

namespace Packet

variable (p : Packet)

theorem bytes_eq_cons : ∃ l₀ l₁ l₂ l₃ s₀ s₁ s₂ s₃,
    le32 p.pLength = [l₀, l₁, l₂, l₃] ∧ ∀ dck hck data,
      ({ p with pDataChecksum := dck, pHeaderChecksum := hck, pData := data } : Packet).bytes =
        [l₀, l₁, l₂, l₃, p.pFlag, dck, hck, p.pKeynum, s₀, s₁, s₂, s₃] ++ data := by
  obtain ⟨l₀, l₁, l₂, l₃, hl⟩ := exists_of_length_four (length_le32 p.pLength)
  obtain ⟨s₀, s₁, s₂, s₃, hs⟩ := exists_of_length_four (length_le32 p.pSeq)
  exact ⟨l₀, l₁, l₂, l₃, s₀, s₁, s₂, s₃, hl, fun _ _ _ => by simp [bytes, header, hl, hs]⟩

theorem load_keynum : load p.bytes 7 = some p.pKeynum := by
  obtain ⟨l₀, l₁, l₂, l₃, s₀, s₁, s₂, s₃, -, hbytes⟩ := p.bytes_eq_cons
  exact congrArg (load · 7) (hbytes p.pDataChecksum p.pHeaderChecksum p.pData)

theorem take_length : ofLe32 (p.bytes.take 4) = p.pLength := by
  obtain ⟨l₀, l₁, l₂, l₃, s₀, s₁, s₂, s₃, hl, hbytes⟩ := p.bytes_eq_cons
  have htake := congrArg (List.take 4) (hbytes p.pDataChecksum p.pHeaderChecksum p.pData)
  exact (congrArg ofLe32 (htake.trans hl.symm)).trans (ofLe32_le32 p.pLength)

theorem store_headerChecksum (hck : UInt8) :
    store 6 hck p.bytes = some ({ p with pHeaderChecksum := hck } : Packet).bytes := by
  obtain ⟨l₀, l₁, l₂, l₃, s₀, s₁, s₂, s₃, -, hbytes⟩ := p.bytes_eq_cons
  rw [show p.bytes = _ from hbytes p.pDataChecksum p.pHeaderChecksum p.pData,
    hbytes p.pDataChecksum hck p.pData]
  simp [store]

theorem store_dataChecksum (dck : UInt8) :
    store 5 dck p.bytes = some ({ p with pDataChecksum := dck } : Packet).bytes := by
  obtain ⟨l₀, l₁, l₂, l₃, s₀, s₁, s₂, s₃, -, hbytes⟩ := p.bytes_eq_cons
  rw [show p.bytes = _ from hbytes p.pDataChecksum p.pHeaderChecksum p.pData,
    hbytes dck p.pHeaderChecksum p.pData]
  simp [store]

/-- The loop over `p_data`. -/
theorem updateFrom_data (f : UInt8 → UInt8) (n : Nat) :
    updateFrom f sizeofPacket p.bytes n =
      if n ≤ p.pData.length then
        some ({ p with pData := (p.pData.take n).map f ++ p.pData.drop n } : Packet).bytes
      else none := by
  have hheader : (p.header ++ p.pData).take sizeofPacket = p.header ∧
      (p.header ++ p.pData).drop sizeofPacket = p.pData :=
    List.append_inj (List.take_append_drop _ _) (by simp [sizeofPacket])
  have hlen := p.length_bytes
  rw [updateFrom_eq f (by omega), hlen]
  by_cases hn : n ≤ p.pData.length
  · rw [if_pos hn, if_pos (by omega), updated, ← List.drop_drop, bytes, hheader.1, hheader.2]
    rfl
  · rw [if_neg hn, if_neg (by omega)]

end Packet

/-- The send stays in its object when the length does, and then it hands the sealed packet to
`Write`. -/
theorem Session.checksumAndSendIn_bytes (s : Session) {p : Packet}
    (h : sizeofPacket ≤ p.pLength.toNat) :
    s.checksumAndSendIn p.bytes =
      if p.pLength.toNat ≤ p.bytes.length then
        (s.key.byteFor p.pKeynum).map fun key =>
          ((p.sealWith key).bytes.take p.pLength.toNat, (p.sealWith key).bytes)
      else none := by
  have hlen := p.length_bytes
  unfold checksumAndSendIn
  rw [p.load_keynum]
  cases hkey : s.key.byteFor p.pKeynum with
  | none => simp [hkey]
  | some key =>
      simp only [Option.bind_eq_bind, Option.bind_some, hkey, Packet.store_headerChecksum,
        Packet.store_dataChecksum, Packet.take_length, foldTo_eq, Packet.length_bytes,
        dataCount_eq h]
      rw [if_pos (by unfold sizeofPacket; omega)]
      by_cases hle : p.pLength.toNat ≤ sizeofPacket + p.pData.length
      · rw [if_pos hle, if_pos hle]
        -- the sums are taken, and the stores follow
        simp only [Option.bind_some, Packet.updateFrom_data]
        rw [if_pos (by omega), Option.bind_some, guard, if_pos]
        · rfl
        · show p.pLength.toNat ≤ (p.sealWith key).bytes.length
          rw [Packet.length_bytes, Packet.length_sealWith]
          exact hle
      · rw [if_neg hle, if_neg hle]
        rfl

theorem Session.isSome_checksumAndSendIn (s : Session) {p : Packet} {key : UInt8}
    (hkey : s.key.byteFor p.pKeynum = some key) (h : sizeofPacket ≤ p.pLength.toNat)
    (hinside : p.pLength.toNat ≤ p.bytes.length) :
    (s.checksumAndSendIn p.bytes).isSome = true := by
  rw [s.checksumAndSendIn_bytes h, if_pos hinside, hkey]
  rfl

/-! ## The send paths -/

/-- What `SendPacket` makes of the header. -/
def Session.dataHeader (s : Session) (p : Packet) : Packet :=
  { p with
    pFlag := ROM_PACKET_FLAG_ENCRYPTED
    pSeq := s.sequence
    pKeynum := ((s.sequence - 1) % 10).toUInt8 }

/-- What `SendKey` makes of the memory it is given. -/
def Session.keyMemory (s : Session) (p : Packet) : Packet :=
  { p with
    pLength := 22
    pFlag := ROM_PACKET_FLAG_KEY ||| ROM_PACKET_FLAG_ENCRYPTED
    pSeq := 0
    pKeynum := 0xff
    pData := s.key.bytes ++ p.pData.drop ROM_KEY_LENGTH }

/-- The packet of `SendKeepaliveReply`, which is a header and no data. -/
def keepaliveReplyPacket : Packet where
  pLength := 0x10
  pFlag := ROM_PACKET_FLAG_ALIVE_REPLY
  pDataChecksum := 0
  pHeaderChecksum := 0
  pKeynum := 0xff
  pSeq := 0
  pData := []

/-- A call of a send path: of `SendPacket` or `SendKey` with the memory that the caller provides, or
of `SendKeepaliveReply`, which provides its own. -/
inductive Send
  | packet (s : Session) (p : Packet)
  | key (s : Session) (p : Packet)
  | keepaliveReply -- its key byte is the fixed one, in every session
  deriving DecidableEq, Repr

namespace Send

/-- What the callers of the first two promise: a frame that was received, and an array of 64
bytes. -/
def Proper : Send → Prop
  | packet _ p => p.pLength.toNat = sizeofPacket + p.pData.length
  | key _ p => p.pData.length = 64 - sizeofPacket
  | keepaliveReply => True

/-- All that `ChecksumAndSend` sums, encrypts and writes lies inside the object that it is called
with. -/
def Confined : Send → Prop
  | packet s p => (s.checksumAndSendIn (s.dataHeader p).bytes).isSome = true
  | key s p => (s.checksumAndSendIn (s.keyMemory p).bytes).isSome = true
  | keepaliveReply => ∀ s : Session,
      (s.checksumAndSendIn keepaliveReplyPacket.bytes).isSome = true

/-- Whatever the socket and the memory around the object are, the call writes the frame. -/
def Writes (frame : List UInt8) : Send → Prop
  | packet s p => ∀ {ω : Type} (write : List UInt8 → ω → Int × ω) (w : ω),
      (s.sendPacket write p w).map (·.2.2.2) = some (write frame w).2
  | key s p => ∀ {ω : Type} (write : List UInt8 → ω → Int × ω) (w : ω),
      (s.sendKey write p w).map (·.2.2) = some (write frame w).2
  | keepaliveReply => ∀ {ω : Type} (h : Host ω) (s : Session) (w : ω),
      (s.sendKeepaliveReply h w).map (·.2) = some (h.write frame w).2

/-- The call stays inside its object, and what it writes depends on the session and what it was
given only. -/
def Good (c : Send) : Prop := c.Confined ∧ ∃ frame, c.Writes frame

/-- A received packet, whose length is that of its data, is sent from inside. -/
theorem good_packet (s : Session) {p : Packet} (h : (packet s p).Proper) : (packet s p).Good := by
  have hlen : p.pLength.toNat = sizeofPacket + p.pData.length := h
  have hguard : sizeofPacket ≤ p.pLength.toNat := by omega
  have hinside : p.pLength.toNat ≤ (s.dataHeader p).bytes.length := by
    rw [Packet.length_bytes]
    exact Nat.le_of_eq hlen
  obtain ⟨key, hkey⟩ := s.key.byteFor_sequence (s.sequence - 1)
  refine ⟨s.isSome_checksumAndSendIn hkey hguard hinside,
    ((s.dataHeader p).sealWith key).bytes.take p.pLength.toNat, fun {ω} write w => ?_⟩
  simp only [Session.sendPacket, guard, ge_iff_le, if_pos hguard, Session.checksumAndSend, hkey,
    Option.bind_eq_bind]
  rfl

/-- An array of 64 bytes has space for the key. -/
theorem good_key (s : Session) {p : Packet} (h : (key s p).Proper) : (key s p).Good := by
  have hlen : p.pData.length = 64 - sizeofPacket := h
  have hguard : sizeofPacket + ROM_KEY_LENGTH ≤ sizeofPacket + p.pData.length := by
    rw [hlen]
    decide
  have hinside : (22 : UInt32).toNat ≤ (s.keyMemory p).bytes.length := by
    rw [Packet.length_bytes, Session.keyMemory, List.length_append, List.length_drop,
      s.key.length_bytes, hlen]
    decide
  have hheader : sizeofPacket ≤ (22 : UInt32).toNat := by decide
  have hkey : s.key.byteFor (s.keyMemory p).pKeynum = some 8 := rfl
  refine ⟨s.isSome_checksumAndSendIn hkey hheader hinside,
    ((s.keyMemory p).sealWith 8).bytes.take (22 : UInt32).toNat, fun {ω} write w => ?_⟩
  simp only [Session.sendKey, guard, if_pos hguard, Session.checksumAndSend, Option.bind_eq_bind]
  rfl

/-- `SendKeepaliveReply` leaves its object in every state. -/
theorem checksumAndSendIn_keepaliveReplyPacket (s : Session) :
    s.checksumAndSendIn keepaliveReplyPacket.bytes = none := by
  rw [s.checksumAndSendIn_bytes (by decide), if_neg (by decide)]

theorem not_good_keepaliveReply : ¬ keepaliveReply.Good := by
  intro hgood
  have hsome := hgood.1 ⟨.zero, false, 1⟩
  rw [checksumAndSendIn_keepaliveReplyPacket] at hsome
  cases hsome

theorem good_iff {c : Send} (h : c.Proper) : c.Good ↔ c ≠ keepaliveReply := by
  cases c with
  | packet s p => exact iff_of_true (good_packet s h) nofun
  | key s p => exact iff_of_true (good_key s h) nofun
  | keepaliveReply => exact iff_of_false not_good_keepaliveReply fun hne => hne rfl

end Send

end OpenRom
