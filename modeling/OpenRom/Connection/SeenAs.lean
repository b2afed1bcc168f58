import OpenRom.Connection.Connection

/-!
# Hosts that are the same but for what they keep

A host whose world holds more than another's, and that is the same host where both can be seen
(`Host.SeenAs`). A connection does the same for both (`ROMConnection.onEvent_seenAs`).
-/

set_option autoImplicit false

namespace OpenRom

variable {ω : Type}

/-- How an event ends, with a function on the world. -/
def Outcome.map {ω' : Type} (f : ω → ω') : Outcome ω → Outcome ω'
  | .fault w => .fault (f w)
  | .returned ok c w => .returned ok c (f w)

def Handled.map {ω' : Type} (f : ω → ω') : Handled ω → Handled ω'
  | .flush s p w => .flush s p (f w)
  | .stop s p w => .stop s p (f w)
  | .fault w => .fault (f w)

/-- Seen through a function on its world, `h'` is the host `h`. -/
structure Host.SeenAs {ω' : Type} (h' : Host ω') (f : ω' → ω) (h : Host ω) : Prop where
  onRawPacketReceived : ∀ p w, h.onRawPacketReceived p (f w) = f (h'.onRawPacketReceived p w)
  onNewKey : ∀ s w, h.onNewKey s (f w) = (h'.onNewKey s w).map f
  onPacket : ∀ p w, h.onPacket p (f w) = (h'.onPacket p w).map fun r => (r.1, f r.2)
  write : ∀ bs w, h.write bs (f w) = ((h'.write bs w).1, f (h'.write bs w).2)
  stackBytes : ∀ w, h.stack.bytes (f w) = h'.stack.bytes w
  stackSpare : ∀ w, h.stack.spare (f w) = h'.stack.spare w

section SeenAs

variable {ω' : Type} {h' : Host ω'} {f : ω' → ω} {h : Host ω} (hs : h'.SeenAs f h)

include hs

theorem Session.sendKeepaliveReply_seenAs (s : Session) (w : ω') :
    s.sendKeepaliveReply h (f w) = (s.sendKeepaliveReply h' w).map fun r => (r.1, f r.2) := by
  simp [sendKeepaliveReply, checksumAndSend, Key.byteFor, hs.write, hs.stackBytes]

theorem Session.handlePacket_seenAs (s : Session) (p : Packet) (w : ω') :
    s.handlePacket h p (f w) = (s.handlePacket h' p w).map f := by
  simp only [handlePacket, hs.onRawPacketReceived, sendKeepaliveReply_seenAs hs, hs.onNewKey,
    hs.onPacket]
  generalize h'.onRawPacketReceived p w = w
  -- the tests do not look at the world, and each call is seen as that of the other host
  by_cases hkey : p.pFlag &&& ROM_PACKET_FLAG_KEY ≠ 0
  · rw [if_pos hkey, if_pos hkey]
    by_cases hlen : p.pData.length = ROM_KEY_LENGTH
    · rw [dif_pos hlen, dif_pos hlen]
      cases h'.onNewKey (s.installKey p.pData hlen) w <;> rfl
    · rw [dif_neg hlen, dif_neg hlen]
      rfl
  rw [if_neg hkey, if_neg hkey]
  by_cases hheader : ¬ p.headerChecksumOK
  · rw [if_pos hheader, if_pos hheader]
    rfl
  rw [if_neg hheader, if_neg hheader]
  by_cases halive : p.pFlag &&& ROM_PACKET_FLAG_ALIVE_REQUEST ≠ 0
  · rw [if_pos halive, if_pos halive]
    rcases s.sendKeepaliveReply h' w with _ | ⟨ok, w⟩
    · rfl
    · simp only [Option.map_some, hs.stackSpare]
      split
      · rfl
      · cases ok <;> rfl
  rw [if_neg halive, if_neg halive]
  by_cases hflag : p.pFlag ≠ ROM_PACKET_FLAG_ENCRYPTED
  · rw [if_pos hflag, if_pos hflag]
    rfl
  rw [if_neg hflag, if_neg hflag]
  by_cases hhave : ¬ s.haveKey
  · rw [if_pos hhave, if_pos hhave]
    rfl
  rw [if_neg hhave, if_neg hhave]
  cases s.key.byteFor p.pKeynum with
  | none => rfl
  | some key =>
      by_cases hdata : ¬ (p.decrypt key).dataChecksumOK key
      · simp only [if_pos hdata]
        rfl
      · simp only [if_neg hdata]
        cases h'.onPacket (p.decrypt key) w <;> rfl

theorem ROMConnection.turn_seenAs (st : ROMConnection × ω') :
    turn h (st.1, f st.2) = (turn h' st).map (fun st => (st.1, f st.2)) (Outcome.map f) := by
  obtain ⟨c, w⟩ := st
  simp only [turn]
  cases c.buffer.peekPacket with
  | none => rfl
  | some p =>
      by_cases hbound : p.pLength.toNat < sizeofPacket ∨ p.pLength.toNat ≥ s_MaxPacketSize
      · simp only [if_pos hbound]
        rfl
      by_cases hpeek : ¬ c.buffer.canPeek p.pLength.toNat
      · simp only [if_neg hbound, if_pos hpeek]
        rfl
      simp only [if_neg hbound, if_neg hpeek, Session.handlePacket_seenAs hs c.toSession p.frame w]
      cases c.handlePacket h' p.frame w with
      | fault w => rfl
      | stop s p w => rfl
      | flush s p' w =>
          simp only [Handled.map]
          cases (c.buffer.overwrite p'.bytes).flushData p'.pLength.toNat <;> rfl

/-- A connection does the same for both hosts. -/
theorem ROMConnection.onEvent_seenAs (c : ROMConnection) (packet : List UInt8) (w : ω') :
    c.onEvent h packet (f w) = (c.onEvent h' packet w).map f := by
  by_cases hempty : packet.length = 0
  · rw [onEvent, onEvent, if_pos hempty, if_pos hempty]
    rfl
  rw [onEvent, onEvent, if_neg hempty, if_neg hempty]
  cases c.buffer.addData packet with
  | none => rfl
  | some b =>
      have hrun := Loop.run_map (turn_seenAs hs) (b.data.length + 1) ({ c with buffer := b }, w)
      simp only [hrun]
      cases Loop.run (turn h') (b.data.length + 1) ({ c with buffer := b }, w) <;> rfl

end SeenAs

end OpenRom
