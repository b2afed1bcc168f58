import OpenRom.Connection.Connection

/-!
# Decisions about a frame

What `OnEvent` decides to do with a frame depends on the frame, the key and `m_HaveKey` only. A
`Course` is one of its branches; `Session.handlePacket_course` says what the code does in each.
-/

set_option autoImplicit false

namespace OpenRom

variable {ω : Type}

/-- The branches of the loop of `OnEvent`, once an entire packet is there. -/
inductive Course
  | newKey
  | badKeyLength
  | badHeader
  | keepalive
  | notEncrypted
  | noKey
  | outsideKey -- `m_Key` is read behind its end
  | badData (key : UInt8)
  | deliver (key : UInt8)
  deriving DecidableEq, Repr

/-- The frame is one that `OnEvent` answers with `SendKeepaliveReply`. -/
def Packet.IsKeepaliveRequest (f : Packet) : Prop :=
  ¬ (f.pFlag &&& ROM_PACKET_FLAG_KEY ≠ 0) ∧ f.headerChecksumOK = true ∧
    f.pFlag &&& ROM_PACKET_FLAG_ALIVE_REQUEST ≠ 0

namespace Session

def course (s : Session) (f : Packet) : Course :=
  if f.pFlag &&& ROM_PACKET_FLAG_KEY ≠ 0 then
    if f.pData.length = ROM_KEY_LENGTH then .newKey else .badKeyLength
  else if ¬ f.headerChecksumOK then .badHeader
  else if f.pFlag &&& ROM_PACKET_FLAG_ALIVE_REQUEST ≠ 0 then .keepalive
  else if f.pFlag ≠ ROM_PACKET_FLAG_ENCRYPTED then .notEncrypted
  else if ¬ s.haveKey then .noKey
  else
    match s.key.byteFor f.pKeynum with
    | none => .outsideKey
    | some key => if ¬ (f.decrypt key).dataChecksumOK key then .badData key else .deliver key

/-- The code on each of its branches. -/
theorem handlePacket_course (h : Host ω) (s : Session) (f : Packet) (w : ω) :
    match s.course f with
    | .newKey => ∃ hlen, s.handlePacket h f w =
        match h.onNewKey (s.installKey f.pData hlen) (h.onRawPacketReceived f w) with
        | none => .fault (h.onRawPacketReceived f w)
        | some w' => .flush (s.installKey f.pData hlen) f w'
    | .badKeyLength | .notEncrypted | .noKey =>
        s.handlePacket h f w = .flush s f (h.onRawPacketReceived f w)
    | .badHeader => s.handlePacket h f w = .stop s f (h.onRawPacketReceived f w)
    | .keepalive => s.handlePacket h f w =
        match s.sendKeepaliveReply h (h.onRawPacketReceived f w) with
        | none => .fault (h.onRawPacketReceived f w)
        | some (ok, w') =>
            if ¬ h.stack.spare w' then .fault w' else if ok then .flush s f w' else .stop s f w'
    | .outsideKey => s.handlePacket h f w = .fault (h.onRawPacketReceived f w)
    | .badData key =>
        s.handlePacket h f w = .stop s (f.decrypt key) (h.onRawPacketReceived f w)
    | .deliver key => s.handlePacket h f w =
        match h.onPacket (f.decrypt key) (h.onRawPacketReceived f w) with
        | none => .fault (h.onRawPacketReceived f w)
        | some (p, w') => .flush s p w' := by
  unfold course
  simp only [handlePacket]
  -- the tests in the order of the code
  by_cases hkey : f.pFlag &&& ROM_PACKET_FLAG_KEY ≠ 0
  · rw [if_pos hkey, if_pos hkey]
    by_cases hlen : f.pData.length = ROM_KEY_LENGTH
    · rw [if_pos hlen, dif_pos hlen]
      exact ⟨hlen, rfl⟩
    · rw [if_neg hlen, dif_neg hlen]
  rw [if_neg hkey, if_neg hkey]
  by_cases hheader : ¬ f.headerChecksumOK
  · rw [if_pos hheader, if_pos hheader]
  rw [if_neg hheader, if_neg hheader]
  -- whether the reply ends the program is the same on both sides
  by_cases halive : f.pFlag &&& ROM_PACKET_FLAG_ALIVE_REQUEST ≠ 0
  · rcases s.sendKeepaliveReply h (h.onRawPacketReceived f w) with _ | ⟨ok, w'⟩ <;>
      simp only [if_pos halive]
  rw [if_neg halive, if_neg halive]
  by_cases hencrypted : f.pFlag ≠ ROM_PACKET_FLAG_ENCRYPTED
  · rw [if_pos hencrypted, if_pos hencrypted]
  rw [if_neg hencrypted, if_neg hencrypted]
  by_cases hhave : ¬ s.haveKey
  · rw [if_pos hhave, if_pos hhave]
  rw [if_neg hhave, if_neg hhave]
  cases s.key.byteFor f.pKeynum with
  | none => rfl
  | some key =>
      by_cases hdata : ¬ (f.decrypt key).dataChecksumOK key
      · simp only [if_pos hdata]
      · rcases hon : h.onPacket (f.decrypt key) (h.onRawPacketReceived f w) with _ | ⟨p, w'⟩ <;>
          simp only [if_neg hdata, hon]

end Session

/-! ## The key number -/

/-- The key number is that of a byte of the key, or the one that stands for the fixed byte. -/
def Packet.Numbered (f : Packet) : Prop :=
  f.pKeynum = 0xff ∨ f.pKeynum.toNat < ROM_KEY_LENGTH

theorem Key.byteFor_eq_none_iff {k : Key} {f : Packet} :
    k.byteFor f.pKeynum = none ↔ ¬ f.Numbered := by
  unfold Key.byteFor Packet.Numbered
  by_cases hfixed : f.pKeynum = 0xff
  · rw [if_neg fun hne => hne hfixed]
    exact iff_of_false nofun fun hnot => hnot (Or.inl hfixed)
  · rw [if_pos hfixed, List.getElem?_eq_none_iff, k.length_bytes, ← Nat.not_lt]
    exact not_congr (or_iff_right hfixed).symm

/-- The frame gets past every check that comes before the key is read. -/
def Packet.Readable (f : Packet) : Prop :=
  f.pFlag = ROM_PACKET_FLAG_ENCRYPTED ∧ f.headerChecksumOK = true

namespace Session

/-- The index at which `m_Key` is read for the frame, if it is. -/
def lookup (s : Session) (f : Packet) : Option Nat :=
  match s.course f with
  | .outsideKey | .badData _ | .deliver _ =>
      if f.pKeynum ≠ 0xff then some f.pKeynum.toNat else none
  | _ => none

theorem course_of_readable {s : Session} {f : Packet} (hf : f.Readable) (hhave : s.haveKey = true) :
    s.course f =
      match s.key.byteFor f.pKeynum with
      | none => .outsideKey
      | some key =>
          if ¬ (f.decrypt key).dataChecksumOK key then .badData key else .deliver key := by
  -- none of the checks that come first concerns the frame
  have hnotKey : ¬ (f.pFlag &&& ROM_PACKET_FLAG_KEY ≠ 0) := by rw [hf.1]; decide
  have hnotAlive : ¬ (f.pFlag &&& ROM_PACKET_FLAG_ALIVE_REQUEST ≠ 0) := by rw [hf.1]; decide
  unfold course
  rw [if_neg hnotKey, if_neg (by simp [hf.2]), if_neg hnotAlive, if_neg (by simp [hf.1]),
    if_neg (by simp [hhave])]

theorem lookup_of_readable {s : Session} {f : Packet} (hf : f.Readable) (hhave : s.haveKey = true) :
    s.lookup f = if f.pKeynum ≠ 0xff then some f.pKeynum.toNat else none := by
  unfold lookup
  rw [course_of_readable hf hhave]
  cases s.key.byteFor f.pKeynum with
  | none => rfl
  | some key =>
      by_cases hdata : ¬ (f.decrypt key).dataChecksumOK key
      · simp only [if_pos hdata]
      · simp only [if_neg hdata]

/-- Otherwise the frame is dealt with before the key is read. -/
theorem course_of_not_readable {s : Session} {f : Packet}
    (hnot : ¬ (f.Readable ∧ s.haveKey = true)) :
    s.course f = .newKey ∨ s.course f = .badKeyLength ∨ s.course f = .badHeader ∨
      s.course f = .keepalive ∨ s.course f = .notEncrypted ∨ s.course f = .noKey := by
  unfold course
  by_cases hkey : f.pFlag &&& ROM_PACKET_FLAG_KEY ≠ 0
  · by_cases hlen : f.pData.length = ROM_KEY_LENGTH
    · simp [hkey, hlen]
    · simp [hkey, hlen]
  by_cases hheader : ¬ f.headerChecksumOK
  · simp [hkey, hheader]
  by_cases halive : f.pFlag &&& ROM_PACKET_FLAG_ALIVE_REQUEST ≠ 0
  · simp [hkey, hheader, halive]
  by_cases hencrypted : f.pFlag ≠ ROM_PACKET_FLAG_ENCRYPTED
  · simp [hkey, hheader, halive, hencrypted]
  by_cases hhave : ¬ s.haveKey
  · rw [if_neg hkey, if_neg hheader, if_neg halive, if_neg hencrypted, if_pos hhave]
    simp
  · exact absurd ⟨⟨Decidable.not_not.1 hencrypted, Decidable.not_not.1 hheader⟩,
      Decidable.not_not.1 hhave⟩ hnot

theorem lookup_of_not_readable {s : Session} {f : Packet}
    (hnot : ¬ (f.Readable ∧ s.haveKey = true)) : s.lookup f = none := by
  unfold lookup
  rcases course_of_not_readable hnot with h | h | h | h | h | h <;> rw [h]

/-- The key is read for frames that get past the checks, once there is one. -/
theorem lookup_eq_some_iff {s : Session} {f : Packet} {i : Nat} :
    s.lookup f = some i ↔
      f.Readable ∧ s.haveKey = true ∧ f.pKeynum ≠ 0xff ∧ f.pKeynum.toNat = i := by
  by_cases hreads : f.Readable ∧ s.haveKey = true
  · rw [lookup_of_readable hreads.1 hreads.2]
    by_cases hfixed : f.pKeynum ≠ 0xff
    · rw [if_pos hfixed, Option.some_inj]
      exact ⟨fun hi => ⟨hreads.1, hreads.2, hfixed, hi⟩, fun hall => hall.2.2.2⟩
    · rw [if_neg hfixed]
      exact iff_of_false nofun fun hall => hfixed hall.2.2.1
  · rw [lookup_of_not_readable hreads]
    exact iff_of_false nofun fun hall => hreads ⟨hall.1, hall.2.1⟩

/-! ## Frames that make the connection act -/

theorem course_eq_newKey_iff {s : Session} {f : Packet} :
    s.course f = .newKey ↔
      f.pFlag &&& ROM_PACKET_FLAG_KEY ≠ 0 ∧ f.pData.length = ROM_KEY_LENGTH := by
  unfold course
  by_cases hkey : f.pFlag &&& ROM_PACKET_FLAG_KEY ≠ 0
  · rw [if_pos hkey]
    by_cases hlen : f.pData.length = ROM_KEY_LENGTH
    · simp [hkey, hlen]
    · simp [hlen]
  · rw [if_neg hkey]
    refine iff_of_false ?_ fun hall => hkey hall.1
    -- no other branch installs a key
    repeat' split
    all_goals nofun

theorem course_eq_keepalive_iff {s : Session} {f : Packet} :
    s.course f = .keepalive ↔ f.IsKeepaliveRequest := by
  unfold course Packet.IsKeepaliveRequest
  by_cases hkey : f.pFlag &&& ROM_PACKET_FLAG_KEY ≠ 0
  · rw [if_pos hkey]
    refine iff_of_false ?_ fun hall => hall.1 hkey
    split <;> nofun
  rw [if_neg hkey]
  by_cases hheader : ¬ f.headerChecksumOK
  · rw [if_pos hheader]
    exact iff_of_false nofun fun hall => hheader hall.2.1
  rw [if_neg hheader]
  by_cases halive : f.pFlag &&& ROM_PACKET_FLAG_ALIVE_REQUEST ≠ 0
  · rw [if_pos halive]
    exact iff_of_true rfl ⟨hkey, Decidable.not_not.1 hheader, halive⟩
  · rw [if_neg halive]
    refine iff_of_false ?_ fun hall => halive hall.2.2
    repeat' split
    all_goals nofun

/-- What is handed to `OnPacket` has passed both checks. -/
theorem course_eq_deliver {s : Session} {f : Packet} {key : UInt8}
    (hc : s.course f = .deliver key) :
    f.Readable ∧ s.key.byteFor f.pKeynum = some key ∧
      (f.decrypt key).dataChecksumOK key = true := by
  by_cases hreads : f.Readable ∧ s.haveKey = true
  · rw [course_of_readable hreads.1 hreads.2] at hc
    cases hbyte : s.key.byteFor f.pKeynum with
    | none =>
        rw [hbyte] at hc
        cases hc
    | some key' =>
        simp only [hbyte] at hc
        by_cases hdata : ¬ (f.decrypt key').dataChecksumOK key'
        · rw [if_pos hdata] at hc
          cases hc
        · rw [if_neg hdata] at hc
          cases hc
          exact ⟨hreads.1, rfl, Decidable.not_not.1 hdata⟩
  · rcases course_of_not_readable hreads with h | h | h | h | h | h <;> rw [h] at hc <;> cases hc

end Session

end OpenRom
