import OpenRom.Connection.Course
import OpenRom.Connection.Delivery

/-!
# Corrupted frames

A data frame of which one byte has changed on the way, outside its length. Both checksums are sums
of bytes, and decrypting a byte is injective, so one of them no longer agrees with the bytes it
covers: the connection gives up, or takes the frame off its buffer without a call of `OnPacket`.
-/

set_option autoImplicit false

namespace OpenRom

open Reassembly

variable {ω : Type}

/-! ## One byte of a sum -/

/-- The sum of bytes of which one is replaced. -/
theorem sumBytes_set {bs : List UInt8} {i : Nat} {old b : UInt8} (hold : bs[i]? = some old) :
    sumBytes (bs.set i b) + old = sumBytes bs + b := by
  induction bs generalizing i with
  | nil => cases hold
  | cons c cs ih =>
      cases i with
      | zero =>
          cases hold
          rw [List.set_cons_zero, sumBytes_cons, sumBytes_cons]
          grind
      | succ i =>
          have hsum := ih hold
          rw [List.set_cons_succ, sumBytes_cons, sumBytes_cons]
          grind

theorem sumBytes_set_ne {bs : List UInt8} {i : Nat} {old b : UInt8} (hold : bs[i]? = some old)
    (hne : b ≠ old) : sumBytes (bs.set i b) ≠ sumBytes bs := by
  intro hsame
  have hsum := sumBytes_set (b := b) hold
  rw [hsame] at hsum
  exact hne (by grind)

theorem unmangle_injective {key b c : UInt8} (h : unmangle key b = unmangle key c) : b = c := by
  have hadd : b + key = c + key := UInt8.xor_right_inj key |>.1 (by
    simpa only [unmangle, UInt8.xor_comm] using h)
  grind

/-! ## The fields of a packet in its bytes -/

namespace Packet

section Fields

variable (p : Packet)

theorem getElem_bytes_flag : p.bytes[4]? = some p.pFlag := by
  simp [bytes, header]

theorem getElem_bytes_dataChecksum : p.bytes[5]? = some p.pDataChecksum := by
  simp [bytes, header, List.getElem?_append]

theorem getElem_bytes_headerChecksum : p.bytes[6]? = some p.pHeaderChecksum := by
  simp [bytes, header, List.getElem?_append]

theorem getElem_bytes_keynum : p.bytes[7]? = some p.pKeynum := by
  simp [bytes, header, List.getElem?_append]

theorem take_bytes_length : p.bytes.take 4 = le32 p.pLength := by
  simp [bytes, header]

theorem take_bytes_header : p.bytes.take 12 = p.header := by
  rw [bytes, List.take_left' p.length_header]

theorem drop_bytes_header : p.bytes.drop 12 = p.pData := by
  rw [bytes, List.drop_left' p.length_header]

end Fields

/-- The second packet is the first with one byte changed, outside the length. -/
structure Altered (f g : Packet) (i : Nat) (old b : UInt8) : Prop where
  bytes_eq : g.bytes = f.bytes.set i b
  getElem_eq : f.bytes[i]? = some old
  ne : b ≠ old
  outside : 4 ≤ i

namespace Altered

variable {f g : Packet} {i : Nat} {old b : UInt8} (h : Altered f g i old b)

include h

theorem getElem_of_ne {j : Nat} (hj : i ≠ j) : g.bytes[j]? = f.bytes[j]? := by
  rw [h.bytes_eq, List.getElem?_set_ne hj]

theorem pLength : g.pLength = f.pLength := by
  have htake : g.bytes.take 4 = f.bytes.take 4 := by
    rw [h.bytes_eq, List.take_set_of_le h.outside]
  rw [take_bytes_length, take_bytes_length] at htake
  rw [← ofLe32_le32 g.pLength, htake, ofLe32_le32]

theorem length_pData : g.pData.length = f.pData.length := by
  have hlen := congrArg List.length h.bytes_eq
  rw [List.length_set, length_bytes, length_bytes] at hlen
  omega

theorem pFlag (hi : i ≠ 4) : g.pFlag = f.pFlag := by
  have hget := h.getElem_of_ne hi
  rw [getElem_bytes_flag, getElem_bytes_flag] at hget
  exact Option.some.inj hget

theorem pDataChecksum (hi : i ≠ 5) : g.pDataChecksum = f.pDataChecksum := by
  have hget := h.getElem_of_ne hi
  rw [getElem_bytes_dataChecksum, getElem_bytes_dataChecksum] at hget
  exact Option.some.inj hget

theorem pHeaderChecksum (hi : i ≠ 6) : g.pHeaderChecksum = f.pHeaderChecksum := by
  have hget := h.getElem_of_ne hi
  rw [getElem_bytes_headerChecksum, getElem_bytes_headerChecksum] at hget
  exact Option.some.inj hget

theorem pKeynum (hi : i ≠ 7) : g.pKeynum = f.pKeynum := by
  have hget := h.getElem_of_ne hi
  rw [getElem_bytes_keynum, getElem_bytes_keynum] at hget
  exact Option.some.inj hget

/-- A change of the first eleven bytes breaks the header checksum, also when it is a change of that
checksum. -/
theorem headerChecksumOK (hi : i < 11) (hf : f.headerChecksumOK = true) :
    g.headerChecksumOK = false := by
  have hold : (f.bytes.take 11)[i]? = some old := by
    rw [List.getElem?_take_of_lt hi, h.getElem_eq]
  have hsum := sumBytes_set (b := b) hold
  rw [← List.take_set, ← h.bytes_eq] at hsum
  have hne := h.ne
  simp only [Packet.headerChecksumOK, beq_iff_eq, beq_eq_false_iff_ne, ne_eq] at hf ⊢
  by_cases hck : i = 6
  · -- the sum has changed once, and what it is compared with twice
    subst hck
    have hfck : f.pHeaderChecksum = old :=
      Option.some.inj (f.getElem_bytes_headerChecksum.symm.trans h.getElem_eq)
    have hgck : g.pHeaderChecksum = b := by
      have hget := g.getElem_bytes_headerChecksum
      rw [h.bytes_eq, List.getElem?_set_self (List.getElem?_eq_some_iff.1 h.getElem_eq).1] at hget
      exact (Option.some.inj hget).symm
    rw [hfck] at hf
    rw [hgck]
    intro hg
    exact hne (by grind)
  · rw [h.pHeaderChecksum hck]
    intro hg
    exact hne (by grind)

/-- The header checksum does not cover the bytes from the eleventh on. -/
theorem headerChecksumOK_eq (hi : 11 ≤ i) : g.headerChecksumOK = f.headerChecksumOK := by
  rw [Packet.headerChecksumOK, Packet.headerChecksumOK, h.pHeaderChecksum (by omega), h.bytes_eq,
    List.take_set_of_le hi]

/-- The sum of the decrypted bytes changes with a byte from the eleventh on. -/
theorem sum_decrypt_ne (key : UInt8) (hi : 11 ≤ i) :
    sumBytes (g.decrypt key).bytes ≠ sumBytes (f.decrypt key).bytes := by
  have hsplit : ∀ p : Packet, (p.decrypt key).bytes =
      p.bytes.take 12 ++ (p.bytes.drop 12).map (unmangle key) := by
    intro p
    rw [take_bytes_header, drop_bytes_header]
    rfl
  rw [hsplit, hsplit, sumBytes_append, sumBytes_append, h.bytes_eq]
  by_cases hlast : i = 11
  · -- the last byte of the header
    have hold : (f.bytes.take 12)[i]? = some old := by
      rw [List.getElem?_take_of_lt (by omega), h.getElem_eq]
    have hne := sumBytes_set_ne hold h.ne
    rw [List.drop_set_of_lt (by omega), List.take_set]
    intro hsum
    exact hne (by grind)
  · have hold : ((f.bytes.drop 12).map (unmangle key))[i - 12]? = some (unmangle key old) := by
      rw [List.getElem?_map, List.getElem?_drop, Nat.add_sub_cancel' (by omega), h.getElem_eq]
      rfl
    have hne := sumBytes_set_ne (b := unmangle key b) hold fun heq =>
      h.ne (unmangle_injective heq)
    rw [List.take_set_of_le (by omega), List.drop_set, if_neg (by omega), List.map_set]
    intro hsum
    exact hne (by grind)

/-- Such a change breaks the data checksum. -/
theorem dataChecksumOK (key : UInt8) (hi : 11 ≤ i)
    (hlen : f.pLength.toNat = sizeofPacket + f.pData.length)
    (hf : (f.decrypt key).dataChecksumOK key = true) :
    (g.decrypt key).dataChecksumOK key = false := by
  have htakef : (f.decrypt key).bytes.take (f.decrypt key).pLength.toNat =
      (f.decrypt key).bytes :=
    List.take_of_length_le (by simp [decrypt, hlen])
  have htakeg : (g.decrypt key).bytes.take (g.decrypt key).pLength.toNat =
      (g.decrypt key).bytes :=
    List.take_of_length_le (by simp [decrypt, h.pLength, h.length_pData, hlen])
  have hne := h.sum_decrypt_ne key hi
  have hhck : (g.decrypt key).pHeaderChecksum = (f.decrypt key).pHeaderChecksum :=
    h.pHeaderChecksum (by omega)
  have hdck : (g.decrypt key).pDataChecksum = (f.decrypt key).pDataChecksum :=
    h.pDataChecksum (by omega)
  simp only [Packet.dataChecksumOK, beq_iff_eq, beq_eq_false_iff_ne, ne_eq] at hf ⊢
  rw [htakef] at hf
  rw [htakeg, hhck, hdck]
  intro hg
  exact hne (by grind)

end Altered

end Packet

/-! ## The frame that is written -/

namespace Packet

/-- Only the packet itself is checksummed and written, whatever is behind it in memory. -/
theorem take_bytes_sealWith (key : UInt8) {p : Packet} (hlong : sizeofPacket ≤ p.pLength.toNat)
    (hmem : p.pLength.toNat ≤ sizeofPacket + p.pData.length) :
    (p.sealWith key).bytes.take p.pLength.toNat = (p.frame.sealWith key).bytes := by
  have hsplit : ∀ q : Packet, q.bytes.take p.pLength.toNat =
      q.header ++ q.pData.take (p.pLength.toNat - sizeofPacket) := by
    intro q
    rw [bytes, List.take_append, List.take_of_length_le (by rw [length_header]; exact hlong),
      length_header]
    rfl
  have hlen : (p.pData.take (p.pLength.toNat - sizeofPacket)).length =
      p.pLength.toNat - sizeofPacket := by
    rw [List.length_take]
    omega
  -- the sums are over the same bytes, so the two headers are the same
  simp only [sealWith, frame, hsplit, List.take_take, Nat.min_self, List.drop_take, Nat.sub_self,
    List.take_zero, List.append_nil]
  rw [List.take_left' (by rw [List.length_map, hlen])]
  rfl

end Packet

theorem Session.exists_of_sendPacket {s s' : Session} {p q : Packet} {ok : Bool}
    {frame : List UInt8} (hsend : s.sendPacket wire p [] = some (ok, s', q, frame))
    (hmem : p.pLength.toNat ≤ sizeofPacket + p.pData.length) :
    ∃ key, ∃ f : Packet, f.bytes = frame ∧ f.pLength.toNat = sizeofPacket + f.pData.length ∧
      f.pFlag = ROM_PACKET_FLAG_ENCRYPTED ∧ s.key.byteFor f.pKeynum = some key ∧
      f.headerChecksumOK = true ∧ (f.decrypt key).dataChecksumOK key = true := by
  obtain ⟨key, hkey⟩ := s.key.byteFor_sequence (s.sequence - 1)
  have hlong : sizeofPacket ≤ p.pLength.toNat := by
    -- `SendPacket` asserts it
    refine Nat.le_of_not_lt ?_
    intro hlt
    rw [sendPacket, guard, if_neg (by omega)] at hsend
    cases hsend
  let r : Packet := { p with
    pFlag := ROM_PACKET_FLAG_ENCRYPTED
    pSeq := s.sequence
    pKeynum := ((s.sequence - 1) % 10).toUInt8 }
  have hframe : r.frame.pLength.toNat = sizeofPacket + r.frame.pData.length := by
    simp only [r, Packet.frame, List.length_take]
    omega
  simp only [sendPacket, checksumAndSend, guard, if_pos hlong, ge_iff_le, Option.pure_def,
    Option.bind_eq_bind, Option.bind_some, hkey, wire, List.nil_append] at hsend
  obtain ⟨-, -, -, rfl⟩ := hsend
  refine ⟨key, r.frame.sealWith key, (Packet.take_bytes_sealWith key (p := r) hlong hmem).symm,
    ?_, rfl, hkey, Packet.headerChecksumOK_sealWith key,
    Packet.dataChecksumOK_sealWith key hframe⟩
  rw [Packet.pLength_sealWith, Packet.length_sealWith, hframe]

/-! ## What becomes of an altered frame -/

/-- A frame as `SendPacket` writes it for a connection with the key. -/
structure Packet.Sealed (k : Key) (f : Packet) : Prop where
  length_eq : f.pLength.toNat = sizeofPacket + f.pData.length
  flag : f.pFlag = ROM_PACKET_FLAG_ENCRYPTED
  headerChecksum : f.headerChecksumOK = true
  dataChecksum : ∃ key, k.byteFor f.pKeynum = some key ∧
    (f.decrypt key).dataChecksumOK key = true

/-- The altered frame is taken for a key frame, or stopped at one of the checks. -/
theorem Session.course_of_altered {s : Session} {f g : Packet} {i : Nat} {old b : UInt8}
    (h : Packet.Altered f g i old b) (hf : f.Sealed s.key) :
    s.course g = .newKey ∨ s.course g = .badKeyLength ∨ s.course g = .badHeader ∨
      s.course g = .noKey ∨ ∃ key, s.course g = .badData key := by
  unfold course
  by_cases hkey : g.pFlag &&& ROM_PACKET_FLAG_KEY ≠ 0
  · -- only a change of the flags gets here
    by_cases hlen : g.pData.length = ROM_KEY_LENGTH
    · simp [hkey, hlen]
    · simp [hkey, hlen]
  by_cases hi : i < 11
  · have hheader := h.headerChecksumOK hi hf.headerChecksum
    simp [hkey, hheader]
  · have hflag : g.pFlag = ROM_PACKET_FLAG_ENCRYPTED := (h.pFlag (by omega)).trans hf.flag
    have hheader := (h.headerChecksumOK_eq (by omega)).trans hf.headerChecksum
    have hnotAlive : ¬ (g.pFlag &&& ROM_PACKET_FLAG_ALIVE_REQUEST ≠ 0) := by rw [hflag]; decide
    rw [if_neg hkey, if_neg (by simp [hheader]), if_neg hnotAlive, if_neg (by simp [hflag])]
    by_cases hhave : ¬ s.haveKey
    · simp [hhave]
    · -- the byte of the key is the one the frame was sealed with
      obtain ⟨key, hbyte, hdata⟩ := hf.dataChecksum
      have hdata' := h.dataChecksumOK key (by omega) hf.length_eq hdata
      rw [← h.pKeynum (by omega)] at hbyte
      simp [hhave, hbyte, hdata']

/-- No packet has been handed to `OnPacket`. -/
def Undelivered (trace : List Event) : Prop := ∀ p, Event.packet p ∉ trace

/-- The connection has ignored what it was sent: it gives up, or nothing of it is left in the
buffer, and there was no call of `OnPacket`. The only fault is one of `OnNewKey`. -/
def Outcome.Ignored (h : Host ω) : Outcome (ω × List Event) → Prop
  | .returned false _ st => Undelivered st.2
  | .returned true c st => c.buffer.data = [] ∧ Undelivered st.2
  | .fault st => (∃ s, h.onNewKey s st.1 = none) ∧ Undelivered st.2

namespace Outcome

variable {h : Host ω} {o : Outcome (ω × List Event)} {s : Session} {st : ω × List Event}

theorem ignored_of_closed (ho : o.drained = .halted (.closed s st)) (hst : Undelivered st.2) :
    o.Ignored h := by
  cases o with
  | fault w => cases ho
  | returned ok c w =>
      cases ok with
      | true => cases ho
      | false =>
          cases ho
          exact hst

theorem ignored_of_fault (ho : o.drained = .halted (.fault st))
    (hkey : h.onNewKey s st.1 = none) (hst : Undelivered st.2) : o.Ignored h := by
  cases o with
  | fault w =>
      cases ho
      exact ⟨⟨s, hkey⟩, hst⟩
  | returned ok c w => cases ok <;> cases ho

theorem ignored_of_idle (ho : o.drained = .idle (s, st) []) (hst : Undelivered st.2) :
    o.Ignored h := by
  obtain ⟨c, rfl, -, hdata⟩ := exists_of_drained_idle ho
  exact ⟨hdata, hst⟩

end Outcome

/-- A frame that is handled whole, with no call of `OnPacket`. -/
theorem ignored_of_handled {h : Host ω} {stack : Stack (ω × List Event)} {s : Session}
    {g : Packet} (hg : g.Fits) {w : ω} {o : Outcome (ω × List Event)}
    (ho : o.drained = (reader (h.recording stack)).drain (s, w, []) g.bytes)
    (hhandled : match s.handlePacket (h.recording stack) g (w, []) with
      | .fault st => (∃ s', h.onNewKey s' st.1 = none) ∧ Undelivered st.2
      | .stop _ _ st | .flush _ _ st => Undelivered st.2) : o.Ignored h := by
  have hlook : (reader (h.recording stack)).look (s, w, []) g.bytes = _ := look_of_fits hg
  cases hh : s.handlePacket (h.recording stack) g (w, []) with
  | fault st =>
      rw [hh] at hlook hhandled
      obtain ⟨⟨s', hkey⟩, hst⟩ := hhandled
      rw [Consumer.drain_of_halt hlook] at ho
      exact Outcome.ignored_of_fault ho hkey hst
  | stop s' p' st =>
      rw [hh] at hlook hhandled
      rw [Consumer.drain_of_halt hlook] at ho
      exact Outcome.ignored_of_closed ho hhandled
  | flush s' p' st =>
      rw [hh] at hlook hhandled
      rw [Consumer.drain_of_take hlook, List.drop_length,
        Consumer.drain_of_wait (Consumer.look_nil _ _)] at ho
      exact Outcome.ignored_of_idle ho hhandled

/-- A frame with one byte changed, drained by a connection that holds the key. -/
theorem ignored_of_altered {h : Host ω} {stack : Stack (ω × List Event)} {s : Session}
    {f g : Packet} {i : Nat} {old b : UInt8} (halt : Packet.Altered f g i old b)
    (hf : f.Sealed s.key) {w : ω} {o : Outcome (ω × List Event)}
    (ho : o.drained = (reader (h.recording stack)).drain (s, w, []) g.bytes) : o.Ignored h := by
  by_cases hbound : g.pLength.toNat ≥ s_MaxPacketSize
  · -- `SendPacket` writes frames that `OnEvent` does not accept
    have hlook : (reader (h.recording stack)).look (s, w, []) g.bytes = .halt (.closed s (w, [])) :=
      (reader (h.recording stack)).halt_append g.pData (look_header hbound)
    rw [Consumer.drain_of_halt hlook] at ho
    exact Outcome.ignored_of_closed ho fun p hp => nomatch hp
  have hfits : g.Fits :=
    ⟨by rw [halt.pLength, halt.length_pData, hf.length_eq], Nat.lt_of_not_le hbound⟩
  refine ignored_of_handled hfits ho ?_
  have hraw : Undelivered [Event.raw g] := by simp [Undelivered]
  have hcourse := s.handlePacket_course (h.recording stack) g (w, [])
  rcases s.course_of_altered halt hf with hc | hc | hc | hc | ⟨key, hc⟩
  all_goals simp only [hc] at hcourse
  · -- a key frame, of which `OnNewKey` is told
    obtain ⟨hlen, hcourse⟩ := hcourse
    cases hkey : h.onNewKey (s.installKey g.pData hlen) (h.onRawPacketReceived g w) with
    | none =>
        rw [hcourse]
        simp only [Host.recording, hkey, Option.map_none]
        exact ⟨⟨_, hkey⟩, hraw⟩
    | some w' =>
        rw [hcourse]
        simp only [Host.recording, hkey, Option.map_some]
        simp [Undelivered]
  all_goals
    rw [hcourse]
    exact hraw

/-- A data frame in which one byte outside the length has changed is never delivered, however it
is cut into reads. -/
theorem ROMConnection.onEvents_corrupted (h : Host ω) (stack : Stack (ω × List Event))
    {sender sender' : Session} {p q : Packet} {ok : Bool} {frame : List UInt8}
    (hmem : p.pLength.toNat ≤ sizeofPacket + p.pData.length)
    (hsend : sender.sendPacket wire p [] = some (ok, sender', q, frame))
    {i : Nat} {old b : UInt8} (hi : 4 ≤ i) (hold : frame[i]? = some old) (hb : b ≠ old)
    {c : ROMConnection} (hkey : c.key = sender.key) (hbuffer : c.buffer = .empty) (w : ω)
    {reads : List (List UInt8)} (hreads : ∀ r ∈ reads, IsRead r)
    (hcut : reads.flatten = frame.set i b) :
    (c.onEvents (h.recording stack) (w, []) reads).Ignored h := by
  obtain ⟨key, f, rfl, hlen, hflag, hbyte, hheader, hdata⟩ :=
    Session.exists_of_sendPacket hsend hmem
  -- the altered bytes are a packet as well
  have hlong : ¬ ((f.bytes.set i b).length < sizeofPacket) := by
    rw [List.length_set, Packet.length_bytes]
    omega
  obtain ⟨g, hg⟩ := Option.ne_none_iff_exists'.1 (mt Packet.read_eq_none_iff.1 hlong)
  have halt : Packet.Altered f g i old b := ⟨Packet.bytes_of_read hg, hold, hb, hi⟩
  have hs : Settled c.buffer.data := by
    rw [hbuffer]
    exact settled_nil
  have hsealed : f.Sealed c.toSession.key := ⟨hlen, hflag, hheader, key, by rw [hkey, hbyte], hdata⟩
  have hdrained : (c.onEvents (h.recording stack) (w, []) reads).drained =
      (reader (h.recording stack)).drain (c.toSession, w, []) g.bytes := by
    rw [onEvents_eq_feed hs hreads, Consumer.feed_of_wait (look_eq_wait_iff.2 hs), hcut, hbuffer,
      halt.bytes_eq]
    rfl
  exact ignored_of_altered halt hsealed hdrained

/-- The second byte of the payload has changed. -/
theorem ROMConnection.onEvents_corrupted_threeBytes :
    (ROMConnection.fresh.onEvents (Host.quiet.recording .unused) ((), [])
      [[15, 0, 0, 0, 2], [24, 42, 0, 1, 0, 0, 0, 1, 7, 3]]).Ignored Host.quiet := by
  have hsend : fresh.toSession.sendPacket wire threeBytes [] =
      some (true, _, _, [15, 0, 0, 0, 2, 24, 42, 0, 1, 0, 0, 0, 1, 2, 3]) := rfl
  have hold : ([15, 0, 0, 0, 2, 24, 42, 0, 1, 0, 0, 0, 1, 2, 3] : List UInt8)[13]? = some 2 := rfl
  exact onEvents_corrupted Host.quiet _ (by decide) hsend (by decide) hold
    (show (7 : UInt8) ≠ 2 by decide) rfl rfl () (by simp [IsRead, s_MaxPacketSize]) rfl

end OpenRom
