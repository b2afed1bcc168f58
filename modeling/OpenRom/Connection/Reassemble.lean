import OpenRom.Library.Reassembly
import OpenRom.Connection.Connection

/-!
# Reads of a connection

The loop of `OnEvent` as a consumer of the bytes received: `reader` looks at the front of the buffer
as one turn of the loop does. Between events the loop has nothing to do (`Settled`), which also
bounds what is in the buffer, so that `AddData` always finds space for a read. Hence a sequence of
reads is the same as draining everything received at once (`onEvents_eq_feed`), and how a stream is
cut into reads makes no difference.
-/

set_option autoImplicit false

namespace OpenRom

open Reassembly

variable {ω : Type}

/-! ## What handling a frame comes to -/

/-- What handling a frame can come to, by the calls that it makes. -/
inductive Session.Handles (h : Host ω) (s : Session) (p : Packet) (w : ω) : Handled ω → Prop
  | fault (w' : ω) : Handles h s p w (.fault w')
  | newKey (hlen : p.pData.length = ROM_KEY_LENGTH) {w' : ω} :
      p.pFlag &&& ROM_PACKET_FLAG_KEY ≠ 0 →
        h.onNewKey (s.installKey p.pData hlen) (h.onRawPacketReceived p w) = some w' →
          Handles h s p w (.flush (s.installKey p.pData hlen) p w')
  | ignored : Handles h s p w (.flush s p (h.onRawPacketReceived p w))
  | rejected (p' : Packet) : Handles h s p w (.stop s p' (h.onRawPacketReceived p w))
  | replied (bs : List UInt8) :
      Handles h s p w (.flush s p (h.write bs (h.onRawPacketReceived p w)).2)
  | notReplied (bs : List UInt8) :
      Handles h s p w (.stop s p (h.write bs (h.onRawPacketReceived p w)).2)
  | delivered (key : UInt8) {p' : Packet} {w' : ω} :
      h.onPacket (p.decrypt key) (h.onRawPacketReceived p w) = some (p', w') →
        Handles h s p w (.flush s p' w')

theorem Session.sendKeepaliveReply_world {h : Host ω} {s : Session} {w w' : ω} {ok : Bool}
    (hr : s.sendKeepaliveReply h w = some (ok, w')) : ∃ bs, w' = (h.write bs w).2 := by
  simp only [sendKeepaliveReply, checksumAndSend, Option.bind_eq_bind,
    Option.bind_eq_some_iff] at hr
  obtain ⟨r, ⟨key, -, hkey⟩, hr⟩ := hr
  cases hkey
  cases hr
  exact ⟨_, rfl⟩

theorem Session.handles (h : Host ω) (s : Session) (p : Packet) (w : ω) :
    s.Handles h p w (s.handlePacket h p w) := by
  simp only [handlePacket]
  split
  · -- a key frame, which is ignored when its length is not that of a key
    next hflag =>
      split
      · next hlen =>
          cases hn : h.onNewKey (s.installKey p.pData hlen) (h.onRawPacketReceived p w) with
          | none => exact .fault _
          | some w' => exact .newKey hlen hflag hn
      · exact .ignored
  split
  · exact .rejected p
  split
  · -- a keepalive request
    cases hr : s.sendKeepaliveReply h (h.onRawPacketReceived p w) with
    | none => exact .fault _
    | some r =>
        obtain ⟨ok, w'⟩ := r
        obtain ⟨bs, rfl⟩ := sendKeepaliveReply_world hr
        simp only
        split
        · exact .fault _
        · cases ok with
          | false => exact .notReplied bs
          | true => exact .replied bs
  split
  · exact .ignored
  split
  · exact .ignored
  cases s.key.byteFor p.pKeynum with
  | none => exact .fault _
  | some key =>
      simp only
      split
      · exact .rejected _
      · cases hp : h.onPacket (p.decrypt key) (h.onRawPacketReceived p w) with
        | none => exact .fault _
        | some r => exact .delivered key hp

/-- What is left of the frame in the buffer is as long as it was. -/
theorem Session.handlePacket_flush {h : Host ω} {s s' : Session} {p p' : Packet} {w w' : ω}
    (hp : s.handlePacket h p w = .flush s' p' w') :
    p'.pLength = p.pLength ∧ p'.pData.length = p.pData.length := by
  have hhandles := s.handles h p w
  rw [hp] at hhandles
  cases hhandles with
  | newKey | ignored | replied => exact ⟨rfl, rfl⟩
  | delivered key hon =>
      have hlen := h.onPacket_length hon
      exact ⟨hlen.1, by rw [hlen.2, Packet.decrypt, List.length_map]⟩

/-! ## The reader -/

/-- Why the connection is given up. -/
inductive Halt (ω : Type)
  | fault (w : ω)
  | closed (s : Session) (w : ω)

/-- One turn of the loop of `OnEvent`, on the bytes in the buffer. -/
def look (h : Host ω) (st : Session × ω) (bs : List UInt8) : Verdict (Session × ω) (Halt ω) :=
  match Packet.read bs with
  | none => .wait
  | some p =>
      if p.pLength.toNat < sizeofPacket ∨ p.pLength.toNat ≥ s_MaxPacketSize then
        .halt (.closed st.1 st.2)
      else if bs.length < p.pLength.toNat then .wait
      else
        match st.1.handlePacket h p.frame st.2 with
        | .fault w => .halt (.fault w)
        | .stop s _ w => .halt (.closed s w)
        | .flush s _ w => .take p.pLength.toNat (s, w)

theorem Packet.frame_append {p : Packet} {more : List UInt8}
    (h : p.pLength.toNat ≤ sizeofPacket + p.pData.length) :
    ({ p with pData := p.pData ++ more } : Packet).frame = p.frame := by
  simp only [frame, mk.injEq, true_and]
  exact List.take_append_of_le_length (by omega)

theorem look_append {h : Host ω} {st : Session × ω} {bs : List UInt8} (more : List UInt8)
    (hwait : look h st bs ≠ .wait) : look h st (bs ++ more) = look h st bs := by
  unfold look at *
  cases hr : Packet.read bs with
  | none => simp [hr] at hwait
  | some p =>
      have hlen := congrArg List.length (Packet.bytes_of_read hr)
      rw [Packet.length_bytes] at hlen
      rw [Packet.read_append hr]
      simp only [hr] at hwait ⊢
      split
      · rfl
      · next hbound =>
          rw [if_neg hbound] at hwait
          -- a frame that is there whole is cut out of the longer buffer as well
          by_cases hshort : bs.length < p.pLength.toNat
          · rw [if_pos hshort] at hwait
            exact absurd rfl hwait
          · have hlong : ¬ ((bs ++ more).length < p.pLength.toNat) := by
              rw [List.length_append]
              omega
            rw [if_neg hshort, if_neg hlong, Packet.frame_append (by omega)]

/-- A frame that is taken has a header, and all of it is there. -/
theorem take_pos_of_look {h : Host ω} {st st' : Session × ω} {bs : List UInt8} {n : Nat}
    (hl : look h st bs = .take n st') : 1 ≤ n ∧ n ≤ bs.length := by
  unfold look at hl
  split at hl
  · cases hl
  split at hl
  · cases hl
  split at hl
  · cases hl
  split at hl <;> cases hl
  simp only [sizeofPacket] at *
  omega

/-- The loop of `OnEvent` as a consumer of the bytes received. -/
def reader (h : Host ω) : Consumer (Session × ω) UInt8 (Halt ω) where
  look := look h
  look_nil _ := rfl
  take_pos := take_pos_of_look
  take_append more hl := by rw [look_append more (by rw [hl]; simp), hl]
  halt_append more hl := by rw [look_append more (by rw [hl]; simp), hl]

/-! ## The loop is the reader -/

/-- What is left of an event for the ones after it. -/
def Outcome.drained : Outcome ω → Drained (Session × ω) UInt8 (Halt ω)
  | .fault w => .halted (.fault w)
  | .returned true c w => .idle (c.toSession, w) c.buffer.data
  | .returned false c w => .halted (.closed c.toSession w)

/-- An event that leaves the reader idle has returned `true`. -/
theorem Outcome.exists_of_drained_idle {o : Outcome ω} {st : Session × ω} {buf : List UInt8}
    (ho : o.drained = .idle st buf) :
    ∃ c, o = .returned true c st.2 ∧ c.toSession = st.1 ∧ c.buffer.data = buf := by
  cases o with
  | fault w => cases ho
  | returned ok c w =>
      cases ok with
      | false => cases ho
      | true =>
          cases ho
          exact ⟨c, rfl, rfl, rfl⟩

/-- What is written over the front of the buffer is flushed with it. -/
theorem Buffer.flushData_overwrite (b : Buffer) {bs : List UInt8}
    (h : bs.length ≤ b.data.length) :
    ∃ b', (b.overwrite bs).flushData bs.length = some b' ∧
      b'.data = b.data.drop bs.length := by
  -- the bytes fit, so none is cut off at the end of the buffer
  have hdata : (b.overwrite bs).data = bs ++ b.data.drop bs.length := by
    refine List.take_of_length_le ?_
    rw [List.length_append, List.length_drop]
    omega
  have hlen : (b.overwrite bs).data.length ≥ bs.length := by
    rw [hdata, List.length_append]
    omega
  refine ⟨_, dif_pos hlen, ?_⟩
  simp only [hdata, List.drop_left]

namespace ROMConnection

variable {h : Host ω} {c : ROMConnection} {w : ω}

/-- What a turn of the loop does, by what the reader makes of the buffer. -/
theorem turn_look (h : Host ω) (c : ROMConnection) (w : ω) :
    match look h (c.toSession, w) c.buffer.data with
    | .wait => turn h (c, w) = .leave (.returned true c w)
    | .take n st =>
        ∃ b, b.data = c.buffer.data.drop n ∧ turn h (c, w) = .again (⟨st.1, b⟩, st.2)
    | .halt r => ∃ o, turn h (c, w) = .leave o ∧ o.drained = .halted r := by
  simp only [look, turn, Buffer.peekPacket]
  cases hr : Packet.read c.buffer.data with
  | none => rfl
  | some p =>
      have hread := congrArg List.length (Packet.bytes_of_read hr)
      rw [Packet.length_bytes] at hread
      by_cases hbound : p.pLength.toNat < sizeofPacket ∨ p.pLength.toNat ≥ s_MaxPacketSize
      · simp only [if_pos hbound]
        exact ⟨_, rfl, rfl⟩
      by_cases hshort : c.buffer.data.length < p.pLength.toNat
      · -- only a part of the frame is there
        have hpeek : ¬ c.buffer.canPeek p.pLength.toNat = true := by
          rw [Buffer.canPeek_iff]
          omega
        simp only [if_neg hbound, if_pos hshort, if_pos hpeek]
      · have hpeek : ¬ ¬ c.buffer.canPeek p.pLength.toNat = true := by
          rw [Buffer.canPeek_iff]
          omega
        simp only [if_neg hbound, if_neg hshort, if_neg hpeek]
        cases hp : c.handlePacket h p.frame w with
        | fault w₁ => exact ⟨_, rfl, rfl⟩
        | stop s₁ p₁ w₁ => exact ⟨_, rfl, rfl⟩
        | flush s₁ p₁ w₁ =>
            -- what the callbacks have written is as long as the frame, and goes with it
            have hsame := Session.handlePacket_flush hp
            have hlen : p₁.bytes.length = p.pLength.toNat := by
              rw [Packet.length_bytes, hsame.2, Packet.frame, List.length_take]
              omega
            have hle : p₁.bytes.length ≤ c.buffer.data.length := by omega
            obtain ⟨b, hb, hdata⟩ := c.buffer.flushData_overwrite hle
            refine ⟨b, by rw [hdata, hlen], ?_⟩
            rw [hlen] at hb
            simp only [hsame.1, Packet.frame, hb]

theorem turn_of_wait (hl : look h (c.toSession, w) c.buffer.data = .wait) :
    turn h (c, w) = .leave (.returned true c w) := by
  have hturn := turn_look h c w
  rwa [hl] at hturn

theorem turn_of_take {n : Nat} {st : Session × ω}
    (hl : look h (c.toSession, w) c.buffer.data = .take n st) :
    ∃ b, b.data = c.buffer.data.drop n ∧ turn h (c, w) = .again (⟨st.1, b⟩, st.2) := by
  have hturn := turn_look h c w
  rwa [hl] at hturn

theorem turn_of_halt {r : Halt ω} (hl : look h (c.toSession, w) c.buffer.data = .halt r) :
    ∃ o, turn h (c, w) = .leave o ∧ o.drained = .halted r := by
  have hturn := turn_look h c w
  rwa [hl] at hturn

/-- The loop drains the buffer. -/
theorem drained_of_ends {st : ROMConnection × ω} {o : Outcome ω} (he : Loop.Ends (turn h) st o) :
    o.drained = (reader h).drain (st.1.toSession, st.2) st.1.buffer.data := by
  -- a loop that is left has waited or halted, and one that goes on has taken a frame
  induction he with
  | @leave st o ht =>
      obtain ⟨c, w⟩ := st
      cases hl : look h (c.toSession, w) c.buffer.data with
      | wait =>
          rw [turn_of_wait hl] at ht
          cases ht
          exact (Consumer.drain_of_wait (c := reader h) hl).symm
      | take n st' =>
          obtain ⟨b, -, hturn⟩ := turn_of_take hl
          rw [hturn] at ht
          cases ht
      | halt r =>
          obtain ⟨o', hturn, ho⟩ := turn_of_halt hl
          rw [hturn] at ht
          cases ht
          rw [ho]
          exact (Consumer.drain_of_halt (c := reader h) hl).symm
  | @again st st' o ht he ih =>
      obtain ⟨c, w⟩ := st
      cases hl : look h (c.toSession, w) c.buffer.data with
      | wait =>
          rw [turn_of_wait hl] at ht
          cases ht
      | take n st₁ =>
          obtain ⟨b, hb, hturn⟩ := turn_of_take hl
          rw [hturn] at ht
          cases ht
          rw [ih, hb]
          exact (Consumer.drain_of_take (c := reader h) hl).symm
      | halt r =>
          obtain ⟨o', hturn, -⟩ := turn_of_halt hl
          rw [hturn] at ht
          cases ht

/-- Every turn that goes on flushes a frame. -/
theorem length_turn_lt (st st' : ROMConnection × ω) (ht : turn h st = .again st') :
    st'.1.buffer.data.length < st.1.buffer.data.length := by
  obtain ⟨c, w⟩ := st
  cases hl : look h (c.toSession, w) c.buffer.data with
  | wait =>
      rw [turn_of_wait hl] at ht
      cases ht
  | take n st₁ =>
      obtain ⟨b, hb, hturn⟩ := turn_of_take hl
      have hn := (reader h).take_pos hl
      rw [hturn] at ht
      cases ht
      simp only [hb, List.length_drop]
      omega
  | halt r =>
      obtain ⟨o', hturn, -⟩ := turn_of_halt hl
      rw [hturn] at ht
      cases ht

/-- The fuel of `onEvent` is enough: an event appends the read and drains the buffer. -/
theorem onEvent_eq {packet : List UInt8} {b : Buffer} (hpos : packet.length ≠ 0)
    (hb : c.buffer.addData packet = some b) :
    (c.onEvent h packet w).drained = (reader h).drain (c.toSession, w) b.data := by
  obtain ⟨o, ho⟩ : ∃ o, Loop.Ends (turn h) ({ c with buffer := b }, w) o :=
    Loop.exists_ends length_turn_lt _
  -- each turn flushes at least one byte, so the fuel is enough
  have hrun := Loop.run_of_ends length_turn_lt ho (b.data.length + 1) (Nat.lt_succ_self _)
  rw [onEvent, if_neg hpos, hb]
  simp only [hrun, Option.getD_some]
  exact drained_of_ends ho

end ROMConnection

/-! ## Between events -/

/-- The loop has nothing to do: the buffer holds a part of a frame, of valid length as far as that
can be told. -/
def Settled (bs : List UInt8) : Prop :=
  ∀ p ∈ Packet.read bs, sizeofPacket ≤ p.pLength.toNat ∧ p.pLength.toNat < s_MaxPacketSize ∧
    bs.length < p.pLength.toNat

theorem settled_nil : Settled [] := nofun

theorem look_eq_wait_iff {h : Host ω} {st : Session × ω} {bs : List UInt8} :
    look h st bs = .wait ↔ Settled bs := by
  unfold look Settled
  cases hr : Packet.read bs with
  | none => simp
  | some p =>
      simp only [Option.mem_some_iff, forall_eq']
      by_cases hbound : p.pLength.toNat < sizeofPacket ∨ p.pLength.toNat ≥ s_MaxPacketSize
      · rw [if_pos hbound]
        simp only [reduceCtorEq, false_iff]
        omega
      · rw [if_neg hbound]
        by_cases hshort : bs.length < p.pLength.toNat
        · rw [if_pos hshort]
          simp only [true_iff]
          omega
        · rw [if_neg hshort]
          -- a whole frame is handled, whatever comes of it
          refine iff_of_false ?_ (fun hs => hshort hs.2.2)
          cases st.1.handlePacket h p.frame st.2 <;> simp

/-- Less than a frame of the largest size is left between events. -/
theorem Settled.length_lt {bs : List UInt8} (hs : Settled bs) :
    bs.length + 1 < s_MaxPacketSize := by
  cases hr : Packet.read bs with
  | none =>
      -- not even a header
      have hlt := Packet.read_eq_none_iff.1 hr
      simp only [sizeofPacket, s_MaxPacketSize] at *
      omega
  | some p =>
      have hp := hs p hr
      omega

/-- So there is always space for a read. -/
theorem Settled.addData {b : Buffer} (hs : Settled b.data) {packet : List UInt8}
    (hlen : packet.length ≤ s_MaxPacketSize) :
    ∃ b', b.addData packet = some b' ∧ b'.data = b.data ++ packet := by
  have hlt := hs.length_lt
  -- the buffer has space for two frames of the largest size
  have hspace : ¬ (b.data.length + packet.length ≥ s_BufferSize) := by
    simp only [s_MaxPacketSize, s_BufferSize] at *
    omega
  exact ⟨_, dif_neg hspace, rfl⟩

/-- The connections that calls of the methods lead to. Only `OnEvent` changes the buffer. -/
inductive ROMConnection.Reachable : ROMConnection → Prop
  | fresh : Reachable .fresh
  | session {c : ROMConnection} (s : Session) : Reachable c → Reachable ⟨s, c.buffer⟩
  | event {ω : Type} {h : Host ω} {c c' : ROMConnection} {packet : List UInt8} {w w' : ω} :
      Reachable c → packet.length ≤ s_MaxPacketSize →
        c.onEvent h packet w = .returned true c' w' → Reachable c'

namespace ROMConnection

/-- An event appends the read and drains the buffer. -/
theorem drained_onEvent {h : Host ω} {c : ROMConnection} {w : ω} (hs : Settled c.buffer.data)
    {packet : List UInt8} (hpos : packet ≠ []) (hlen : packet.length ≤ s_MaxPacketSize) :
    (c.onEvent h packet w).drained =
      (reader h).drain (c.toSession, w) (c.buffer.data ++ packet) := by
  obtain ⟨b, hb, hdata⟩ := hs.addData hlen
  rw [onEvent_eq (mt List.length_eq_zero_iff.1 hpos) hb, hdata]

theorem settled_of_onEvent {h : Host ω} {c c' : ROMConnection} {w w' : ω}
    (hs : Settled c.buffer.data) {packet : List UInt8} (hlen : packet.length ≤ s_MaxPacketSize)
    (he : c.onEvent h packet w = .returned true c' w') : Settled c'.buffer.data := by
  have hpos : packet ≠ [] := by
    -- an empty read makes the event return `false`
    rintro rfl
    simp [onEvent] at he
  have hdrain := drained_onEvent (h := h) (w := w) hs hpos hlen
  rw [he] at hdrain
  exact look_eq_wait_iff.1 (Consumer.look_of_drain hdrain.symm)

theorem Reachable.settled {c : ROMConnection} (hc : Reachable c) : Settled c.buffer.data := by
  induction hc with
  | fresh => exact nofun
  | session s _ ih => exact ih
  | event _ hlen he ih => exact settled_of_onEvent ih hlen he

/-! ## Sequences of reads -/

/-- The events of a sequence of reads, up to the first that does not return `true`. -/
def onEvents (h : Host ω) (c : ROMConnection) (w : ω) : List (List UInt8) → Outcome ω
  | [] => .returned true c w
  | packet :: packets =>
      match c.onEvent h packet w with
      | .returned true c w => onEvents h c w packets
      | o => o

/-- What `Read` can return: at least one byte, and no more than it was asked for. -/
def IsRead (packet : List UInt8) : Prop := packet ≠ [] ∧ packet.length ≤ s_MaxPacketSize

/-- A sequence of reads feeds the reader. -/
theorem onEvents_eq_feed {h : Host ω} {c : ROMConnection} {w : ω} (hs : Settled c.buffer.data)
    {reads : List (List UInt8)} (hreads : ∀ r ∈ reads, IsRead r) :
    (c.onEvents h w reads).drained = (reader h).feed (c.toSession, w) c.buffer.data reads := by
  induction reads generalizing c w with
  | nil => rfl
  | cons packet packets ih =>
      have hread := hreads packet List.mem_cons_self
      have hdrain := drained_onEvent (h := h) (w := w) hs hread.1 hread.2
      rw [onEvents, Consumer.feed, ← hdrain]
      cases ho : c.onEvent h packet w with
      | fault w => rfl
      | returned ok c' w' =>
          cases ok with
          | false => rfl
          | true =>
              have hs' := settled_of_onEvent hs hread.2 ho
              exact ih hs' fun r hr => hreads r (List.mem_cons_of_mem _ hr)

/-- An event that takes one frame off a read and halts at what follows it. -/
theorem drained_onEvent_of_halt {h : Host ω} {c : ROMConnection} {w : ω} {st : Session × ω}
    {bs more : List UInt8} {r : Halt ω} (hempty : c.buffer.data = []) (hread : IsRead (bs ++ more))
    (htake : look h (c.toSession, w) bs = .take bs.length st) (hhalt : look h st more = .halt r) :
    (c.onEvent h (bs ++ more) w).drained = .halted r := by
  have hs : Settled c.buffer.data := by
    rw [hempty]
    exact settled_nil
  have htake' : (reader h).look (c.toSession, w) (bs ++ more) = .take bs.length st :=
    (reader h).take_append more htake
  have hhalt' : (reader h).look st more = .halt r := hhalt
  rw [drained_onEvent hs hread.1 hread.2, hempty, List.nil_append, Consumer.drain_of_take htake',
    List.drop_left, Consumer.drain_of_halt hhalt']

end ROMConnection

end OpenRom
