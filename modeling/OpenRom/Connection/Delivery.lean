import OpenRom.Connection.Trace
import OpenRom.Connection.Frames

/-!
# Delivery

What one connection sends with `SendPacket`, another with the same key hands to `OnPacket`: every
payload once and in order, in whatever reads the frames arrive.
-/

set_option autoImplicit false

namespace OpenRom

open Reassembly

variable {ω : Type}

/-- A socket that writes all it is given, and the bytes written to it. -/
def wire (bs out : List UInt8) : Int × List UInt8 := ((bs.length : Int), out ++ bs)

/-- `SendPacket` for one packet after the other. -/
def Session.sendPackets (s : Session) (out : List UInt8) :
    List Packet → Option (Session × List UInt8)
  | [] => some (s, out)
  | p :: ps => do
      let (_, s, _, out) ← s.sendPacket wire p out
      s.sendPackets out ps

/-- The lengths and data that `OnPacket` was called with. -/
def deliveries (trace : List Event) : List (UInt32 × List UInt8) :=
  trace.filterMap fun
    | .packet p => some (p.pLength, p.pData)
    | _ => none

/-- The lengths and data that the frames carry. -/
def payloads {k : Key} (fs : List (Frame k)) : List (UInt32 × List UInt8) :=
  fs.filterMap Frame.payload?

@[simp] theorem payloads_key {k : Key} (p : Packet) (h : CarriesKey k p) (fs : List (Frame k)) :
    payloads (.key p h :: fs) = payloads fs := rfl

@[simp] theorem payloads_data {k : Key} (p : Packet) (payload : List UInt8)
    (h : Carries k p payload) (fs : List (Frame k)) :
    payloads (.data p payload h :: fs) = (p.pLength, payload) :: payloads fs := rfl

@[simp] theorem payloads_nil {k : Key} : payloads ([] : List (Frame k)) = [] := rfl

theorem payloads_append {k : Key} (fs gs : List (Frame k)) :
    payloads (fs ++ gs) = payloads fs ++ payloads gs := List.filterMap_append

/-- The packets are written as frames that carry their data. -/
theorem Session.sendPackets_eq (s : Session) (out : List UInt8) {ps : List Packet}
    (hps : ∀ p ∈ ps, p.Fits) :
    ∃ s', ∃ fs : List (Frame s.key),
      s.sendPackets out ps = some (s', out ++ (fs.map Frame.bytes).flatten) ∧
        (∀ f ∈ fs, f.IsData) ∧ payloads fs = ps.map fun p => (p.pLength, p.pData) := by
  induction ps generalizing s out with
  | nil => exact ⟨s, [], by simp [sendPackets], by simp, rfl⟩
  | cons p ps ih =>
      obtain ⟨f, hf, hlen, hsend⟩ := s.sendPacket_eq wire (hps p List.mem_cons_self) out
      obtain ⟨s', fs, hsends, hdata, hpayloads⟩ :=
        ih { s with sequence := s.sequence + 1 } (out ++ f.bytes)
          fun q hq => hps q (List.mem_cons_of_mem _ hq)
      -- the frame of the first packet comes before those of the others
      refine ⟨s', .data f p.pData hf :: fs, ?_, ?_, ?_⟩
      · simp only [sendPackets, hsend, Option.bind_eq_bind, Option.bind_some, wire]
        rw [hsends, List.append_assoc]
        rfl
      · intro f' hmem
        rcases List.mem_cons.1 hmem with rfl | hmem
        · trivial
        · exact hdata f' hmem
      · rw [payloads_data, hlen, hpayloads]
        rfl

/-- A connection with the key takes a data frame and delivers what it carries. -/
theorem look_data {h : Host ω} (stack : Stack (ω × List Event))
    (hreturns : ∀ p w, (h.onPacket p w).isSome) {k : Key} {s : Session} (hs : s.Holds k)
    {f : Frame k} (hf : f.IsData) (w : ω) (trace : List Event) :
    ∃ w' trace', look (h.recording stack) (s, w, trace) f.bytes =
        .take f.bytes.length (s, w', trace') ∧
      deliveries trace' = deliveries trace ++ payloads [f] := by
  cases f with
  | key f hk => exact absurd hf id
  | data f payload hcarries =>
      obtain ⟨hhave, rfl⟩ := hs
      obtain ⟨q, hqlen, hqdata, hhandle⟩ :=
        Session.handlePacket_carries (h := h.recording stack) hcarries hhave (w, trace)
      obtain ⟨⟨q', w'⟩, hon⟩ := Option.isSome_iff_exists.1
        (hreturns q (h.onRawPacketReceived f w))
      -- the host that records calls the same callbacks and notes them
      have hon' : (h.recording stack).onPacket q
          ((h.recording stack).onRawPacketReceived f (w, trace)) =
            some (q', w', trace ++ [.raw f] ++ [.packet q]) := by
        simp [Host.recording, hon]
      rw [hon'] at hhandle
      refine ⟨w', _, look_bytes hcarries.fits hhandle, ?_⟩
      simp [deliveries, hqlen, hqdata]

/-- The rule for an event of a connection to which a line of frames is on its way. `P` relates the
session and the world of the host to the frames that are not taken yet. -/
theorem ROMConnection.onEvent_of_frames {h : Host ω} {k : Key}
    {P : Session × ω → List (Frame k) → Prop}
    (hstep : ∀ {st f fs}, P st (f :: fs) → ∃ st', look h st f.bytes = .take f.bytes.length st' ∧
      P st' fs)
    {c : ROMConnection} {w : ω} {fs : List (Frame k)} (hP : P (c.toSession, w) fs)
    (hs : Settled c.buffer.data) {packet rest : List UInt8} (hread : IsRead packet)
    (hline : c.buffer.data ++ (packet ++ rest) = (fs.map Frame.bytes).flatten) :
    ∃ c' w' fs', c.onEvent h packet w = .returned true c' w' ∧ P (c'.toSession, w') fs' ∧
      c'.buffer.data ++ rest = (fs'.map Frame.bytes).flatten ∧ Settled c'.buffer.data := by
  rw [← List.append_assoc] at hline
  -- what has arrived is a part of the stream of frames
  obtain ⟨st', buf', fs', hdrain, hP', hline', -⟩ :=
    (reader h).drain_of_messages hstep hP hline
  have hdrained := drained_onEvent (h := h) (w := w) hs hread.1 hread.2
  rw [hdrain] at hdrained
  obtain ⟨c', hout, hst, hdata⟩ := Outcome.exists_of_drained_idle hdrained
  refine ⟨c', st'.2, fs', hout, ?_, ?_, settled_of_onEvent hs hread.2 hout⟩
  · rw [hst]
    exact hP'
  · rw [hdata]
    exact hline'

/-- What can be behind the frames in a stream: nothing, or a frame longer than `OnEvent` accepts,
and what follows it. -/
def Stuck (tail : List UInt8) : Prop :=
  tail = [] ∨ ∃ (f : Packet) (rest : List UInt8), f.pLength.toNat ≥ s_MaxPacketSize ∧
    tail = f.bytes ++ rest

theorem Stuck.append {tail : List UInt8} (h : Stuck tail) (hne : tail ≠ []) (more : List UInt8) :
    Stuck (tail ++ more) := by
  obtain rfl | ⟨f, rest, hlen, rfl⟩ := h
  · exact absurd rfl hne
  · exact Or.inr ⟨f, rest ++ more, hlen, List.append_assoc _ _ _⟩

/-- No part of that is taken: the connection waits, or is given up. -/
theorem look_of_stuck {h : Host ω} {st : Session × ω} {part later tail : List UInt8}
    (htail : Stuck tail) (hpart : part ++ later = tail) :
    look h st part = .wait ∨ look h st part = .halt (.closed st.1 st.2) := by
  obtain rfl | ⟨f, rest, hlen, rfl⟩ := htail
  · obtain ⟨rfl, -⟩ := List.append_eq_nil_iff.1 hpart
    exact Or.inl ((reader h).look_nil st)
  by_cases hshort : part.length < sizeofPacket
  · refine Or.inl ?_
    rw [look, Packet.read_eq_none_iff.2 hshort]
  · -- the header of the frame has arrived
    have hstarts : f.header <+: part ++ later := by
      rw [hpart]
      exact (List.prefix_append f.header f.pData).trans (List.prefix_append _ _)
    have hlong : f.header.length ≤ part.length := by
      rw [Packet.length_header]
      exact Nat.le_of_not_lt hshort
    obtain ⟨more, rfl⟩ :=
      List.prefix_of_prefix_length_le hstarts (List.prefix_append part later) hlong
    have hhalt : (reader h).look st f.header = .halt (.closed st.1 st.2) := look_header hlen
    exact Or.inr ((reader h).halt_append more hhalt)

/-- The rule for an event of a connection to which such a stream is on its way: the connection is
given up only behind the frames. -/
theorem ROMConnection.onEvent_of_stream {h : Host ω} {k : Key}
    {P : Session × ω → List (Frame k) → Prop}
    (hstep : ∀ {st f fs}, P st (f :: fs) → ∃ st', look h st f.bytes = .take f.bytes.length st' ∧
      P st' fs)
    {c : ROMConnection} {w : ω} {fs : List (Frame k)} (hP : P (c.toSession, w) fs)
    (hs : Settled c.buffer.data) {packet rest tail : List UInt8}
    (hread : packet.length ≤ s_MaxPacketSize) (htail : Stuck tail)
    (hline : c.buffer.data ++ (packet ++ rest) = (fs.map Frame.bytes).flatten ++ tail) :
    ∃ ok c' w' fs', c.onEvent h packet w = .returned ok c' w' ∧ P (c'.toSession, w') fs' ∧
      (ok = true → c'.buffer.data ++ rest = (fs'.map Frame.bytes).flatten ++ tail ∧
        Settled c'.buffer.data) := by
  by_cases hempty : packet = []
  · -- `Read` has failed
    subst hempty
    exact ⟨false, c, w, fs, rfl, hP, nofun⟩
  rw [← List.append_assoc] at hline
  have hdrained := drained_onEvent (h := h) (w := w) hs hempty hread
  rcases (reader h).drain_of_messages_tail (R := fun st r => r = .closed st.1 st.2) hstep
    (fun {st part later} _ hpart => (look_of_stuck htail hpart).imp id fun hl => ⟨_, hl, rfl⟩)
    hP hline with ⟨st', buf', fs', hdrain, hP', hline', -⟩ | ⟨st', r, hdrain, hP', rfl⟩
  · rw [hdrain] at hdrained
    obtain ⟨c', hout, hst, hdata⟩ := Outcome.exists_of_drained_idle hdrained
    refine ⟨true, c', st'.2, fs', hout, by rw [hst]; exact hP', fun _ => ⟨?_, ?_⟩⟩
    · rw [hdata]
      exact hline'
    · exact settled_of_onEvent hs hread hout
  · rw [hdrain] at hdrained
    cases hout : c.onEvent h packet w with
    | fault w' =>
        rw [hout] at hdrained
        cases hdrained
    | returned ok c' w' =>
        rw [hout] at hdrained
        cases ok with
        | true => cases hdrained
        | false =>
            obtain ⟨hc, hw⟩ := Halt.closed.inj (Drained.halted.inj hdrained)
            exact ⟨false, c', w', [], rfl, by rw [hc, hw]; exact hP', nofun⟩

/-- Between events no whole frame is in the buffer. -/
theorem Settled.eq_nil {k : Key} {fs : List (Frame k)}
    (hs : Settled (fs.map Frame.bytes).flatten) : fs = [] := by
  cases fs with
  | nil => rfl
  | cons f fs =>
      -- the first frame would be there whole
      have hread := Packet.read_bytes f.packet (fs.map Frame.bytes).flatten
      have hshort := (hs _ hread).2.2
      have hlen := f.fits.length_bytes
      rw [List.map_cons, List.flatten_cons, List.length_append] at hshort
      simp only [Frame.bytes] at hshort
      omega

/-- Every payload that one connection sends is delivered by the other, once and in order, however
the frames are cut into reads. -/
theorem ROMConnection.onEvents_sendPackets (h : Host ω) (stack : Stack (ω × List Event))
    (hreturns : ∀ p w, (h.onPacket p w).isSome) (sender : Session) {c : ROMConnection}
    (hbuffer : c.buffer = .empty) (hhave : c.haveKey = true) (hkey : c.key = sender.key)
    {ps : List Packet} (hps : ∀ p ∈ ps, p.Fits) (w : ω) :
    ∃ sender' stream, sender.sendPackets [] ps = some (sender', stream) ∧
      ∀ reads : List (List UInt8), (∀ r ∈ reads, IsRead r) → reads.flatten = stream →
        ∃ c' w' trace, c.onEvents (h.recording stack) (w, []) reads =
            .returned true c' (w', trace) ∧
          deliveries trace = (ps.map fun p => (p.pLength, p.pData)) ∧ c'.buffer = .empty := by
  obtain ⟨sender', fs, hsend, hdata, hpayloads⟩ := sender.sendPackets_eq [] hps
  refine ⟨sender', _, hsend, ?_⟩
  intro reads hreads hcut
  have hs : Settled c.buffer.data := by
    rw [hbuffer]
    exact settled_nil
  -- the payloads delivered so far, and those of the frames that are left
  let P (st : Session × ω × List Event) (fs : List (Frame sender.key)) : Prop :=
    st.1.Holds sender.key ∧ (∀ f ∈ fs, f.IsData) ∧
      deliveries st.2.2 ++ payloads fs = ps.map fun p => (p.pLength, p.pData)
  have hstep : ∀ {st f fs}, P st (f :: fs) → ∃ st', (reader (h.recording stack)).look st f.bytes =
      .take f.bytes.length st' ∧ P st' fs := by
    intro st f fs hP
    obtain ⟨s, w, trace⟩ := st
    obtain ⟨hholds, hfs, hdel⟩ := hP
    obtain ⟨w', trace', hlook, htrace⟩ :=
      look_data stack hreturns hholds (hfs f List.mem_cons_self) w trace
    refine ⟨_, hlook, hholds, fun f' hf' => hfs f' (List.mem_cons_of_mem _ hf'), ?_⟩
    rw [htrace, ← hdel, List.append_assoc, ← payloads_append]
    rfl
  have hstart : P (c.toSession, w, []) fs := ⟨⟨hhave, hkey⟩, hdata, hpayloads⟩
  -- all of the stream at once, which is the same as any reads of it
  obtain ⟨st', hdrain, hP⟩ := Consumer.drain_of_all_messages hstep hstart
  have hdrained := onEvents_eq_feed (h := h.recording stack) (w := (w, [])) hs hreads
  rw [Consumer.feed_of_wait (look_eq_wait_iff.2 hs), hcut, hbuffer, Buffer.data_empty,
    List.nil_append, List.nil_append, hdrain] at hdrained
  obtain ⟨c', hout, hst, hdata'⟩ := Outcome.exists_of_drained_idle hdrained
  refine ⟨c', st'.2.1, st'.2.2, hout, ?_, ?_⟩
  · simpa using hP.2.2
  · obtain ⟨s', ⟨data, hlt⟩⟩ := c'
    cases hdata'
    rfl

/-- A packet with three bytes of data, in memory that is otherwise not set. -/
def threeBytes : Packet := ⟨15, 0, 0, 0, 0, 0, [1, 2, 3]⟩

theorem ROMConnection.onEvents_sendPackets_threeBytes :
    ∃ sender' stream, (fresh.toSession).sendPackets [] [threeBytes, threeBytes] =
        some (sender', stream) ∧
      ∀ reads : List (List UInt8), (∀ r ∈ reads, IsRead r) → reads.flatten = stream →
        ∃ c' w' trace, ({ fresh with haveKey := true } : ROMConnection).onEvents
            (Host.quiet.recording .unused) ((), []) reads = .returned true c' (w', trace) ∧
          deliveries trace = ([threeBytes, threeBytes].map fun p => (p.pLength, p.pData)) ∧
            c'.buffer = .empty :=
  onEvents_sendPackets Host.quiet _ (fun _ _ => rfl) fresh.toSession
    (c := { fresh with haveKey := true }) rfl rfl rfl
    (by simp only [List.mem_cons, List.not_mem_nil, or_false, or_self, forall_eq]
        exact ⟨by decide, by decide⟩) ()

end OpenRom
