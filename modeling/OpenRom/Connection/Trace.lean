import OpenRom.Connection.Course
import OpenRom.Connection.Frames
import OpenRom.Connection.SeenAs

/-!
# What a connection does with a stream

`Host.recording` is a host that also notes every call a connection makes of it. When writes are
complete, the notes, and the state the connection is left in, depend on the bytes received and not
on the reads they came in, as long as no keepalive request is among the frames that the loop comes
to. With one they depend on the stack behind the packet of `SendKeepaliveReply`
(`onEvents_agree_iff`).
-/

set_option autoImplicit false

namespace OpenRom

open Reassembly

variable {ω : Type}

/-- What a connection does that can be seen from outside. -/
inductive Event
  | raw (p : Packet)
  | newKey (k : Key)
  | keepaliveReply (bs : List UInt8)
  | packet (p : Packet)
  deriving DecidableEq, Repr

/-- The host, with a list of events kept in its world. `stack` is the memory behind the packet of
`SendKeepaliveReply`, which may be different at every reply. -/
def Host.recording (h : Host ω) (stack : Stack (ω × List Event)) : Host (ω × List Event) where
  onRawPacketReceived p st := (h.onRawPacketReceived p st.1, st.2 ++ [.raw p])
  onNewKey s st := (h.onNewKey s st.1).map fun w => (w, st.2 ++ [.newKey s.key])
  onPacket p st := (h.onPacket p st.1).map fun r => (r.1, r.2, st.2 ++ [.packet p])
  write bs st := ((h.write bs st.1).1, (h.write bs st.1).2, st.2 ++ [.keepaliveReply bs])
  stack := stack
  onPacket_length := by
    intro p p' st st' hp
    obtain ⟨r, hr, heq⟩ := Option.map_eq_some_iff.1 hp
    cases heq
    exact h.onPacket_length hr

/-! ## Ends that cannot be told apart -/

/-- Two ways to end that cannot be told apart: the worlds are the same, and where both connections
live on, so are they. -/
def Outcome.Agree : Outcome ω → Outcome ω → Prop
  | .fault w, .fault w' => w = w'
  | .returned false _ w, .returned false _ w' => w = w'
  | .returned true c w, .returned true c' w' => c = c' ∧ w = w'
  | _, _ => False

theorem Outcome.agree_of_drained {o o' : Outcome ω} (h : o.drained = o'.drained) : o.Agree o' := by
  cases o with
  | fault w =>
      cases o' with
      | fault w' => simpa [drained, Agree] using h
      | returned ok' c' w' => cases ok' <;> simp [drained] at h
  | returned ok c w =>
      cases o' with
      | fault w' => cases ok <;> simp [drained] at h
      | returned ok' c' w' =>
          cases ok <;> cases ok' <;> simp [drained] at h
          · -- both are given up, and what is in their buffers is not compared
            exact h.2
          · -- both live on with the same session and the same bytes
            obtain ⟨⟨hs, hw⟩, hb⟩ := h
            obtain ⟨s, ⟨data, hd⟩⟩ := c
            obtain ⟨s', ⟨data', hd'⟩⟩ := c'
            cases hs
            cases hb
            exact ⟨rfl, hw⟩

theorem Outcome.eq_fault_of_drained {o : Outcome ω} {w : ω}
    (h : o.drained = .halted (.fault w)) : o = .fault w := by
  cases o with
  | fault w' =>
      cases h
      rfl
  | returned ok c w' => cases ok <;> cases h

/-! ## The frames that the loop comes to -/

/-- A keepalive request is among the frames at the front of the stream, and the loop comes to it:
what it makes of the frames in front of it, it goes on after. -/
inductive Asked (h : Host ω) : Session → ω → List UInt8 → Prop
  | now {s : Session} {w : ω} {f : Packet} {more : List UInt8} :
      f.Fits → f.IsKeepaliveRequest → Asked h s w (f.bytes ++ more)
  | later {s s' : Session} {w w' : ω} {f p : Packet} {more : List UInt8} :
      f.Fits → ¬ f.IsKeepaliveRequest → s.handlePacket h f w = .flush s' p w' →
        Asked h s' w' more → Asked h s w (f.bytes ++ more)

/-- What is at the front of the bytes: a frame, a part of one, or a header with a length that is not
accepted. -/
theorem front_cases (bs : List UInt8) :
    (∃ (f : Packet) (more : List UInt8), f.Fits ∧ bs = f.bytes ++ more) ∨ Settled bs ∨
      ∀ (h : Host ω) (st : Session × ω), look h st bs = .halt (.closed st.1 st.2) := by
  cases hr : Packet.read bs with
  | none => exact Or.inr (Or.inl fun p hp => by rw [hr] at hp; cases hp)
  | some p =>
      by_cases hbound : p.pLength.toNat < sizeofPacket ∨ p.pLength.toNat ≥ s_MaxPacketSize
      · exact Or.inr (Or.inr fun h st => by simp only [look, hr, if_pos hbound])
      have hbytes := Packet.bytes_of_read hr
      have hlen := congrArg List.length hbytes
      rw [Packet.length_bytes] at hlen
      by_cases hshort : bs.length < p.pLength.toNat
      · refine Or.inr (Or.inl fun q hq => ?_)
        rw [hr] at hq
        cases hq
        omega
      -- all of the frame is there
      refine Or.inl ⟨p.frame, p.pData.drop (p.pLength.toNat - sizeofPacket), ⟨?_, ?_⟩, ?_⟩
      · rw [Packet.frame, List.length_take]
        show p.pLength.toNat = _
        omega
      · show p.pLength.toNat < _
        omega
      · rw [← hbytes, Packet.bytes, Packet.bytes, List.append_assoc]
        exact congrArg (p.header ++ ·) (List.take_append_drop _ _).symm

/-- There is one frame at most at the front of the bytes. -/
theorem Packet.Fits.append_inj {f g : Packet} (hf : f.Fits) (hg : g.Fits) {more more' : List UInt8}
    (heq : f.bytes ++ more = g.bytes ++ more') : f = g ∧ more = more' := by
  have hread := Packet.read_bytes f more
  rw [heq, Packet.read_bytes, Option.some_inj] at hread
  have hframe := congrArg Packet.frame hread
  rw [Packet.frame_append (Nat.le_of_eq hg.length_eq), hg.frame,
    Packet.frame_append (Nat.le_of_eq hf.length_eq), hf.frame] at hframe
  subst hframe
  exact ⟨rfl, List.append_cancel_left heq⟩

theorem not_asked_nil {h : Host ω} {s : Session} {w : ω} : ¬ Asked h s w [] := by
  intro ha
  generalize hbs : ([] : List UInt8) = bs at ha
  cases ha with
  | now hf | later hf =>
      have hlen := congrArg List.length hbs
      rw [List.length_append, Packet.length_bytes, sizeofPacket] at hlen
      simp only [List.length_nil] at hlen
      omega

theorem not_asked_append {h : Host ω} {s : Session} {w : ω} {f : Packet} {more : List UInt8}
    (hf : f.Fits) (hreq : ¬ f.IsKeepaliveRequest) (hmore : ∀ s w, ¬ Asked h s w more) :
    ¬ Asked h s w (f.bytes ++ more) := by
  intro ha
  generalize hbs : f.bytes ++ more = bs at ha
  cases ha with
  | now hg hreq' =>
      obtain ⟨rfl, -⟩ := hf.append_inj hg hbs
      exact hreq hreq'
  | later hg _ _ ha' =>
      obtain ⟨-, rfl⟩ := hf.append_inj hg hbs
      exact hmore _ _ ha'

/-! ## Two stacks -/

theorem Host.recording_seenAs (h : Host ω) :
    (h.recording (h.stack.comap Prod.fst)).SeenAs Prod.fst h where
  onRawPacketReceived _ _ := rfl
  onNewKey s st := by
    simp only [recording]
    cases h.onNewKey s st.1 <;> rfl
  onPacket p st := by
    simp only [recording]
    cases h.onPacket p st.1 <;> rfl
  write _ _ := rfl
  stackBytes _ := rfl
  stackSpare _ := rfl

section Recording

variable {h : Host ω} {stack stack' : Stack (ω × List Event)} {s s' : Session} {f p : Packet}

variable (stack stack') in
/-- A frame that is not answered does not touch the stack. -/
theorem Session.handlePacket_recording (hf : ¬ f.IsKeepaliveRequest) (st : ω × List Event) :
    s.handlePacket (h.recording stack) f st = s.handlePacket (h.recording stack') f st := by
  have hcourse := s.handlePacket_course (h.recording stack) f st
  have hcourse' := s.handlePacket_course (h.recording stack') f st
  cases hc : s.course f with
  | newKey =>
      rw [hc] at hcourse hcourse'
      obtain ⟨_, hhandle⟩ := hcourse
      obtain ⟨_, hhandle'⟩ := hcourse'
      rw [hhandle, hhandle']
      rfl
  | keepalive => exact absurd (course_eq_keepalive_iff.1 hc) hf
  | badKeyLength | badHeader | notEncrypted | noKey | outsideKey | badData key | deliver key =>
      rw [hc] at hcourse hcourse'
      exact hcourse.trans hcourse'.symm

variable (h s stack) in
/-- And what is noted of it changes nothing. -/
theorem Session.handlePacket_eq_map (hf : ¬ f.IsKeepaliveRequest) (w : ω) (trace : List Event) :
    s.handlePacket h f w = (s.handlePacket (h.recording stack) f (w, trace)).map Prod.fst := by
  rw [handlePacket_recording stack (h.stack.comap Prod.fst) hf]
  exact handlePacket_seenAs h.recording_seenAs s f (w, trace)

/-- Bytes that the program needs. -/
def Stack.needed (bytes : UInt32) : Stack ω := ⟨fun _ => bytes, fun _ => false⟩

/-- The bytes of the reply, when these are behind its packet. -/
def replyBytes (stack : UInt32) : List UInt8 :=
  ((⟨0x10, ROM_PACKET_FLAG_ALIVE_REPLY, 0, 0, 0xff, 0, le32 stack⟩ : Packet).sealWith 8).bytes

/-- The reply to a request. The program ends with it when it needs what is behind the packet. -/
theorem Session.handlePacket_request (hf : f.IsKeepaliveRequest) (w : ω) (trace : List Event)
    (bytes : UInt32) :
    ∃ w', s.handlePacket (h.recording (.needed bytes)) f (w, trace) =
      .fault (w', trace ++ [.raw f] ++ [.keepaliveReply (replyBytes bytes)]) := by
  have hcourse := s.handlePacket_course (h.recording (.needed bytes)) f (w, trace)
  rw [course_eq_keepalive_iff.2 hf] at hcourse
  refine ⟨(h.write (replyBytes bytes) (h.onRawPacketReceived f w)).2, hcourse.trans ?_⟩
  have hkey : s.key.byteFor 0xff = some 8 := if_neg fun hne => hne rfl
  rw [replyBytes]
  simp only [sendKeepaliveReply, checksumAndSend, hkey, Option.bind_eq_bind, Option.bind_some,
    Host.recording, Packet.pLength_sealWith]
  rfl

/-- Without a request the reader makes the same of the bytes. -/
theorem drain_recording {w : ω} {bs : List UInt8} (hnot : ¬ Asked h s w bs) (trace : List Event) :
    (reader (h.recording stack)).drain (s, w, trace) bs =
      (reader (h.recording stack')).drain (s, w, trace) bs := by
  induction hk : bs.length using Nat.strongRecOn generalizing s w trace bs with
  | ind k ih =>
      rcases front_cases (ω := ω × List Event) bs with ⟨f, more, hf, rfl⟩ | hsettled | hclosed
      · have hreq : ¬ f.IsKeepaliveRequest := fun hreq => hnot (.now hf hreq)
        have hlook : (reader (h.recording stack)).look (s, w, trace) f.bytes = _ := look_of_fits hf
        have hlook' : (reader (h.recording stack')).look (s, w, trace) f.bytes = _ :=
          look_of_fits hf
        rw [Session.handlePacket_recording stack stack' hreq] at hlook
        cases hh : s.handlePacket (h.recording stack') f (w, trace) with
        | fault st =>
            rw [hh] at hlook hlook'
            rw [Consumer.drain_append_of_halt hlook, Consumer.drain_append_of_halt hlook']
        | stop s' p st =>
            rw [hh] at hlook hlook'
            rw [Consumer.drain_append_of_halt hlook, Consumer.drain_append_of_halt hlook']
        | flush s' p st =>
            rw [hh] at hlook hlook'
            rw [Consumer.drain_append_of_take hlook, Consumer.drain_append_of_take hlook']
            have hmap := Session.handlePacket_eq_map h stack' s hreq w trace
            rw [hh] at hmap
            refine ih more.length ?_ (fun ha => hnot (.later hf hreq hmap ha)) st.2 rfl
            rw [← hk, List.length_append, Packet.length_bytes, sizeofPacket]
            omega
      · rw [Consumer.drain_of_wait (look_eq_wait_iff.2 hsettled),
          Consumer.drain_of_wait (look_eq_wait_iff.2 hsettled)]
      · rw [Consumer.drain_of_halt (c := reader (h.recording stack)) (hclosed _ _),
          Consumer.drain_of_halt (c := reader (h.recording stack')) (hclosed _ _)]

/-- With one, two stacks show in the notes. -/
theorem Asked.drain_ne {w : ω} {bs : List UInt8} (ha : Asked h s w bs) (trace : List Event) :
    ∃ st st', (reader (h.recording (.needed 0))).drain (s, w, trace) bs =
        .halted (.fault st) ∧
      (reader (h.recording (.needed 1))).drain (s, w, trace) bs =
        .halted (.fault st') ∧ st ≠ st' := by
  induction ha generalizing trace with
  | @now s w f more hf hreq =>
      -- the last note is the reply, with the bytes that were on the stack
      obtain ⟨w₀, hw₀⟩ := s.handlePacket_request (h := h) hreq w trace 0
      obtain ⟨w₁, hw₁⟩ := s.handlePacket_request (h := h) hreq w trace 1
      have hlook₀ : (reader (h.recording (.needed 0))).look (s, w, trace) f.bytes = _ :=
        look_of_fits hf
      have hlook₁ : (reader (h.recording (.needed 1))).look (s, w, trace) f.bytes = _ :=
        look_of_fits hf
      rw [hw₀] at hlook₀
      rw [hw₁] at hlook₁
      refine ⟨_, _, Consumer.drain_append_of_halt hlook₀ more,
        Consumer.drain_append_of_halt hlook₁ more, fun heq => ?_⟩
      have hlast := congrArg (fun st : ω × List Event => st.2.getLast?) heq
      simp only [List.getLast?_concat, Option.some_inj, Event.keepaliveReply.injEq] at hlast
      exact absurd hlast (by decide)
  | @later s s' w w' f p more hf hreq hh _ ih =>
      -- the frames in front leave the same notes whatever is on the stack
      have hflush (stack) : ∃ st, st.1 = w' ∧
          s.handlePacket (h.recording stack) f (w, trace) = .flush s' p st := by
        have hmap := Session.handlePacket_eq_map h stack s hreq w trace
        rw [hh] at hmap
        cases hr : s.handlePacket (h.recording stack) f (w, trace) with
        | fault st | stop s₁ p₁ st => rw [hr] at hmap; cases hmap
        | flush s₁ p₁ st =>
            rw [hr] at hmap
            cases hmap
            exact ⟨st, rfl, rfl⟩
      obtain ⟨⟨w₁, trace'⟩, rfl, hhandle⟩ := hflush (.needed 0)
      obtain ⟨st, st', hst, hst', hne⟩ := ih trace'
      have htake : (reader (h.recording (.needed 0))).look (s, w, trace) f.bytes = _ :=
        look_bytes hf hhandle
      rw [Session.handlePacket_recording (.needed 0) (.needed 1) hreq] at hhandle
      have htake' : (reader (h.recording (.needed 1))).look (s, w, trace) f.bytes = _ :=
        look_bytes hf hhandle
      exact ⟨st, st', (Consumer.drain_append_of_take htake more).trans hst,
        (Consumer.drain_append_of_take htake' more).trans hst', hne⟩

end Recording

/-- However a stream is cut into reads, and whatever is on the stack, a connection does the same
with it, unless it comes to a keepalive request. -/
theorem ROMConnection.onEvents_agree_iff (h : Host ω) {c : ROMConnection} (hc : c.Reachable) (w : ω)
    {reads reads' : List (List UInt8)} (hreads : ∀ r ∈ reads, IsRead r)
    (hreads' : ∀ r ∈ reads', IsRead r) (hcut : reads.flatten = reads'.flatten) :
    (∀ stack stack' : Stack (ω × List Event),
        (c.onEvents (h.recording stack) (w, []) reads).Agree
          (c.onEvents (h.recording stack') (w, []) reads')) ↔
      ¬ Asked h c.toSession w (c.buffer.data ++ reads.flatten) := by
  have hs := hc.settled
  have hdrained (stack) {reads} (hreads : ∀ r ∈ reads, IsRead r) :
      (c.onEvents (h.recording stack) (w, []) reads).drained =
        (reader (h.recording stack)).drain (c.toSession, w, [])
          (c.buffer.data ++ reads.flatten) := by
    rw [onEvents_eq_feed hs hreads, Consumer.feed_of_wait (look_eq_wait_iff.2 hs)]
  constructor
  · intro hagree ha
    obtain ⟨st, st', hst, hst', hne⟩ := ha.drain_ne []
    have h₀ := hdrained (.needed 0) hreads
    have h₁ := hdrained (.needed 1) hreads'
    rw [hst] at h₀
    rw [← hcut, hst'] at h₁
    have heq := hagree (.needed 0) (.needed 1)
    rw [Outcome.eq_fault_of_drained h₀, Outcome.eq_fault_of_drained h₁] at heq
    exact hne heq
  · intro hnot stack stack'
    refine Outcome.agree_of_drained ?_
    rw [hdrained stack hreads, hdrained stack' hreads', ← hcut, drain_recording hnot]

/-- A host that does nothing. -/
def Host.quiet : Host Unit where
  onRawPacketReceived _ w := w
  onNewKey _ w := some w
  onPacket p w := some (p, w)
  write bs w := (bs.length, w)
  stack := .unused
  onPacket_length h := by cases h; exact ⟨rfl, rfl⟩

/-- A key frame and a data frame under its key, each in a read, and cut elsewhere. -/
theorem ROMConnection.onEvents_agree_data :
    (fresh.onEvents (Host.quiet.recording .unused) ((), [])
        [[22, 0, 0, 0, 3, 0, 0, 255, 0, 0, 0, 0, 1, 2, 3, 4, 5, 6, 7, 8, 9, 10],
          [14, 0, 0, 0, 2, 29, 46, 0, 1, 0, 0, 0, 3, 6]]).Agree
      (fresh.onEvents (Host.quiet.recording (.needed 7)) ((), [])
        [[22, 0, 0, 0, 3, 0, 0, 255, 0], [0, 0, 0, 1, 2, 3, 4, 5, 6, 7, 8, 9, 10, 14],
          [0, 0, 0, 2, 29, 46, 0, 1, 0, 0, 0, 3, 6]]) := by
  let key : Packet := ⟨22, 3, 0, 0, 255, 0, [1, 2, 3, 4, 5, 6, 7, 8, 9, 10]⟩
  let data : Packet := ⟨14, 2, 29, 46, 0, 1, [3, 6]⟩
  have hkey : key.Fits := ⟨rfl, by decide⟩
  have hdata : data.Fits := ⟨rfl, by decide⟩
  have hnot : ¬ Asked Host.quiet fresh.toSession () (key.bytes ++ (data.bytes ++ [])) :=
    not_asked_append hkey (by unfold Packet.IsKeepaliveRequest; decide) fun _ _ =>
      not_asked_append hdata (by unfold Packet.IsKeepaliveRequest; decide) fun _ _ => not_asked_nil
  have hbytes : key.bytes ++ (data.bytes ++ []) = (fresh.buffer.data ++
      [[22, 0, 0, 0, 3, 0, 0, 255, 0, 0, 0, 0, 1, 2, 3, 4, 5, 6, 7, 8, 9, 10],
        [14, 0, 0, 0, 2, 29, 46, 0, 1, 0, 0, 0, 3, 6]].flatten) := by decide
  rw [hbytes] at hnot
  exact (onEvents_agree_iff Host.quiet .fresh () (by simp [IsRead, s_MaxPacketSize])
    (by simp [IsRead, s_MaxPacketSize]) (by decide)).2 hnot .unused (.needed 7)

/-- A keepalive request in one read, and cut in two. The replies carry what is behind their
packets. -/
theorem ROMConnection.onEvents_disagree_keepalive :
    ¬ (fresh.onEvents (Host.quiet.recording ⟨fun _ => 1, fun _ => true⟩) ((), [])
        [[12, 0, 0, 0, 4, 0, 15, 255, 0, 0, 0, 0]]).Agree
      (fresh.onEvents (Host.quiet.recording ⟨fun _ => 2, fun _ => true⟩) ((), [])
        [[12, 0, 0], [0, 4, 0, 15, 255, 0, 0, 0, 0]]) := by
  rintro ⟨-, hworld⟩
  exact absurd hworld (by decide)

end OpenRom
