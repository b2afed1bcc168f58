import OpenRom.Protocol.Dispatch

/-!
# Requests

What the generated parser makes of a frame that it dispatches: an object of `P` or `P_S`, whose
constructor asserts that the frame is not longer than the object and copies as many bytes as the
object has. On a frame of any bytes, `Parser::Process` and the constructor that it calls stay inside
of the frame, without a failed assertion, unless a packet that has a length but no subpackets, or
subpackets but no length, takes it (`staysInside_iff`).
-/

set_option autoImplicit false

namespace OpenRom

namespace ProtocolDefinition

/-! ## Constructors -/

/-- The constructor of a packet from a frame. Nothing, when the assertion fails or it reads behind
the frame. -/
def Packet.constructAlone (p : Packet) (frame : List UInt8) : Option (List UInt8) :=
  let size := romPacketSize + sizeofMembers p.actions
  if frame.length ≤ size ∧ size ≤ frame.length then some ((frame.take size).drop romPacketSize)
  else none

/-- The object that `Parser::Process` constructs before it calls `OnP` or `OnP_S`: its members. -/
def request (d : ProtocolDefinition) (frame : List UInt8) : Dispatch → Option (List UInt8)
  | .on i none => do
      let p ← d.packets[i]?
      p.constructAlone frame
  | .on i (some k) => do
      let p ← d.packets[i]?
      let sp ← p.subpackets[k]?
      p.construct sp frame
  | .undefined => none

/-- If the frame is dispatched, the request has all bytes of the frame behind its header, and
nothing behind the frame is read, neither for a condition nor for the request. -/
def StaysInside (d : ProtocolDefinition) (parser : List PacketBlock) (frame : List UInt8) : Prop :=
  ∀ dispatch, parserProcess parser frame = some dispatch →
    d.request frame dispatch = some (frame.drop romPacketSize)

/-! ## Candidates -/

theorem getElem?_subpacketCandidates {i : Nat} {p : Packet} {k : Nat} {sps : List Subpacket}
    {c : Candidate} (h : c ∈ p.subpacketCandidates i k sps) :
    c.index = i ∧ c.packet = p ∧ ∃ j sp, c.subpacket = some (k + j, sp) ∧ sps[j]? = some sp := by
  induction sps generalizing k with
  | nil => cases h
  | cons sp sps ih =>
      rcases List.mem_cons.1 h with rfl | h
      · exact ⟨rfl, rfl, 0, sp, rfl, rfl⟩
      · obtain ⟨hi, hp, j, sp', hsub, hj⟩ := ih h
        refine ⟨hi, hp, j + 1, sp', ?_, hj⟩
        rw [hsub, Nat.add_right_comm]
        rfl

/-- The packet and the subpacket of a candidate are where its dispatch says. -/
theorem getElem?_candidatesFrom {i : Nat} {ps : List Packet} {c : Candidate}
    (h : c ∈ candidatesFrom i ps) :
    ∃ j, c.index = i + j ∧ ps[j]? = some c.packet ∧
      (c.subpacket = none ∧ c.packet.subpackets = [] ∨
        ∃ k sp, c.subpacket = some (k, sp) ∧ c.packet.subpackets[k]? = some sp) := by
  induction ps generalizing i with
  | nil => cases h
  | cons p ps ih =>
      rcases List.mem_append.1 h with h | h
      · by_cases hsub : p.subpackets = []
        · rw [Packet.candidates_alone hsub, List.mem_singleton] at h
          subst h
          exact ⟨0, rfl, rfl, Or.inl ⟨rfl, hsub⟩⟩
        · rw [Packet.candidates_subpackets hsub] at h
          obtain ⟨hi, hp, k, sp, hc, hk⟩ := getElem?_subpacketCandidates h
          rw [Nat.zero_add] at hc
          refine ⟨0, hi, congrArg some hp.symm, Or.inr ⟨k, sp, hc, ?_⟩⟩
          rw [hp]
          exact hk
      · obtain ⟨j, hi, hp, hsub⟩ := ih h
        exact ⟨j + 1, by omega, hp, hsub⟩

/-- The request for a candidate is the frame, if it has the size of the candidate. -/
theorem request_dispatch {d : ProtocolDefinition} {c : Candidate} (hc : c ∈ d.candidates)
    (hsized : Sized c.body) (frame : List UInt8) :
    d.request frame c.dispatch = some (frame.drop romPacketSize) ↔
      frame.length = romPacketSize + c.size := by
  obtain ⟨j, hindex, hpacket, hsub⟩ := getElem?_candidatesFrom hc
  rw [Nat.zero_add] at hindex
  -- a constructor that takes the whole frame
  have hwhole : ∀ size, (if frame.length ≤ size ∧ size ≤ frame.length then
      some ((frame.take size).drop romPacketSize) else none) = some (frame.drop romPacketSize) ↔
        frame.length = size := by
    intro size
    by_cases hlen : frame.length = size
    · rw [if_pos ⟨Nat.le_of_eq hlen, Nat.le_of_eq hlen.symm⟩,
        List.take_of_length_le (Nat.le_of_eq hlen)]
      exact iff_of_true rfl hlen
    · rw [if_neg fun hboth => hlen (Nat.le_antisymm hboth.1 hboth.2)]
      exact iff_of_false (fun heq => by cases heq) hlen
  rcases hsub with ⟨hnone, -⟩ | ⟨k, sp, hsome, hk⟩
  · have hdispatch : d.request frame c.dispatch = c.packet.constructAlone frame := by
      unfold Candidate.dispatch
      rw [hnone, Option.map_none, request, hindex, hpacket]
      rfl
    rw [hdispatch, Candidate.size_alone hnone]
    exact hwhole _
  · have hbody := Candidate.body_subpacket hsome
    have hdispatch : d.request frame c.dispatch = c.packet.construct sp frame := by
      unfold Candidate.dispatch
      rw [hsome, Option.map_some, request, hindex, hpacket]
      simp only [Option.bind_eq_bind, Option.bind_some, hk]
    have hsize : c.packet.sizeofWith sp = c.size := by
      rw [Packet.sizeofWith, hasTransformation_of_sized (hbody ▸ hsized),
        if_neg Bool.false_ne_true, Candidate.size, hbody]
      rfl
    rw [hdispatch, ← hsize]
    exact hwhole _

/-! ## Faults -/

/-- The parser reads behind the bytes, or an assertion fails. -/
inductive Candidate.Faults (bs : List UInt8) (c : Candidate) : Prop
  /-- The conditions of a subpacket are checked where only the header of the packet is. -/
  | beyond : ¬ c.Delimited → bs.length = sizeofMembers c.packet.actions →
      (∀ x ∈ c.packet.comparisons, x.Compared bs) → Faults bs c
  /-- The frame is longer than the object, as the length of a packet without subpackets says. -/
  | overlong : c.subpacket = none → (lengthOffset 0 c.packet.actions).isSome →
      c.size < bs.length → c.Fits bs → c.Compared bs → Faults bs c

/-- The parser constructs the request from the bytes. -/
structure Candidate.Takes (bs : List UInt8) (c : Candidate) : Prop where
  delimited : c.Delimited
  length_eq : bs.length = c.size
  fits : c.Fits bs
  compared : c.Compared bs

/-- Every candidate that faults comes after one that takes the bytes. -/
def FaultsLate (d : ProtocolDefinition) (bs : List UInt8) : Prop :=
  ∀ (i : Nat) (c : Candidate), d.candidates[i]? = some c → c.Faults bs →
    ∃ (j : Nat) (c' : Candidate), j < i ∧ d.candidates[j]? = some c' ∧ c'.Takes bs

section Frame

variable {d : ProtocolDefinition} {c : Candidate} (h : c.Regular) (hc : c ∈ d.candidates)
  {frame : List UInt8}
  (hlen : frame.length = romPacketSize + (frame.drop romPacketSize).length)

include h hc hlen

/-- What the parser makes of the candidate is no request of the whole frame. -/
theorem Candidate.Regular.faults_iff :
    (∃ b, c.generated (frame.drop romPacketSize) = some b ∧
      d.request frame b ≠ some (frame.drop romPacketSize)) ↔
        c.Faults (frame.drop romPacketSize) := by
  have hrequest := request_dispatch hc h.bodySized frame
  constructor
  · rintro ⟨b, hgen, hne⟩
    rcases c.generated_cases (frame.drop romPacketSize) with hnone | hdispatch | hundefined
    · rw [hnone] at hgen
      cases hgen
    · rw [hdispatch] at hgen
      obtain rfl := Option.some.inj hgen
      obtain ⟨hfits, hcompared, ⟨-, hsize⟩ | ⟨hsub, hlength, hlt⟩⟩ :=
        h.generated_eq_dispatch_iff.1 hdispatch
      · exact absurd (hrequest.2 (by omega)) hne
      · exact .overlong hsub hlength hlt hfits hcompared
    · obtain ⟨hdelimited, hsize, hheader⟩ := h.generated_eq_undefined_iff.1 hundefined
      exact .beyond hdelimited hsize hheader
  · intro hfaults
    cases hfaults with
    | beyond hdelimited hsize hheader =>
        refine ⟨_, h.generated_eq_undefined_iff.2 ⟨hdelimited, hsize, hheader⟩, ?_⟩
        exact fun heq => by cases heq
    | overlong hsub hlength hlt hfits hcompared =>
        refine ⟨_, h.generated_eq_dispatch_iff.2
          ⟨hfits, hcompared, Or.inr ⟨hsub, hlength, hlt⟩⟩, fun heq => ?_⟩
        have hsize := hrequest.1 heq
        omega

theorem Candidate.Regular.takes_iff :
    (∃ b, c.generated (frame.drop romPacketSize) = some b ∧
      d.request frame b = some (frame.drop romPacketSize)) ↔
        c.Takes (frame.drop romPacketSize) := by
  have hrequest := request_dispatch hc h.bodySized frame
  constructor
  · rintro ⟨b, hgen, heq⟩
    rcases c.generated_cases (frame.drop romPacketSize) with hnone | hdispatch | hundefined
    · rw [hnone] at hgen
      cases hgen
    · rw [hdispatch] at hgen
      obtain rfl := Option.some.inj hgen
      have hsize := hrequest.1 heq
      obtain ⟨hfits, hcompared, ⟨hdelimited, -⟩ | ⟨-, -, hlt⟩⟩ :=
        h.generated_eq_dispatch_iff.1 hdispatch
      · exact ⟨hdelimited, by omega, hfits, hcompared⟩
      · omega
    · rw [hundefined] at hgen
      obtain rfl := Option.some.inj hgen
      cases heq
  · rintro ⟨hdelimited, hsize, hfits, hcompared⟩
    refine ⟨_, h.generated_eq_dispatch_iff.2
      ⟨hfits, hcompared, Or.inl ⟨hdelimited, hsize⟩⟩, hrequest.2 (by omega)⟩

end Frame

/-- The emitted parser and the constructors stay inside of a frame, and every request has all bytes
of the frame, if and only if every candidate that faults on the frame comes after one that takes
it. -/
theorem staysInside_iff {d : ProtocolDefinition} (hd : d.Comparable)
    {parser : List PacketBlock} (hgen : generateParser d = some parser) (frame : List UInt8) :
    d.StaysInside parser frame ↔
      (romPacketSize ≤ frame.length → LittleEndian.decode (frame.take 4) = frame.length →
        d.FaultsLate (frame.drop romPacketSize)) := by
  have hregular := regular_of_mem hd hgen
  by_cases hsize : romPacketSize ≤ frame.length
  · by_cases hlength : LittleEndian.decode (frame.take 4) = frame.length
    · have hlen : frame.length = romPacketSize + (frame.drop romPacketSize).length := by
        rw [List.length_drop]
        omega
      -- the parser does what the first candidate with a result does
      have hrun : parserProcess parser frame =
          d.candidates.findSome? (Candidate.generated (frame.drop romPacketSize)) := by
        calc parserProcess parser frame
            = runPackets (LittleEndian.decode (frame.take 4)) (frame.drop romPacketSize) parser :=
              (if_neg (Nat.not_lt.2 hsize)).trans (if_neg fun hne => hne hlength)
          _ = runPackets (romPacketSize + (frame.drop romPacketSize).length)
                (frame.drop romPacketSize) parser := by rw [hlength, ← hlen]
          _ = _ := runPackets_generated
                (fun p hp => generateMatchCondition_ne_nil (hd.headerTag p hp))
                (fun p hp sp hsp => generateMatchCondition_ne_nil (hd.bodyTag p hp sp hsp)) hgen
      rw [StaysInside, hrun, imp_iff_right hsize, imp_iff_right hlength]
      refine List.forall_findSome?_iff.trans ?_
      -- a result is bad where the candidate faults, and good where it is taken
      have hfaults : ∀ (i : Nat) (c : Candidate), d.candidates[i]? = some c → _ :=
        fun i c hi => (hregular c (List.mem_of_getElem? hi)).faults_iff (List.mem_of_getElem? hi)
          hlen
      have htakes : ∀ (i : Nat) (c : Candidate), d.candidates[i]? = some c → _ :=
        fun i c hi => (hregular c (List.mem_of_getElem? hi)).takes_iff (List.mem_of_getElem? hi)
          hlen
      constructor
      · intro hgood i c hi hc
        obtain ⟨b, hb, hbad⟩ := (hfaults i c hi).2 hc
        obtain ⟨j, c', hj, hc', hrequest⟩ := hgood i c hi b hb hbad
        exact ⟨j, c', hj, hc', (htakes j c' hc').1 hrequest⟩
      · intro hlate i c hi b hb hbad
        obtain ⟨j, c', hj, hc', hrequest⟩ := hlate i c hi ((hfaults i c hi).1 ⟨b, hb, hbad⟩)
        exact ⟨j, c', hj, hc', (htakes j c' hc').2 hrequest⟩
    · have hnone : parserProcess parser frame = none :=
        (if_neg (Nat.not_lt.2 hsize)).trans (if_pos hlength)
      refine iff_of_true (fun dispatch heq => ?_) fun _ hsame => absurd hsame hlength
      rw [hnone] at heq
      cases heq
  · have hnone : parserProcess parser frame = none := if_pos (Nat.not_le.1 hsize)
    refine iff_of_true (fun dispatch heq => ?_) fun hle => absurd hle hsize
    rw [hnone] at heq
    cases heq

/-- No frame is a fault where the packets with subpackets are those that have a length. -/
theorem staysInside_of_lengths {d : ProtocolDefinition} (hd : d.Comparable)
    {parser : List PacketBlock} (hgen : generateParser d = some parser)
    (hlengths : ∀ p ∈ d.packets, (lengthOffset 0 p.actions).isSome ↔ p.subpackets ≠ [])
    (frame : List UInt8) : d.StaysInside parser frame := by
  refine (staysInside_iff hd hgen frame).2 fun _ _ i c hi hc => ?_
  obtain ⟨k, -, hpacket, hsub⟩ := getElem?_candidatesFrom (List.mem_of_getElem? hi)
  have hlength := hlengths _ (List.mem_of_getElem? hpacket)
  cases hc with
  | beyond hdelimited _ _ =>
      obtain ⟨hsome, hnone⟩ := Candidate.of_not_delimited hdelimited
      rcases hsub with ⟨hsub, -⟩ | ⟨k, sp, -, hsp⟩
      · rw [hsub] at hsome
        cases hsome
      · have hfound := hlength.2 (List.ne_nil_of_mem (List.mem_of_getElem? hsp))
        rw [hnone] at hfound
        cases hfound
  | overlong hnone hfound _ _ _ =>
      rcases hsub with ⟨-, hnil⟩ | ⟨k, sp, hsome, -⟩
      · exact absurd hnil (hlength.1 hfound)
      · rw [hnone] at hsome
        cases hsome

end ProtocolDefinition

end OpenRom
