import OpenRom.Protocol.MatchCondition
import OpenRom.Protocol.Soundness

/-!
# The generated parser and the interpreter

Both try the packets of a definition, and the subpackets of each, in the same order. They come to
the same result on a frame if and only if no candidate that only one of them takes comes before the
first that both take (`agrees_iff_misjudgedLate`). `Misjudged` says which candidates only one takes.
-/

set_option autoImplicit false

namespace OpenRom

namespace ProtocolDefinition

/-! ## Definitions that are compared -/

/-- All fields have a constant size, every packet and subpacket begins with a scalar that has a
fixed value, and only the last field of a header can be a length. -/
structure Comparable (d : ProtocolDefinition) : Prop where
  plain : d.Plain
  header : ∀ p ∈ d.packets, Sized p.actions
  body : ∀ p ∈ d.packets, ∀ sp ∈ p.subpackets, Sized sp.actions
  headerTag : ∀ p ∈ d.packets, (tagOf p.actions).isSome
  bodyTag : ∀ p ∈ d.packets, ∀ sp ∈ p.subpackets, (tagOf sp.actions).isSome
  headerLength : ∀ p ∈ d.packets, LengthLast p.actions
  bodyLength : ∀ p ∈ d.packets, ∀ sp ∈ p.subpackets, NoLengths sp.actions

/-! ## Candidates -/

/-- What a frame can be dispatched to: a packet without subpackets, or one with one of its
subpackets. -/
structure Candidate where
  index : Nat
  packet : Packet
  subpacket : Option (Nat × Subpacket)

/-- The call that takes the frame. -/
def Candidate.dispatch (c : Candidate) : Dispatch := .on c.index (c.subpacket.map Prod.fst)

/-- The fields behind those of the packet. -/
def Candidate.body (c : Candidate) : List Action :=
  match c.subpacket with
  | none => []
  | some (_, sp) => sp.actions

def Packet.subpacketCandidates (i : Nat) (p : Packet) (k : Nat) : List Subpacket → List Candidate
  | [] => []
  | sp :: sps => ⟨i, p, some (k, sp)⟩ :: p.subpacketCandidates i (k + 1) sps

def Packet.candidates (i : Nat) (p : Packet) : List Candidate :=
  if p.subpackets.isEmpty then [⟨i, p, none⟩] else p.subpacketCandidates i 0 p.subpackets

theorem Packet.candidates_alone {p : Packet} (h : p.subpackets = []) (i : Nat) :
    p.candidates i = [⟨i, p, none⟩] := if_pos (List.isEmpty_iff.2 h)

theorem Packet.candidates_subpackets {p : Packet} (h : p.subpackets ≠ []) (i : Nat) :
    p.candidates i = p.subpacketCandidates i 0 p.subpackets := if_neg (mt List.isEmpty_iff.1 h)

def candidatesFrom (i : Nat) : List Packet → List Candidate
  | [] => []
  | p :: ps => p.candidates i ++ candidatesFrom (i + 1) ps

/-- In the order in which they are tried. -/
def candidates (d : ProtocolDefinition) : List Candidate := candidatesFrom 0 d.packets

def Candidate.size (c : Candidate) : Nat := sizeofMembers c.packet.actions + sizeofMembers c.body

/-- The fields with fixed values, as the generator finds them. -/
def Packet.comparisons (p : Packet) : List Comparison :=
  (generateMatchCondition 0 p.actions).getD []

def Candidate.comparisons (c : Candidate) : List Comparison :=
  c.packet.comparisons ++ (generateMatchCondition (sizeofMembers c.packet.actions) c.body).getD []

/-- The bytes are read to their end, perhaps before the fields are. -/
def Candidate.reads (bs : List UInt8) (c : Candidate) : Bool :=
  match c.subpacket with
  | none => (scanActions bs c.packet.actions).1.isEmpty
  | some (_, sp) =>
      decide ((bs.length : Int) - (scanActions bs c.packet.actions).1.length =
        c.packet.numPacketBytes) &&
        (scanActions (scanActions bs c.packet.actions).1 sp.actions).1.isEmpty

/-- A packet with subpackets has a length. -/
def Candidate.Delimited (c : Candidate) : Prop :=
  c.subpacket = none ∨ (lengthOffset 0 c.packet.actions).isSome

/-- The length of the packet, if it has one, fits the frame. -/
def Candidate.Fits (bs : List UInt8) (c : Candidate) : Prop :=
  LengthFits bs (lengthOffset 0 c.packet.actions)

/-- All fixed values are there as `Fill` compares them. -/
def Candidate.Stored (bs : List UInt8) (c : Candidate) : Prop := ∀ x ∈ c.comparisons, x.Stored bs

/-- All fixed values are there as C++ compares them. -/
def Candidate.Compared (bs : List UInt8) (c : Candidate) : Prop :=
  ∀ x ∈ c.comparisons, x.Compared bs

/-- Only one of the decoders takes the bytes for the candidate, or the generated one reads behind
them. -/
inductive Candidate.Misjudged (bs : List UInt8) (c : Candidate) : Prop
  /-- The interpreter takes a frame that ends before the fields do. -/
  | truncated : c.reads bs = true ∨ bs = [] → bs.length < c.size → Misjudged bs c
  /-- The generated parser takes a frame that goes on behind the fields. -/
  | overlong : c.subpacket = none → (lengthOffset 0 c.packet.actions).isSome →
      c.size < bs.length → c.Fits bs → c.Compared bs → Misjudged bs c
  /-- The generated parser lets a packet with subpackets but no length end with its header. -/
  | undelimited : ¬ c.Delimited → bs.length = c.size → c.Stored bs → Misjudged bs c
  /-- It reads the subpacket behind the end of such a frame. -/
  | beyond : ¬ c.Delimited → bs.length = sizeofMembers c.packet.actions →
      (∀ x ∈ c.packet.comparisons, x.Compared bs) → Misjudged bs c
  /-- The two compare a fixed value differently. -/
  | clash : c.Delimited → bs.length = c.size → c.Fits bs → ¬ (c.Stored bs ↔ c.Compared bs) →
      Misjudged bs c

/-- Both decoders take the bytes for the candidate. -/
structure Candidate.Settled (bs : List UInt8) (c : Candidate) : Prop where
  delimited : c.Delimited
  length_eq : bs.length = c.size
  fits : c.Fits bs
  stored : c.Stored bs
  compared : c.Compared bs

/-- What the interpreter makes of the candidate. -/
def Candidate.interpreted (bs : List UInt8) (c : Candidate) : Option Dispatch :=
  if c.reads bs then some c.dispatch else none

/-- What the generated parser makes of the candidate. -/
def Candidate.generated (bs : List UInt8) (c : Candidate) : Option Dispatch :=
  match evalAll (romPacketSize + bs.length) bs c.packet.conditions with
  | none => some .undefined
  | some false => none
  | some true =>
      match c.subpacket with
      | none => some c.dispatch
      | some (_, sp) =>
          match evalAll (romPacketSize + bs.length) bs (c.packet.conditionsFor sp) with
          | none => some .undefined
          | some false => none
          | some true => some c.dispatch

/-- What is known of a candidate of a definition that a parser can be generated for. -/
structure Candidate.Regular (c : Candidate) : Prop where
  plain : PlainActions c.packet.actions
  sized : Sized c.packet.actions
  tag : (tagOf c.packet.actions).isSome
  lengthLast : LengthLast c.packet.actions
  generates : generateMatchCondition 0 c.packet.actions = some c.packet.comparisons
  bodyPlain : PlainActions c.body
  bodySized : Sized c.body
  bodyTag : c.subpacket.isSome → (tagOf c.body).isSome
  noLengths : NoLengths c.body
  bodyGenerates : ∃ cs, generateMatchCondition (sizeofMembers c.packet.actions) c.body = some cs

theorem Candidate.stored_iff {c : Candidate} {bs : List UInt8} {cs : List Comparison}
    (hcs : generateMatchCondition (sizeofMembers c.packet.actions) c.body = some cs) :
    c.Stored bs ↔ (∀ x ∈ c.packet.comparisons, x.Stored bs) ∧ ∀ x ∈ cs, x.Stored bs := by
  unfold Stored comparisons
  rw [hcs, Option.getD_some, List.forall_mem_append]

theorem Candidate.compared_iff {c : Candidate} {bs : List UInt8} {cs : List Comparison}
    (hcs : generateMatchCondition (sizeofMembers c.packet.actions) c.body = some cs) :
    c.Compared bs ↔ (∀ x ∈ c.packet.comparisons, x.Compared bs) ∧ ∀ x ∈ cs, x.Compared bs := by
  unfold Compared comparisons
  rw [hcs, Option.getD_some, List.forall_mem_append]

theorem Candidate.reads_alone_iff {c : Candidate} {bs : List UInt8} (hsub : c.subpacket = none) :
    c.reads bs = true ↔ (scanActions bs c.packet.actions).1 = [] := by
  unfold reads
  rw [hsub]
  exact List.isEmpty_iff

/-- A candidate that is not delimited has a subpacket behind a header without a length. -/
theorem Candidate.of_not_delimited {c : Candidate} (h : ¬ c.Delimited) :
    c.subpacket.isSome ∧ lengthOffset 0 c.packet.actions = none := by
  obtain ⟨hsub, hlength⟩ := not_or.1 h
  exact ⟨Option.isSome_iff_ne_none.2 hsub, Option.not_isSome_iff_eq_none.1 hlength⟩

theorem Candidate.body_alone {c : Candidate} (hsub : c.subpacket = none) : c.body = [] := by
  unfold body
  rw [hsub]

theorem Candidate.body_subpacket {c : Candidate} {k : Nat} {sp : Subpacket}
    (hsp : c.subpacket = some (k, sp)) : c.body = sp.actions := by
  unfold body
  rw [hsp]

theorem Candidate.size_alone {c : Candidate} (hsub : c.subpacket = none) :
    c.size = sizeofMembers c.packet.actions := by
  unfold size
  rw [body_alone hsub]
  rfl

theorem Candidate.generated_cases (bs : List UInt8) (c : Candidate) :
    c.generated bs = none ∨ c.generated bs = some c.dispatch ∨
      c.generated bs = some .undefined := by
  unfold generated
  rcases evalAll (romPacketSize + bs.length) bs c.packet.conditions with _ | _ | _
  · exact Or.inr (Or.inr rfl)
  · exact Or.inl rfl
  rcases c.subpacket with _ | ⟨k, sp⟩
  · exact Or.inr (Or.inl rfl)
  dsimp only
  rcases evalAll (romPacketSize + bs.length) bs (c.packet.conditionsFor sp) with _ | _ | _
  · exact Or.inr (Or.inr rfl)
  · exact Or.inl rfl
  · exact Or.inr (Or.inl rfl)

theorem Candidate.interpreted_eq_generated_some_iff {c : Candidate} {bs : List UInt8} :
    (c.interpreted bs = c.generated bs ∧ (c.interpreted bs).isSome) ↔
      c.reads bs = true ∧ c.generated bs = some c.dispatch := by
  unfold interpreted
  by_cases hreads : c.reads bs = true
  · rw [if_pos hreads]
    exact ⟨fun hboth => ⟨hreads, hboth.1.symm⟩, fun hboth => ⟨hboth.2.symm, rfl⟩⟩
  · rw [if_neg hreads]
    exact iff_of_false (fun hboth => Bool.false_ne_true hboth.2) fun hboth => hreads hboth.1

theorem Candidate.interpreted_ne_generated_iff {c : Candidate} {bs : List UInt8} :
    c.interpreted bs ≠ c.generated bs ↔
      c.generated bs = some .undefined ∨
        ¬ (c.reads bs = true ↔ c.generated bs = some c.dispatch) := by
  have hne : some c.dispatch ≠ some Dispatch.undefined := nofun
  unfold interpreted
  by_cases hreads : c.reads bs = true
  · rw [if_pos hreads]
    rcases c.generated_cases bs with hgen | hgen | hgen
    · rw [hgen]
      exact iff_of_true nofun (Or.inr fun hiff => nomatch hiff.1 hreads)
    · rw [hgen]
      exact iff_of_false (fun hdiffer => hdiffer rfl) fun hor =>
        hor.elim hne fun hnot => hnot (iff_of_true hreads rfl)
    · rw [hgen]
      exact iff_of_true hne (Or.inl rfl)
  · rw [if_neg hreads]
    rcases c.generated_cases bs with hgen | hgen | hgen
    · rw [hgen]
      exact iff_of_false (fun hdiffer => hdiffer rfl) fun hor =>
        hor.elim nofun fun hnot => hnot (iff_of_false hreads nofun)
    · rw [hgen]
      exact iff_of_true nofun (Or.inr fun hiff => hreads (hiff.2 rfl))
    · rw [hgen]
      exact iff_of_true nofun (Or.inl rfl)

section Regular

variable {c : Candidate} (h : c.Regular) {bs : List UInt8}

include h

/-- The header is filled where there are enough bytes, its fixed values and its length. -/
theorem Candidate.Regular.header_full_iff :
    (scanActions bs c.packet.actions).2 = true ↔ sizeofMembers c.packet.actions ≤ bs.length ∧
      (∀ x ∈ c.packet.comparisons, x.Stored bs) ∧ c.Fits bs := by
  have hfull := scan_full_iff h.plain h.sized h.lengthLast h.generates (Nat.zero_le bs.length)
  rwa [Nat.zero_add] at hfull

theorem Candidate.Regular.reads_subpacket_iff (hsub : c.subpacket.isSome) :
    c.reads bs = true ↔ (scanActions bs c.packet.actions).2 = true ∧
      (scanActions (bs.drop (sizeofMembers c.packet.actions)) c.body).1 = [] := by
  obtain ⟨⟨k, sp⟩, hsp⟩ := Option.isSome_iff_exists.1 hsub
  have hsize : c.packet.numPacketBytes = sizeofMembers c.packet.actions := by
    rw [c.packet.numPacketBytes_eq, (sizeFrom_of_sized h.sized).1, Int.zero_add]
  have hbody := body_subpacket hsp
  have hfull := (scan_bounded h.plain h.sized bs).2
  unfold reads
  rw [hsp, hbody, hsize, Bool.and_eq_true_iff, decide_eq_true_iff, List.isEmpty_iff, hfull]
  constructor
  · rintro ⟨hlen, hrest⟩
    have hall : (scanActions bs c.packet.actions).1.length + sizeofMembers c.packet.actions =
      bs.length := by omega
    rw [scanActions_of_full h.plain h.sized (hfull.2 hall)] at hrest
    exact ⟨hall, hrest⟩
  · rintro ⟨hall, hrest⟩
    rw [← scanActions_of_full h.plain h.sized (hfull.2 hall)] at hrest
    exact ⟨by omega, hrest⟩

/-- Nothing longer than the candidate is read to its end. -/
theorem Candidate.Regular.length_le_of_reads (hreads : c.reads bs = true) : bs.length ≤ c.size := by
  unfold size
  cases hsub : c.subpacket with
  | none =>
      have hle := (scan_bounded h.plain h.sized bs).1
      rw [(Candidate.reads_alone_iff hsub).1 hreads, List.length_nil] at hle
      omega
  | some x =>
      obtain ⟨hheader, hrest⟩ := (h.reads_subpacket_iff (by rw [hsub]; rfl)).1 hreads
      have hle := (scan_bounded h.bodyPlain h.bodySized
        (bs.drop (sizeofMembers c.packet.actions))).1
      rw [hrest, List.length_drop, List.length_nil] at hle
      omega

/-- A frame of the size of the candidate is read to its end where the fixed values and the length
are there. -/
theorem Candidate.Regular.reads_iff (hlen : bs.length = c.size) :
    c.reads bs = true ↔ c.Stored bs ∧ c.Fits bs := by
  obtain ⟨cs, hcs⟩ := h.bodyGenerates
  have hheader := @Candidate.Regular.header_full_iff _ h bs
  have hfull := (scan_bounded h.plain h.sized bs).2
  unfold size at hlen
  rw [Candidate.stored_iff hcs]
  cases hsub : c.subpacket with
  | none =>
      rw [body_alone hsub] at hlen hcs
      cases hcs
      have hzero : sizeofMembers [] = 0 := rfl
      rw [Candidate.reads_alone_iff hsub, ← List.length_eq_zero_iff]
      constructor
      · -- nothing is left of the frame exactly when the scan comes to the end of the fields
        intro hrest
        obtain ⟨-, hstored, hfits⟩ := hheader.1 (hfull.2 (by omega))
        exact ⟨⟨hstored, nofun⟩, hfits⟩
      · rintro ⟨⟨hstored, -⟩, hfits⟩
        have hsum := hfull.1 (hheader.2 ⟨by omega, hstored, hfits⟩)
        omega
  | some x =>
      -- the scan of the subpacket starts behind the header, which is full
      have hroom : sizeofMembers c.packet.actions ≤ bs.length := by omega
      have hbody := scan_full_iff h.bodyPlain h.bodySized (lengthLast_of_noLengths h.noLengths) hcs
        hroom
      rw [lengthOffset_of_noLengths h.noLengths] at hbody
      have hbodyFull := (scan_bounded h.bodyPlain h.bodySized
        (bs.drop (sizeofMembers c.packet.actions))).2
      have hdrop : (bs.drop (sizeofMembers c.packet.actions)).length =
        bs.length - sizeofMembers c.packet.actions := List.length_drop
      rw [h.reads_subpacket_iff (by rw [hsub]; rfl), hheader, ← List.length_eq_zero_iff]
      constructor
      · rintro ⟨⟨-, hstored, hfits⟩, hrest⟩
        obtain ⟨-, hstored', -⟩ := hbody.1 (hbodyFull.2 (by omega))
        exact ⟨⟨hstored, hstored'⟩, hfits⟩
      · rintro ⟨⟨hstored, hstored'⟩, hfits⟩
        have hsum := hbodyFull.1 (hbody.2 ⟨by omega, hstored', nofun⟩)
        exact ⟨⟨by omega, hstored, hfits⟩, by omega⟩

/-! ## What the generated parser takes -/

theorem Candidate.Regular.eval_conditions (bs : List UInt8) :
    ∃ b, evalAll (romPacketSize + bs.length) bs c.packet.conditions = some b ∧
      (b = true ↔ c.packet.Admits bs ∧ ∀ x ∈ c.packet.comparisons, x.Compared bs) :=
  Packet.eval_conditions h.sized h.lengthLast h.tag h.generates bs

theorem Candidate.Regular.generated_of_rejected
    (hrejected : ¬ (c.packet.Admits bs ∧ ∀ x ∈ c.packet.comparisons, x.Compared bs)) :
    c.generated bs = none := by
  obtain ⟨b, heval, hb⟩ := h.eval_conditions bs
  unfold generated
  cases b with
  | false => rw [heval]
  | true => exact absurd (hb.1 rfl) hrejected

section Admitted

variable (hadmits : c.packet.Admits bs) (hheader : ∀ x ∈ c.packet.comparisons, x.Compared bs)

include hadmits hheader

theorem Candidate.Regular.eval_admitted :
    evalAll (romPacketSize + bs.length) bs c.packet.conditions = some true := by
  obtain ⟨b, heval, hb⟩ := h.eval_conditions bs
  rw [heval, hb.2 ⟨hadmits, hheader⟩]

theorem Candidate.Regular.generated_alone (hsub : c.subpacket = none) :
    c.generated bs = some c.dispatch := by
  unfold generated
  rw [h.eval_admitted hadmits hheader, hsub]

theorem Candidate.Regular.generated_undelimited (hdelimited : ¬ c.Delimited) :
    c.generated bs = some .undefined := by
  obtain ⟨hsub, hlength⟩ := of_not_delimited hdelimited
  obtain ⟨⟨k, sp⟩, hsp⟩ := Option.isSome_iff_exists.1 hsub
  have hbody := body_subpacket hsp
  obtain ⟨cs, hcs⟩ := h.bodyGenerates
  have hsized := h.bodySized
  have htag := h.bodyTag hsub
  rw [hbody] at hcs hsized htag
  unfold generated
  rw [h.eval_admitted hadmits hheader, hsp]
  dsimp only
  rw [Packet.eval_conditionsFor_of_none hsized htag hcs hadmits hlength]

theorem Candidate.Regular.generated_delimited (hsub : c.subpacket.isSome)
    (hlength : (lengthOffset 0 c.packet.actions).isSome) :
    c.generated bs = some c.dispatch ∧ bs.length = c.size ∧ c.Compared bs ∨
      c.generated bs = none ∧ ¬ (bs.length = c.size ∧ c.Compared bs) := by
  obtain ⟨⟨k, sp⟩, hsp⟩ := Option.isSome_iff_exists.1 hsub
  have hbody := body_subpacket hsp
  obtain ⟨cs, hcs⟩ := h.bodyGenerates
  have hsized := h.bodySized
  have htag := h.bodyTag hsub
  rw [compared_iff hcs, and_iff_right hheader]
  unfold size generated
  rw [hbody] at hcs hsized htag ⊢
  rw [h.eval_admitted hadmits hheader, hsp]
  dsimp only
  obtain ⟨b, heval, hb⟩ :=
    Packet.eval_conditionsFor h.lengthLast hsized htag hcs hadmits hlength
  rw [heval]
  cases b with
  | true => exact Or.inl ⟨rfl, hb.1 rfl⟩
  | false => exact Or.inr ⟨rfl, fun hall => Bool.false_ne_true (hb.2 hall)⟩

end Admitted

/-- The frame is dispatched when it has the size of the candidate and its length and fixed values,
or when it is longer than a packet that has no subpackets. -/
theorem Candidate.Regular.generated_eq_dispatch_iff :
    c.generated bs = some c.dispatch ↔
      c.Fits bs ∧ c.Compared bs ∧ (c.Delimited ∧ bs.length = c.size ∨
        c.subpacket = none ∧ (lengthOffset 0 c.packet.actions).isSome ∧ c.size < bs.length) := by
  obtain ⟨cs, hcs⟩ := h.bodyGenerates
  by_cases hall : c.packet.Admits bs ∧ ∀ x ∈ c.packet.comparisons, x.Compared bs
  · -- the conditions of the packet hold, and those of a subpacket decide
    obtain ⟨hadmits, hheader⟩ := hall
    cases hsub : c.subpacket with
    | none =>
        have hsize := size_alone hsub
        have hcompared : c.Compared bs := by
          rw [compared_iff hcs]
          refine ⟨hheader, ?_⟩
          rw [body_alone hsub] at hcs
          cases hcs
          exact nofun
        refine iff_of_true (h.generated_alone hadmits hheader hsub) ⟨hadmits.fits, hcompared, ?_⟩
        rcases Nat.eq_or_lt_of_le hadmits.le with heq | hlt
        · exact Or.inl ⟨Or.inl hsub, by omega⟩
        · refine Or.inr ⟨rfl, ?_, by omega⟩
          rw [Option.isSome_iff_ne_none]
          intro hnone
          have hlen := hadmits.eq_of_none hnone
          omega
    | some x =>
        have hsome : c.subpacket.isSome := by rw [hsub]; rfl
        by_cases hlength : (lengthOffset 0 c.packet.actions).isSome
        · rcases h.generated_delimited hadmits hheader hsome hlength with
            ⟨hgen, hlen, hcompared⟩ | ⟨hgen, hnot⟩
          · exact iff_of_true hgen ⟨hadmits.fits, hcompared, Or.inl ⟨Or.inr hlength, hlen⟩⟩
          · rw [hgen]
            refine iff_of_false nofun ?_
            rintro ⟨-, hcompared, ⟨-, hlen⟩ | ⟨hnone, -⟩⟩
            · exact hnot ⟨hlen, hcompared⟩
            · cases hnone
        · have hdelimited : ¬ c.Delimited := by
            rintro (hnone | hsome')
            · rw [hsub] at hnone
              cases hnone
            · exact hlength hsome'
          -- without a length, a condition of the subpacket reads behind the frame
          rw [h.generated_undelimited hadmits hheader hdelimited]
          refine iff_of_false nofun ?_
          rintro ⟨-, -, ⟨hdelimited', -⟩ | ⟨hnone, -⟩⟩
          · exact hdelimited hdelimited'
          · cases hnone
  · -- the packet is passed by, and a frame of the right size would have been admitted
    rw [h.generated_of_rejected hall]
    refine iff_of_false nofun ?_
    rintro ⟨hfits, hcompared, hsizes⟩
    refine hall ⟨?_, ((compared_iff hcs).1 hcompared).1⟩
    unfold size at hsizes
    rcases hsizes with ⟨hdelimited, hlen⟩ | ⟨-, hlength, hlt⟩
    · refine ⟨by omega, ?_, hfits⟩
      intro hnone
      rcases hdelimited with hsub | hlength
      · rw [hlen]
        exact size_alone hsub
      · rw [hnone] at hlength
        cases hlength
    · refine ⟨by omega, ?_, hfits⟩
      intro hnone
      rw [hnone] at hlength
      cases hlength

/-- The parser reads behind a frame that ends with the header of a packet that is not delimited. -/
theorem Candidate.Regular.generated_eq_undefined_iff :
    c.generated bs = some .undefined ↔ ¬ c.Delimited ∧
      bs.length = sizeofMembers c.packet.actions ∧ ∀ x ∈ c.packet.comparisons, x.Compared bs := by
  by_cases hall : c.packet.Admits bs ∧ ∀ x ∈ c.packet.comparisons, x.Compared bs
  · obtain ⟨hadmits, hheader⟩ := hall
    by_cases hdelimited : c.Delimited
    · refine iff_of_false ?_ fun hnot => hnot.1 hdelimited
      have hne : some c.dispatch ≠ some Dispatch.undefined := nofun
      cases hsub : c.subpacket with
      | none =>
          rw [h.generated_alone hadmits hheader hsub]
          exact hne
      | some x =>
          have hsome : c.subpacket.isSome := by rw [hsub]; rfl
          have hlength : (lengthOffset 0 c.packet.actions).isSome := by
            rcases hdelimited with hnone | hlength
            · rw [hsub] at hnone
              cases hnone
            · exact hlength
          rcases h.generated_delimited hadmits hheader hsome hlength with ⟨hgen, -⟩ | ⟨hgen, -⟩
          · rw [hgen]
            exact hne
          · rw [hgen]
            exact nofun
    · have hnone := (of_not_delimited hdelimited).2
      exact iff_of_true (h.generated_undelimited hadmits hheader hdelimited)
        ⟨hdelimited, hadmits.eq_of_none hnone, hheader⟩
  · rw [h.generated_of_rejected hall]
    refine iff_of_false nofun ?_
    rintro ⟨hdelimited, hlen, hheader⟩
    have hnone := (of_not_delimited hdelimited).2
    refine hall ⟨⟨Nat.le_of_eq hlen.symm, fun _ => hlen, ?_⟩, hheader⟩
    rw [hnone]
    exact nofun

/-! ## What both take -/

theorem Candidate.Regular.reads_cases :
    c.reads bs = true ↔
      (c.reads bs = true ∧ bs.length < c.size) ∨
        (bs.length = c.size ∧ c.Stored bs ∧ c.Fits bs) := by
  constructor
  · intro hreads
    rcases Nat.eq_or_lt_of_le (h.length_le_of_reads hreads) with heq | hlt
    · exact Or.inr ⟨heq, (h.reads_iff heq).1 hreads⟩
    · exact Or.inl ⟨hreads, hlt⟩
  · rintro (⟨hreads, -⟩ | ⟨hlen, hall⟩)
    · exact hreads
    · exact (h.reads_iff hlen).2 hall

/-- Both take the bytes when the sizes, the length and the fixed values are right for both. -/
theorem Candidate.Regular.settled_iff :
    (c.interpreted bs = c.generated bs ∧ (c.interpreted bs).isSome) ↔ c.Settled bs := by
  rw [interpreted_eq_generated_some_iff, h.generated_eq_dispatch_iff, h.reads_cases]
  constructor
  · rintro ⟨hreads, hfits, hcompared, hsizes⟩
    rcases hsizes with ⟨hdelimited, hlen⟩ | ⟨-, -, hlt⟩
    · rcases hreads with ⟨-, hlt⟩ | ⟨-, hstored, -⟩
      · omega
      · exact ⟨hdelimited, hlen, hfits, hstored, hcompared⟩
    · rcases hreads with ⟨-, hlt'⟩ | ⟨hlen, -⟩ <;> omega
  · rintro ⟨hdelimited, hlen, hfits, hstored, hcompared⟩
    exact ⟨Or.inr ⟨hlen, hstored, hfits⟩, hfits, hcompared, Or.inl ⟨hdelimited, hlen⟩⟩

/-- The two differ on the candidates that are misjudged. -/
theorem Candidate.Regular.misjudged_iff (hnil : bs ≠ []) :
    c.interpreted bs ≠ c.generated bs ↔ c.Misjudged bs := by
  rw [interpreted_ne_generated_iff, h.generated_eq_dispatch_iff, h.generated_eq_undefined_iff]
  constructor
  · rintro (⟨hdelimited, hlen, hheader⟩ | hdiffer)
    · exact .beyond hdelimited hlen hheader
    -- either the interpreter alone takes the candidate, or the parser alone does
    by_cases hreads : c.reads bs = true
    · have hnot : ¬ (c.Fits bs ∧ c.Compared bs ∧ (c.Delimited ∧ bs.length = c.size ∨
          c.subpacket = none ∧ (lengthOffset 0 c.packet.actions).isSome ∧ c.size < bs.length)) :=
        fun hall => hdiffer (iff_of_true hreads hall)
      rcases h.reads_cases.1 hreads with ⟨-, hlt⟩ | ⟨hlen, hstored, hfits⟩
      · exact .truncated (Or.inl hreads) hlt
      by_cases hdelimited : c.Delimited
      · apply Misjudged.clash hdelimited hlen hfits
        exact fun hiff => hnot ⟨hfits, hiff.1 hstored, Or.inl ⟨hdelimited, hlen⟩⟩
      · exact .undelimited hdelimited hlen hstored
    · obtain ⟨hfits, hcompared, hsizes⟩ := Classical.not_not.1 fun hnot =>
        hdiffer (iff_of_false hreads hnot)
      rcases hsizes with ⟨hdelimited, hlen⟩ | ⟨hsub, hlength, hlt⟩
      · apply Misjudged.clash hdelimited hlen hfits
        exact fun hiff => hreads ((h.reads_iff hlen).2 ⟨hiff.2 hcompared, hfits⟩)
      · exact .overlong hsub hlength hlt hfits hcompared
  · intro hmisjudged
    -- each kind contradicts what both would say of the sizes
    cases hmisjudged with
    | truncated hreads hlt =>
        have hreads : c.reads bs = true := hreads.resolve_right hnil
        refine Or.inr fun hiff => ?_
        rcases (hiff.1 hreads).2.2 with ⟨-, hlen⟩ | ⟨-, -, hlt'⟩ <;> omega
    | overlong hsub hlength hlt hfits hcompared =>
        refine Or.inr fun hiff => ?_
        have hle := h.length_le_of_reads (hiff.2 ⟨hfits, hcompared, Or.inr ⟨hsub, hlength, hlt⟩⟩)
        omega
    | undelimited hdelimited hlen hstored =>
        refine Or.inr fun hiff => ?_
        obtain ⟨hsub, hnone⟩ := of_not_delimited hdelimited
        have hfits : c.Fits bs := by
          unfold Fits
          rw [hnone]
          exact nofun
        rcases (hiff.1 ((h.reads_iff hlen).2 ⟨hstored, hfits⟩)).2.2 with ⟨hd, -⟩ | ⟨hsub', -⟩
        · exact hdelimited hd
        · rw [hsub'] at hsub
          cases hsub
    | beyond hdelimited hlen hheader => exact Or.inl ⟨hdelimited, hlen, hheader⟩
    | clash hdelimited hlen hfits hdiffer =>
        refine Or.inr fun hiff => hdiffer ?_
        rw [h.reads_iff hlen] at hiff
        constructor
        · exact fun hstored => (hiff.1 ⟨hstored, hfits⟩).2.1
        · exact fun hcompared => (hiff.2 ⟨hfits, hcompared, Or.inl ⟨hdelimited, hlen⟩⟩).1

end Regular

/-! ## The generated parser -/

/-- The generator makes a block of every packet that has a fixed value. -/
theorem generatePackets_cons {i : Nat} {p : Packet} {ps : List Packet} {blocks : List PacketBlock}
    (hne : generateMatchCondition 0 p.actions ≠ some [])
    (h : generatePackets i (p :: ps) = some blocks) :
    ∃ subpackets rest, generateMatchCondition 0 p.actions = some p.comparisons ∧
      p.generateSubpackets 0 p.subpackets = some subpackets ∧
      generatePackets (i + 1) ps = some rest ∧
      blocks = ⟨i, p.conditions, p.subpackets.isEmpty, subpackets⟩ :: rest := by
  unfold Packet.comparisons Packet.conditions
  rw [generatePackets] at h
  cases hgen : generateMatchCondition 0 p.actions with
  | none =>
      rw [hgen] at h
      cases h
  | some cs =>
      rw [hgen] at h
      cases cs with
      | nil => exact absurd hgen hne
      | cons c cs =>
          cases hsub : p.generateSubpackets 0 p.subpackets with
          | none =>
              rw [hsub] at h
              cases h
          | some subpackets =>
              rw [hsub] at h
              obtain ⟨rest, hrest, rfl⟩ := Option.map_eq_some_iff.1 h
              exact ⟨subpackets, rest, rfl, rfl, hrest, rfl⟩

theorem generateSubpackets_cons {p : Packet} {k : Nat} {sp : Subpacket} {sps : List Subpacket}
    {blocks : List SubpacketBlock}
    (hne : generateMatchCondition (sizeofMembers p.actions) sp.actions ≠ some [])
    (h : p.generateSubpackets k (sp :: sps) = some blocks) :
    ∃ cs rest, generateMatchCondition (sizeofMembers p.actions) sp.actions = some cs ∧
      p.generateSubpackets (k + 1) sps = some rest ∧ blocks = ⟨k, p.conditionsFor sp⟩ :: rest := by
  unfold Packet.conditionsFor
  rw [Packet.generateSubpackets] at h
  cases hgen : generateMatchCondition (sizeofMembers p.actions) sp.actions with
  | none =>
      rw [hgen] at h
      cases h
  | some cs =>
      rw [hgen] at h
      cases cs with
      | nil => exact absurd hgen hne
      | cons c cs =>
          obtain ⟨rest, hrest, rfl⟩ := Option.map_eq_some_iff.1 h
          exact ⟨c :: cs, rest, rfl, hrest, rfl⟩

/-- The blocks of the subpackets take the first of their candidates. -/
theorem runSubpackets_generated {i : Nat} {p : Packet} {bs : List UInt8}
    (heval : evalAll (romPacketSize + bs.length) bs p.conditions = some true) {k : Nat}
    {sps : List Subpacket} {blocks : List SubpacketBlock}
    (hne : ∀ sp ∈ sps, generateMatchCondition (sizeofMembers p.actions) sp.actions ≠ some [])
    (h : p.generateSubpackets k sps = some blocks) :
    runSubpackets (romPacketSize + bs.length) bs i blocks =
      (p.subpacketCandidates i k sps).findSome? (Candidate.generated bs) := by
  induction sps generalizing k blocks with
  | nil =>
      cases h
      rfl
  | cons sp sps ih =>
      obtain ⟨hsp, hsps⟩ := List.forall_mem_cons.1 hne
      obtain ⟨-, rest, -, hrest, rfl⟩ := generateSubpackets_cons hsp h
      have hcandidate : Candidate.generated bs ⟨i, p, some (k, sp)⟩ =
          match evalAll (romPacketSize + bs.length) bs (p.conditionsFor sp) with
          | none => some .undefined
          | some false => none
          | some true => some (.on i (some k)) := by
        unfold Candidate.generated
        rw [heval]
        rfl
      rw [runSubpackets, Packet.subpacketCandidates, List.findSome?_cons, hcandidate]
      rcases evalAll (romPacketSize + bs.length) bs (p.conditionsFor sp) with _ | _ | _
      · rfl
      · exact ih hsps hrest
      · rfl

theorem findSome?_rejected {i : Nat} {p : Packet} {bs : List UInt8}
    (heval : evalAll (romPacketSize + bs.length) bs p.conditions = some false) (k : Nat)
    (sps : List Subpacket) :
    (p.subpacketCandidates i k sps).findSome? (Candidate.generated bs) = none := by
  induction sps generalizing k with
  | nil => rfl
  | cons sp sps ih =>
      have hcandidate : Candidate.generated bs ⟨i, p, some (k, sp)⟩ = none := by
        unfold Candidate.generated
        rw [heval]
      rw [Packet.subpacketCandidates, List.findSome?_cons, hcandidate]
      exact ih _

/-- The blocks of the packets take the first candidate. -/
theorem runPackets_generated {bs : List UInt8} {i : Nat} {ps : List Packet}
    {blocks : List PacketBlock} (hne : ∀ p ∈ ps, generateMatchCondition 0 p.actions ≠ some [])
    (hsubNe : ∀ p ∈ ps, ∀ sp ∈ p.subpackets,
      generateMatchCondition (sizeofMembers p.actions) sp.actions ≠ some [])
    (h : generatePackets i ps = some blocks) :
    runPackets (romPacketSize + bs.length) bs blocks =
      (candidatesFrom i ps).findSome? (Candidate.generated bs) := by
  induction ps generalizing i blocks with
  | nil =>
      cases h
      rfl
  | cons p ps ih =>
      obtain ⟨hp, hps⟩ := List.forall_mem_cons.1 hne
      obtain ⟨hsp, hsps⟩ := List.forall_mem_cons.1 hsubNe
      obtain ⟨subpackets, rest, -, hsubs, hrest, rfl⟩ := generatePackets_cons hp h
      have ih := ih hps hsps hrest
      rw [runPackets, candidatesFrom, List.findSome?_append, ← ih]
      -- a packet without subpackets is one candidate, and else each of its subpackets is one
      by_cases hsub : p.subpackets = []
      · have hcandidate : Candidate.generated bs ⟨i, p, none⟩ =
            match evalAll (romPacketSize + bs.length) bs p.conditions with
            | none => some .undefined
            | some false => none
            | some true => some (.on i none) := rfl
        have hempty : p.subpackets.isEmpty = true := List.isEmpty_iff.2 hsub
        rw [Packet.candidates_alone hsub, List.findSome?_singleton, hcandidate, hempty]
        dsimp only
        rcases evalAll (romPacketSize + bs.length) bs p.conditions with _ | _ | _
        · rfl
        · rfl
        · rfl
      · have hempty : p.subpackets.isEmpty = false :=
          Bool.eq_false_iff.2 (mt List.isEmpty_iff.1 hsub)
        rw [Packet.candidates_subpackets hsub, hempty]
        dsimp only
        rcases heval : evalAll (romPacketSize + bs.length) bs p.conditions with _ | _ | _
        · -- the conditions read behind the frame, which the first subpacket says of itself
          obtain ⟨sp, sps, hsps⟩ := List.exists_cons_of_ne_nil hsub
          have hcandidate : Candidate.generated bs ⟨i, p, some (0, sp)⟩ = some .undefined := by
            unfold Candidate.generated
            rw [heval]
          rw [hsps, Packet.subpacketCandidates, List.findSome?_cons, hcandidate]
          rfl
        · rw [findSome?_rejected heval]
          rfl
        · rw [← runSubpackets_generated heval hsp hsubs]
          dsimp only
          cases runSubpackets (romPacketSize + bs.length) bs i subpackets with
          | none => rfl
          | some dispatch => rfl

/-! ## The interpreter -/

/-- What `Process` returns, in terms of the calls of the generated parser. -/
def returned (d : ProtocolDefinition) (offset : UInt32) (bs : List UInt8) : Option Dispatch :=
  (d.process offset bs).1.bind fun i =>
    (d.process offset bs).2.packets[i]?.map fun p => .on i p.lastSubpacket

theorem returned_eq_some_iff {d : ProtocolDefinition} {offset : UInt32} {bs : List UInt8} {i : Nat}
    {sel : Option Nat} : d.returned offset bs = some (.on i sel) ↔ d.Returns offset bs i sel := by
  unfold returned Returns
  rw [Option.bind_eq_some_iff]
  constructor
  · rintro ⟨j, hj, hmap⟩
    obtain ⟨p, hp, heq⟩ := Option.map_eq_some_iff.1 hmap
    cases heq
    exact ⟨hj, p, hp, rfl⟩
  · rintro ⟨hi, p, hp, rfl⟩
    exact ⟨i, hi, by rw [hp]; rfl⟩

theorem returned_ne_undefined (d : ProtocolDefinition) (offset : UInt32) (bs : List UInt8) :
    d.returned offset bs ≠ some .undefined := by
  unfold returned
  intro h
  obtain ⟨j, -, hmap⟩ := Option.bind_eq_some_iff.1 h
  obtain ⟨p, -, heq⟩ := Option.map_eq_some_iff.1 hmap
  cases heq

/-- The generated parser reads nothing behind the frame, and calls `OnP` or `OnP_S` if and only if
the interpreter returns `P`, without a subpacket or with `S`. -/
structure Agrees (d : ProtocolDefinition) (parser : List PacketBlock) (frame : List UInt8)
    (offset : UInt32) : Prop where
  defined : parserProcess parser frame ≠ some .undefined
  dispatch_iff : ∀ i sel, parserProcess parser frame = some (.on i sel) ↔
    d.Returns offset (frame.drop romPacketSize) i sel

theorem agrees_iff_eq {d : ProtocolDefinition} {parser : List PacketBlock} {frame : List UInt8}
    {offset : UInt32} :
    d.Agrees parser frame offset ↔
      parserProcess parser frame = d.returned offset (frame.drop romPacketSize) := by
  constructor
  · intro h
    apply Option.ext
    rintro (⟨i, sel⟩ | _)
    · exact (h.dispatch_iff i sel).trans returned_eq_some_iff.symm
    · exact iff_of_false h.defined (returned_ne_undefined d offset _)
  · intro h
    constructor
    · rw [h]
      exact returned_ne_undefined d offset _
    · intro i sel
      rw [h]
      exact returned_eq_some_iff

theorem interpreted_subpackets {i : Nat} {p : Packet} {bs : List UInt8}
    (hsize : (bs.length : Int) - (scanActions bs p.actions).1.length = p.numPacketBytes) (k : Nat)
    (sps : List Subpacket) :
    (p.subpacketCandidates i k sps).findSome? (Candidate.interpreted bs) =
      (sps.findIdx? fun sp =>
        (scanActions (scanActions bs p.actions).1 sp.actions).1.isEmpty).map
        fun j => .on i (some (k + j)) := by
  induction sps generalizing k with
  | nil => rfl
  | cons sp sps ih =>
      have hreads : Candidate.reads bs ⟨i, p, some (k, sp)⟩ =
          (scanActions (scanActions bs p.actions).1 sp.actions).1.isEmpty := by
        show (decide _ && _) = _
        rw [decide_eq_true hsize, Bool.true_and]
      rw [Packet.subpacketCandidates, List.findSome?_cons, List.findIdx?_cons, ih,
        Candidate.interpreted, hreads]
      cases (scanActions (scanActions bs p.actions).1 sp.actions).1.isEmpty with
      | true => rfl
      | false =>
          rw [if_neg Bool.false_ne_true, if_neg Bool.false_ne_true, Option.map_map]
          congr 1
          funext j
          show some (Dispatch.on i (some (k + 1 + j))) = some (.on i (some (k + (j + 1))))
          rw [Nat.add_assoc, Nat.add_comm 1 j]

theorem interpreted_mismatch {i : Nat} {p : Packet} {bs : List UInt8}
    (hsize : (bs.length : Int) - (scanActions bs p.actions).1.length ≠ p.numPacketBytes) (k : Nat)
    (sps : List Subpacket) :
    (p.subpacketCandidates i k sps).findSome? (Candidate.interpreted bs) = none := by
  induction sps generalizing k with
  | nil => rfl
  | cons sp sps ih =>
      have hreads : Candidate.reads bs ⟨i, p, some (k, sp)⟩ = false := by
        show (decide _ && _) = _
        rw [decide_eq_false hsize, Bool.false_and]
      rw [Packet.subpacketCandidates, List.findSome?_cons, ih, Candidate.interpreted, hreads]
      rfl

/-- A packet is returned with its first subpacket that reads the bytes to their end. -/
theorem interpreted_packet (i : Nat) (p : Packet) {bs : List UInt8} (hnil : bs ≠ []) :
    (p.candidates i).findSome? (Candidate.interpreted bs) =
      (p.reading bs).map fun r => .on i r.1 := by
  have hempty : ¬ bs.isEmpty := mt List.isEmpty_iff.1 hnil
  unfold Packet.reading
  dsimp only
  by_cases hsub : p.subpackets = []
  · have hcandidate : Candidate.interpreted bs ⟨i, p, none⟩ =
        if (scanActions bs p.actions).1.isEmpty then some (.on i none) else none := rfl
    rw [Packet.candidates_alone hsub, List.findSome?_singleton, hcandidate,
      if_pos (List.isEmpty_iff.2 hsub)]
    cases (scanActions bs p.actions).1.isEmpty <;> rfl
  rw [Packet.candidates_subpackets hsub, if_neg (mt List.isEmpty_iff.1 hsub)]
  by_cases hsize : (bs.length : Int) - (scanActions bs p.actions).1.length = p.numPacketBytes
  · rw [interpreted_subpackets hsize, if_neg fun hne => hne hsize]
    unfold Packet.subpacketFor
    cases hfound : p.subpackets.findIdx? fun sp =>
        (scanActions (scanActions bs p.actions).1 sp.actions).1.isEmpty with
    | none => rfl
    | some k =>
        obtain ⟨sp, hsp, -⟩ := List.findIdx?_eq_some.1 hfound
        dsimp only
        rw [hsp, Option.map_some, Option.map_some, Option.map_some, Nat.zero_add]
  · rw [interpreted_mismatch hsize, if_pos hsize, if_neg hempty]
    rfl

/-- Reading the packets in turn takes the first candidate. -/
theorem interpreted_packets {bs : List UInt8} (hnil : bs ≠ []) (i : Nat) (ps : List Packet) :
    ((ps.findIdx? fun p => (p.reading bs).isSome).bind fun j =>
        ps[j]?.bind fun p => (p.reading bs).map fun r => Dispatch.on (i + j) r.1) =
      (candidatesFrom i ps).findSome? (Candidate.interpreted bs) := by
  induction ps generalizing i with
  | nil => rfl
  | cons p ps ih =>
      rw [candidatesFrom, List.findSome?_append, interpreted_packet i p hnil, ← ih,
        List.findIdx?_cons]
      cases hreading : p.reading bs with
      | some r =>
          rw [Option.isSome_some, if_pos rfl, Option.bind_some, List.getElem?_cons_zero,
            Option.bind_some, hreading]
          rfl
      | none =>
          rw [Option.isSome_none, if_neg Bool.false_ne_true]
          cases ps.findIdx? fun p => (p.reading bs).isSome with
          | none => rfl
          | some j =>
              rw [Option.map_some, Option.bind_some, Option.bind_some, List.getElem?_cons_succ,
                Nat.add_assoc, Nat.add_comm 1 j]
              rfl

/-- `Process` takes the first candidate. -/
theorem returned_eq {d : ProtocolDefinition} (hplain : d.Plain) {bs : List UInt8} (hnil : bs ≠ [])
    (hbs : bs.length < 2 ^ 31) (offset : UInt32) :
    d.returned offset bs = d.candidates.findSome? (Candidate.interpreted bs) := by
  unfold candidates returned
  rw [← interpreted_packets hnil]
  cases hfirst : (d.process offset bs).1 with
  | none =>
      rw [fst_process hplain offset hbs] at hfirst
      rw [hfirst]
      rfl
  | some i =>
      have hpackets := packets_process hfirst
      rw [fst_process hplain offset hbs] at hfirst
      obtain ⟨p, hp, hread, -⟩ := List.findIdx?_eq_some.1 hfirst
      obtain ⟨⟨sel, full⟩, hreading⟩ := Option.isSome_iff_exists.1 hread
      have hfill := Packet.fill_start (hplain p (List.mem_of_getElem? hp)) offset hbs
      rw [hreading] at hfill
      rw [hfirst, Option.bind_some, Option.bind_some, hpackets, hp, Option.bind_some, hreading,
        Option.map_some, Option.map_some, Option.map_some, hfill.2, Nat.zero_add]

theorem Packet.reading_nil (p : Packet) : (p.reading []).isSome := by
  have hrest : (scanActions [] p.actions).1 = [] :=
    List.suffix_nil.1 (scanActions_suffix [] p.actions)
  unfold reading
  dsimp only
  rw [hrest]
  by_cases hsub : p.subpackets = []
  · rw [if_pos (List.isEmpty_iff.2 hsub), if_pos List.isEmpty_nil]
    rfl
  · rw [if_neg (mt List.isEmpty_iff.1 hsub), Int.sub_self,
      if_pos (p.numPacketBytes_ne hsub).symm, if_pos List.isEmpty_nil]
    rfl

/-- A packet is returned for no bytes at all. -/
theorem returned_nil {d : ProtocolDefinition} (hplain : d.Plain) (hd : d.packets ≠ [])
    (offset : UInt32) : d.returned offset [] ≠ none := by
  have hfirst : (d.process offset []).1 = some 0 := by
    rw [fst_process hplain offset (by decide)]
    obtain ⟨p, ps, hps⟩ := List.exists_cons_of_ne_nil hd
    rw [hps, List.findIdx?_cons, if_pos p.reading_nil]
  obtain ⟨p, ps, hps⟩ := List.exists_cons_of_ne_nil hd
  unfold returned
  rw [hfirst, Option.bind_some, packets_process hfirst, hps]
  exact nofun

/-! ## Agreement -/

theorem mem_subpacketCandidates {i : Nat} {p : Packet} {k : Nat} {sps : List Subpacket}
    {c : Candidate} (h : c ∈ p.subpacketCandidates i k sps) :
    c.index = i ∧ c.packet = p ∧ ∃ l sp, c.subpacket = some (l, sp) ∧ k ≤ l ∧ sp ∈ sps := by
  induction sps generalizing k with
  | nil => cases h
  | cons sp sps ih =>
      rcases List.mem_cons.1 h with rfl | h
      · exact ⟨rfl, rfl, k, sp, rfl, Nat.le_refl k, List.mem_cons_self⟩
      · obtain ⟨hi, hp, l, sp', hsub, hl, hmem⟩ := ih h
        exact ⟨hi, hp, l, sp', hsub, Nat.le_of_succ_le hl, List.mem_cons_of_mem _ hmem⟩

theorem mem_candidates {i : Nat} {p : Packet} {c : Candidate} (h : c ∈ p.candidates i) :
    c.index = i ∧ c.packet = p ∧
      (c.subpacket = none ∨ ∃ l sp, c.subpacket = some (l, sp) ∧ sp ∈ p.subpackets) := by
  by_cases hsub : p.subpackets = []
  · rw [Packet.candidates_alone hsub, List.mem_singleton] at h
    rw [h]
    exact ⟨rfl, rfl, Or.inl rfl⟩
  · rw [Packet.candidates_subpackets hsub] at h
    obtain ⟨hi, hp, l, sp, hc, -, hmem⟩ := mem_subpacketCandidates h
    exact ⟨hi, hp, Or.inr ⟨l, sp, hc, hmem⟩⟩

theorem mem_candidatesFrom {i : Nat} {ps : List Packet} {c : Candidate}
    (h : c ∈ candidatesFrom i ps) :
    i ≤ c.index ∧ c.packet ∈ ps ∧
      (c.subpacket = none ∨ ∃ l sp, c.subpacket = some (l, sp) ∧ sp ∈ c.packet.subpackets) := by
  induction ps generalizing i with
  | nil => cases h
  | cons p ps ih =>
      rcases List.mem_append.1 h with h | h
      · obtain ⟨hi, hp, hsub⟩ := mem_candidates h
        rw [hp]
        exact ⟨Nat.le_of_eq hi.symm, List.mem_cons_self, hsub⟩
      · obtain ⟨hi, hp, hsub⟩ := ih h
        exact ⟨Nat.le_of_succ_le hi, List.mem_cons_of_mem _ hp, hsub⟩

/-- No two candidates are dispatched to the same call. -/
theorem pairwise_dispatch (i : Nat) (ps : List Packet) :
    (candidatesFrom i ps).Pairwise fun c c' => c.dispatch ≠ c'.dispatch := by
  have hsubpackets : ∀ (i : Nat) (p : Packet) (k : Nat) (sps : List Subpacket),
      (p.subpacketCandidates i k sps).Pairwise fun c c' => c.dispatch ≠ c'.dispatch := by
    intro i p k sps
    induction sps generalizing k with
    | nil => exact .nil
    | cons sp sps ih =>
        refine List.pairwise_cons.2 ⟨?_, ih (k + 1)⟩
        intro c hc heq
        obtain ⟨-, -, l, sp', hsub, hl, -⟩ := mem_subpacketCandidates hc
        unfold Candidate.dispatch at heq
        rw [hsub] at heq
        injection heq with _ hsel
        injection hsel with hk
        exact Nat.ne_of_lt hl hk
  induction ps generalizing i with
  | nil => exact .nil
  | cons p ps ih =>
      refine List.pairwise_append.2 ⟨?_, ih (i + 1), ?_⟩
      · by_cases hsub : p.subpackets = []
        · rw [Packet.candidates_alone hsub]
          exact List.pairwise_singleton _ _
        · rw [Packet.candidates_subpackets hsub]
          exact hsubpackets i p 0 p.subpackets
      · intro c hc c' hc' heq
        have hi := (mem_candidates hc).1
        have hi' := (mem_candidatesFrom hc').1
        injection heq with hindex
        omega

theorem separates_candidates (bs : List UInt8) (i : Nat) (ps : List Packet) :
    (candidatesFrom i ps).Pairwise
      (List.Separates (Candidate.interpreted bs) (Candidate.generated bs)) := by
  have hinterpreted : ∀ (c : Candidate) (b : Dispatch), c.interpreted bs = some b →
      b = c.dispatch := by
    intro c b hb
    unfold Candidate.interpreted at hb
    by_cases hreads : c.reads bs = true
    · rw [if_pos hreads] at hb
      exact (Option.some.inj hb).symm
    · rw [if_neg hreads] at hb
      cases hb
  have hgenerated : ∀ (c : Candidate) (b : Dispatch), c.generated bs = some b →
      b = c.dispatch ∨ b = .undefined := by
    intro c b hb
    rcases c.generated_cases bs with hgen | hgen | hgen
    · rw [hgen] at hb
      cases hb
    · rw [hgen] at hb
      exact Or.inl (Option.some.inj hb).symm
    · rw [hgen] at hb
      exact Or.inr (Option.some.inj hb).symm
  -- two candidates are never dispatched alike
  apply (pairwise_dispatch i ps).imp
  intro c c' hne
  constructor
  · rintro b hb hb'
    obtain rfl := hinterpreted c b hb
    rcases hgenerated c' _ hb' with heq | heq
    · exact hne heq
    · cases heq
  · rintro b hb hb'
    obtain rfl := hinterpreted c' b hb'
    rcases hgenerated c _ hb with heq | heq
    · exact hne heq.symm
    · cases heq

theorem generates_of_mem {p : Packet} {k : Nat} {sps : List Subpacket}
    {blocks : List SubpacketBlock}
    (hne : ∀ sp ∈ sps, generateMatchCondition (sizeofMembers p.actions) sp.actions ≠ some [])
    (h : p.generateSubpackets k sps = some blocks) :
    ∀ sp ∈ sps, ∃ cs, generateMatchCondition (sizeofMembers p.actions) sp.actions = some cs := by
  induction sps generalizing k blocks with
  | nil => exact nofun
  | cons sp sps ih =>
      obtain ⟨hsp, hsps⟩ := List.forall_mem_cons.1 hne
      obtain ⟨cs, rest, hcs, hrest, -⟩ := generateSubpackets_cons hsp h
      exact List.forall_mem_cons.2 ⟨⟨cs, hcs⟩, ih hsps hrest⟩

theorem generates_of_mem_packets {i : Nat} {ps : List Packet} {blocks : List PacketBlock}
    (hne : ∀ p ∈ ps, generateMatchCondition 0 p.actions ≠ some [])
    (hsubNe : ∀ p ∈ ps, ∀ sp ∈ p.subpackets,
      generateMatchCondition (sizeofMembers p.actions) sp.actions ≠ some [])
    (h : generatePackets i ps = some blocks) :
    ∀ p ∈ ps, generateMatchCondition 0 p.actions = some p.comparisons ∧
      ∀ sp ∈ p.subpackets,
        ∃ cs, generateMatchCondition (sizeofMembers p.actions) sp.actions = some cs := by
  induction ps generalizing i blocks with
  | nil => exact nofun
  | cons p ps ih =>
      obtain ⟨hp, hps⟩ := List.forall_mem_cons.1 hne
      obtain ⟨hsp, hsps⟩ := List.forall_mem_cons.1 hsubNe
      obtain ⟨subpackets, rest, hcs, hsubs, hrest, -⟩ := generatePackets_cons hp h
      exact List.forall_mem_cons.2 ⟨⟨hcs, generates_of_mem hsp hsubs⟩, ih hps hsps hrest⟩

theorem regular_of_mem {d : ProtocolDefinition} (hd : d.Comparable) {parser : List PacketBlock}
    (hgen : generateParser d = some parser) : ∀ c ∈ d.candidates, c.Regular := by
  intro c hc
  obtain ⟨-, hp, hsub⟩ := mem_candidatesFrom hc
  obtain ⟨hcs, hbodies⟩ := generates_of_mem_packets
    (fun p hp => generateMatchCondition_ne_nil (hd.headerTag p hp))
    (fun p hp sp hsp => generateMatchCondition_ne_nil (hd.bodyTag p hp sp hsp)) hgen _ hp
  have hplain := hd.plain _ hp
  rcases hsub with hnone | ⟨l, sp, hsome, hsp⟩
  · -- there is no body, of which all holds
    have hbody := Candidate.body_alone hnone
    refine ⟨hplain.actions, hd.header _ hp, hd.headerTag _ hp, hd.headerLength _ hp, hcs,
      ?_, ?_, ?_, ?_, ?_⟩
    · rw [hbody]
      trivial
    · rw [hbody]
      trivial
    · rw [hnone]
      exact nofun
    · rw [hbody]
      trivial
    · rw [hbody]
      exact ⟨[], rfl⟩
  · have hbody := Candidate.body_subpacket hsome
    refine ⟨hplain.actions, hd.header _ hp, hd.headerTag _ hp, hd.headerLength _ hp, hcs,
      ?_, ?_, ?_, ?_, ?_⟩
    · rw [hbody]
      exact hplain.subpackets sp hsp
    · rw [hbody]
      exact hd.body _ hp sp hsp
    · rw [hbody]
      exact fun _ => hd.bodyTag _ hp sp hsp
    · rw [hbody]
      exact hd.bodyLength _ hp sp hsp
    · rw [hbody]
      exact hbodies sp hsp

/-- A frame of which nothing follows the header is not dispatched. -/
theorem Candidate.Regular.generated_nil {c : Candidate} (h : c.Regular) :
    c.generated [] = none := by
  have hpos := Packet.sizeofMembers_pos h.sized h.tag h.generates
  rcases c.generated_cases [] with hgen | hgen | hgen
  · exact hgen
  · obtain ⟨-, -, ⟨-, hlen⟩ | ⟨-, -, hlt⟩⟩ := h.generated_eq_dispatch_iff.1 hgen
    · unfold size at hlen
      rw [List.length_nil] at hlen
      omega
    · cases hlt
  · obtain ⟨-, hlen, -⟩ := h.generated_eq_undefined_iff.1 hgen
    rw [List.length_nil] at hlen
    omega

/-- Every candidate that only one of the decoders takes comes after one that both take. -/
def MisjudgedLate (d : ProtocolDefinition) (bs : List UInt8) : Prop :=
  ∀ (i : Nat) (c : Candidate), d.candidates[i]? = some c → c.Misjudged bs →
    ∃ (j : Nat) (c' : Candidate), j < i ∧ d.candidates[j]? = some c' ∧ c'.Settled bs

theorem not_misjudgedLate_nil {d : ProtocolDefinition} (hregular : ∀ c ∈ d.candidates, c.Regular)
    (hd : d.packets ≠ []) : ¬ d.MisjudgedLate [] := by
  intro hlate
  have hne : d.candidates ≠ [] := by
    obtain ⟨p, ps, hps⟩ := List.exists_cons_of_ne_nil hd
    unfold candidates
    rw [hps, candidatesFrom]
    intro hnil
    obtain ⟨hnil, -⟩ := List.append_eq_nil_iff.1 hnil
    by_cases hsub : p.subpackets = []
    · rw [Packet.candidates_alone hsub] at hnil
      cases hnil
    · rw [Packet.candidates_subpackets hsub] at hnil
      obtain ⟨sp, sps, hsps⟩ := List.exists_cons_of_ne_nil hsub
      rw [hsps] at hnil
      cases hnil
  obtain ⟨c, cs, hcs⟩ := List.exists_cons_of_ne_nil hne
  have hfirst : d.candidates[0]? = some c := by
    rw [hcs]
    rfl
  have hc := hregular c (List.mem_of_getElem? hfirst)
  have hpos := Packet.sizeofMembers_pos hc.sized hc.tag hc.generates
  obtain ⟨j, -, hj, -⟩ := hlate 0 c hfirst (.truncated (Or.inr rfl) (Nat.add_pos_left hpos _))
  cases hj

/-- The generated parser and the interpreter come to the same result on a frame if and only if no
candidate that they judge differently comes before the first that both take. -/
theorem agrees_iff_misjudgedLate {d : ProtocolDefinition} (hd : d.Comparable)
    {parser : List PacketBlock} (hgen : generateParser d = some parser) {frame : List UInt8}
    (hsize : romPacketSize ≤ frame.length) (hframe : frame.length < 2 ^ 31)
    (hlength : LittleEndian.decode (frame.take 4) = frame.length) (offset : UInt32) :
    d.Agrees parser frame offset ↔ d.MisjudgedLate (frame.drop romPacketSize) := by
  have hregular := regular_of_mem hd hgen
  have hdrop : (frame.drop romPacketSize).length = frame.length - romPacketSize := List.length_drop
  have hbs : (frame.drop romPacketSize).length < 2 ^ 31 := by omega
  have hpLength : frame.length = romPacketSize + (frame.drop romPacketSize).length := by omega
  have hrun : parserProcess parser frame =
      d.candidates.findSome? (Candidate.generated (frame.drop romPacketSize)) := by
    calc parserProcess parser frame
        = runPackets (LittleEndian.decode (frame.take 4)) (frame.drop romPacketSize) parser :=
          (if_neg (Nat.not_lt.2 hsize)).trans (if_neg fun hne => hne hlength)
      _ = runPackets (romPacketSize + (frame.drop romPacketSize).length)
            (frame.drop romPacketSize) parser := by rw [hlength, ← hpLength]
      _ = _ := runPackets_generated (fun p hp => generateMatchCondition_ne_nil (hd.headerTag p hp))
            (fun p hp sp hsp => generateMatchCondition_ne_nil (hd.bodyTag p hp sp hsp)) hgen
  rw [agrees_iff_eq, hrun]
  generalize frame.drop romPacketSize = bs at hbs
  by_cases hnil : bs = []
  · subst hnil
    by_cases hempty : d.packets = []
    · have hcandidates : d.candidates = [] := by
        unfold candidates
        rw [hempty]
        rfl
      have hreturned : d.returned offset [] = none := by
        unfold returned process
        rw [hempty]
        rfl
      rw [hcandidates, hreturned]
      refine iff_of_true rfl ?_
      intro i c hc
      rw [hcandidates] at hc
      cases hc
    · -- the interpreter returns the first packet, and the parser dispatches nothing
      have hnone : d.candidates.findSome? (Candidate.generated []) = none :=
        List.findSome?_eq_none_iff.2 fun c hc => (hregular c hc).generated_nil
      rw [hnone]
      exact iff_of_false (fun heq => returned_nil hd.plain hempty offset heq.symm)
        (not_misjudgedLate_nil hregular hempty)
  rw [returned_eq hd.plain hnil hbs offset, eq_comm]
  refine (List.findSome?_eq_findSome?_iff (separates_candidates bs 0 d.packets)).trans ?_
  have hmisjudged : ∀ (i : Nat) (c : Candidate), d.candidates[i]? = some c →
      (c.interpreted bs ≠ c.generated bs ↔ c.Misjudged bs) :=
    fun i c hc => (hregular c (List.mem_of_getElem? hc)).misjudged_iff hnil
  have hsettled : ∀ (i : Nat) (c : Candidate), d.candidates[i]? = some c →
      ((c.interpreted bs = c.generated bs ∧ (c.interpreted bs).isSome) ↔ c.Settled bs) :=
    fun i c hc => (hregular c (List.mem_of_getElem? hc)).settled_iff
  constructor
  · intro hagree i c hc hm
    obtain ⟨j, c', hj, hc', hboth⟩ := hagree i c hc ((hmisjudged i c hc).2 hm)
    exact ⟨j, c', hj, hc', (hsettled j c' hc').1 hboth⟩
  · intro hlate i c hc hdiffer
    obtain ⟨j, c', hj, hc', hs⟩ := hlate i c hc ((hmisjudged i c hc).1 hdiffer)
    exact ⟨j, c', hj, hc', (hsettled j c' hc').2 hs⟩

end ProtocolDefinition

end OpenRom
