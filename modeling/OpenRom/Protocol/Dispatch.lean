import OpenRom.Protocol.Sender

/-!
# Sending to the generated parser

What the emitted `Send` of a subpacket transmits, the emitted parser hands to the function for that
subpacket, with the values that its members have been given, if and only if no fixed value is one
that C++ reads differently and no earlier packet has its length behind the end of the frame
(`Selects.handedTo_iff`).
-/

set_option autoImplicit false

namespace OpenRom

namespace ProtocolDefinition

/-! ## Fixed values -/

/-- The fixed value of the `u32` that the fields start with. -/
def fixedStart : List Action → Option UInt32
  | .field _ (.builtin ⟨.unsigned t, _, _⟩) _ :: _ =>
      if t.width = .four then t.fixedValue else none
  | .annotationAction _ :: as => fixedStart as
  | _ => none

/-- The fixed value, if there is one, is a number of the type. -/
def FieldType.FixedFits : FieldType → Prop
  | .builtin ⟨.unsigned t, _, _⟩ => ∀ v, t.fixedValue = some v → v.toNat < 256 ^ t.width.bytes
  | .builtin ⟨.signed t, _, _⟩ => ∀ v, t.fixedValue = some v →
      -(256 ^ t.width.bytes : Nat) ≤ 2 * v.toBitVec.toInt ∧
        2 * v.toBitVec.toInt < (256 ^ t.width.bytes : Nat)
  | _ => True

/-- The fixed value of an unsigned member is printed as `-2147483648`, which C++ does not convert
before it compares. -/
def FieldType.PrintsMinimum : FieldType → Prop
  | .builtin ⟨.unsigned t, _, _⟩ =>
      t.width = .four ∧ t.format = .decimal ∧ t.fixedValue = some 0x80000000
  | _ => False

theorem UnsignedType.literal_of_generateCInitialize {t : UnsignedType} {literal : Literal}
    (h : t.generateCInitialize = some [literal]) :
    ∃ v, t.fixedValue = some v ∧
      (t.format = .hex ∧ literal = .hex v ∨ t.format = .decimal ∧ literal = .decimal v) := by
  unfold generateCInitialize at h
  cases hv : t.fixedValue with
  | none =>
      rw [hv] at h
      cases h
  | some v =>
      rw [hv] at h
      dsimp only at h
      by_cases hcount : t.count ≠ 1
      · rw [if_pos hcount] at h
        cases h
      · rw [if_neg hcount] at h
        refine ⟨v, rfl, ?_⟩
        cases hformat : t.format with
        | hex =>
            rw [hformat] at h
            cases h
            exact Or.inl ⟨rfl, rfl⟩
        | decimal =>
            rw [hformat] at h
            cases h
            exact Or.inr ⟨rfl, rfl⟩

theorem toInt_eq (v : UInt32) : v.toBitVec.toInt =
    if v.toNat < 2 ^ 31 then (v.toNat : Int) else (v.toNat : Int) - 2 ^ 32 := by
  have hcond := BitVec.toInt_eq_toNat_cond v.toBitVec
  have hnat : v.toBitVec.toNat = v.toNat := rfl
  rw [hnat] at hcond
  rw [hcond]
  split
  · rw [if_pos (by omega)]
  · rw [if_neg (by omega)]
    rfl

/-- In an unsigned member a value that fits compares equal to its literal, but for the minimum. -/
theorem equals_unsigned_iff {w : Width} {v : UInt32} (hfits : v.toNat < 256 ^ w.bytes) :
    ((Literal.hex v).equals (w == .four && !false) v.toNat = true) ∧
      ((Literal.decimal v).equals (w == .four && !false) v.toNat = true ↔ v.toNat ≠ 2 ^ 31) := by
  have hlt : v.toNat < 2 ^ 32 := v.toNat_lt
  have hint := toInt_eq v
  unfold Literal.equals
  dsimp only
  cases w with
  | four =>
      have hu : (Width.four == Width.four && !false) = true := rfl
      rw [hu, Bool.true_or, if_pos rfl, if_pos rfl, beq_iff_eq]
      refine ⟨by omega, ?_⟩
      by_cases hmin : v.toNat = 2 ^ 31
      · rw [if_pos hmin, beq_iff_eq]
        omega
      · rw [if_neg hmin, beq_iff_eq]
        omega
  | one =>
      have hsmall : v.toNat < 256 := hfits
      have hu : (Width.one == Width.four && !false) = false := rfl
      rw [hu, Bool.false_or, if_neg (by simp; omega), if_neg (by omega), if_neg Bool.false_ne_true,
        beq_iff_eq, beq_iff_eq, hint, if_pos (by omega)]
      omega
  | two =>
      have hsmall : v.toNat < 65536 := hfits
      have hu : (Width.two == Width.four && !false) = false := rfl
      rw [hu, Bool.false_or, if_neg (by simp; omega), if_neg (by omega), if_neg Bool.false_ne_true,
        beq_iff_eq, beq_iff_eq, hint, if_pos (by omega)]
      omega

/-- A signed member, with its sign, compares equal to a literal whose value fits. -/
theorem equals_signed (v : UInt32) :
    (Literal.hex v).equals false v.toBitVec.toInt = true ∧
      (Literal.decimal v).equals false v.toBitVec.toInt = true := by
  have hlt : v.toNat < 2 ^ 32 := v.toNat_lt
  have hint := toInt_eq v
  unfold Literal.equals
  dsimp only
  constructor
  · rw [Bool.false_or]
    by_cases hbig : 2 ^ 31 ≤ v.toNat
    · rw [if_pos (decide_eq_true hbig), beq_iff_eq, hint, if_neg (Nat.not_lt.2 hbig)]
      omega
    · rw [if_neg (by simpa using hbig), beq_iff_eq, hint, if_pos (Nat.not_le.1 hbig)]
  · by_cases hmin : v.toNat = 2 ^ 31
    · rw [if_pos hmin, beq_iff_eq, hint, if_neg (by omega)]
      omega
    · rw [if_neg hmin, if_neg Bool.false_ne_true, beq_iff_eq]

/-- What is loaded from a signed member is the value that has been stored, with its sign. -/
theorem promote_signed {w : Width} {v : UInt32}
    (hlow : -(256 ^ w.bytes : Nat) ≤ 2 * v.toBitVec.toInt)
    (hhigh : 2 * v.toBitVec.toInt < (256 ^ w.bytes : Nat)) (offset : Nat) (literal : Literal) :
    Comparison.promote ⟨offset, w, true, literal⟩ (v.toNat % 256 ^ w.bytes) = v.toBitVec.toInt := by
  have hlt : v.toNat < 2 ^ 32 := v.toNat_lt
  have hint := toInt_eq v
  -- the sign is the highest bit of the width
  have hsign : ∀ n : Nat, -(n : Int) ≤ 2 * v.toBitVec.toInt → 2 * v.toBitVec.toInt < n →
      (n = 256 ∨ n = 65536 ∨ n = 4294967296) →
      (if decide (n ≤ 2 * (v.toNat % n)) = true then ((v.toNat % n : Nat) : Int) - n
        else ((v.toNat % n : Nat) : Int)) = v.toBitVec.toInt := by
    intro n hlow hhigh hn
    rw [hint] at hlow hhigh ⊢
    by_cases hneg : n ≤ 2 * (v.toNat % n)
    · rw [if_pos (decide_eq_true hneg)]
      rcases hn with rfl | rfl | rfl <;> split at hlow <;> omega
    · rw [if_neg (by simpa using hneg)]
      rcases hn with rfl | rfl | rfl <;> split at hlow <;> omega
  unfold Comparison.promote
  rw [Bool.true_and]
  cases w with
  | one => exact hsign 256 hlow hhigh (Or.inl rfl)
  | two => exact hsign 65536 hlow hhigh (Or.inr (Or.inl rfl))
  | four => exact hsign 4294967296 hlow hhigh (Or.inr (Or.inr rfl))

theorem FieldType.PrintsMinimum.generateCInitialize_ne {type : FieldType}
    (h : type.PrintsMinimum) : type.generateCInitialize ≠ some [] := by
  intro hinit
  cases type with
  | struct => exact h
  | builtin object =>
      obtain ⟨type, cells, hcells⟩ := object
      cases type with
      | unsigned t => cases h.2.2.symm.trans (UnsignedType.fixedValue_of_nil hinit)
      | signed => exact h
      | string => exact h
      | float => exact h
      | double => exact h
      | length => exact h
      | unixtime => exact h

/-- A member with its fixed value compares equal to it, but for the minimum. -/
theorem Member.Compares.holds_iff {m : Member} {literal : Literal} {c : Comparison}
    (h : m.Compares literal c) (hfits : m.type.FixedFits) :
    c.holds (literal.value.toNat % 256 ^ c.width.bytes) = true ↔ ¬ m.type.PrintsMinimum := by
  obtain ⟨hinit, hc⟩ := h
  obtain ⟨offset, type⟩ := m
  cases type with
  | struct => cases hc
  | builtin object =>
      obtain ⟨type, cells, hcells⟩ := object
      cases type with
      | unsigned t =>
          cases hc
          obtain ⟨v, hv, hliteral⟩ := UnsignedType.literal_of_generateCInitialize hinit
          have hvalue : v.toNat < 256 ^ t.width.bytes := hfits v hv
          obtain ⟨hhex, hdecimal⟩ := equals_unsigned_iff hvalue
          -- the value fits its width, and is an `int` or a `long` without a sign
          have hpromote : ∀ literal, Comparison.promote ⟨offset, t.width, false, literal⟩
              (v.toNat % 256 ^ t.width.bytes) = (v.toNat : Int) := by
            intro literal
            rw [Nat.mod_eq_of_lt hvalue]
            rfl
          show Literal.equals literal _ (Comparison.promote _ _) = true ↔ _
          rcases hliteral with ⟨hformat, rfl⟩ | ⟨hformat, rfl⟩
          · refine iff_of_true ((hpromote _).symm ▸ hhex) ?_
            rintro ⟨-, hdec, -⟩
            cases hformat.symm.trans hdec
          · refine ((hpromote _).symm ▸ hdecimal).trans (not_congr ?_)
            constructor
            · intro hmin
              -- the minimum is printed with a sign, and only four bytes have room for it
              have hv' : v = 0x80000000 := UInt32.toNat_inj.1 hmin
              refine ⟨?_, hformat, hv.trans (congrArg some hv')⟩
              rw [hmin] at hvalue
              cases hw : t.width with
              | four => rfl
              | one =>
                  rw [hw] at hvalue
                  exact absurd hvalue (by decide)
              | two =>
                  rw [hw] at hvalue
                  exact absurd hvalue (by decide)
            · rintro ⟨-, -, hmin⟩
              cases hv.symm.trans hmin
              rfl
      | signed t =>
          cases hc
          obtain ⟨v, hv, hliteral⟩ := UnsignedType.literal_of_generateCInitialize hinit
          -- a signed value is promoted with its sign, as it is printed
          obtain ⟨hlow, hhigh⟩ := hfits v hv
          obtain ⟨hhex, hdecimal⟩ := equals_signed v
          refine iff_of_true ?_ id
          show Literal.equals literal (t.width == .four && !true) (Comparison.promote _ _) = true
          rw [Bool.not_true, Bool.and_false]
          rcases hliteral with ⟨-, rfl⟩ | ⟨-, rfl⟩
          · exact (promote_signed hlow hhigh offset _).symm ▸ hhex
          · exact (promote_signed hlow hhigh offset _).symm ▸ hdecimal
      | string => cases hc
      | float => cases hc
      | double => cases hc
      | length => cases hc
      | unixtime => cases hc

/-- Another `u32` compares different from the literal. -/
theorem not_holds_four {offset : Nat} {literal : Literal} {x : Nat} (hx : x < 2 ^ 32)
    (hne : x ≠ literal.value.toNat) :
    Comparison.holds ⟨offset, .four, false, literal⟩ x = false := by
  have hu : (Width.four == Width.four && !false) = true := rfl
  show Literal.equals literal _ (x : Int) = false
  unfold Literal.equals
  dsimp only
  cases literal with
  | hex v =>
      have hne : x ≠ v.toNat := hne
      dsimp only
      rw [hu, Bool.true_or, if_pos rfl, beq_eq_false_iff_ne]
      omega
  | decimal v =>
      have hne : x ≠ v.toNat := hne
      dsimp only
      rw [hu, if_pos rfl]
      by_cases hmin : v.toNat = 2 ^ 31
      · rw [if_pos hmin, beq_eq_false_iff_ne]
        omega
      · rw [if_neg hmin, beq_eq_false_iff_ne]
        omega

/-- The generator compares the `u32` that the fields start with first. -/
theorem generateMatchCondition_of_fixedStart {as : List Action} {v : UInt32}
    (h : fixedStart as = some v) {offset : Nat} {cs : List Comparison}
    (hgen : generateMatchCondition offset as = some cs) :
    ∃ literal rest, literal.value = v ∧ cs = ⟨offset, .four, false, literal⟩ :: rest := by
  induction as with
  | nil => cases h
  | cons a as ih =>
      cases a with
      | transformationAction t => cases h
      | annotationAction name => exact ih h hgen
      | field name type dataOffset =>
          cases type with
          | struct => cases h
          | builtin object =>
              obtain ⟨type, cells, hcells⟩ := object
              cases type with
              | unsigned t =>
                  -- it is the first field, so its initial value is the first that is compared
                  obtain ⟨hw, hv⟩ : t.width = .four ∧ t.fixedValue = some v := by
                    unfold fixedStart at h
                    split at h
                    next hw => exact ⟨hw, h⟩
                    next => cases h
                  obtain ⟨rest, -, ⟨hinit, -⟩ | ⟨literal, c, hinit, hc, rfl⟩⟩ :=
                    generateMatchCondition_field hgen
                  · cases hv.symm.trans (UnsignedType.fixedValue_of_nil hinit)
                  · cases hc
                    obtain ⟨v', hv', hliteral⟩ := UnsignedType.literal_of_generateCInitialize hinit
                    cases hv.symm.trans hv'
                    refine ⟨literal, rest, ?_, by rw [hw]⟩
                    rcases hliteral with ⟨-, rfl⟩ | ⟨-, rfl⟩
                    · rfl
                    · rfl
              | signed => cases h
              | string => cases h
              | float => cases h
              | double => cases h
              | length => cases h
              | unixtime => cases h

theorem generateMatchCondition_ne_of_fixedStart {as : List Action} (h : (fixedStart as).isSome)
    (offset : Nat) : generateMatchCondition offset as ≠ some [] := by
  intro hgen
  obtain ⟨v, hv⟩ := Option.isSome_iff_exists.1 h
  obtain ⟨literal, rest, -, hcons⟩ := generateMatchCondition_of_fixedStart hv hgen
  cases hcons

/-! ## Candidates in front -/

/-- The length of the packet is behind the end of a frame with `n` bytes, and the frame is long
enough for the sum of the sizes that are constant. -/
def Packet.overreads (q : Packet) (n : Nat) : Bool :=
  match lengthOffset 0 q.actions with
  | none => false
  | some offset =>
      decide (0 < constantSizes q.actions ∧ constantSizes q.actions ≤ n ∧ n < offset + 4)

theorem Packet.eval_sizeConditions_eq_none_iff (q : Packet) (bs : List UInt8) :
    evalAll (romPacketSize + bs.length) bs q.sizeConditions = none ↔
      q.overreads bs.length = true := by
  unfold sizeConditions overreads
  by_cases hzero : constantSizes q.actions = 0
  · rw [if_pos hzero, hzero]
    refine iff_of_false nofun ?_
    cases lengthOffset 0 q.actions with
    | none => exact Bool.false_ne_true
    | some offset => exact fun h => Nat.lt_irrefl 0 (of_decide_eq_true h).1
  · rw [if_neg hzero]
    cases lengthOffset 0 q.actions with
    | none =>
        rw [evalAll_singleton]
        exact iff_of_false (Option.some_ne_none _) Bool.false_ne_true
    | some offset =>
        have hfirst : Condition.eval (romPacketSize + bs.length) bs
            (.sizeAtLeast (constantSizes q.actions)) =
            some (decide (constantSizes q.actions ≤ bs.length)) := by
          rw [Condition.eval]
          exact congrArg some (decide_eq_decide.2 Nat.add_le_add_iff_left)
        dsimp only
        rw [decide_eq_true_iff, evalAll, hfirst]
        by_cases hle : constantSizes q.actions ≤ bs.length
        · rw [decide_eq_true hle]
          dsimp only
          rw [evalAll_singleton, Condition.eval, Option.map_eq_none_iff, readMember]
          by_cases hroom : offset + 4 ≤ bs.length
          · rw [if_pos hroom]
            exact iff_of_false (Option.some_ne_none _) fun h => Nat.not_lt.2 hroom h.2.2
          · rw [if_neg hroom]
            exact iff_of_true rfl ⟨Nat.pos_of_ne_zero hzero, hle, Nat.not_le.1 hroom⟩
        · rw [decide_eq_false hle]
          exact iff_of_false (Option.some_ne_none _) fun h => hle h.2.1

/-- Where a fixed value is in the frame and differs, the rest of the condition is not looked at. -/
theorem evalAll_mismatch {pLength : Nat} {bs : List UInt8} {pre : List Condition} {c : Comparison}
    (hroom : c.offset + c.width.bytes ≤ bs.length) (hne : c.holds (c.loaded bs) = false)
    (cs : List Comparison) :
    evalAll pLength bs (pre ++ (c :: cs).map .comparison) =
      (evalAll pLength bs pre).map fun _ => false := by
  rw [evalAll_append]
  rcases evalAll pLength bs pre with _ | _ | _
  · rfl
  · rfl
  · dsimp only
    rw [List.map_cons, evalAll, eval_comparison pLength hroom, hne]
    rfl

section Others

variable {bs : List UInt8} {v : UInt32}

/-- The condition of a packet that starts with another value does not hold. -/
theorem Packet.eval_conditions_of_other {q : Packet} (hstart : fixedStart q.actions = some v)
    (hgen : generateMatchCondition 0 q.actions = some q.comparisons) (hroom : 4 ≤ bs.length)
    (hne : LittleEndian.decode (List.load 0 4 bs) ≠ v.toNat) :
    evalAll (romPacketSize + bs.length) bs q.conditions =
      if q.overreads bs.length then none else some false := by
  obtain ⟨literal, rest, rfl, hcs⟩ := generateMatchCondition_of_fixedStart hstart hgen
  have hlt : LittleEndian.decode (List.load 0 4 bs) < 2 ^ 32 :=
    Nat.lt_of_lt_of_le (LittleEndian.decode_lt _)
      (Nat.pow_le_pow_right (by decide) (List.length_take_le _ _))
  have hroom : 0 + Width.four.bytes ≤ bs.length := by
    rw [Nat.zero_add]
    exact hroom
  unfold conditions
  rw [hgen, Option.getD_some, hcs, evalAll_mismatch hroom (not_holds_four hlt hne)]
  have hiff := q.eval_sizeConditions_eq_none_iff bs
  by_cases hover : q.overreads bs.length = true
  · rw [if_pos hover, hiff.2 hover]
    rfl
  · rw [if_neg hover]
    obtain ⟨b, hb⟩ := Option.ne_none_iff_exists'.1 fun hnone => hover (hiff.1 hnone)
    rw [hb]
    rfl

/-- Nor does that of a subpacket that starts with another value. -/
theorem Packet.eval_conditionsFor_of_other {p : Packet} {o : Nat}
    (hlength : lengthOffset 0 p.actions = some o) (hlengthRoom : o + 4 ≤ bs.length)
    {sp : Subpacket} (hstart : fixedStart sp.actions = some v) {cs : List Comparison}
    (hgen : generateMatchCondition (sizeofMembers p.actions) sp.actions = some cs)
    (hroom : sizeofMembers p.actions + 4 ≤ bs.length)
    (hne : LittleEndian.decode (List.load (sizeofMembers p.actions) 4 bs) ≠ v.toNat) :
    evalAll (romPacketSize + bs.length) bs (p.conditionsFor sp) = some false := by
  obtain ⟨literal, rest, rfl, rfl⟩ := generateMatchCondition_of_fixedStart hstart hgen
  have hlt : LittleEndian.decode (List.load (sizeofMembers p.actions) 4 bs) < 2 ^ 32 :=
    Nat.lt_of_lt_of_le (LittleEndian.decode_lt _)
      (Nat.pow_le_pow_right (by decide) (List.length_take_le _ _))
  have hsize : ∃ b, evalAll (romPacketSize + bs.length) bs (p.subpacketSizeConditions sp) =
      some b := by
    unfold subpacketSizeConditions
    rw [hlength]
    dsimp only
    split
    · rw [evalAll_singleton, Condition.eval, readMember, if_pos hlengthRoom]
      exact ⟨_, rfl⟩
    · exact ⟨true, rfl⟩
  obtain ⟨b, hb⟩ := hsize
  unfold conditionsFor
  rw [hgen, Option.getD_some, evalAll_mismatch hroom (not_holds_four hlt hne), hb]
  rfl

theorem Packet.findSome?_candidates {q : Packet} (i : Nat)
    (h : evalAll (romPacketSize + bs.length) bs q.conditions =
      if q.overreads bs.length then none else some false) :
    (q.candidates i).findSome? (Candidate.generated bs) =
      if q.overreads bs.length then some .undefined else none := by
  have hcandidate : ∀ s, Candidate.generated bs ⟨i, q, s⟩ =
      if q.overreads bs.length then some .undefined else none := by
    intro s
    unfold Candidate.generated
    rw [h]
    by_cases hover : q.overreads bs.length = true
    · rw [if_pos hover, if_pos hover]
    · rw [if_neg hover, if_neg hover]
  by_cases hsub : q.subpackets = []
  · rw [candidates_alone hsub, List.findSome?_singleton, hcandidate]
  · rw [candidates_subpackets hsub]
    by_cases hover : q.overreads bs.length = true
    · obtain ⟨sp, sps, hsps⟩ := List.exists_cons_of_ne_nil hsub
      rw [hsps, subpacketCandidates, List.findSome?_cons, hcandidate, if_pos hover]
    · rw [if_neg hover] at h ⊢
      exact findSome?_rejected h 0 q.subpackets

/-- The packets in front take nothing, if none of them reads behind the frame. -/
theorem findSome?_front {i : Nat} {ps : List Packet}
    (h : ∀ q ∈ ps, evalAll (romPacketSize + bs.length) bs q.conditions =
      if q.overreads bs.length then none else some false) :
    (candidatesFrom i ps).findSome? (Candidate.generated bs) =
      if ps.any (Packet.overreads · bs.length) then some .undefined else none := by
  induction ps generalizing i with
  | nil => rfl
  | cons q ps ih =>
      obtain ⟨hq, hps⟩ := List.forall_mem_cons.1 h
      rw [candidatesFrom, List.findSome?_append, Packet.findSome?_candidates i hq, ih hps,
        List.any_cons]
      by_cases hover : q.overreads bs.length = true
      · rw [if_pos hover, hover]
        rfl
      · rw [if_neg hover, Bool.eq_false_iff.2 hover]
        rfl

end Others

theorem candidatesFrom_append (i : Nat) (ps qs : List Packet) :
    candidatesFrom i (ps ++ qs) = candidatesFrom i ps ++ candidatesFrom (i + ps.length) qs := by
  induction ps generalizing i with
  | nil => rfl
  | cons p ps ih =>
      rw [List.cons_append, candidatesFrom, ih, candidatesFrom, List.append_assoc, List.length_cons,
        Nat.add_assoc, Nat.add_comm 1]

theorem Packet.subpacketCandidates_append (p : Packet) (i k : Nat) (sps sqs : List Subpacket) :
    p.subpacketCandidates i k (sps ++ sqs) =
      p.subpacketCandidates i k sps ++ p.subpacketCandidates i (k + sps.length) sqs := by
  induction sps generalizing k with
  | nil => rfl
  | cons sp sps ih =>
      rw [List.cons_append, subpacketCandidates, ih, subpacketCandidates, List.cons_append,
        List.length_cons, Nat.add_assoc, Nat.add_comm 1]

/-! ## The candidate of the message -/

/-- The packet and the subpacket start with `u32` values that no other packet, and no other
subpacket of the packet, starts with. Their fields have a constant size, and the packet has a
length. -/
structure Selects (d : ProtocolDefinition) (i : Nat) (p : Packet) (k : Nat) (sp : Subpacket) :
    Prop where
  packet : d.packets[i]? = some p
  subpacket : p.subpackets[k]? = some sp
  header : Sized p.actions
  body : Sized sp.actions
  length : (lengthOffset 0 p.actions).isSome
  starts : ∀ q ∈ d.packets, (fixedStart q.actions).isSome
  subStarts : ∀ q ∈ d.packets, ∀ sq ∈ q.subpackets, (fixedStart sq.actions).isSome
  distinct : ∀ j q, d.packets[j]? = some q → j ≠ i → fixedStart q.actions ≠ fixedStart p.actions
  subDistinct : ∀ j sq, p.subpackets[j]? = some sq → j ≠ k →
    fixedStart sq.actions ≠ fixedStart sp.actions
  fits : ∀ m ∈ p.membersWith sp, m.type.FixedFits

theorem hasTransformation_of_sized {as : List Action} (h : Sized as) :
    hasTransformation as = false := by
  induction as with
  | nil => rfl
  | cons a as ih =>
      cases a with
      | field name type offset => exact ih h.2
      | transformationAction t => exact h.elim
      | annotationAction name => exact ih h

section Message

variable {d : ProtocolDefinition} {parser : List PacketBlock}
  (hgen : generateParser d = some parser) {i k : Nat} {p : Packet} {sp : Subpacket}
  (h : d.Selects i p k sp) {memory : List UInt8} (hholds : p.Holds sp memory)

include h

theorem Selects.sizeofWith_eq :
    p.sizeofWith sp = sizeofMembers p.actions + sizeofMembers sp.actions := by
  rw [Packet.sizeofWith, hasTransformation_of_sized h.body]
  rfl

/-- `Send` transmits the header and all members. -/
theorem Selects.toNat_size : ((romPacketSize : Int) + constantSizes p.actions +
    constantSizes sp.actions + 0).toNat = romPacketSize + p.sizeofWith sp := by
  rw [(sizeFrom_of_sized h.header).2, (sizeFrom_of_sized h.body).2, h.sizeofWith_eq]
  omega

include hgen in
theorem Selects.generates : generateMatchCondition 0 p.actions = some p.comparisons ∧
    ∀ sq ∈ p.subpackets,
      ∃ cs, generateMatchCondition (sizeofMembers p.actions) sq.actions = some cs :=
  generates_of_mem_packets
    (fun q hq => generateMatchCondition_ne_of_fixedStart (h.starts q hq) 0)
    (fun q hq sq hsq => generateMatchCondition_ne_of_fixedStart (h.subStarts q hq sq hsq) _)
    hgen p (List.mem_of_getElem? h.packet)

include hholds

/-- A member with a fixed value compares equal to it in the message, but for the minimum. -/
theorem Selects.compared_iff {m : Member} (hm : m ∈ p.membersWith sp) {literal : Literal}
    {c : Comparison} (hc : m.Compares literal c) :
    c.offset + c.width.bytes ≤ memory.length ∧
      c.loaded memory = literal.value.toNat % 256 ^ c.width.bytes ∧
      (c.Compared memory ↔ ¬ m.type.PrintsMinimum) := by
  have hconst : 0 < m.type.constantSize := by
    rcases List.mem_append.1 hm with hm | hm
    · exact generateFields_sized h.header m hm
    · exact generateFields_sized h.body m hm
  obtain ⟨-, hoffset, hwidth⟩ := FieldType.full_of_comparison hconst hc.1 hc.2 []
  have hloaded : c.loaded memory = literal.value.toNat % 256 ^ c.width.bytes := by
    have hget := hholds.fixed m hm literal c hc
    rw [Member.get, ← hoffset, ← hwidth] at hget
    rw [Comparison.loaded, ← LittleEndian.decode_encode_mod, ← hget]
    rfl
  refine ⟨hoffset ▸ hwidth ▸ Packet.room hm hholds.length_eq, hloaded, ?_⟩
  rw [Comparison.Compared, hloaded]
  exact hc.holds_iff (h.fits m hm)

/-- The message has the values that the packet and the subpacket start with. -/
theorem Selects.loaded_start {as : List Action} {offset : Nat} {cs : List Comparison}
    (hcs : generateMatchCondition offset as = some cs)
    (hfields : ∀ m ∈ generateFields offset as, m ∈ p.membersWith sp) {v : UInt32}
    (hstart : fixedStart as = some v) :
    LittleEndian.decode (List.load offset 4 memory) = v.toNat ∧ offset + 4 ≤ memory.length := by
  obtain ⟨literal, rest, rfl, rfl⟩ := generateMatchCondition_of_fixedStart hstart hcs
  obtain ⟨m, hm, literal', hc⟩ := (mem_comparisons_iff hcs _).1 List.mem_cons_self
  obtain ⟨hoffset, hliteral⟩ := hc.shape
  obtain rfl : literal = literal' := hliteral
  obtain ⟨hroom, hloaded, -⟩ := h.compared_iff hholds (hfields m hm) hc
  exact ⟨hloaded.trans (Nat.mod_eq_of_lt literal.value.toNat_lt), hroom⟩

/-- The comparisons of the packet and of the subpacket hold if none of the fixed values is the
minimum. -/
theorem Selects.all_compared_iff {cs : List Comparison}
    (hp : generateMatchCondition 0 p.actions = some p.comparisons)
    (hsp : generateMatchCondition (sizeofMembers p.actions) sp.actions = some cs) :
    (∀ c ∈ p.comparisons ++ cs, c.Compared memory) ↔
      ∀ m ∈ p.membersWith sp, ¬ m.type.PrintsMinimum := by
  constructor
  · intro hall m hm hminimum
    have hinit := hminimum.generateCInitialize_ne
    have hcompared : ∀ literal c, m.Compares literal c → c ∈ p.comparisons ++ cs → False :=
      fun literal c hc hmem => (h.compared_iff hholds hm hc).2.2.1 (hall c hmem) hminimum
    rcases List.mem_append.1 hm with hfield | hfield
    · rcases generateCInitialize_of_mem hp m hfield with hnil | ⟨literal, c, hc⟩
      · exact hinit hnil
      · exact hcompared literal c hc (List.mem_append_left _
          ((mem_comparisons_iff hp c).2 ⟨m, hfield, literal, hc⟩))
    · rcases generateCInitialize_of_mem hsp m hfield with hnil | ⟨literal, c, hc⟩
      · exact hinit hnil
      · exact hcompared literal c hc (List.mem_append_right _
          ((mem_comparisons_iff hsp c).2 ⟨m, hfield, literal, hc⟩))
  · intro hnone c hc
    have hmember : ∃ m ∈ p.membersWith sp, ∃ literal, m.Compares literal c := by
      rcases List.mem_append.1 hc with hc | hc
      · obtain ⟨m, hm, hcompares⟩ := (mem_comparisons_iff hp c).1 hc
        exact ⟨m, List.mem_append_left _ hm, hcompares⟩
      · obtain ⟨m, hm, hcompares⟩ := (mem_comparisons_iff hsp c).1 hc
        exact ⟨m, List.mem_append_right _ hm, hcompares⟩
    obtain ⟨m, hm, literal, hcompares⟩ := hmember
    exact (h.compared_iff hholds hm hcompares).2.2.2 (hnone m hm)

/-- The length is in the message. -/
theorem Selects.lengthOffset_eq (hsize : memory.length < 2 ^ 32) :
    ∃ o, lengthOffset 0 p.actions = some o ∧
      readMember memory o 4 = some (sizeofMembers sp.actions) := by
  obtain ⟨o, ho⟩ := Option.isSome_iff_exists.1 h.length
  obtain ⟨m, hm, rfl, hlength⟩ := exists_of_lengthOffset ho
  have hroom := Packet.room (List.mem_append_left _ hm) hholds.length_eq
  have hget := hholds.lengths m hm hlength
  rw [(FieldType.sizeof_of_isLength hlength).1] at hroom
  rw [Member.get, (FieldType.sizeof_of_isLength hlength).1, (sizeFrom_of_sized h.body).2] at hget
  refine ⟨m.offset, ho, ?_⟩
  rw [readMember, if_pos hroom]
  refine congrArg some ?_
  show LittleEndian.decode (List.load m.offset 4 memory) = sizeofMembers sp.actions
  rw [hget]
  have hlen := hholds.length_eq.trans h.sizeofWith_eq
  exact LittleEndian.decode_encode (by omega)

variable {cs : List Comparison} (hp : generateMatchCondition 0 p.actions = some p.comparisons)
  (hsp : generateMatchCondition (sizeofMembers p.actions) sp.actions = some cs)
  (hsize : memory.length < 2 ^ 32)

include hp hsp hsize

/-- The conditions of the packet and of the subpacket are evaluated to their end. -/
theorem Selects.eval_own :
    ∃ b b', evalAll (romPacketSize + memory.length) memory p.conditions = some b ∧
      evalAll (romPacketSize + memory.length) memory (p.conditionsFor sp) = some b' ∧
      (b = true ∧ b' = true ↔ ∀ m ∈ p.membersWith sp, ¬ m.type.PrintsMinimum) := by
  obtain ⟨o, ho, hread⟩ := h.lengthOffset_eq hholds hsize
  have hlen := hholds.length_eq.trans h.sizeofWith_eq
  -- what starts with a fixed value has a size, so its length is compared
  have hpositive : ∀ {as : List Action} {offset : Nat} {cs : List Comparison},
      (fixedStart as).isSome → Sized as → generateMatchCondition offset as = some cs →
      0 < sizeofMembers as := by
    intro as offset cs hstart hsized hcs
    obtain ⟨v, hv⟩ := Option.isSome_iff_exists.1 hstart
    obtain ⟨literal, rest, -, rfl⟩ := generateMatchCondition_of_fixedStart hv hcs
    obtain ⟨-, hbound⟩ := comparison_bounds hsized hcs _ List.mem_cons_self
    have hbound : offset + 4 ≤ offset + sizeofMembers as := hbound
    omega
  have hpacket := List.mem_of_getElem? h.packet
  have hposP := hpositive (h.starts p hpacket) h.header hp
  have hposS := hpositive (h.subStarts p hpacket sp (List.mem_of_getElem? h.subpacket)) h.body hsp
  -- the conditions on the sizes hold of the message
  have hfirst : evalAll (romPacketSize + memory.length) memory p.sizeConditions = some true := by
    unfold Packet.sizeConditions
    rw [(sizeFrom_of_sized h.header).2, if_neg (Nat.ne_of_gt hposP), ho]
    dsimp only
    rw [evalAll, Condition.eval, decide_eq_true (by omega)]
    dsimp only
    rw [evalAll_singleton, Condition.eval, hread]
    exact congrArg some (beq_iff_eq.2 (by omega))
  have hsecond : evalAll (romPacketSize + memory.length) memory (p.subpacketSizeConditions sp) =
      some true := by
    unfold Packet.subpacketSizeConditions
    rw [(sizeFrom_of_sized h.body).2, ho]
    dsimp only
    rw [if_pos ⟨hposS, isConstantSize_of_sized h.body⟩, evalAll_singleton, Condition.eval, hread]
    exact congrArg some (beq_iff_eq.2 rfl)
  -- and the members that are compared are inside of it
  obtain ⟨b, hb, hball⟩ := evalAll_comparisons (romPacketSize + memory.length) fun c hc => by
    have hbound := (comparison_bounds h.header hp c hc).2
    show c.offset + c.width.bytes ≤ memory.length
    omega
  obtain ⟨b', hb', hball'⟩ := evalAll_comparisons (romPacketSize + memory.length) fun c hc => by
    have hbound := (comparison_bounds h.body hsp c hc).2
    show c.offset + c.width.bytes ≤ memory.length
    omega
  refine ⟨b, b', ?_, ?_, ?_⟩
  · unfold Packet.conditions
    rw [evalAll_append, hfirst, hp]
    exact hb
  · unfold Packet.conditionsFor
    rw [evalAll_append, hsecond, hsp]
    exact hb'
  · rw [hball, hball', ← h.all_compared_iff hholds hp hsp, List.forall_mem_append]

end Message

theorem getElem?_split {α : Type} {l : List α} {i : Nat} {a : α} (h : l[i]? = some a) :
    l = l.take i ++ a :: l.drop (i + 1) ∧ (l.take i).length = i := by
  obtain ⟨hi, rfl⟩ := List.getElem?_eq_some_iff.1 h
  refine ⟨?_, List.length_take_of_le (Nat.le_of_lt hi)⟩
  rw [List.getElem_cons_drop, List.take_append_drop]

theorem exists_lt_of_mem_take {α : Type} {l : List α} {i : Nat} {a : α} (h : a ∈ l.take i) :
    ∃ j < i, l[j]? = some a := by
  obtain ⟨j, hj⟩ := List.mem_iff_getElem?.1 h
  rw [List.getElem?_take] at hj
  split at hj
  next hlt => exact ⟨j, hlt, hj⟩
  next => cases hj

section Run

variable {d : ProtocolDefinition} {parser : List PacketBlock}
  (hgen : generateParser d = some parser) {i k : Nat} {p : Packet} {sp : Subpacket}
  (h : d.Selects i p k sp) {memory : List UInt8} (hholds : p.Holds sp memory)
  (hsize : memory.length < 2 ^ 32)

include hgen h hholds

/-- The packets in front start with other values. -/
theorem Selects.eval_front : ∀ q ∈ d.packets.take i,
    evalAll (romPacketSize + memory.length) memory q.conditions =
      if q.overreads memory.length then none else some false := by
  intro q hq
  obtain ⟨j, hj, hqj⟩ := exists_lt_of_mem_take hq
  have hmem := List.mem_of_getElem? hqj
  obtain ⟨v, hv⟩ := Option.isSome_iff_exists.1 (h.starts q hmem)
  obtain ⟨u, hu⟩ := Option.isSome_iff_exists.1 (h.starts p (List.mem_of_getElem? h.packet))
  obtain ⟨hload, hroom⟩ := h.loaded_start hholds (h.generates hgen).1
    (fun m hm => List.mem_append_left _ hm) hu
  have hgenerates : generateMatchCondition 0 q.actions = some q.comparisons :=
    (generates_of_mem_packets
      (fun q hq => generateMatchCondition_ne_of_fixedStart (h.starts q hq) 0)
      (fun q hq sq hsq => generateMatchCondition_ne_of_fixedStart (h.subStarts q hq sq hsq) _)
      hgen q hmem).1
  refine Packet.eval_conditions_of_other hv hgenerates (by omega) ?_
  rw [hload]
  intro heq
  refine h.distinct j q hqj (Nat.ne_of_lt hj) ?_
  rw [hv, hu, UInt32.toNat_inj.1 heq]

include hsize

/-- The subpackets in front take nothing. -/
theorem Selects.generated_front {c : Candidate}
    (hc : c ∈ p.subpacketCandidates i 0 (p.subpackets.take k)) :
    c.generated memory = none := by
  obtain ⟨hindex, hpacket, l, sq, hsub, -, hsq⟩ := mem_subpacketCandidates hc
  obtain ⟨j, hj, hsqj⟩ := exists_lt_of_mem_take hsq
  have hmem := List.mem_of_getElem? h.packet
  obtain ⟨hp, hsubs⟩ := h.generates hgen
  obtain ⟨cs, hcs⟩ := hsubs sp (List.mem_of_getElem? h.subpacket)
  obtain ⟨cs', hcs'⟩ := hsubs sq (List.mem_of_getElem? hsqj)
  obtain ⟨v, hv⟩ := Option.isSome_iff_exists.1
    (h.subStarts p hmem sq (List.mem_of_getElem? hsqj))
  obtain ⟨u, hu⟩ := Option.isSome_iff_exists.1
    (h.subStarts p hmem sp (List.mem_of_getElem? h.subpacket))
  obtain ⟨hload, hroom⟩ := h.loaded_start hholds hcs (fun m hm => List.mem_append_right _ hm) hu
  obtain ⟨o, ho, hread⟩ := h.lengthOffset_eq hholds hsize
  have hlengthRoom : o + 4 ≤ memory.length := by
    unfold readMember at hread
    split at hread
    next hle => exact hle
    next => cases hread
  -- the first value that is compared is the one that only the subpacket itself starts with
  have hfalse : evalAll (romPacketSize + memory.length) memory (p.conditionsFor sq) =
      some false := by
    refine Packet.eval_conditionsFor_of_other ho hlengthRoom hv hcs' hroom ?_
    rw [hload]
    intro heq
    refine h.subDistinct j sq hsqj (Nat.ne_of_lt hj) ?_
    rw [hv, hu, UInt32.toNat_inj.1 heq]
  obtain ⟨b, -, hb, -⟩ := h.eval_own hholds hp hcs hsize
  unfold Candidate.generated
  rw [hpacket, hb, hsub]
  cases b with
  | false => rfl
  | true =>
      dsimp only
      rw [hfalse]

/-- The parser calls the function for the subpacket. -/
theorem Selects.findSome?_iff :
    d.candidates.findSome? (Candidate.generated memory) = some (.on i (some k)) ↔
      (∀ m ∈ p.membersWith sp, ¬ m.type.PrintsMinimum) ∧
        ∀ q ∈ d.packets.take i, q.overreads memory.length = false := by
  obtain ⟨hp, hsubs⟩ := h.generates hgen
  obtain ⟨cs, hcs⟩ := hsubs sp (List.mem_of_getElem? h.subpacket)
  obtain ⟨hpackets, hi⟩ := getElem?_split h.packet
  obtain ⟨hsubpackets, hk⟩ := getElem?_split h.subpacket
  have hsub : p.subpackets ≠ [] := by
    rw [hsubpackets]
    exact List.append_ne_nil_of_right_ne_nil _ (List.cons_ne_nil _ _)
  -- the candidates in front of the subpacket, and behind it
  have hown : p.candidates i = p.subpacketCandidates i 0 (p.subpackets.take k) ++
      ⟨i, p, some (k, sp)⟩ :: p.subpacketCandidates i (k + 1) (p.subpackets.drop (k + 1)) := by
    rw [Packet.candidates_subpackets hsub]
    refine (congrArg (p.subpacketCandidates i 0) hsubpackets).trans ?_
    rw [Packet.subpacketCandidates_append, hk, Nat.zero_add]
    rfl
  have hcandidates : d.candidates = candidatesFrom 0 (d.packets.take i) ++
      (p.subpacketCandidates i 0 (p.subpackets.take k) ++ ⟨i, p, some (k, sp)⟩ ::
        (p.subpacketCandidates i (k + 1) (p.subpackets.drop (k + 1)) ++
          candidatesFrom (i + 1) (d.packets.drop (i + 1)))) := by
    refine (congrArg (candidatesFrom 0) hpackets).trans ?_
    rw [candidatesFrom_append, hi, Nat.zero_add, candidatesFrom, hown, List.append_assoc]
    rfl
  have hnone : (p.subpacketCandidates i 0 (p.subpackets.take k)).findSome?
      (Candidate.generated memory) = none :=
    List.findSome?_eq_none_iff.2 fun c hc => h.generated_front hgen hholds hsize hc
  -- no candidate behind it is dispatched to it
  have hbehind : ∀ c ∈ p.subpacketCandidates i (k + 1) (p.subpackets.drop (k + 1)) ++
      candidatesFrom (i + 1) (d.packets.drop (i + 1)),
      c.generated memory ≠ some (.on i (some k)) := by
    intro c hc heq
    have hpairwise := pairwise_dispatch 0 d.packets
    rw [show candidatesFrom 0 d.packets = d.candidates from rfl, hcandidates] at hpairwise
    have hne := (List.pairwise_cons.1 (List.pairwise_append.1
      (List.pairwise_append.1 hpairwise).2.1).2.1).1 c hc
    rcases c.generated_cases memory with hgen | hgen | hgen
    · cases hgen.symm.trans heq
    · exact hne (Option.some.inj (hgen.symm.trans heq)).symm
    · cases hgen.symm.trans heq
  obtain ⟨b, b', hb, hb', hall⟩ := h.eval_own hholds hp hcs hsize
  have hgenerated : Candidate.generated memory ⟨i, p, some (k, sp)⟩ =
      if b = true ∧ b' = true then some (.on i (some k)) else none := by
    unfold Candidate.generated
    rw [hb]
    cases b with
    | false => rfl
    | true =>
        dsimp only
        rw [hb']
        cases b' with
        | false => rfl
        | true => rfl
  -- so it is a packet in front that reads behind the message, or the subpacket itself
  rw [← hall, hcandidates, List.findSome?_append, List.findSome?_append, hnone,
    findSome?_front (h.eval_front hgen hholds), List.findSome?_cons, hgenerated, Option.none_or]
  cases hany : (d.packets.take i).any (Packet.overreads · memory.length) with
  | true =>
      obtain ⟨q, hq, hover⟩ := List.any_eq_true.1 hany
      refine iff_of_false (fun heq => by cases heq) fun hboth => ?_
      cases hover.symm.trans (hboth.2 q hq)
  | false =>
      have hfront : ∀ q ∈ d.packets.take i, q.overreads memory.length = false :=
        fun q hq => Bool.eq_false_iff.2 (List.any_eq_false.1 hany q hq)
      rw [if_neg Bool.false_ne_true, Option.none_or, and_iff_left hfront]
      by_cases hboth : b = true ∧ b' = true
      · rw [if_pos hboth]
        exact iff_of_true rfl hboth
      · rw [if_neg hboth]
        refine iff_of_false (fun heq => ?_) hboth
        obtain ⟨c, hc, hdispatch⟩ := List.exists_of_findSome?_eq_some heq
        exact hbehind c hc hdispatch

end Run

/-! ## The message -/

/-- `State::Send` sets `p_length` to the size that it is given, and transmits so many bytes. -/
def SetsLength (stateSend : List UInt8 → Nat → List UInt8) : Prop :=
  ∀ message size, romPacketSize ≤ size → size ≤ message.length →
    stateSend message size = LittleEndian.encode 4 size ++ (message.take size).drop 4

/-- What is transmitted after `Reset` and calls of the setters. -/
def Packet.message (p : Packet) (sp : Subpacket) (stateSend : List UInt8 → Nat → List UInt8)
    (calls : List SetterCall) : List UInt8 :=
  p.send sp stateSend (List.replicate romPacketSize 0) (runSetters calls (p.reset sp)) 0

/-- The parser calls `OnP_S`, with a request whose members have the values that they were given. -/
structure HandedTo (parser : List PacketBlock) (i : Nat) (p : Packet) (k : Nat) (sp : Subpacket)
    (calls : List SetterCall) (frame : List UInt8) : Prop where
  dispatched : deliver parser frame = some (.on i (some k))
  preserved : ∃ request, p.construct sp frame = some request ∧
    ∀ m ∈ p.membersWith sp, m.get request = m.given (m.get (p.reset sp)) calls

section Frame

variable {d : ProtocolDefinition} {parser : List PacketBlock} {i k : Nat} {p : Packet}
  {sp : Subpacket} (h : d.Selects i p k sp) {stateSend : List UInt8 → Nat → List UInt8}
  (hsend : SetsLength stateSend) {calls : List SetterCall}
  (hcalls : ∀ call ∈ calls, call.Valid p sp)

include h hsend hcalls

/-- The frame is the members of the object behind a header with its size. -/
theorem Selects.message_eq (hsize : romPacketSize + p.sizeofWith sp < 2 ^ 31) :
    p.message sp stateSend calls =
      LittleEndian.encode 4 (romPacketSize + p.sizeofWith sp) ++
        (List.replicate 8 0 ++ runSetters calls (p.reset sp)) := by
  have hholds := Packet.reset_holds.runSetters hcalls
  have hlen := hholds.length_eq
  obtain ⟨o, ho, hread⟩ := h.lengthOffset_eq hholds (by omega)
  -- `Send` adds nothing to the length, which is stored as it was
  have hunchanged : List.store o (LittleEndian.encode 4 (uint32
      ((LittleEndian.decode (List.load o 4 (runSetters calls (p.reset sp))) : Int) + 0)))
        (runSetters calls (p.reset sp)) = runSetters calls (p.reset sp) := by
    have hroom : (List.load o 4 (runSetters calls (p.reset sp))).length = 4 := by
      unfold readMember at hread
      split at hread
      next hle =>
        rw [List.load, List.length_take, List.length_drop]
        omega
      next => cases hread
    have hlt := LittleEndian.decode_lt (List.load o 4 (runSetters calls (p.reset sp)))
    have hencode := LittleEndian.encode_decode (List.load o 4 (runSetters calls (p.reset sp)))
    rw [hroom] at hlt hencode
    have hsame : uint32
        ((LittleEndian.decode (List.load o 4 (runSetters calls (p.reset sp))) : Int) + 0) =
          LittleEndian.decode (List.load o 4 (runSetters calls (p.reset sp))) := by
      unfold uint32
      omega
    rw [hsame, hencode, List.store_load]
  have hmessage : (List.replicate romPacketSize 0 ++ runSetters calls (p.reset sp)).length =
      romPacketSize + p.sizeofWith sp := by
    rw [List.length_append, List.length_replicate, hlen]
  unfold Packet.message Packet.send
  rw [ho]
  dsimp only
  rw [hunchanged, h.toNat_size, hsend _ _ (Nat.le_add_right _ _) (Nat.le_of_eq hmessage.symm),
    List.take_of_length_le (Nat.le_of_eq hmessage)]
  rfl

theorem Selects.length_message :
    (p.message sp stateSend calls).length = romPacketSize + p.sizeofWith sp := by
  have hlen := (Packet.reset_holds.runSetters hcalls).length_eq
  obtain ⟨o, ho⟩ := Option.isSome_iff_exists.1 h.length
  obtain ⟨m, hm, rfl, hlength⟩ := exists_of_lengthOffset ho
  have hroom : m.offset + 4 ≤ (runSetters calls (p.reset sp)).length := by
    have hroom := Packet.room (List.mem_append_left _ hm) hlen
    rwa [(FieldType.sizeof_of_isLength hlength).1] at hroom
  have hmessage : ∀ n, (List.replicate romPacketSize 0 ++ List.store m.offset
      (LittleEndian.encode 4 n) (runSetters calls (p.reset sp))).length =
        romPacketSize + p.sizeofWith sp := by
    intro n
    rw [List.length_append, List.length_replicate, List.length_store
      (by rwa [LittleEndian.length_encode]), hlen]
  unfold Packet.message Packet.send
  rw [ho]
  dsimp only
  rw [h.toNat_size, hsend _ _ (Nat.le_add_right _ _) (Nat.le_of_eq (hmessage _).symm),
    List.length_append, LittleEndian.length_encode, List.length_drop,
    List.take_of_length_le (Nat.le_of_eq (hmessage _)), hmessage]
  unfold romPacketSize
  omega

/-- The parser gets to its candidates. -/
theorem Selects.deliver_message (hsize : romPacketSize + p.sizeofWith sp < 2 ^ 31) :
    deliver parser (p.message sp stateSend calls) =
      runPackets (romPacketSize + (runSetters calls (p.reset sp)).length)
        (runSetters calls (p.reset sp)) parser := by
  have hlen := (Packet.reset_holds.runSetters hcalls).length_eq
  have hframe := h.length_message hsend hcalls
  have hmessage := h.message_eq hsend hcalls hsize
  have hlength : LittleEndian.decode ((p.message sp stateSend calls).take 4) =
      romPacketSize + p.sizeofWith sp := by
    rw [hmessage, List.take_left' (LittleEndian.length_encode 4 _)]
    exact LittleEndian.decode_encode (by omega)
  have hmembers : (p.message sp stateSend calls).drop romPacketSize =
      runSetters calls (p.reset sp) := by
    rw [hmessage, ← List.append_assoc]
    refine List.drop_left' ?_
    rw [List.length_append, LittleEndian.length_encode, List.length_replicate]
    rfl
  unfold deliver parserProcess
  dsimp only
  rw [if_pos (hframe.symm ▸ hsize), hlength, hmembers, hframe,
    if_neg (Nat.not_lt.2 (Nat.le_add_right _ _)), if_neg (fun hne => hne rfl), hlen]

/-- The request has the members of the object. -/
theorem Selects.construct_message (hsize : romPacketSize + p.sizeofWith sp < 2 ^ 31) :
    p.construct sp (p.message sp stateSend calls) = some (runSetters calls (p.reset sp)) := by
  have hframe := h.length_message hsend hcalls
  unfold Packet.construct
  dsimp only
  rw [hframe, if_pos ⟨Nat.le_refl _, Nat.le_refl _⟩, List.take_of_length_le (Nat.le_of_eq hframe),
    h.message_eq hsend hcalls hsize, ← List.append_assoc]
  refine congrArg some (List.drop_left' ?_)
  rw [List.length_append, LittleEndian.length_encode, List.length_replicate]
  rfl

/-- The parser calls the function for the subpacket, with the values that the members were given, if
and only if the length of the frame is an `int`, no fixed value is the minimum, and no packet in
front has its length behind the end of the frame. -/
theorem Selects.handedTo_iff (hgen : generateParser d = some parser) :
    HandedTo parser i p k sp calls (p.message sp stateSend calls) ↔
      romPacketSize + p.sizeofWith sp < 2 ^ 31 ∧
        (∀ m ∈ p.membersWith sp, ¬ m.type.PrintsMinimum) ∧
        ∀ q ∈ d.packets.take i, q.overreads (p.sizeofWith sp) = false := by
  have hreset : p.Holds sp (p.reset sp) := Packet.reset_holds
  have hholds := hreset.runSetters hcalls
  have hlen := hholds.length_eq
  have hrun : romPacketSize + p.sizeofWith sp < 2 ^ 31 →
      (deliver parser (p.message sp stateSend calls) = some (.on i (some k)) ↔
        (∀ m ∈ p.membersWith sp, ¬ m.type.PrintsMinimum) ∧
          ∀ q ∈ d.packets.take i, q.overreads (p.sizeofWith sp) = false) := by
    intro hsize
    rw [h.deliver_message hsend hcalls hsize, runPackets_generated
      (fun q hq => generateMatchCondition_ne_of_fixedStart (h.starts q hq) 0)
      (fun q hq sq hsq => generateMatchCondition_ne_of_fixedStart (h.subStarts q hq sq hsq) _) hgen,
      ← hlen]
    exact h.findSome?_iff hgen hholds (by omega)
  constructor
  · rintro ⟨hdispatched, -⟩
    have hsize : romPacketSize + p.sizeofWith sp < 2 ^ 31 := by
      rw [← h.length_message hsend hcalls]
      unfold deliver at hdispatched
      split at hdispatched
      next hlt => exact hlt
      next => cases hdispatched
    exact ⟨hsize, (hrun hsize).1 hdispatched⟩
  · rintro ⟨hsize, hall⟩
    refine ⟨(hrun hsize).2 hall, _, h.construct_message hsend hcalls hsize, fun m hm => ?_⟩
    exact Packet.get_runSetters h.header h.body hcalls hreset.length_eq hm

end Frame

end ProtocolDefinition

end OpenRom
