import OpenRom.Protocol.Completeness
import OpenRom.Protocol.Generator

/-!
# Emitted conditions

Fields of constant size are read to their end where the frame has their size, their fixed values and
their length (`scan_full_iff`). The conditions that the generator emits for them check the same, but
compare the fixed values as C++ does (`Packet.eval_conditions`, `Packet.eval_conditionsFor`).
-/

set_option autoImplicit false

namespace OpenRom

namespace ProtocolDefinition

/-! ## Where lengths are -/

mutual

/-- No field in the type has the type `length`. -/
def FieldType.NoLength : FieldType → Prop
  | .builtin object => object.type ≠ .length
  | .struct _ actions => NoLengths actions

def NoLengths : List Action → Prop
  | [] => True
  | .field _ type _ :: as => type.NoLength ∧ NoLengths as
  | .transformationAction _ :: as => NoLengths as
  | .annotationAction _ :: as => NoLengths as

end

/-- A field of the type `length` is the last. -/
def LengthLast : List Action → Prop
  | [] => True
  | .field _ type _ :: as => (type.NoLength ∧ LengthLast as) ∨
      ((∃ object, type = .builtin object ∧ object.type = .length) ∧ NoFields as)
  | .transformationAction _ :: as => LengthLast as
  | .annotationAction _ :: as => LengthLast as

/-! ## Sizes -/

theorem UnsignedType.sizeof_of_constantSize {t : UnsignedType} (h : 0 < t.constantSize) :
    ((max t.count 1 * t.width.bytes : Nat) : Int) = t.constantSize ∧ 0 < t.count := by
  obtain ⟨-, hsize⟩ := count_of_constantSize h
  have hcount : 0 < t.count := by
    rcases Nat.eq_zero_or_pos t.count with hzero | hpos
    · rw [hsize, hzero, Int.natCast_zero, Int.zero_mul] at h
      cases h
    · exact hpos
  rw [hsize, Nat.max_eq_left hcount]
  exact ⟨Int.natCast_mul _ _, hcount⟩

theorem BuiltinType.sizeof_of_constantSize :
    ∀ {type : BuiltinType}, 0 < type.constantSize → (type.sizeof : Int) = type.constantSize
  | unsigned _, h => (UnsignedType.sizeof_of_constantSize h).1
  | signed _, h => (UnsignedType.sizeof_of_constantSize h).1
  | string _ _, h => (length_of_constantSize_string h).2.symm
  | float count _, h => by
      have hcount : 0 < (count : Int) * 4 := h
      have hmax : max count 1 = count := by omega
      show ((max count 1 * 4 : Nat) : Int) = count * 4
      rw [hmax, Int.natCast_mul]
      rfl
  | double count _, h => by
      have hcount : 0 < (count : Int) * 8 := h
      have hmax : max count 1 = count := by omega
      show ((max count 1 * 8 : Nat) : Int) = count * 8
      rw [hmax, Int.natCast_mul]
      rfl
  | length, _ => rfl
  | unixtime, _ => rfl

theorem sizeFrom_eq {as : List Action} {size : Int} (h : sizeFrom size as ≠ 0) :
    sizeFrom size as = size + sizeofMembers as := by
  -- a field, of either kind, from what is known of its type
  have hfield : ∀ (name : String) (type : FieldType) (offset : UInt32) (as : List Action)
      (size : Int), (0 < type.constantSize → (type.sizeof : Int) = type.constantSize) →
      (∀ size, sizeFrom size as ≠ 0 → sizeFrom size as = size + sizeofMembers as) →
      sizeFrom size (.field name type offset :: as) ≠ 0 →
      sizeFrom size (.field name type offset :: as) =
        size + sizeofMembers (.field name type offset :: as) := by
    intro name type offset as size htype ih h
    rw [sizeFrom_field] at h ⊢
    by_cases hconst : type.constantSize ≤ 0
    · exact absurd (if_pos hconst) h
    · rw [if_neg hconst] at h ⊢
      have htype := htype (Int.not_le.1 hconst)
      rw [ih _ h, sizeofMembers_field]
      omega
  induction as using actionsRec generalizing size with
  | nil => exact (Int.add_zero size).symm
  | builtin name object offset as ih =>
      exact hfield name _ offset as size BuiltinType.sizeof_of_constantSize (fun _ => ih) h
  | struct name typeName inner offset as ihInner ih =>
      refine hfield name _ offset as size (fun hconst => ?_) (fun _ => ih) h
      -- the size of the inner struct is not zero, and so it is the sum
      show (sizeofMembers inner : Int) = sizeFrom 0 inner
      rw [ihInner (Int.ne_of_gt hconst), Int.zero_add]
  | transformationAction t as ih => exact ih h
  | annotationAction name as ih => exact ih h

theorem FieldType.sizeof_of_constantSize {type : FieldType} (h : 0 < type.constantSize) :
    (type.sizeof : Int) = type.constantSize := by
  cases type with
  | builtin object => exact BuiltinType.sizeof_of_constantSize h
  | struct name inner =>
      show (sizeofMembers inner : Int) = sizeFrom 0 inner
      rw [sizeFrom_eq (Int.ne_of_gt h), Int.zero_add]

/-- The sizes that the definition and the generator compute are those of the C types. -/
theorem sizeFrom_of_sized {as : List Action} (hsized : Sized as) :
    (∀ size, sizeFrom size as = size + sizeofMembers as) ∧ constantSizes as = sizeofMembers as := by
  induction as with
  | nil => exact ⟨fun size => (Int.add_zero size).symm, rfl⟩
  | cons a as ih =>
      cases a with
      | field name type offset =>
          obtain ⟨hfrom, hsum⟩ := ih hsized.2
          have htype := FieldType.sizeof_of_constantSize hsized.1
          constructor
          · intro size
            rw [sizeFrom_field, if_neg (Int.not_le.2 hsized.1), hfrom, sizeofMembers_field]
            omega
          · show type.constantSize.toNat + constantSizes as = _
            rw [hsum, sizeofMembers_field]
            omega
      | transformationAction t => exact hsized.elim
      | annotationAction name => exact ih hsized

theorem isConstantSize_of_sized {as : List Action} (h : Sized as) : isConstantSize as = true := by
  induction as with
  | nil => rfl
  | cons a as ih =>
      cases a with
      | field name type offset =>
          show (decide (type.constantSize ≠ 0) && isConstantSize as) = true
          rw [ih h.2, Bool.and_true, decide_eq_true_iff]
          exact Int.ne_of_gt h.1
      | transformationAction t => exact h.elim
      | annotationAction name => exact ih h

/-! ## Reading fields of constant size -/

/-- The bytes begin with the fixed value, or with the length, of the type. -/
def BuiltinType.Ready (bs : List UInt8) : BuiltinType → Prop
  | unsigned t => ∀ v, t.fixedValue = some v → LittleEndian.decode (bs.take t.width.bytes) = v.toNat
  | signed t => ∀ v, t.fixedValue = some v → LittleEndian.decode (bs.take t.width.bytes) = v.toNat
  | length => LittleEndian.decode (bs.take 4) + 4 = bs.length
  | _ => True

/-- A type of constant size takes all of its bytes or none. -/
def BuiltinType.TakesAll (bs : List UInt8) (type : BuiltinType) : Prop :=
  (type.takes bs = type.sizeof ∧ type.sizeof ≤ bs.length ∧ type.Ready bs) ∨
    (type.takes bs = 0 ∧ ¬ (type.sizeof ≤ bs.length ∧ type.Ready bs))

theorem UnsignedType.takesAll {t : UnsignedType} (h : 0 < t.constantSize) (bs : List UInt8) :
    (BuiltinType.unsigned t).TakesAll bs := by
  obtain ⟨hmin, -⟩ := count_of_constantSize h
  obtain ⟨-, hcount⟩ := sizeof_of_constantSize h
  have hsize : (BuiltinType.unsigned t).sizeof = t.count * t.width.bytes := by
    show max t.count 1 * t.width.bytes = _
    rw [Nat.max_eq_left hcount]
  have hroom : (t.width.bytes * t.minCount : Int) ≤ bs.length ↔
      t.count * t.width.bytes ≤ bs.length := by
    rw [← hmin, ← Int.natCast_mul, Nat.mul_comm]
    exact Int.ofNat_le
  -- without a fixed value every number is taken
  have hready : (t.fixedValue.all fun v => LittleEndian.decode (bs.take t.width.bytes) == v.toNat) =
      true ↔ (BuiltinType.unsigned t).Ready bs := by
    show _ ↔ ∀ v, t.fixedValue = some v → _
    cases t.fixedValue with
    | none => exact iff_of_true rfl nofun
    | some v =>
        rw [Option.all_some, beq_iff_eq]
        exact ⟨fun heq w hw => by cases hw; exact heq, fun hall => hall v rfl⟩
  have hcond := and_congr hroom hready
  unfold BuiltinType.TakesAll
  rw [hsize]
  by_cases hall : t.count * t.width.bytes ≤ bs.length ∧ (BuiltinType.unsigned t).Ready bs
  · refine Or.inl ⟨?_, hall⟩
    have hle : t.count ≤ bs.length / t.width.bytes :=
      (Nat.le_div_iff_mul_le t.width.bytes_pos).2 hall.1
    calc t.takes bs = t.width.bytes * min (bs.length / t.width.bytes) t.count :=
          if_pos (hcond.2 hall)
      _ = t.count * t.width.bytes := by rw [Nat.min_eq_right hle, Nat.mul_comm]
  · exact Or.inr ⟨if_neg (mt hcond.1 hall), hall⟩

theorem takesAll_ite {c : Prop} [Decidable c] {type : BuiltinType} {bs : List UInt8}
    (htakes : type.takes bs = if c then type.sizeof else 0)
    (hc : c ↔ type.sizeof ≤ bs.length ∧ type.Ready bs) : type.TakesAll bs := by
  unfold BuiltinType.TakesAll
  rw [htakes, ← hc]
  by_cases h : c
  · exact Or.inl ⟨if_pos h, h⟩
  · exact Or.inr ⟨if_neg h, h⟩

theorem BuiltinType.takesAll (bs : List UInt8) :
    ∀ {type : BuiltinType}, 0 < type.constantSize → type.TakesAll bs
  | unsigned _, h => UnsignedType.takesAll h bs
  | signed _, h => UnsignedType.takesAll h bs
  | string n minLength, h => by
      obtain ⟨hmin, -⟩ := length_of_constantSize_string h
      have hroom : minLength ≤ bs.length ↔ n ≤ bs.length := by omega
      have htakes : (string n minLength).takes bs = if n ≤ bs.length then n else 0 := by
        show (if minLength ≤ bs.length then min n bs.length else 0) = _
        by_cases hle : n ≤ bs.length
        · rw [if_pos (hroom.2 hle), if_pos hle, Nat.min_eq_left hle]
        · rw [if_neg (mt hroom.1 hle), if_neg hle]
      exact takesAll_ite htakes ⟨fun hle => ⟨hle, trivial⟩, fun hall => hall.1⟩
  | float count displayCount, h => by
      have hcount : 0 < (count : Int) * 4 := h
      have hmax : max count 1 = count := by omega
      have hsize : (float count displayCount).sizeof = count * 4 := congrArg (· * 4) hmax
      apply @takesAll_ite (count * 4 ≤ bs.length) _
      · rw [hsize]
        rfl
      · rw [hsize]
        exact ⟨fun hle => ⟨hle, trivial⟩, fun hall => hall.1⟩
  | double count displayCount, h => by
      have hcount : 0 < (count : Int) * 8 := h
      have hmax : max count 1 = count := by omega
      have hsize : (double count displayCount).sizeof = count * 8 := congrArg (· * 8) hmax
      apply @takesAll_ite (count * 8 ≤ bs.length) _
      · rw [hsize]
        rfl
      · rw [hsize]
        exact ⟨fun hle => ⟨hle, trivial⟩, fun hall => hall.1⟩
  | length, _ => takesAll_ite rfl Iff.rfl
  | unixtime, _ => takesAll_ite rfl ⟨fun hle => ⟨hle, trivial⟩, fun hall => hall.1⟩

/-- Reading takes no more than the size of the type, and exactly that when everything in it is
filled. -/
structure FieldType.Bounded (bs : List UInt8) (type : FieldType) : Prop where
  pos : 0 < type.sizeof
  le : bs.length ≤ (type.scan bs).1.length + type.sizeof
  full_iff : (type.scan bs).1.length ≠ bs.length →
    ((type.scan bs).2 = true ↔ (type.scan bs).1.length + type.sizeof = bs.length)

theorem FieldType.bounded_builtin {object : Builtin} (h : 0 < object.type.constantSize)
    (bs : List UInt8) : (builtin object).Bounded bs := by
  have hsize := BuiltinType.sizeof_of_constantSize h
  have hlen : ((builtin object).scan bs).1.length = bs.length - object.type.takes bs :=
    List.length_drop
  have hsizeof : (builtin object).sizeof = object.type.sizeof := rfl
  -- the size is positive, so a field that takes nothing is not filled
  rcases BuiltinType.takesAll bs h with ⟨htakes, hroom, -⟩ | ⟨htakes, -⟩
  · exact ⟨by omega, by omega, fun _ => iff_of_true rfl (by omega)⟩
  · exact ⟨by omega, by omega, fun hne => absurd hlen (by omega)⟩

theorem scan_bounded_field {bs : List UInt8} {type : FieldType} (htype : type.Bounded bs)
    (name : String) (offset : UInt32) {as : List Action}
    (ih : ∀ bs : List UInt8, bs.length ≤ (scanActions bs as).1.length + sizeofMembers as ∧
      ((scanActions bs as).2 = true ↔
        (scanActions bs as).1.length + sizeofMembers as = bs.length)) :
    bs.length ≤ (scanActions bs (.field name type offset :: as)).1.length +
        sizeofMembers (.field name type offset :: as) ∧
      ((scanActions bs (.field name type offset :: as)).2 = true ↔
        (scanActions bs (.field name type offset :: as)).1.length +
          sizeofMembers (.field name type offset :: as) = bs.length) := by
  obtain ⟨hpos, hle, hfull⟩ := htype
  -- a field that takes nothing ends the fields
  by_cases hlen : (type.scan bs).1.length = bs.length
  · rw [scanActions_field, if_pos hlen, sizeofMembers_field]
    exact ⟨Nat.le_add_right _ _, iff_of_false Bool.false_ne_true (by dsimp only; omega)⟩
  · obtain ⟨hle', hfull'⟩ := ih (type.scan bs).1
    rw [scanActions_of_taken hlen, sizeofMembers_field, Bool.and_eq_true_iff, hfull hlen, hfull']
    dsimp only
    exact ⟨by omega, by omega⟩

/-- Reading takes no more than the sizes of the fields, and exactly that when all are filled. -/
theorem scan_bounded {as : List Action} (hplain : PlainActions as) (hsized : Sized as)
    (bs : List UInt8) :
    bs.length ≤ (scanActions bs as).1.length + sizeofMembers as ∧
      ((scanActions bs as).2 = true ↔
        (scanActions bs as).1.length + sizeofMembers as = bs.length) := by
  induction as using actionsRec generalizing bs with
  | nil => exact ⟨Nat.le_refl _, iff_of_true rfl rfl⟩
  | builtin name object offset as ih =>
      exact scan_bounded_field (FieldType.bounded_builtin hsized.1 bs) name offset
        (ih hplain.2 hsized.2)
  | struct name typeName inner offset as ihInner ih =>
      apply scan_bounded_field _ name offset (ih hplain.2 hsized.2)
      have hsize := FieldType.sizeof_of_constantSize hsized.1
      obtain ⟨hle, hfull⟩ := ihInner hplain.1 (sized_of_sizeFrom hplain.1 hsized.1) bs
      exact ⟨by have hpos := hsized.1; omega, hle, fun _ => hfull⟩
  | transformationAction t as ih => exact hplain.elim
  | annotationAction name as ih => exact ih hplain hsized bs

theorem FieldType.bounded {type : FieldType} (hplain : type.Plain) (h : 0 < type.constantSize)
    (bs : List UInt8) : type.Bounded bs := by
  cases type with
  | builtin object => exact bounded_builtin h bs
  | struct name inner =>
      have hsize := sizeof_of_constantSize h
      obtain ⟨hle, hfull⟩ := scan_bounded hplain (sized_of_sizeFrom hplain h) bs
      exact ⟨by omega, hle, fun _ => hfull⟩

/-- What fields that are all filled leave. -/
theorem scanActions_of_full {as : List Action} (hplain : PlainActions as) (hsized : Sized as)
    {bs : List UInt8} (h : (scanActions bs as).2 = true) :
    (scanActions bs as).1 = bs.drop (sizeofMembers as) := by
  have hlen := (scan_bounded hplain hsized bs).2.1 h
  have hsuffix := List.suffix_iff_eq_drop.1 (scanActions_suffix bs as)
  have hdrop : bs.length - (scanActions bs as).1.length = sizeofMembers as := by omega
  rwa [hdrop] at hsuffix

/-- All of the type is filled. -/
def FieldType.Full (bs : List UInt8) (type : FieldType) : Prop :=
  (type.scan bs).1.length + type.sizeof = bs.length

theorem scanActions_full_iff {type : FieldType} (hplain : type.Plain) (h : 0 < type.constantSize)
    (bs : List UInt8) (name : String) (offset : UInt32) (as : List Action) :
    (scanActions bs (.field name type offset :: as)).2 = true ↔
      type.Full bs ∧ (scanActions (bs.drop type.sizeof) as).2 = true := by
  obtain ⟨hpos, -, hfull⟩ := type.bounded hplain h bs
  unfold FieldType.Full
  by_cases hlen : (type.scan bs).1.length = bs.length
  · rw [scanActions_field, if_pos hlen]
    exact iff_of_false Bool.false_ne_true (fun hall => by omega)
  · rw [scanActions_of_taken hlen, Bool.and_eq_true_iff, hfull hlen]
    apply and_congr_right
    intro hsize
    -- what a filled field leaves are the bytes behind its size
    have hsuffix := List.suffix_iff_eq_drop.1 (type.scan_suffix bs)
    have hdrop : bs.length - (type.scan bs).1.length = type.sizeof := by omega
    rw [hdrop] at hsuffix
    rw [hsuffix]

theorem FieldType.full_builtin_iff {object : Builtin} (h : 0 < object.type.constantSize)
    (bs : List UInt8) :
    (builtin object).Full bs ↔ object.type.sizeof ≤ bs.length ∧ object.type.Ready bs := by
  have hsize := BuiltinType.sizeof_of_constantSize h
  have hlen : ((builtin object).scan bs).1.length = bs.length - object.type.takes bs :=
    List.length_drop
  have hsizeof : (builtin object).sizeof = object.type.sizeof := rfl
  unfold Full
  rcases BuiltinType.takesAll bs h with ⟨htakes, hall⟩ | ⟨htakes, hall⟩
  · have hroom := hall.1
    exact iff_of_true (by omega) hall
  · exact iff_of_false (by omega) hall

/-! ## Fixed values -/

theorem UnsignedType.of_generateCInitialize {t : UnsignedType} {init : List Literal}
    (h : t.generateCInitialize = some init) :
    (t.fixedValue = none ∧ init = []) ∨
      ∃ literal, t.fixedValue = some literal.value ∧ t.count = 1 ∧ init = [literal] := by
  unfold generateCInitialize at h
  cases hv : t.fixedValue with
  | none =>
      rw [hv] at h
      cases h
      exact Or.inl ⟨rfl, rfl⟩
  | some v =>
      rw [hv] at h
      dsimp only at h
      -- an array with a fixed value fails the assertion
      by_cases hcount : t.count ≠ 1
      · rw [if_pos hcount] at h
        cases h
      · rw [if_neg hcount] at h
        refine Or.inr ?_
        cases hformat : t.format with
        | hex =>
            rw [hformat] at h
            cases h
            exact ⟨.hex v, rfl, Decidable.not_not.1 hcount, rfl⟩
        | decimal =>
            rw [hformat] at h
            cases h
            exact ⟨.decimal v, rfl, Decidable.not_not.1 hcount, rfl⟩

theorem UnsignedType.fixedValue_of_nil {t : UnsignedType} (h : t.generateCInitialize = some []) :
    t.fixedValue = none := by
  rcases of_generateCInitialize h with ⟨hv, -⟩ | ⟨literal, -, -, hinit⟩
  · exact hv
  · cases hinit

theorem BuiltinType.ready_of_unfixed {type : BuiltinType} (h : type.generateCInitialize = some [])
    (hlength : type ≠ .length) (bs : List UInt8) : type.Ready bs := by
  cases type with
  | unsigned t =>
      intro v hv
      rw [UnsignedType.fixedValue_of_nil h] at hv
      cases hv
  | signed t =>
      intro v hv
      rw [UnsignedType.fixedValue_of_nil h] at hv
      cases hv
  | length => exact absurd rfl hlength
  | string => trivial
  | float => trivial
  | double => trivial
  | unixtime => trivial

theorem generateCInitializers_field_nil {name : String} {type : FieldType} {offset : UInt32}
    {as : List Action} (h : generateCInitializers (.field name type offset :: as) = some []) :
    type.generateCInitialize = some [] ∧ generateCInitializers as = some [] := by
  rw [generateCInitializers] at h
  cases htype : type.generateCInitialize with
  | none =>
      rw [htype] at h
      cases h
  | some init =>
      cases has : generateCInitializers as with
      | none =>
          rw [htype, has] at h
          cases h
      | some inits =>
          rw [htype, has] at h
          obtain ⟨rfl, rfl⟩ := List.append_eq_nil_iff.1 (Option.some.inj h)
          exact ⟨rfl, rfl⟩

/-- Fields without fixed values and lengths are filled where there are enough bytes. -/
theorem scan_unfixed {as : List Action} (hplain : PlainActions as) (hsized : Sized as)
    (hlength : NoLengths as) (hinit : generateCInitializers as = some []) (bs : List UInt8) :
    (scanActions bs as).2 = true ↔ sizeofMembers as ≤ bs.length := by
  -- a field, of either kind, from what is known of its type
  have hfield : ∀ (name : String) (type : FieldType) (offset : UInt32) (as : List Action)
      (bs : List UInt8), type.Plain → 0 < type.constantSize →
      (type.Full bs ↔ type.sizeof ≤ bs.length) →
      (∀ bs, (scanActions bs as).2 = true ↔ sizeofMembers as ≤ bs.length) →
      ((scanActions bs (.field name type offset :: as)).2 = true ↔
        sizeofMembers (.field name type offset :: as) ≤ bs.length) := by
    intro name type offset as bs hplain hconst hfull ih
    rw [scanActions_full_iff hplain hconst, hfull, ih, sizeofMembers_field, List.length_drop]
    omega
  induction as using actionsRec generalizing bs with
  | nil => exact iff_of_true rfl (Nat.zero_le _)
  | builtin name object offset as ih =>
      obtain ⟨htype, hrest⟩ := generateCInitializers_field_nil hinit
      apply hfield name _ offset as bs hplain.1 hsized.1 _ (ih hplain.2 hsized.2 hlength.2 hrest)
      rw [FieldType.full_builtin_iff hsized.1]
      exact and_iff_left (BuiltinType.ready_of_unfixed htype hlength.1 bs)
  | struct name typeName inner offset as ihInner ih =>
      obtain ⟨htype, hrest⟩ := generateCInitializers_field_nil hinit
      apply hfield name _ offset as bs hplain.1 hsized.1 _ (ih hplain.2 hsized.2 hlength.2 hrest)
      have hinner := sized_of_sizeFrom hplain.1 hsized.1
      -- the inner struct is filled when it takes its size
      exact (scan_bounded hplain.1 hinner bs).2.symm.trans
        (ihInner hplain.1 hinner hlength.1 htype bs)
  | transformationAction t as ih => exact hplain.elim
  | annotationAction name as ih => exact ih hplain hsized hlength hinit bs

theorem FieldType.full_of_unfixed {type : FieldType} (hplain : type.Plain)
    (h : 0 < type.constantSize) (hlength : type.NoLength)
    (hinit : type.generateCInitialize = some []) (bs : List UInt8) :
    type.Full bs ↔ type.sizeof ≤ bs.length := by
  cases type with
  | builtin object =>
      rw [full_builtin_iff h]
      exact and_iff_left (BuiltinType.ready_of_unfixed hinit hlength bs)
  | struct name inner =>
      have hinner := sized_of_sizeFrom hplain h
      exact (scan_bounded hplain hinner bs).2.symm.trans
        (scan_unfixed hplain hinner hlength hinit bs)

/-- The member as it is in the frame, without its sign. -/
def Comparison.loaded (bs : List UInt8) (c : Comparison) : Nat :=
  LittleEndian.decode ((bs.drop c.offset).take c.width.bytes)

/-- The fixed value is there as `Fill` compares it. -/
def Comparison.Stored (bs : List UInt8) (c : Comparison) : Prop :=
  c.loaded bs = c.literal.value.toNat

/-- The fixed value is there as C++ compares it. -/
def Comparison.Compared (bs : List UInt8) (c : Comparison) : Prop := c.holds (c.loaded bs) = true

instance (bs : List UInt8) (c : Comparison) : Decidable (c.Stored bs) :=
  inferInstanceAs (Decidable (_ = _))

instance (bs : List UInt8) (c : Comparison) : Decidable (c.Compared bs) :=
  inferInstanceAs (Decidable (_ = _))

/-- A value that is positive as an `int` and in the type of the member is compared the same. -/
theorem Comparison.compared_iff_stored {c : Comparison} (hvalue : c.literal.value.toNat < 2 ^ 31)
    (hsigned : c.signed = true → 2 * c.literal.value.toNat < 256 ^ c.width.bytes)
    (bs : List UInt8) : c.Compared bs ↔ c.Stored bs := by
  have hlt : c.loaded bs < 256 ^ c.width.bytes := by
    calc c.loaded bs < 256 ^ ((bs.drop c.offset).take c.width.bytes).length :=
          LittleEndian.decode_lt _
      _ ≤ 256 ^ c.width.bytes := Nat.pow_le_pow_right (by decide) (List.length_take_le _ _)
  unfold Compared Stored holds
  generalize c.loaded bs = x at hlt
  obtain ⟨offset, width, signed, literal⟩ := c
  dsimp only at hvalue hsigned hlt ⊢
  have hpromote : promote ⟨offset, width, signed, literal⟩ x =
      if signed && decide (256 ^ width.bytes ≤ 2 * x) then
        (x : Int) - ((256 ^ width.bytes : Nat) : Int)
      else (x : Int) := by
    rw [Int.natCast_pow]
    rfl
  -- a number with a sign is not the value, and any other is compared as it is
  have hint : ((promote ⟨offset, width, signed, literal⟩ x) == (literal.value.toNat : Int)) = true ↔
      x = literal.value.toNat := by
    rw [beq_iff_eq, hpromote]
    by_cases hneg : (signed && decide (256 ^ width.bytes ≤ 2 * x)) = true
    · rw [if_pos hneg]
      obtain ⟨hs, hx⟩ := Bool.and_eq_true_iff.1 hneg
      have hx := of_decide_eq_true hx
      have hv := hsigned hs
      omega
    · rw [if_neg hneg]
      omega
  -- a `uint32_t` is not promoted, and the value is converted to it
  have hunsigned : (width == .four && !signed) = true →
      (((promote ⟨offset, width, signed, literal⟩ x) % 2 ^ 32 ==
          (literal.value.toNat : Int)) = true ↔
        x = literal.value.toNat) := by
    intro hu
    obtain ⟨hw, hs⟩ := Bool.and_eq_true_iff.1 hu
    obtain rfl := eq_of_beq hw
    have hx : x < 2 ^ 32 := hlt
    have hs : signed = false := by
      cases signed with
      | false => rfl
      | true => cases hs
    rw [hpromote, hs, beq_iff_eq, Bool.false_and, if_neg Bool.false_ne_true]
    omega
  cases literal with
  | hex v =>
      have hv : v.toNat < 2 ^ 31 := hvalue
      -- the literal is an `int`
      have hsmall : decide (2 ^ 31 ≤ v.toNat) = false := decide_eq_false (Nat.not_le.2 hv)
      unfold Literal.equals
      dsimp only
      rw [hsmall, Bool.or_false]
      by_cases hu : (width == .four && !signed) = true
      · rw [if_pos hu]
        exact hunsigned hu
      · rw [if_neg hu]
        exact hint
  | decimal v =>
      have hv : v.toNat < 2 ^ 31 := hvalue
      -- `%d` prints the value as it is, and not with a minus sign
      have htoInt : v.toBitVec.toInt = (v.toNat : Int) := BitVec.toInt_eq_toNat_of_lt (by
        show 2 * v.toNat < 2 ^ 32
        omega)
      unfold Literal.equals
      dsimp only
      rw [if_neg (Nat.ne_of_lt hv), htoInt]
      by_cases hu : (width == .four && !signed) = true
      · rw [if_pos hu]
        exact hunsigned hu
      · rw [if_neg hu]
        exact hint

/-- A field with a fixed value is filled where there are enough bytes and the value is there. -/
theorem FieldType.full_of_comparison {type : FieldType} (h : 0 < type.constantSize)
    {literal : Literal} (hinit : type.generateCInitialize = some [literal]) {offset : Nat}
    {c : Comparison} (hc : type.comparison offset literal = some c) (bs : List UInt8) :
    (type.Full (bs.drop offset) ↔ type.sizeof ≤ (bs.drop offset).length ∧ c.Stored bs) ∧
      c.offset = offset ∧ c.width.bytes = type.sizeof := by
  -- a number with an initializer has one value, that is the fixed one
  have hnumeric : ∀ {t : UnsignedType}, t.generateCInitialize = some [literal] →
      t.fixedValue = some literal.value ∧ max t.count 1 * t.width.bytes = t.width.bytes := by
    intro t ht
    rcases UnsignedType.of_generateCInitialize ht with ⟨-, hnil⟩ | ⟨literal', hv, hcount, hsingle⟩
    · cases hnil
    · cases hsingle
      rw [hcount]
      exact ⟨hv, Nat.one_mul _⟩
  have hstored : ∀ {t : UnsignedType}, t.fixedValue = some literal.value →
      ((∀ v, t.fixedValue = some v →
          LittleEndian.decode ((bs.drop offset).take t.width.bytes) = v.toNat) ↔
        LittleEndian.decode ((bs.drop offset).take t.width.bytes) = literal.value.toNat) := by
    intro t hv
    constructor
    · exact fun hall => hall _ hv
    · intro heq v hv'
      rw [hv] at hv'
      cases hv'
      exact heq
  cases type with
  | struct => cases hc
  | builtin object =>
      rw [full_builtin_iff h]
      obtain ⟨type, cells, hcells⟩ := object
      cases type with
      | unsigned t =>
          cases hc
          obtain ⟨hv, hsize⟩ := hnumeric hinit
          exact ⟨and_congr_right fun _ => hstored hv, rfl, hsize.symm⟩
      | signed t =>
          cases hc
          obtain ⟨hv, hsize⟩ := hnumeric hinit
          exact ⟨and_congr_right fun _ => hstored hv, rfl, hsize.symm⟩
      | string => cases hc
      | float => cases hc
      | double => cases hc
      | length => cases hc
      | unixtime => cases hc

/-- The generator compares a field with its fixed value or skips it. -/
theorem generateMatchCondition_field {offset : Nat} {name : String} {type : FieldType}
    {dataOffset : UInt32} {as : List Action} {cs : List Comparison}
    (h : generateMatchCondition offset (.field name type dataOffset :: as) = some cs) :
    ∃ rest, generateMatchCondition (offset + type.sizeof) as = some rest ∧
      ((type.generateCInitialize = some [] ∧ cs = rest) ∨
        ∃ literal c, type.generateCInitialize = some [literal] ∧
          type.comparison offset literal = some c ∧ cs = c :: rest) := by
  rw [generateMatchCondition] at h
  cases hrest : generateMatchCondition (offset + type.sizeof) as with
  | none =>
      rw [hrest] at h
      -- without a condition for the fields behind there is none, whatever the initializers
      rcases hinit : type.generateCInitialize with _ | _ | ⟨literal, _ | ⟨literal', more⟩⟩ <;>
        · rw [hinit] at h
          cases h
  | some rest =>
      refine ⟨rest, rfl, ?_⟩
      rw [hrest] at h
      rcases hinit : type.generateCInitialize with _ | _ | ⟨literal, _ | ⟨literal', more⟩⟩
      · rw [hinit] at h
        cases h
      · rw [hinit] at h
        cases h
        exact Or.inl ⟨rfl, rfl⟩
      · rw [hinit] at h
        obtain ⟨c, hc, rfl⟩ := Option.map_eq_some_iff.1 h
        exact Or.inr ⟨literal, c, rfl, hc, rfl⟩
      · rw [hinit] at h
        cases h

/-- The comparisons are of members that lie in the fields. -/
theorem comparison_bounds {as : List Action} (hsized : Sized as) {offset : Nat}
    {cs : List Comparison} (h : generateMatchCondition offset as = some cs) :
    ∀ c ∈ cs, offset ≤ c.offset ∧ c.offset + c.width.bytes ≤ offset + sizeofMembers as := by
  induction as generalizing offset cs with
  | nil =>
      cases h
      exact nofun
  | cons a as ih =>
      cases a with
      | field name type dataOffset =>
          obtain ⟨rest, hrest, hcs⟩ := generateMatchCondition_field h
          have hbounds : ∀ c ∈ rest, offset ≤ c.offset ∧
              c.offset + c.width.bytes ≤ offset + (type.sizeof + sizeofMembers as) := by
            intro c hc
            obtain ⟨hlow, hhigh⟩ := ih hsized.2 hrest c hc
            exact ⟨by omega, by omega⟩
          rw [sizeofMembers_field]
          rcases hcs with ⟨-, rfl⟩ | ⟨literal, c, hinit, hc, rfl⟩
          · exact hbounds
          · obtain ⟨-, hoffset, hwidth⟩ := FieldType.full_of_comparison hsized.1 hinit hc []
            exact List.forall_mem_cons.2 ⟨⟨by omega, by omega⟩, hbounds⟩
      | transformationAction t => exact hsized.elim
      | annotationAction name => exact ih hsized h

theorem generateMatchCondition_ne_nil {as : List Action} (htag : (tagOf as).isSome) {offset : Nat} :
    generateMatchCondition offset as ≠ some [] := by
  induction as with
  | nil => cases htag
  | cons a as ih =>
      cases a with
      | field name type dataOffset =>
          intro hgen
          obtain ⟨rest, -, hcs⟩ := generateMatchCondition_field hgen
          rcases hcs with ⟨hinit, -⟩ | ⟨literal, c, -, -, hcons⟩
          · -- the tag has a fixed value, so its field has an initializer
            have hfixed : ∀ t : UnsignedType, t.tag.isSome → t.generateCInitialize ≠ some [] := by
              intro t ht hnil
              obtain ⟨⟨w, v⟩, hwv⟩ := Option.isSome_iff_exists.1 ht
              have hv := (UnsignedType.of_tag hwv).2.2.1
              rw [UnsignedType.fixedValue_of_nil hnil] at hv
              cases hv
            cases type with
            | struct => cases htag
            | builtin object =>
                obtain ⟨type, cells, hcells⟩ := object
                cases type with
                | unsigned t => exact hfixed t htag hinit
                | signed t => exact hfixed t htag hinit
                | string => cases htag
                | float => cases htag
                | double => cases htag
                | length => cases htag
                | unixtime => cases htag
          · cases hcons
      | transformationAction t => cases htag
      | annotationAction name => exact ih htag

/-! ## Lengths -/

theorem lengthOffset_field {type : FieldType} (h : type.NoLength) (offset : Nat) (name : String)
    (dataOffset : UInt32) (as : List Action) :
    lengthOffset offset (.field name type dataOffset :: as) =
      lengthOffset (offset + type.sizeof) as := by
  cases type with
  | struct => rfl
  | builtin object =>
      obtain ⟨type, cells, hcells⟩ := object
      cases type with
      | length => exact absurd rfl h
      | unsigned => rfl
      | signed => rfl
      | string => rfl
      | float => rfl
      | double => rfl
      | unixtime => rfl

theorem lengthLast_of_noLengths {as : List Action} (h : NoLengths as) : LengthLast as := by
  induction as with
  | nil => trivial
  | cons a as ih =>
      cases a with
      | field name type offset => exact Or.inl ⟨h.1, ih h.2⟩
      | transformationAction t => exact ih h
      | annotationAction name => exact ih h

theorem lengthOffset_of_noLengths {as : List Action} (h : NoLengths as) (offset : Nat) :
    lengthOffset offset as = none := by
  induction as generalizing offset with
  | nil => rfl
  | cons a as ih =>
      cases a with
      | field name type dataOffset =>
          rw [lengthOffset_field h.1]
          exact ih h.2 _
      | transformationAction t => exact ih h offset
      | annotationAction name => exact ih h offset

theorem of_noFields {as : List Action} (h : NoFields as) :
    sizeofMembers as = 0 ∧ (∀ bs, (scanActions bs as).2 = true) ∧
      ∀ offset, generateMatchCondition offset as = some [] := by
  induction as with
  | nil => exact ⟨rfl, fun _ => rfl, fun _ => rfl⟩
  | cons a as ih =>
      cases a with
      | field => exact h.elim
      | transformationAction => exact h.elim
      | annotationAction => exact ih h

/-- The field of the type `length` ends the fields. -/
theorem lengthOffset_eq {as : List Action} (hlast : LengthLast as) {offset o : Nat}
    (h : lengthOffset offset as = some o) : o + 4 = offset + sizeofMembers as := by
  induction as generalizing offset with
  | nil => cases h
  | cons a as ih =>
      cases a with
      | field name type dataOffset =>
          rcases hlast with ⟨hnone, hlast⟩ | ⟨⟨object, rfl, hlength⟩, hend⟩
          · rw [lengthOffset_field hnone] at h
            rw [ih hlast h, sizeofMembers_field, Nat.add_assoc]
          · obtain ⟨type, cells, hcells⟩ := object
            obtain rfl : type = .length := hlength
            cases h
            rw [sizeofMembers_field, (of_noFields hend).1]
            rfl
      | transformationAction t => exact ih hlast h
      | annotationAction name => exact ih hlast h

/-- The field of the type `length`, if there is one, counts the bytes that follow it. -/
def LengthFits (bs : List UInt8) (o : Option Nat) : Prop :=
  ∀ offset, o = some offset →
    LittleEndian.decode ((bs.drop offset).take 4) + (offset + 4) = bs.length

/-- The fields from an offset on are all filled where there are enough bytes, with the fixed values
and the length. -/
theorem scan_full_iff {as : List Action} (hplain : PlainActions as) (hsized : Sized as)
    (hlast : LengthLast as) {offset : Nat} {cs : List Comparison}
    (hgen : generateMatchCondition offset as = some cs) {bs : List UInt8}
    (hoffset : offset ≤ bs.length) :
    (scanActions (bs.drop offset) as).2 = true ↔
      offset + sizeofMembers as ≤ bs.length ∧ (∀ c ∈ cs, c.Stored bs) ∧
        LengthFits bs (lengthOffset offset as) := by
  induction as generalizing offset cs with
  | nil =>
      cases hgen
      exact iff_of_true rfl ⟨hoffset, nofun, nofun⟩
  | cons a as ih =>
      cases a with
      | transformationAction t => exact hplain.elim
      | annotationAction name => exact ih hplain hsized hlast hgen hoffset
      | field name type dataOffset =>
          obtain ⟨rest, hrest, hcs⟩ := generateMatchCondition_field hgen
          have hlen : (bs.drop offset).length = bs.length - offset := List.length_drop
          rw [scanActions_full_iff hplain.1 hsized.1, List.drop_drop, sizeofMembers_field]
          rcases hlast with ⟨hnone, hlast⟩ | ⟨⟨object, rfl, hlength⟩, hend⟩
          · rw [lengthOffset_field hnone]
            rcases hcs with ⟨hinit, rfl⟩ | ⟨literal, c, hinit, hc, rfl⟩
            · rw [FieldType.full_of_unfixed hplain.1 hsized.1 hnone hinit]
              constructor
              · rintro ⟨hroom, hfull⟩
                obtain ⟨hsize, hall⟩ := (ih hplain.2 hsized.2 hlast hrest (by omega)).1 hfull
                exact ⟨by omega, hall⟩
              · rintro ⟨hsize, hall⟩
                exact ⟨by omega, (ih hplain.2 hsized.2 hlast hrest (by omega)).2 ⟨by omega, hall⟩⟩
            · obtain ⟨hfield, -, -⟩ := FieldType.full_of_comparison hsized.1 hinit hc bs
              rw [hfield, List.forall_mem_cons]
              constructor
              · rintro ⟨⟨hroom, hc⟩, hfull⟩
                obtain ⟨hsize, hall, hfits⟩ := (ih hplain.2 hsized.2 hlast hrest (by omega)).1 hfull
                exact ⟨by omega, ⟨hc, hall⟩, hfits⟩
              · rintro ⟨hsize, ⟨hc, hall⟩, hfits⟩
                exact ⟨⟨by omega, hc⟩,
                  (ih hplain.2 hsized.2 hlast hrest (by omega)).2 ⟨by omega, hall, hfits⟩⟩
          · -- the length is the last field
            obtain ⟨hzero, hfull, hnil⟩ := of_noFields hend
            obtain ⟨type, cells, hcells⟩ := object
            obtain rfl : type = .length := hlength
            rw [hnil] at hrest
            cases hrest
            have hcs : cs = [] := by
              rcases hcs with ⟨-, rfl⟩ | ⟨literal, c, -, hc, -⟩
              · rfl
              · cases hc
            have hsizeof : (FieldType.builtin ⟨.length, cells, hcells⟩).sizeof = 4 := rfl
            rw [hcs, hfull, hzero, hsizeof,
              @FieldType.full_builtin_iff ⟨.length, cells, hcells⟩ hsized.1]
            constructor
            · rintro ⟨⟨hroom, hready⟩, -⟩
              have hroom' : 4 ≤ (bs.drop offset).length := hroom
              have hvalue : LittleEndian.decode ((bs.drop offset).take 4) + 4 =
                (bs.drop offset).length := hready
              refine ⟨by omega, nofun, ?_⟩
              intro o ho
              cases ho
              omega
            · rintro ⟨hsize, -, hfits⟩
              have hvalue := hfits offset rfl
              refine ⟨⟨?_, ?_⟩, rfl⟩
              · show 4 ≤ (bs.drop offset).length
                omega
              · show LittleEndian.decode ((bs.drop offset).take 4) + 4 = (bs.drop offset).length
                omega

/-! ## Evaluation -/

theorem evalAll_append (pLength : Nat) (bs : List UInt8) (cs cs' : List Condition) :
    evalAll pLength bs (cs ++ cs') =
      match evalAll pLength bs cs with
      | none => none
      | some false => some false
      | some true => evalAll pLength bs cs' := by
  induction cs with
  | nil => rfl
  | cons c cs ih =>
      rw [List.cons_append, evalAll, evalAll]
      rcases c.eval pLength bs with _ | _ | _
      · rfl
      · rfl
      · exact ih

theorem evalAll_singleton (pLength : Nat) (bs : List UInt8) (c : Condition) :
    evalAll pLength bs [c] = c.eval pLength bs := by
  rw [evalAll]
  rcases c.eval pLength bs with _ | _ | _ <;> rfl

theorem eval_comparison {bs : List UInt8} {c : Comparison} (pLength : Nat)
    (h : c.offset + c.width.bytes ≤ bs.length) :
    (Condition.comparison c).eval pLength bs = some (c.holds (c.loaded bs)) := by
  show (readMember bs c.offset c.width.bytes).map c.holds = _
  rw [readMember, if_pos h]
  rfl

/-- In the frame all of the comparisons are made. -/
theorem evalAll_comparisons {bs : List UInt8} {cs : List Comparison} (pLength : Nat)
    (h : ∀ c ∈ cs, c.offset + c.width.bytes ≤ bs.length) :
    ∃ b, evalAll pLength bs (cs.map .comparison) = some b ∧
      (b = true ↔ ∀ c ∈ cs, c.Compared bs) := by
  induction cs with
  | nil => exact ⟨true, rfl, iff_of_true rfl nofun⟩
  | cons c cs ih =>
      obtain ⟨hc, hcs⟩ := List.forall_mem_cons.1 h
      rw [List.map_cons, evalAll, eval_comparison pLength hc, List.forall_mem_cons]
      cases hholds : c.holds (c.loaded bs) with
      | false =>
          have hne : ¬ c.Compared bs := Bool.eq_false_iff.1 hholds
          exact ⟨false, rfl, iff_of_false Bool.false_ne_true fun hall => hne hall.1⟩
      | true =>
          obtain ⟨b, heval, hb⟩ := ih hcs
          exact ⟨b, heval, hb.trans (and_iff_right hholds).symm⟩

/-- Behind the frame none is. -/
theorem evalAll_beyond {bs : List UInt8} {c : Comparison} (pLength : Nat)
    (h : bs.length < c.offset + c.width.bytes) (cs : List Comparison) :
    evalAll pLength bs ((c :: cs).map .comparison) = none := by
  have heval : (Condition.comparison c).eval pLength bs = none := by
    show (readMember bs c.offset c.width.bytes).map c.holds = _
    rw [readMember, if_neg (Nat.not_le.2 h)]
    rfl
  rw [List.map_cons, evalAll, heval]

/-- The condition that is emitted for the packet. -/
def Packet.conditions (p : Packet) : List Condition :=
  p.sizeConditions ++ ((generateMatchCondition 0 p.actions).getD []).map .comparison

/-- The condition that is emitted for a subpacket of the packet. -/
def Packet.conditionsFor (p : Packet) (sp : Subpacket) : List Condition :=
  p.subpacketSizeConditions sp ++
    ((generateMatchCondition (sizeofMembers p.actions) sp.actions).getD []).map .comparison

/-- The frame has the size of the header, or at least that if there is a length, and that fits. -/
structure Packet.Admits (bs : List UInt8) (p : Packet) : Prop where
  le : sizeofMembers p.actions ≤ bs.length
  eq_of_none : lengthOffset 0 p.actions = none → bs.length = sizeofMembers p.actions
  fits : LengthFits bs (lengthOffset 0 p.actions)

section Packets

variable {p : Packet} (hsized : Sized p.actions) (hlast : LengthLast p.actions)
  (htag : (tagOf p.actions).isSome) {cs : List Comparison}
  (hgen : generateMatchCondition 0 p.actions = some cs) (bs : List UInt8)

include hsized htag hgen in
theorem Packet.sizeofMembers_pos : 0 < sizeofMembers p.actions := by
  cases cs with
  | nil => exact absurd hgen (generateMatchCondition_ne_nil htag)
  | cons c cs =>
      obtain ⟨-, hbound⟩ := comparison_bounds hsized hgen c List.mem_cons_self
      have hpos := c.width.bytes_pos
      omega

include hsized hlast htag hgen

theorem Packet.eval_sizeConditions :
    ∃ b, evalAll (romPacketSize + bs.length) bs p.sizeConditions = some b ∧
      (b = true ↔ p.Admits bs) := by
  have hpos := sizeofMembers_pos hsized htag hgen
  unfold sizeConditions
  rw [(sizeFrom_of_sized hsized).2, if_neg (Nat.ne_of_gt hpos)]
  cases ho : lengthOffset 0 p.actions with
  | none =>
      refine ⟨_, evalAll_singleton _ bs (.sizeIs _), ?_⟩
      rw [beq_iff_eq, Nat.add_left_cancel_iff]
      constructor
      · intro hlen
        exact ⟨Nat.le_of_eq hlen.symm, fun _ => hlen, by rw [ho]; exact nofun⟩
      · exact fun hadmits => hadmits.eq_of_none ho
  | some o =>
      have hend : o + 4 = 0 + sizeofMembers p.actions := lengthOffset_eq hlast ho
      -- the first condition keeps the second from reading behind the frame
      have hfirst : Condition.eval (romPacketSize + bs.length) bs
          (.sizeAtLeast (sizeofMembers p.actions)) =
          some (decide (romPacketSize + sizeofMembers p.actions ≤ romPacketSize + bs.length)) := rfl
      dsimp only
      rw [evalAll, hfirst]
      by_cases hle : sizeofMembers p.actions ≤ bs.length
      · have hread : readMember bs o 4 = some (LittleEndian.decode ((bs.drop o).take 4)) :=
          if_pos (by omega)
        have hsecond : Condition.eval (romPacketSize + bs.length) bs
            (.sizeIsLength o (sizeofMembers p.actions)) =
            some (romPacketSize + bs.length ==
              LittleEndian.decode ((bs.drop o).take 4) + romPacketSize +
                sizeofMembers p.actions) := by
          rw [Condition.eval, hread]
          rfl
        rw [decide_eq_true (Nat.add_le_add_left hle _)]
        refine ⟨_, (evalAll_singleton _ bs _).trans hsecond, ?_⟩
        rw [beq_iff_eq]
        constructor
        · intro hlen
          refine ⟨hle, fun hnone => ?_, ?_⟩
          · rw [ho] at hnone
            cases hnone
          · rw [ho]
            rintro _ ⟨⟩
            omega
        · intro hadmits
          have hfits := hadmits.fits o ho
          omega
      · rw [decide_eq_false (fun hle' => hle (Nat.le_of_add_le_add_left hle'))]
        exact ⟨false, rfl, iff_of_false Bool.false_ne_true fun hadmits => hle hadmits.le⟩

/-- The condition of a packet never reads behind the frame. -/
theorem Packet.eval_conditions :
    ∃ b, evalAll (romPacketSize + bs.length) bs p.conditions = some b ∧
      (b = true ↔ p.Admits bs ∧ ∀ c ∈ cs, c.Compared bs) := by
  obtain ⟨b, hsize, hadmits⟩ := eval_sizeConditions hsized hlast htag hgen bs
  unfold conditions
  rw [evalAll_append, hsize, hgen, Option.getD_some]
  cases b with
  | false =>
      exact ⟨false, rfl, iff_of_false Bool.false_ne_true fun hall =>
        Bool.false_ne_true (hadmits.2 hall.1)⟩
  | true =>
      have hroom := (hadmits.1 rfl).le
      obtain ⟨b, heval, hb⟩ := evalAll_comparisons (romPacketSize + bs.length) fun c hc => by
        have hbound := (comparison_bounds hsized hgen c hc).2
        show c.offset + c.width.bytes ≤ bs.length
        omega
      exact ⟨b, heval, hb.trans (and_iff_right (hadmits.1 rfl)).symm⟩

end Packets

section Subpackets

variable {p : Packet} (hlast : LengthLast p.actions) {sp : Subpacket}
  (hsized : Sized sp.actions) (htag : (tagOf sp.actions).isSome) {cs : List Comparison}
  (hgen : generateMatchCondition (sizeofMembers p.actions) sp.actions = some cs)
  {bs : List UInt8} (hadmits : p.Admits bs)

include hlast hsized htag hgen hadmits

/-- Behind a header with a length, the condition of a subpacket checks its size. -/
theorem Packet.eval_conditionsFor (hlength : (lengthOffset 0 p.actions).isSome) :
    ∃ b, evalAll (romPacketSize + bs.length) bs (p.conditionsFor sp) = some b ∧
      (b = true ↔ bs.length = sizeofMembers p.actions + sizeofMembers sp.actions ∧
        ∀ c ∈ cs, c.Compared bs) := by
  obtain ⟨o, ho⟩ := Option.isSome_iff_exists.1 hlength
  have hend : o + 4 = 0 + sizeofMembers p.actions := lengthOffset_eq hlast ho
  have hfits := hadmits.fits o ho
  have hroom := hadmits.le
  have hpos : 0 < sizeofMembers sp.actions := by
    cases cs with
    | nil => exact absurd hgen (generateMatchCondition_ne_nil htag)
    | cons c cs =>
        obtain ⟨hlow, hbound⟩ := comparison_bounds hsized hgen c List.mem_cons_self
        have hpos := c.width.bytes_pos
        omega
  -- the header is there, so its length is not behind the frame
  have hread : readMember bs o 4 = some (LittleEndian.decode ((bs.drop o).take 4)) :=
    if_pos (by omega)
  have hsize :
      Condition.eval (romPacketSize + bs.length) bs (.lengthIs o (sizeofMembers sp.actions)) =
        some (LittleEndian.decode ((bs.drop o).take 4) == sizeofMembers sp.actions) := by
    rw [Condition.eval, hread]
    rfl
  have hconditions : p.subpacketSizeConditions sp = [.lengthIs o (sizeofMembers sp.actions)] := by
    unfold subpacketSizeConditions
    rw [ho, (sizeFrom_of_sized hsized).2]
    exact if_pos ⟨hpos, isConstantSize_of_sized hsized⟩
  unfold conditionsFor
  rw [evalAll_append, hconditions, evalAll_singleton, hsize, hgen, Option.getD_some]
  by_cases hlen : LittleEndian.decode ((bs.drop o).take 4) = sizeofMembers sp.actions
  · rw [beq_iff_eq.2 hlen]
    -- the frame has all of the subpacket, so the comparisons stay inside
    obtain ⟨b, heval, hb⟩ := evalAll_comparisons (romPacketSize + bs.length) fun c hc => by
      have hbound := (comparison_bounds hsized hgen c hc).2
      show c.offset + c.width.bytes ≤ bs.length
      omega
    exact ⟨b, heval, hb.trans (and_iff_right (by omega)).symm⟩
  · rw [beq_eq_false_iff_ne.2 hlen]
    exact ⟨false, rfl, iff_of_false Bool.false_ne_true fun hall => hlen (by omega)⟩

omit hlast in
/-- Behind a header without a length, it reads behind the frame. -/
theorem Packet.eval_conditionsFor_of_none (hlength : lengthOffset 0 p.actions = none) :
    evalAll (romPacketSize + bs.length) bs (p.conditionsFor sp) = none := by
  have hlen := hadmits.eq_of_none hlength
  have hconditions : p.subpacketSizeConditions sp = [] := by
    unfold subpacketSizeConditions
    rw [hlength]
  cases cs with
  | nil => exact absurd hgen (generateMatchCondition_ne_nil htag)
  | cons c cs =>
      obtain ⟨hlow, -⟩ := comparison_bounds hsized hgen c List.mem_cons_self
      have hpos := c.width.bytes_pos
      unfold conditionsFor
      rw [hconditions, List.nil_append, hgen, Option.getD_some]
      exact evalAll_beyond _ (by omega) cs

end Subpackets

end ProtocolDefinition

end OpenRom
