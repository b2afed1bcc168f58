import OpenRom.Protocol.Scan

/-!
# Payloads that are found

`ActionsEncode` says which bytes are a complete encoding of some fields. When every packet and
subpacket begins with a value of its own, and only a last field varies in size, an encoded packet is
found whatever comes before it, unless `Fill` compares the value of a signed field without its sign
with a fixed value that has one (`process_encoded_iff`).
-/

set_option autoImplicit false

namespace OpenRom

namespace ProtocolDefinition

/-! ## Encodings -/

/-- The bytes are the numbers of a numeric field, the first of them its fixed value, which
`represent` gives as it is stored. -/
def UnsignedType.Encodes (t : UnsignedType) (represent : UInt32 → Nat) (bs : List UInt8) : Prop :=
  ∃ k : Nat, t.minCount ≤ k ∧ k ≤ t.count ∧ bs.length = t.width.bytes * k ∧
    (k ≠ 0 → ∀ v, t.fixedValue = some v →
      LittleEndian.decode (bs.take t.width.bytes) = represent v)

/-- The two's complement of a width, for a number given in 32 bits. -/
def Width.low (w : Width) (v : UInt32) : Nat := v.toNat % 256 ^ w.bytes

/-- The bytes are a value of the type, `after` bytes from the end of the payload. -/
def BuiltinType.Encodes (after : Nat) (bs : List UInt8) : BuiltinType → Prop
  | unsigned t => t.Encodes UInt32.toNat bs
  | signed t => t.Encodes t.width.low bs
  | string n minLength => minLength ≤ bs.length ∧ bs.length ≤ n
  | float count _ => bs.length = count * 4
  | double count _ => bs.length = count * 8
  | length => bs.length = 4 ∧ LittleEndian.decode bs = after
  | unixtime => bs.length = 4

mutual

def FieldType.Encodes (after : Nat) (bs : List UInt8) : FieldType → Prop
  | .builtin object => object.type.Encodes after bs
  | .struct _ actions => ActionsEncode after bs actions

/-- The bytes are values of the fields, one after the other. -/
def ActionsEncode (after : Nat) (bs : List UInt8) : List Action → Prop
  | [] => bs = []
  | .field _ type _ :: as => ∃ mine rest, bs = mine ++ rest ∧
      type.Encodes (rest.length + after) mine ∧ ActionsEncode after rest as
  | .transformationAction _ :: _ => False
  | .annotationAction _ :: as => ActionsEncode after bs as

end

/-- The payload encodes the packet, with one of its subpackets if it has any. -/
inductive Packet.Encoded (p : Packet) (bs : List UInt8) : Option Nat → Prop
  | alone : p.subpackets = [] → ActionsEncode 0 bs p.actions → Encoded p bs none
  | withSubpacket {k : Nat} {sp : Subpacket} {header body : List UInt8} :
      p.subpackets[k]? = some sp → bs = header ++ body →
        ActionsEncode body.length header p.actions → ActionsEncode 0 body sp.actions →
          Encoded p bs (some k)

/-! ## Fixed values -/

/-- A signed type has no fixed value that is negative in its width. -/
def BuiltinType.Fits : BuiltinType → Prop
  | signed t => ∀ v, t.fixedValue = some v → v.toNat < 256 ^ t.width.bytes
  | _ => True

mutual

def FieldType.Fits : FieldType → Prop
  | .builtin object => object.type.Fits
  | .struct _ actions => FixedValuesFit actions

/-- No signed field, at any depth, has a negative fixed value that is narrower than 32 bits. -/
def FixedValuesFit : List Action → Prop
  | [] => True
  | .field _ type _ :: as => type.Fits ∧ FixedValuesFit as
  | .transformationAction _ :: as => FixedValuesFit as
  | .annotationAction _ :: as => FixedValuesFit as

end

/-- The fixed values of the packet and of the subpacket fit. -/
structure Packet.FixedValuesFit (p : Packet) (sel : Option Nat) : Prop where
  actions : ProtocolDefinition.FixedValuesFit p.actions
  subpacket : ∀ k sp, sel = some k → p.subpackets[k]? = some sp →
    ProtocolDefinition.FixedValuesFit sp.actions

/-! ## Definitions that can be told apart -/

/-- The width and the value of a scalar with a fixed value. -/
def UnsignedType.tag (t : UnsignedType) : Option (Width × UInt32) :=
  if t.count = 1 ∧ t.minCount = 1 then t.fixedValue.map fun v => (t.width, v) else none

def BuiltinType.tag : BuiltinType → Option (Width × UInt32)
  | unsigned t => t.tag
  | signed t => t.tag
  | _ => none

/-- The scalar that the fields begin with, if it has a fixed value. -/
def tagOf : List Action → Option (Width × UInt32)
  | .field _ (.builtin object) _ :: _ => object.type.tag
  | .annotationAction _ :: as => tagOf as
  | _ => none

/-- A string or an array. -/
def BuiltinType.IsArray : BuiltinType → Prop
  | unsigned _ => True
  | signed _ => True
  | string _ _ => True
  | _ => False

/-- All of the fields have a constant size. -/
def Sized : List Action → Prop
  | [] => True
  | .field _ type _ :: as => 0 < type.constantSize ∧ Sized as
  | .transformationAction _ :: _ => False
  | .annotationAction _ :: as => Sized as

/-- No field is left. -/
def NoFields : List Action → Prop
  | [] => True
  | .annotationAction _ :: as => NoFields as
  | _ => False

/-- All of the fields have a constant size, but the last may be a string or an array. -/
def SizedButLast : List Action → Prop
  | [] => True
  | .field _ type _ :: as => (0 < type.constantSize ∧ SizedButLast as) ∨
      ((∃ object, type = .builtin object ∧ object.type.IsArray) ∧ NoFields as)
  | .transformationAction _ :: _ => False
  | .annotationAction _ :: as => SizedButLast as

/-- Packets begin with distinct values of one width, and so do the subpackets of each. -/
structure Tagged (w : Width) (d : ProtocolDefinition) : Prop where
  packets : ∀ p ∈ d.packets, ∃ v, tagOf p.actions = some (w, v)
  distinct : (d.packets.map fun p => tagOf p.actions).Nodup
  subpackets : ∀ p ∈ d.packets, ∀ sp ∈ p.subpackets, ∃ v, tagOf sp.actions = some (w, v)
  distinctSubpackets : ∀ p ∈ d.packets, (p.subpackets.map fun sp => tagOf sp.actions).Nodup
  alone : ∀ p ∈ d.packets, p.subpackets = [] → SizedButLast p.actions
  header : ∀ p ∈ d.packets, p.subpackets ≠ [] → Sized p.actions
  body : ∀ p ∈ d.packets, ∀ sp ∈ p.subpackets, SizedButLast sp.actions

/-! ## Built-in types -/

theorem UnsignedType.count_of_constantSize {t : UnsignedType} (h : 0 < t.constantSize) :
    (t.count : Int) = t.minCount ∧ t.constantSize = t.count * t.width.bytes := by
  unfold constantSize at h ⊢
  by_cases hne : (t.count : Int) ≠ t.minCount
  · rw [if_pos hne] at h
    cases h
  · rw [if_neg hne]
    exact ⟨Decidable.not_not.1 hne, rfl⟩

theorem length_of_constantSize_string {n : Nat} {minLength : Int}
    (h : 0 < (BuiltinType.string n minLength).constantSize) :
    minLength = n ∧ (BuiltinType.string n minLength).constantSize = n := by
  have heq : (BuiltinType.string n minLength).constantSize =
      if minLength ≠ n then 0 else (n : Int) := rfl
  rw [heq] at h ⊢
  by_cases hne : minLength ≠ n
  · rw [if_pos hne] at h
    cases h
  · exact ⟨Decidable.not_not.1 hne, if_neg hne⟩

theorem UnsignedType.Encodes.of_fits {t : UnsignedType} {mine : List UInt8}
    (hfits : ∀ v, t.fixedValue = some v → v.toNat < 256 ^ t.width.bytes)
    (h : t.Encodes t.width.low mine) : t.Encodes UInt32.toNat mine := by
  obtain ⟨k, hmin, hmax, hlen, hfixed⟩ := h
  refine ⟨k, hmin, hmax, hlen, ?_⟩
  intro hk v hv
  rw [hfixed hk v hv, Width.low, Nat.mod_eq_of_lt (hfits v hv)]

theorem UnsignedType.takes_of_encodes {t : UnsignedType} {mine : List UInt8}
    (h : t.Encodes UInt32.toNat mine) {more : List UInt8} (hmore : more = [] ∨ 0 < t.constantSize) :
    t.takes (mine ++ more) = mine.length := by
  obtain ⟨k, hmin, hmax, hlen, hfixed⟩ := h
  have hw := t.width.bytes_pos
  -- at the end of the payload `k` values are left, elsewhere `k` is the count
  have hcount : min ((mine ++ more).length / t.width.bytes) t.count = k := by
    rw [List.length_append, hlen, Nat.mul_add_div hw]
    rcases hmore with rfl | hconst
    · rw [List.length_nil, Nat.zero_div, Nat.add_zero]
      omega
    · obtain ⟨hcount, -⟩ := count_of_constantSize hconst
      generalize more.length / t.width.bytes = q
      omega
  unfold takes
  rcases Nat.eq_zero_or_pos k with rfl | hk
  · -- no values: zero bytes are taken, whatever the fixed value
    rw [hcount, Nat.mul_zero, ite_self, hlen, Nat.mul_zero]
  · have hle : t.width.bytes ≤ mine.length := by
      rw [hlen]
      exact Nat.le_mul_of_pos_right _ hk
    have hread : t.fixedValue.all fun v =>
        LittleEndian.decode ((mine ++ more).take t.width.bytes) == v.toNat := by
      rw [List.take_append_of_le_length hle]
      cases hv : t.fixedValue with
      | none => rfl
      | some v =>
          rw [Option.all_some, hfixed (by omega) v hv]
          exact beq_self_eq_true _
    have hroom : t.width.bytes * t.minCount ≤ (mine ++ more).length := by
      calc (t.width.bytes * t.minCount : Int)
          ≤ t.width.bytes * k := Int.mul_le_mul_of_nonneg_left hmin (by omega)
        _ = mine.length := by rw [hlen, Int.natCast_mul]
        _ ≤ (mine ++ more).length := by
            rw [List.length_append]
            omega
    rw [if_pos ⟨hroom, hread⟩, hcount, hlen]

theorem takesString_of_encodes {n : Nat} {minLength : Int} {mine more : List UInt8}
    (h : minLength ≤ mine.length ∧ mine.length ≤ n)
    (hmore : more = [] ∨ 0 < (BuiltinType.string n minLength).constantSize) :
    (BuiltinType.string n minLength).takes (mine ++ more) = mine.length := by
  have hmin : minLength ≤ (mine ++ more).length := by
    rw [List.length_append]
    omega
  have htakes : (BuiltinType.string n minLength).takes (mine ++ more) =
    min n (mine ++ more).length := if_pos hmin
  rw [htakes, List.length_append]
  rcases hmore with rfl | hconst
  · rw [List.length_nil]
    omega
  · obtain ⟨hlen, -⟩ := length_of_constantSize_string hconst
    omega

/-- An encoded value is taken, the last one whatever its size. -/
theorem BuiltinType.takes_of_encodes {mine more : List UInt8} :
    ∀ {type : BuiltinType}, type.Fits → type.Encodes more.length mine →
      (more = [] ∨ 0 < type.constantSize) → type.takes (mine ++ more) = mine.length
  | unsigned _, _, h, hmore => UnsignedType.takes_of_encodes h hmore
  | signed _, hfits, h, hmore => UnsignedType.takes_of_encodes (h.of_fits hfits) hmore
  | string _ _, _, h, hmore => takesString_of_encodes h hmore
  | float count _, _, h, _ => by
      have hlen : mine.length = count * 4 := h
      exact (if_pos (by rw [List.length_append]; omega)).trans hlen.symm
  | double count _, _, h, _ => by
      have hlen : mine.length = count * 8 := h
      exact (if_pos (by rw [List.length_append]; omega)).trans hlen.symm
  | length, _, h, _ => by
      obtain ⟨hlen, hvalue⟩ := h
      -- the length counts what follows it, and the code adds its own four bytes
      have htake : (mine ++ more).take 4 = mine := List.take_left' hlen
      refine (if_pos ⟨?_, ?_⟩).trans hlen.symm
      · rw [List.length_append]
        omega
      · rw [htake, hvalue, List.length_append]
        omega
  | unixtime, _, h, _ => by
      have hlen : mine.length = 4 := h
      exact (if_pos (by rw [List.length_append]; omega)).trans hlen.symm

theorem UnsignedType.length_of_encodes {t : UnsignedType} {represent : UInt32 → Nat}
    {mine : List UInt8} (h : t.Encodes represent mine) (hconst : 0 < t.constantSize) :
    (mine.length : Int) = t.constantSize := by
  obtain ⟨k, hmin, hmax, hlen, -⟩ := h
  obtain ⟨hcount, hsize⟩ := count_of_constantSize hconst
  have hk : k = t.count := by omega
  rw [hsize, hlen, hk, Nat.mul_comm, Int.natCast_mul]

/-- A value of a type of constant size has that size. -/
theorem BuiltinType.length_of_encodes {after : Nat} {mine : List UInt8} :
    ∀ {type : BuiltinType}, type.Encodes after mine → 0 < type.constantSize →
      (mine.length : Int) = type.constantSize
  | unsigned _, h, hconst => UnsignedType.length_of_encodes h hconst
  | signed _, h, hconst => UnsignedType.length_of_encodes h hconst
  | string n minLength, h, hconst => by
      obtain ⟨hmin, hmax⟩ := h
      obtain ⟨hlen, hsize⟩ := length_of_constantSize_string hconst
      rw [hsize]
      omega
  | float count _, h, _ => by
      have hlen : mine.length = count * 4 := h
      rw [hlen]
      exact Int.natCast_mul count 4
  | double count _, h, _ => by
      have hlen : mine.length = count * 8 := h
      rw [hlen]
      exact Int.natCast_mul count 8
  | length, h, _ => congrArg Int.ofNat h.1
  | unixtime, h, _ => congrArg Int.ofNat h

/-! ## Structs -/

/-- A value of a type of constant size is read, and what follows it is left. -/
def FieldType.ReadsEncoded (type : FieldType) : Prop :=
  ∀ {mine more : List UInt8}, 0 < type.constantSize → type.Encodes more.length mine →
    type.scan (mine ++ more) = (more, true) ∧ (mine.length : Int) = type.constantSize

theorem FieldType.readsEncoded_builtin {object : Builtin} (hfits : object.type.Fits) :
    (builtin object).ReadsEncoded := by
  intro mine more hconst h
  have htakes := BuiltinType.takes_of_encodes hfits h (Or.inr hconst)
  refine ⟨?_, BuiltinType.length_of_encodes h hconst⟩
  show ((mine ++ more).drop (object.type.takes (mine ++ more)), true) = (more, true)
  rw [htakes, List.drop_left]

theorem sized_of_sizeFrom {as : List Action} (hplain : PlainActions as) {size : Int}
    (h : 0 < sizeFrom size as) : Sized as := by
  induction as generalizing size with
  | nil => trivial
  | cons a as ih =>
      cases a with
      | field name type offset =>
          rw [sizeFrom_field] at h
          by_cases hconst : type.constantSize ≤ 0
          · rw [if_pos hconst] at h
            cases h
          · rw [if_neg hconst] at h
            exact ⟨Int.not_le.1 hconst, ih hplain.2 h⟩
      | transformationAction t => exact hplain
      | annotationAction name => exact ih hplain h

theorem scanActions_of_read {type : FieldType} (htype : type.ReadsEncoded)
    (hconst : 0 < type.constantSize) {mine more : List UInt8} (h : type.Encodes more.length mine)
    (name : String) (offset : UInt32) (as : List Action) :
    scanActions (mine ++ more) (.field name type offset :: as) = scanActions more as := by
  obtain ⟨hscan, hlen⟩ := htype hconst h
  have hne : (type.scan (mine ++ more)).1.length ≠ (mine ++ more).length := by
    rw [hscan, List.length_append]
    show more.length ≠ _
    omega
  rw [scanActions_of_taken hne, hscan]
  rfl

/-- Encoded fields of constant size are all read, and what follows them is left. -/
theorem scanActions_of_encode {as : List Action} (hplain : PlainActions as)
    (hfits : FixedValuesFit as) (hsized : Sized as) {bs more : List UInt8}
    (h : ActionsEncode more.length bs as) :
    scanActions (bs ++ more) as = (more, true) ∧
      ∀ size, sizeFrom size as = size + bs.length := by
  -- a field, of a built-in type or a struct, from what is known of its type
  have hfield : ∀ (name : String) (type : FieldType) (offset : UInt32) (as : List Action)
      (bs more : List UInt8), type.ReadsEncoded → Sized (.field name type offset :: as) →
      ActionsEncode more.length bs (.field name type offset :: as) →
      (∀ bs, Sized as → ActionsEncode more.length bs as →
        scanActions (bs ++ more) as = (more, true) ∧
          ∀ size, sizeFrom size as = size + bs.length) →
      scanActions (bs ++ more) (.field name type offset :: as) = (more, true) ∧
        ∀ size, sizeFrom size (.field name type offset :: as) = size + bs.length := by
    rintro name type offset as _ more htype ⟨hconst, hsized⟩ ⟨mine, rest, rfl, hmine, hrest⟩ ih
    obtain ⟨hscan, hsize⟩ := ih rest hsized hrest
    rw [← List.length_append] at hmine
    obtain ⟨-, hlen⟩ := htype hconst hmine
    constructor
    · rw [List.append_assoc, scanActions_of_read htype hconst hmine, hscan]
    · intro size
      rw [sizeFrom_field, if_neg (Int.not_le.2 hconst), hsize, List.length_append]
      omega
  induction as using actionsRec generalizing bs more with
  | nil =>
      obtain rfl : bs = [] := h
      exact ⟨rfl, fun size => (Int.add_zero size).symm⟩
  | builtin name object offset as ih =>
      exact hfield name _ offset as bs more (FieldType.readsEncoded_builtin hfits.1) hsized h
        fun bs hsized h => ih hplain.2 hfits.2 hsized h
  | struct name typeName inner offset as ihInner ih =>
      apply hfield name _ offset as bs more _ hsized h
        fun bs hsized h => ih hplain.2 hfits.2 hsized h
      -- a struct of constant size reads its encoding by the induction hypothesis
      intro mine more hconst h
      obtain ⟨hscan, hsize⟩ := ihInner hplain.1 hfits.1
        (sized_of_sizeFrom hplain.1 hconst) h
      refine ⟨hscan, ?_⟩
      show (mine.length : Int) = sizeFrom 0 inner
      rw [hsize, Int.zero_add]
  | transformationAction t as ih => exact hsized.elim
  | annotationAction name as ih => exact ih hplain hfits hsized h

theorem FieldType.readsEncoded {type : FieldType} (hplain : type.Plain) (hfits : type.Fits) :
    type.ReadsEncoded := by
  cases type with
  | builtin object => exact readsEncoded_builtin hfits
  | struct typeName actions =>
      intro mine more hconst h
      obtain ⟨hscan, hsize⟩ := scanActions_of_encode hplain hfits
        (sized_of_sizeFrom hplain hconst) h
      refine ⟨hscan, ?_⟩
      show (mine.length : Int) = sizeFrom 0 actions
      rw [hsize, Int.zero_add]

theorem nil_of_noFields {as : List Action} (h : NoFields as) {after : Nat} {bs : List UInt8}
    (hbs : ActionsEncode after bs as) : bs = [] := by
  induction as with
  | nil => exact hbs
  | cons a as ih =>
      cases a with
      | field => exact h.elim
      | transformationAction => exact h.elim
      | annotationAction => exact ih h hbs

/-- Encoded fields at the end of the payload are read to its end. -/
theorem scanActions_of_encode_last {as : List Action} (hplain : PlainActions as)
    (hfits : FixedValuesFit as) (hsized : SizedButLast as) {bs : List UInt8}
    (h : ActionsEncode 0 bs as) :
    (scanActions bs as).1 = [] := by
  induction as generalizing bs with
  | nil => exact h
  | cons a as ih =>
      cases a with
      | field name type offset =>
          obtain ⟨mine, rest, rfl, hmine, hrest⟩ := h
          rcases hsized with ⟨hconst, hsized⟩ | ⟨⟨object, rfl, -⟩, hnone⟩
          · rw [scanActions_of_read (FieldType.readsEncoded hplain.1 hfits.1) hconst hmine]
            exact ih hplain.2 hfits.2 hsized hrest
          · -- the last field takes all that is left
            obtain rfl := nil_of_noFields hnone hrest
            have htakes := BuiltinType.takes_of_encodes hfits.1 hmine (Or.inl rfl)
            have hscan : ((FieldType.builtin object).scan (mine ++ [])).1 = [] := by
              show (mine ++ []).drop (object.type.takes (mine ++ [])) = []
              rw [htakes, List.drop_left]
            rw [scanActions_field, hscan]
            split
            next hlen => exact List.length_eq_zero_iff.1 hlen.symm
            next => exact List.suffix_nil.1 (scanActions_suffix [] as)
      | transformationAction t => exact hplain.elim
      | annotationAction name => exact ih hplain hfits hsized h

/-! ## Tags -/

theorem UnsignedType.of_tag {t : UnsignedType} {w : Width} {v : UInt32} (h : t.tag = some (w, v)) :
    t.count = 1 ∧ t.minCount = 1 ∧ t.fixedValue = some v ∧ t.width = w := by
  unfold tag at h
  by_cases hcount : t.count = 1 ∧ t.minCount = 1
  · rw [if_pos hcount] at h
    obtain ⟨v', hv, heq⟩ := Option.map_eq_some_iff.1 h
    cases heq
    exact ⟨hcount.1, hcount.2, hv, rfl⟩
  · rw [if_neg hcount] at h
    cases h

/-- A value other than the tag is not taken. -/
theorem UnsignedType.takes_of_tag {t : UnsignedType} {w : Width} {v : UInt32}
    (h : t.tag = some (w, v)) {bs : List UInt8}
    (hne : LittleEndian.decode (bs.take w.bytes) ≠ v.toNat) :
    t.takes bs = 0 := by
  obtain ⟨-, -, hv, rfl⟩ := of_tag h
  apply if_neg
  rintro ⟨-, hall⟩
  rw [hv, Option.all_some, beq_iff_eq] at hall
  exact hne hall

theorem UnsignedType.Encodes.of_tag {t : UnsignedType} {w : Width} {v : UInt32}
    (h : t.tag = some (w, v)) {represent : UInt32 → Nat} {mine : List UInt8}
    (hmine : t.Encodes represent mine) :
    mine.length = w.bytes ∧ LittleEndian.decode (mine.take w.bytes) = represent v := by
  obtain ⟨hcount, hmin, hv, rfl⟩ := UnsignedType.of_tag h
  obtain ⟨k, hk, hk', hlen, hfixed⟩ := hmine
  obtain rfl : k = 1 := by omega
  exact ⟨by rw [hlen, Nat.mul_one], hfixed Nat.one_ne_zero v hv⟩

theorem BuiltinType.takes_of_tag {w : Width} {v : UInt32} {bs : List UInt8}
    (hne : LittleEndian.decode (bs.take w.bytes) ≠ v.toNat) :
    ∀ {type : BuiltinType}, type.tag = some (w, v) → type.takes bs = 0
  | unsigned _, h => UnsignedType.takes_of_tag h hne
  | signed _, h => UnsignedType.takes_of_tag h hne

theorem BuiltinType.Encodes.of_tag {w : Width} {v : UInt32} {after : Nat} {mine : List UInt8} :
    ∀ {type : BuiltinType}, type.tag = some (w, v) → type.Encodes after mine →
      mine.length = w.bytes ∧
        (type.Fits → LittleEndian.decode (mine.take w.bytes) = v.toNat)
  | unsigned _, h, hmine => by
      obtain ⟨hlen, hvalue⟩ := UnsignedType.Encodes.of_tag h hmine
      exact ⟨hlen, fun _ => hvalue⟩
  | signed _, h, hmine => by
      obtain ⟨hlen, -⟩ := UnsignedType.Encodes.of_tag h hmine
      refine ⟨hlen, ?_⟩
      intro hfits
      exact (UnsignedType.Encodes.of_tag h (UnsignedType.Encodes.of_fits hfits hmine)).2

/-- Fields that begin with another value read nothing. -/
theorem scanActions_of_tag {w : Width} {v : UInt32} {bs : List UInt8}
    (hne : LittleEndian.decode (bs.take w.bytes) ≠ v.toNat) {as : List Action}
    (h : tagOf as = some (w, v)) : (scanActions bs as).1 = bs := by
  induction as with
  | nil => cases h
  | cons a as ih =>
      cases a with
      | field name type offset =>
          cases type with
          | builtin object =>
              have hscan : ((FieldType.builtin object).scan bs).1 = bs := by
                show bs.drop (object.type.takes bs) = bs
                rw [BuiltinType.takes_of_tag hne h, List.drop_zero]
              rw [scanActions_field, hscan, if_pos rfl]
          | struct => cases h
      | transformationAction t => cases h
      | annotationAction name => exact ih h

/-- Encoded fields begin with their tag. -/
theorem decode_of_tag {w : Width} {v : UInt32} {as : List Action} (h : tagOf as = some (w, v))
    {after : Nat} {bs : List UInt8} (hbs : ActionsEncode after bs as) :
    bs ≠ [] ∧ (FixedValuesFit as → LittleEndian.decode (bs.take w.bytes) = v.toNat) := by
  induction as with
  | nil => cases h
  | cons a as ih =>
      cases a with
      | field name type offset =>
          cases type with
          | builtin object =>
              obtain ⟨mine, rest, rfl, hmine, -⟩ := hbs
              obtain ⟨hlen, hvalue⟩ := BuiltinType.Encodes.of_tag h hmine
              have hpos := w.bytes_pos
              constructor
              · intro hnil
                obtain ⟨rfl, -⟩ := List.append_eq_nil_iff.1 hnil
                rw [List.length_nil] at hlen
                omega
              · intro hfits
                rw [List.take_append_of_le_length (Nat.le_of_eq hlen.symm), hvalue hfits.1]
          | struct => cases h
      | transformationAction t => cases h
      | annotationAction name => exact ih h hbs

theorem UnsignedType.lt_of_takes {t : UnsignedType} {bs : List UInt8} (h : t.takes bs ≠ 0)
    {v : UInt32} (hv : t.fixedValue = some v) : v.toNat < 256 ^ t.width.bytes := by
  -- a field that is taken has its fixed value, which is then a number of its width
  have hread : LittleEndian.decode (bs.take t.width.bytes) = v.toNat := by
    apply Decidable.byContradiction
    intro hne
    apply h
    apply if_neg
    rintro ⟨-, hall⟩
    rw [hv, Option.all_some, beq_iff_eq] at hall
    exact hne hall
  calc v.toNat = LittleEndian.decode (bs.take t.width.bytes) := hread.symm
    _ < 256 ^ (bs.take t.width.bytes).length := LittleEndian.decode_lt _
    _ ≤ 256 ^ t.width.bytes := Nat.pow_le_pow_right (by decide) (List.length_take_le _ _)

theorem BuiltinType.fits_of_takes {bs : List UInt8} :
    ∀ {type : BuiltinType}, type.takes bs ≠ 0 → type.Fits
  | signed _, h => fun _ hv => UnsignedType.lt_of_takes h hv
  | unsigned _, _ => trivial
  | string _ _, _ => trivial
  | float _ _, _ => trivial
  | double _ _, _ => trivial
  | length, _ => trivial
  | unixtime, _ => trivial

/-- Where every field is read, the fixed values fit. -/
theorem fixedValuesFit_of_scan {as : List Action} (hplain : PlainActions as) {bs : List UInt8}
    (h : (scanActions bs as).2 = true) : FixedValuesFit as := by
  induction as using actionsRec generalizing bs with
  | nil => trivial
  | builtin name object offset as ih =>
      obtain ⟨hlen, -, hrest⟩ := scan_taken h
      refine ⟨?_, ih hplain.2 hrest⟩
      have hne : object.type.takes bs ≠ 0 := by
        intro hzero
        apply hlen
        show (bs.drop (object.type.takes bs)).length = bs.length
        rw [hzero, List.drop_zero]
      exact BuiltinType.fits_of_takes hne
  | struct name typeName inner offset as ihInner ih =>
      obtain ⟨-, hinner, hrest⟩ := scan_taken h
      exact ⟨ihInner hplain.1 hinner, ih hplain.2 hrest⟩
  | transformationAction t as ih => exact hplain.elim
  | annotationAction name as ih => exact ih hplain h

/-! ## Packets -/

/-- A packet that begins with another value does not read the payload to its end. -/
theorem Packet.reading_of_tag {p : Packet} {w : Width} {v : UInt32}
    (h : tagOf p.actions = some (w, v)) {bs : List UInt8}
    (hne : LittleEndian.decode (bs.take w.bytes) ≠ v.toNat) (hbs : bs ≠ []) :
    p.reading bs = none := by
  have hscan := scanActions_of_tag hne h
  have hnil : ¬ bs.isEmpty := mt List.isEmpty_iff.1 hbs
  unfold reading
  dsimp only
  rw [hscan, Int.sub_self]
  by_cases hsub : p.subpackets = []
  · rw [if_pos (List.isEmpty_iff.2 hsub), if_neg hnil]
  · rw [if_neg (mt List.isEmpty_iff.1 hsub), if_pos (p.numPacketBytes_ne hsub).symm, if_neg hnil]

/-- What is true of one element of a list without duplicates is true of no other. -/
theorem ne_of_nodup {α β : Type} {f : α → β} {xs : List α} (hdistinct : (xs.map f).Nodup)
    {i j : Nat} {x y : α} (hx : xs[i]? = some x) (hy : xs[j]? = some y) (hne : i ≠ j) :
    f x ≠ f y := by
  intro heq
  obtain ⟨hi, -⟩ := List.getElem?_eq_some_iff.1 hx
  apply hne
  apply (List.getElem?_inj (by rwa [List.length_map]) hdistinct).1
  rw [List.getElem?_map, List.getElem?_map, hx, hy, Option.map_some, Option.map_some, heq]

theorem Packet.subpacketFor_of_encode {p : Packet} (hplain : p.Plain) {w : Width}
    (htag : ∀ sp ∈ p.subpackets, ∃ v, tagOf sp.actions = some (w, v))
    (hdistinct : (p.subpackets.map fun sp => tagOf sp.actions).Nodup) {k : Nat} {sp : Subpacket}
    (hsp : p.subpackets[k]? = some sp) (hfits : ProtocolDefinition.FixedValuesFit sp.actions)
    (hsized : SizedButLast sp.actions) {body : List UInt8}
    (hbody : ActionsEncode 0 body sp.actions) : p.subpacketFor body = some k := by
  have hmem := List.mem_of_getElem? hsp
  obtain ⟨v, hv⟩ := htag sp hmem
  obtain ⟨hnil, hvalue⟩ := decode_of_tag hv hbody
  apply List.findIdx?_eq_some.2
  refine ⟨sp, hsp, ?_, ?_⟩
  · rw [scanActions_of_encode_last (hplain.subpackets sp hmem) hfits hsized hbody]
    rfl
  · -- a subpacket before it begins with another value and takes nothing
    intro j sp' hj hsp'
    obtain ⟨v', hv'⟩ := htag sp' (List.mem_of_getElem? hsp')
    have hne : tagOf sp'.actions ≠ tagOf sp.actions :=
      ne_of_nodup hdistinct hsp' hsp (Nat.ne_of_lt hj)
    have hother : LittleEndian.decode (body.take w.bytes) ≠ v'.toNat := by
      intro heq
      apply hne
      rw [hv, hv', UInt32.toNat_inj.1 (heq.symm.trans (hvalue hfits))]
    rw [scanActions_of_tag hother hv', List.isEmpty_eq_false_iff]
    exact hnil

/-- An encoded packet reads the payload to its end, with its subpacket. -/
theorem Packet.reading_of_encoded {d : ProtocolDefinition} {w : Width} (hd : d.Tagged w)
    {p : Packet} (hmem : p ∈ d.packets) (hplain : p.Plain) {bs : List UInt8} {sel : Option Nat}
    (h : p.Encoded bs sel) (hfits : p.FixedValuesFit sel) :
    ∃ full, p.reading bs = some (sel, full) := by
  unfold reading
  dsimp only
  cases h with
  | alone hsub hencode =>
      have hrest := scanActions_of_encode_last hplain.actions hfits.actions (hd.alone p hmem hsub)
        hencode
      rw [if_pos (List.isEmpty_iff.2 hsub), if_pos (List.isEmpty_iff.2 hrest)]
      exact ⟨_, rfl⟩
  | @withSubpacket k sp header body hsp hbs hheader hbody =>
      -- the header is read to where the body begins, and has the size that is expected
      have hsub : p.subpackets ≠ [] := by
        intro hnil
        rw [hnil] at hsp
        cases hsp
      have hspMem := List.mem_of_getElem? hsp
      obtain ⟨hscan, hsize⟩ := scanActions_of_encode hplain.actions hfits.actions
        (hd.header p hmem hsub) hheader
      have hsel := subpacketFor_of_encode hplain (hd.subpackets p hmem)
        (hd.distinctSubpackets p hmem) hsp (hfits.subpacket k sp rfl hsp) (hd.body p hmem sp hspMem)
        hbody
      have hnum : ¬ ((header ++ body).length : Int) - body.length ≠ p.numPacketBytes := by
        rw [p.numPacketBytes_eq, hsize, List.length_append]
        omega
      rw [hbs, hscan, if_neg (mt List.isEmpty_iff.1 hsub), if_neg hnum, hsel]
      dsimp only
      rw [hsp]
      exact ⟨_, rfl⟩

theorem Packet.ne_nil_of_encoded {p : Packet} {w : Width} {v : UInt32}
    (hv : tagOf p.actions = some (w, v)) {bs : List UInt8} {sel : Option Nat}
    (h : p.Encoded bs sel) : bs ≠ [] := by
  cases h with
  | alone _ hencode => exact (decode_of_tag hv hencode).1
  | withSubpacket _ hbs hheader _ =>
      rw [hbs]
      exact fun hnil => (decode_of_tag hv hheader).1 (List.append_eq_nil_iff.1 hnil).1

theorem Packet.fixedValuesFit_of_reading {p : Packet} (hplain : p.Plain) {bs : List UInt8}
    {sel : Option Nat} (h : p.reading bs = some (sel, true)) : p.FixedValuesFit sel := by
  rcases reading_cases h with ⟨rfl, -, hfull⟩ | ⟨k, sp, rfl, -, -, hsp, hfull⟩
  · exact ⟨fixedValuesFit_of_scan hplain.actions hfull.symm, nofun⟩
  · obtain ⟨hheader, hbody⟩ := Bool.and_eq_true_iff.1 hfull.symm
    refine ⟨fixedValuesFit_of_scan hplain.actions hheader, ?_⟩
    intro k' sp' hk' hsp'
    cases hk'
    rw [hsp] at hsp'
    cases hsp'
    exact fixedValuesFit_of_scan (hplain.subpackets sp (List.mem_of_getElem? hsp)) hbody

/-- `Process` returns packet `i` with this subpacket. -/
def Returns (d : ProtocolDefinition) (offset : UInt32) (bs : List UInt8) (i : Nat)
    (sel : Option Nat) : Prop :=
  (d.process offset bs).1 = some i ∧
    ∃ p', (d.process offset bs).2.packets[i]? = some p' ∧ p'.lastSubpacket = sel

/-- The first packet that reads the payload to its end is returned with the subpacket it reads. -/
theorem returns_iff {d : ProtocolDefinition} (hplain : d.Plain) {w : Width} (hd : d.Tagged w)
    {i : Nat} {p : Packet} (hp : d.packets[i]? = some p) {bs : List UInt8} (hnil : bs ≠ [])
    (hbs : bs.length < 2 ^ 31) (offset : UInt32) (sel : Option Nat) :
    d.Returns offset bs i sel ↔ ∃ full, p.reading bs = some (sel, full) := by
  have hmem := List.mem_of_getElem? hp
  have hfill := Packet.fill_start (hplain p hmem) offset hbs
  constructor
  · rintro ⟨hfirst, p', hp', hlast⟩
    rw [packets_process hfirst, hp] at hp'
    cases hp'
    rw [fst_process hplain offset hbs] at hfirst
    obtain ⟨q, hq, hread, -⟩ := List.findIdx?_eq_some.1 hfirst
    rw [hp] at hq
    cases hq
    obtain ⟨⟨sel', full⟩, hreading⟩ := Option.isSome_iff_exists.1 hread
    rw [hreading] at hfill
    rw [hfill.2] at hlast
    cases hlast
    exact ⟨full, hreading⟩
  · rintro ⟨full, hreading⟩
    obtain ⟨v, hv⟩ := hd.packets p hmem
    -- it begins with its own value, as it would read nothing otherwise
    have hvalue : LittleEndian.decode (bs.take w.bytes) = v.toNat := by
      apply Decidable.byContradiction
      intro hne
      rw [Packet.reading_of_tag hv hne hnil] at hreading
      cases hreading
    have hfirst : (d.process offset bs).1 = some i := by
      rw [fst_process hplain offset hbs, List.findIdx?_eq_some]
      refine ⟨p, hp, by rw [hreading]; rfl, ?_⟩
      -- a packet before it begins with another value
      intro j q hj hq
      obtain ⟨v', hv'⟩ := hd.packets q (List.mem_of_getElem? hq)
      have hne := ne_of_nodup hd.distinct hq hp (Nat.ne_of_lt hj)
      have hother : LittleEndian.decode (bs.take w.bytes) ≠ v'.toNat := by
        intro heq
        apply hne
        show tagOf q.actions = tagOf p.actions
        rw [hv, hv', UInt32.toNat_inj.1 (heq.symm.trans hvalue)]
      rw [Packet.reading_of_tag hv' hother hnil]
      rfl
    rw [hreading] at hfill
    refine ⟨hfirst, _, ?_, hfill.2⟩
    rw [packets_process hfirst, hp]
    rfl

/-- An encoded packet is returned with its subpacket if and only if their fixed values fit, or what
a field with a fixed value that does not fit leaves happens to be taken by the fields that
follow. -/
theorem process_encoded_iff {d : ProtocolDefinition} (hplain : d.Plain) {w : Width}
    (hd : d.Tagged w) {i : Nat} {p : Packet} (hp : d.packets[i]? = some p) {bs : List UInt8}
    {sel : Option Nat} (h : p.Encoded bs sel) (hbs : bs.length < 2 ^ 31) (offset : UInt32) :
    d.Returns offset bs i sel ↔ p.FixedValuesFit sel ∨ p.reading bs = some (sel, false) := by
  have hmem := List.mem_of_getElem? hp
  obtain ⟨v, hv⟩ := hd.packets p hmem
  -- what is returned has read the payload, with or without all its fields filled
  rw [returns_iff hplain hd hp (Packet.ne_nil_of_encoded hv h) hbs offset]
  constructor
  · rintro ⟨full, hreading⟩
    cases full with
    | false => exact Or.inr hreading
    | true => exact Or.inl (Packet.fixedValuesFit_of_reading (hplain p hmem) hreading)
  · rintro (hfits | hreading)
    · exact Packet.reading_of_encoded hd hmem (hplain p hmem) h hfits
    · exact ⟨false, hreading⟩

/-- A field type u8 with a fixed value. -/
def u8 (v : UInt32) : FieldType :=
  .builtin ⟨.unsigned ⟨.one, 1, 1, -1, some v, .hex, none⟩, [0], oneCell⟩

/-- A field type s8 with a fixed value. -/
def s8 (v : UInt32) : FieldType :=
  .builtin ⟨.signed ⟨.one, 1, 1, -1, some v, .hex, none⟩, [0], oneCell⟩

/-- A packet of a type and a length with the subpackets `empty` and `text`. -/
def messagePacket : Packet where
  name := "message"
  actions := [.field "type" (u8 1) 0, .field "length" (.builtin ⟨.length, [0], oneCell⟩) 0]
  subpackets := [⟨"empty", [.field "kind" (u8 7) 0]⟩,
    ⟨"text", [.field "kind" (u8 8) 0,
      .field "text" (.builtin ⟨.string 4 0, [0, 0, 0, 0], fourCells⟩) 0]⟩]
  numPacketBytes := 5
  lastSubpacket := none
  isField := List.forall_mem_cons.2 ⟨trivial, List.forall_mem_cons.2 ⟨trivial, nofun⟩⟩
  numPacketBytes_eq := rfl
  numPacketBytes_ne _ := by decide

/-- A packet of one byte. -/
def bytePacket (type : FieldType) (hsize : type.constantSize = 1) : Packet where
  name := "byte"
  actions := [.field "type" type 0]
  subpackets := []
  numPacketBytes := 1
  lastSubpacket := none
  isField := List.forall_mem_cons.2 ⟨trivial, nofun⟩
  numPacketBytes_eq := by
    rw [sizeFrom_field, hsize]
    rfl
  numPacketBytes_ne h := absurd rfl h

/-- The packet `message` with the subpacket `text` is found after another packet and another
subpacket. -/
theorem process_encoded_message :
    Returns ⟨[bytePacket (u8 2) rfl, messagePacket]⟩ 0 [1, 3, 0, 0, 0, 8, 97, 98] 1 (some 1) := by
  have hplain : Plain ⟨[bytePacket (u8 2) rfl, messagePacket]⟩ := by
    refine List.forall_mem_cons.2 ⟨⟨⟨trivial, trivial⟩, nofun⟩,
      List.forall_mem_cons.2 ⟨⟨?_, ?_⟩, nofun⟩⟩
    · exact ⟨trivial, trivial, trivial⟩
    · exact List.forall_mem_cons.2 ⟨⟨trivial, trivial⟩,
        List.forall_mem_cons.2 ⟨⟨trivial, trivial, trivial⟩, nofun⟩⟩
  have htagged : Tagged .one ⟨[bytePacket (u8 2) rfl, messagePacket]⟩ := by
    constructor
    · exact List.forall_mem_cons.2 ⟨⟨2, rfl⟩, List.forall_mem_cons.2 ⟨⟨1, rfl⟩, nofun⟩⟩
    · decide
    · refine List.forall_mem_cons.2 ⟨nofun, List.forall_mem_cons.2 ⟨?_, nofun⟩⟩
      exact List.forall_mem_cons.2 ⟨⟨7, rfl⟩, List.forall_mem_cons.2 ⟨⟨8, rfl⟩, nofun⟩⟩
    · refine List.forall_mem_cons.2 ⟨List.nodup_nil, List.forall_mem_cons.2 ⟨?_, nofun⟩⟩
      decide
    · refine List.forall_mem_cons.2 ⟨fun _ => Or.inl ⟨by decide, trivial⟩,
        List.forall_mem_cons.2 ⟨nofun, nofun⟩⟩
    · refine List.forall_mem_cons.2 ⟨fun h => absurd rfl h,
        List.forall_mem_cons.2 ⟨fun _ => ?_, nofun⟩⟩
      exact ⟨by decide, by decide, trivial⟩
    · refine List.forall_mem_cons.2 ⟨nofun, List.forall_mem_cons.2 ⟨?_, nofun⟩⟩
      refine List.forall_mem_cons.2 ⟨Or.inl ⟨by decide, trivial⟩,
        List.forall_mem_cons.2 ⟨?_, nofun⟩⟩
      exact Or.inl ⟨by decide, Or.inr ⟨⟨_, rfl, trivial⟩, trivial⟩⟩
  -- the byte of a tag is the fixed value of its field
  have htag : ∀ n : UInt32, n.toNat < 256 →
      UnsignedType.Encodes ⟨.one, 1, 1, -1, some n, .hex, none⟩ UInt32.toNat
        [UInt8.ofNat n.toNat] := by
    intro n hn
    refine ⟨1, Int.le_refl 1, Nat.le_refl 1, rfl, ?_⟩
    intro _ v hv
    cases hv
    show (UInt8.ofNat n.toNat).toNat + 256 * 0 = n.toNat
    rw [UInt8.toNat_ofNat', Nat.mod_eq_of_lt hn]
    rfl
  -- the header with the length of what follows it, and then the subpacket
  have hencoded : messagePacket.Encoded [1, 3, 0, 0, 0, 8, 97, 98] (some 1) := by
    refine @Packet.Encoded.withSubpacket _ _ 1 _ [1, 3, 0, 0, 0] [8, 97, 98] rfl rfl ?_ ?_
    · exact ⟨[1], [3, 0, 0, 0], rfl, htag 1 (by decide), [3, 0, 0, 0], [], rfl, ⟨rfl, rfl⟩, rfl⟩
    · exact ⟨[8], [97, 98], rfl, htag 8 (by decide), [97, 98], [], rfl, ⟨by decide, by decide⟩, rfl⟩
  apply (process_encoded_iff hplain htagged rfl hencoded (by decide) 0).2
  -- no fixed value is signed, so nothing stands in the way
  refine Or.inl ⟨⟨trivial, trivial, trivial⟩, ?_⟩
  rintro k sp hk hsp
  cases hk
  cases hsp
  exact ⟨trivial, trivial, trivial⟩

/-- A packet that begins with the byte -1 is not found. -/
theorem negative_not_found :
    ¬ ∀ (d : ProtocolDefinition) (w : Width), d.Plain → d.Tagged w → ∀ (i : Nat) (p : Packet),
      d.packets[i]? = some p → ∀ (bs : List UInt8) (sel : Option Nat), p.Encoded bs sel →
        bs.length < 2 ^ 31 → ∀ offset, d.Returns offset bs i sel := by
  intro hall
  have hplain : Plain ⟨[bytePacket (s8 0xffffffff) rfl]⟩ :=
    List.forall_mem_cons.2 ⟨⟨⟨trivial, trivial⟩, nofun⟩, nofun⟩
  have htagged : Tagged .one ⟨[bytePacket (s8 0xffffffff) rfl]⟩ := by
    constructor
    · exact List.forall_mem_cons.2 ⟨⟨0xffffffff, rfl⟩, nofun⟩
    · decide
    · exact List.forall_mem_cons.2 ⟨nofun, nofun⟩
    · exact List.forall_mem_cons.2 ⟨List.nodup_nil, nofun⟩
    · exact List.forall_mem_cons.2 ⟨fun _ => Or.inl ⟨by decide, trivial⟩, nofun⟩
    · exact List.forall_mem_cons.2 ⟨fun h => absurd rfl h, nofun⟩
    · exact List.forall_mem_cons.2 ⟨nofun, nofun⟩
  have hencoded : (bytePacket (s8 0xffffffff) rfl).Encoded [0xff] none := by
    refine .alone rfl ⟨[0xff], [], rfl, ⟨1, by decide, by decide, rfl, ?_⟩, rfl⟩
    intro _ v hv
    cases hv
    decide
  obtain ⟨hfirst, -⟩ := hall _ .one hplain htagged 0 _ rfl [0xff] none hencoded (by decide) 0
  have hnone : (process ⟨[bytePacket (s8 0xffffffff) rfl]⟩ 0 [0xff]).1 = none := by decide
  rw [hnone] at hfirst
  cases hfirst

end ProtocolDefinition

end OpenRom
