import OpenRom.Protocol.Leaves
import OpenRom.Protocol.Memory

/-!
# Where the decoder reads

The code does not know where the buffer ends that `m_Data` points into, and a struct that is left
moves its parent by a difference that may be one of two buffers. When counts and lengths are in
range and transformations report what they have produced, `m_DataLeft` bytes are left of the buffer
at every call (`process_calls`), so that no `Fill` gets outside of it.
-/

set_option autoImplicit false

namespace OpenRom

namespace ProtocolDefinition

/-! ## Attributes -/

/-- The bounds on the attributes of a type. -/
def UnsignedType.InRange (t : UnsignedType) : Prop :=
  (1 ≤ t.count ∧ t.count ≤ 2 ^ 28) ∧ 0 ≤ t.minCount ∧ t.minCount ≤ 2 ^ 28

/-- The bounds on the attributes of a built-in type. -/
def BuiltinType.InRange : BuiltinType → Prop
  | unsigned t => t.InRange
  | signed t => t.InRange
  | string n minLength => (1 ≤ n ∧ n ≤ 2 ^ 28) ∧ 0 ≤ minLength ∧ minLength ≤ 2 ^ 28
  | float count _ => 1 ≤ count ∧ count ≤ 2 ^ 28
  | double count _ => 1 ≤ count ∧ count ≤ 2 ^ 28
  | length => True
  | unixtime => True

mutual

/-- The bounds hold everywhere in the type. -/
def FieldType.InRange : FieldType → Prop
  | .builtin object => object.type.InRange
  | .struct _ actions => InRangeOf actions

/-- The bounds hold in all of these fields. -/
def InRangeOf : List Action → Prop
  | [] => True
  | .field _ type _ :: as => type.InRange ∧ InRangeOf as
  | .transformationAction _ :: as => InRangeOf as
  | .annotationAction _ :: as => InRangeOf as

end

/-- The bounds hold in the packet and in its subpackets. -/
structure Packet.InRange (p : Packet) : Prop where
  actions : InRangeOf p.actions
  subpackets : ∀ sp ∈ p.subpackets, InRangeOf sp.actions

/-- There is room for a value, and the bytes that `Fill` asks for at least are an `int`. -/
structure BuiltinType.Usable (type : BuiltinType) : Prop where
  numCells_pos : 1 ≤ type.numCells
  least_nonneg : 0 ≤ type.least
  least_lt : type.least < 2 ^ 31

mutual

/-- All built-in types in it are usable. -/
def FieldType.Usable : FieldType → Prop
  | .builtin object => object.type.Usable
  | .struct _ actions => UsableOf actions

/-- The types of all of these fields are usable. -/
def UsableOf : List Action → Prop
  | [] => True
  | .field _ type _ :: as => type.Usable ∧ UsableOf as
  | .transformationAction _ :: as => UsableOf as
  | .annotationAction _ :: as => UsableOf as

end

/-- All types in the packet and in its subpackets are usable. -/
structure Packet.Usable (p : Packet) : Prop where
  actions : UsableOf p.actions
  subpackets : ∀ sp ∈ p.subpackets, UsableOf sp.actions

/-! ## What holds at a call -/

/-- `m_Data` points into the buffer, and `m_Data` plus `m_DataLeft` is the end of it. -/
structure DecodeState.EndsAt (s : DecodeState) (p : Place) : Prop where
  pos_nonneg : 0 ≤ p.pos
  left_nonneg : 0 ≤ s.dataLeft
  left_lt : s.dataLeft < 2 ^ 31
  end_eq : p.pos + s.dataLeft = p.buffer.length
  rest_eq : s.rest = p.buffer.drop p.pos.toNat

/-- `Fill` of an object stays inside: of the bytes that are left, and of its own value array. -/
structure Builtin.Within (object : Builtin) (s : DecodeState) : Prop where
  least_lt : object.type.least < 2 ^ 31
  bytes_le : (object.type.touched s).bytes ≤ s.dataLeft
  values_le : (object.type.touched s).values ≤ object.cells.length
  /-- nothing else makes a difference -/
  fill_eq : ∀ s' : DecodeState, s'.dataLeft = s.dataLeft → s'.rest = s.rest →
    object.fill s' = object.fill s
  /-- a length is accepted only when it is that of what follows it -/
  length_eq : object.type = .length → 0 < (object.fill s).1 →
    LittleEndian.decode (s.data.take 4) = s.dataLeft - 4

/-- What is left is the rest of the current buffer, and a `Fill` of an object stays inside of it. -/
structure Call.Sound (c : Call) : Prop where
  endsAt : c.state.EndsAt c.place
  within : ∀ object, c.callee = .fill (.builtin object) → object.Within c.state

/-- A transformation reports the number of bytes that it has produced, which are in its buffer. -/
def Call.Reports (c : Call) : Prop :=
  match c.callee with
  | .process (.transformationAction t) =>
      ∀ s' ∈ t.process c.state,
        0 ≤ s'.dataLeft ∧ s'.dataLeft < 2 ^ 31 ∧ s'.dataLeft ≤ s'.data.length
  | _ => True

instance : DecidablePred Call.Reports
  | ⟨_, s, .process (.transformationAction t)⟩ =>
      inferInstanceAs (Decidable (∀ s' ∈ t.process s,
        0 ≤ s'.dataLeft ∧ s'.dataLeft < 2 ^ 31 ∧ s'.dataLeft ≤ s'.data.length))
  | ⟨_, _, .process (.field _ _ _)⟩ => inferInstanceAs (Decidable True)
  | ⟨_, _, .process (.annotationAction _)⟩ => inferInstanceAs (Decidable True)
  | ⟨_, _, .fillPacket _⟩ => inferInstanceAs (Decidable True)
  | ⟨_, _, .fillSubpacket _⟩ => inferInstanceAs (Decidable True)
  | ⟨_, _, .fill _⟩ => inferInstanceAs (Decidable True)

/-- The call has stayed inside of the source and of a destination of that size, and has reported the
bytes that it has placed there. -/
def Applied.Keeps (oDestLen : Int) : Applied → Prop
  | .failed => True
  | .placed bytes size => size = bytes.length ∧ size ≤ oDestLen ∧ size < 2 ^ 31
  | .fault => False

instance (oDestLen : Int) : DecidablePred (Applied.Keeps oDestLen)
  | .failed => inferInstanceAs (Decidable True)
  | .placed bytes size =>
      inferInstanceAs (Decidable (size = bytes.length ∧ size ≤ oDestLen ∧ size < 2 ^ 31))
  | .fault => inferInstanceAs (Decidable False)

/-- A provider that keeps to its interface, with a destination of the size that it has estimated. -/
def Transformation.Keeps (t : Transformation) (s : DecodeState) : Prop :=
  (t.applied s).Keeps (t.estimateBufferSize s.data s.dataLeft)

instance (t : Transformation) (s : DecodeState) : Decidable (t.Keeps s) :=
  inferInstanceAs (Decidable ((t.applied s).Keeps (t.estimateBufferSize s.data s.dataLeft)))

/-- The provider keeps to its interface in this call. -/
def Call.Keeps (c : Call) : Prop :=
  match c.callee with
  | .process (.transformationAction t) => t.Keeps c.state
  | _ => True

instance : DecidablePred Call.Keeps
  | ⟨_, s, .process (.transformationAction t)⟩ => inferInstanceAs (Decidable (t.Keeps s))
  | ⟨_, _, .process (.field _ _ _)⟩ => inferInstanceAs (Decidable True)
  | ⟨_, _, .process (.annotationAction _)⟩ => inferInstanceAs (Decidable True)
  | ⟨_, _, .fillPacket _⟩ => inferInstanceAs (Decidable True)
  | ⟨_, _, .fillSubpacket _⟩ => inferInstanceAs (Decidable True)
  | ⟨_, _, .fill _⟩ => inferInstanceAs (Decidable True)

theorem Call.Keeps.reports {c : Call} (h : c.Keeps) : c.Reports := by
  obtain ⟨p, s, callee⟩ := c
  cases callee with
  | process a =>
      cases a with
      | transformationAction t =>
          intro s' hs
          have hkeeps : t.Keeps s := h
          unfold Transformation.Keeps at hkeeps
          unfold Transformation.process at hs
          cases happlied : t.applied s with
          | failed =>
              rw [happlied] at hs
              cases hs
          | placed bytes size =>
              rw [happlied] at hs hkeeps
              cases hs
              obtain ⟨hsize, -, hlt⟩ := hkeeps
              dsimp only
              omega
          | fault =>
              rw [happlied] at hs
              cases hs
      | field name type offset => trivial
      | annotationAction name => trivial
  | fillPacket p => trivial
  | fillSubpacket sp => trivial
  | fill type => trivial

/-! ## Built-in types -/

theorem UnsignedType.InRange.least {t : UnsignedType} (ht : t.InRange) :
    0 ≤ t.width.bytes * t.minCount ∧ t.width.bytes * t.minCount < 2 ^ 31 := by
  have hw : (t.width.bytes : Int) ≤ 4 := by cases t.width <;> decide
  refine ⟨Int.mul_nonneg (Int.natCast_nonneg t.width.bytes) ht.2.1, ?_⟩
  calc (t.width.bytes : Int) * t.minCount ≤ 4 * t.minCount :=
        Int.mul_le_mul_of_nonneg_right hw ht.2.1
    _ < 2 ^ 31 := by
        have hmin := ht.2.2
        omega

theorem BuiltinType.InRange.usable : ∀ {type : BuiltinType}, type.InRange → type.Usable
  | unsigned _, ht | signed _, ht =>
      have hleast := UnsignedType.InRange.least ht
      ⟨ht.1.1, hleast.1, hleast.2⟩
  | string n minLength, ht => by
      have hmin : minLength ≤ 2 ^ 28 := ht.2.2
      exact ⟨ht.1.1, ht.2.1, show minLength < 2 ^ 31 by omega⟩
  | float _ _, ht | double _ _, ht => ⟨ht.1, Int.le_refl 0, (by decide : (0 : Int) < 2 ^ 31)⟩
  | length, _ | unixtime, _ => ⟨Nat.le_refl 1, Int.le_refl 0, (by decide : (0 : Int) < 2 ^ 31)⟩

theorem InRangeOf.usable {as : List Action} (h : InRangeOf as) : UsableOf as := by
  induction as using actionsRec with
  | nil => exact trivial
  | builtin name object offset as ih => exact ⟨BuiltinType.InRange.usable h.1, ih h.2⟩
  | struct name typeName inner offset as ihInner ih => exact ⟨ihInner h.1, ih h.2⟩
  | transformationAction t as ih => exact ih h
  | annotationAction name as ih => exact ih h

theorem Packet.InRange.usable {p : Packet} (h : p.InRange) : p.Usable :=
  ⟨h.actions.usable, fun sp hsp => (h.subpackets sp hsp).usable⟩

theorem readCells_congr {width n : Nat} {data data' : List UInt8}
    (h : data'.take (width * n) = data.take (width * n)) :
    readCells width n data' = readCells width n data := by
  induction n generalizing data data' with
  | zero => rfl
  | succ n ih =>
      have hmul : width * (n + 1) = width + width * n := by
        rw [Nat.mul_succ, Nat.add_comm]
      rw [hmul] at h
      have hfirst := congrArg (List.take width) h
      have hrest := congrArg (List.drop width) h
      rw [List.take_take, List.take_take, Nat.min_eq_left (Nat.le_add_right _ _)] at hfirst
      rw [List.drop_take, List.drop_take, Nat.add_sub_cancel_left] at hrest
      rw [readCells, readCells, hfirst, ih hrest]

section Fill

variable {s : DecodeState} {p : Place} (hs : s.EndsAt p)

include hs

theorem DecodeState.EndsAt.sizeT_eq : (sizeT s.dataLeft : Int) = s.dataLeft := by
  have hnonneg := hs.left_nonneg
  have hlt := hs.left_lt
  rw [sizeT]
  omega

/-- The values that a numeric type reads are in what is left. -/
theorem UnsignedType.num_le (t : UnsignedType) :
    (t.width.bytes : Int) * (min (s.dataLeft.tdiv t.width.bytes) t.count).toNat ≤ s.dataLeft := by
  have hw : (0 : Int) < t.width.bytes := Int.natCast_pos.2 t.width.bytes_pos
  have hquot : 0 ≤ s.dataLeft / (t.width.bytes : Int) :=
    Int.ediv_nonneg hs.left_nonneg (Int.le_of_lt hw)
  rw [Int.tdiv_eq_ediv_of_nonneg hs.left_nonneg]
  calc (t.width.bytes : Int) * (min (s.dataLeft / t.width.bytes) t.count).toNat
      ≤ t.width.bytes * (s.dataLeft / t.width.bytes) :=
        Int.mul_le_mul_of_nonneg_left (by omega) (Int.le_of_lt hw)
    _ ≤ s.dataLeft := Int.mul_ediv_self_le (Int.ne_of_gt hw)

theorem UnsignedType.fill_le (t : UnsignedType) (value : List Nat) :
    (t.fill value s).1 ≤ s.dataLeft := by
  have hnonneg := hs.left_nonneg
  have hnum := t.num_le hs
  have hle : (t.width.bytes : Int) * min (s.dataLeft.tdiv t.width.bytes) t.count ≤ s.dataLeft :=
    Int.le_trans (Int.mul_le_mul_of_nonneg_left (Int.self_le_toNat _) (Int.natCast_nonneg _)) hnum
  unfold fill
  split
  · exact hnonneg
  · dsimp only
    split
    · exact hle
    · split
      · exact Int.le_trans (show (-1 : Int) ≤ 0 by decide) hnonneg
      · exact hle

theorem fillString_le (length : Nat) (minLength : Int) (data : List Nat) :
    (fillString length minLength data s).1 ≤ s.dataLeft := by
  unfold fillString
  split
  · exact hs.left_nonneg
  · exact Int.min_le_right _ _

theorem fillNumber_le (size count : Nat) (number : List Nat) :
    (fillNumber size count number s).1 ≤ s.dataLeft := by
  have hsize := hs.sizeT_eq
  unfold fillNumber
  split
  · exact hs.left_nonneg
  · dsimp only
    omega

theorem fillLength_le (value : List Nat) : (fillLength value s).1 ≤ s.dataLeft := by
  have hsize := hs.sizeT_eq
  unfold fillLength
  split
  · exact hs.left_nonneg
  · dsimp only
    split
    · exact hs.left_nonneg
    · omega

theorem fillUnixtime_le (value : List Nat) : (fillUnixtime value s).1 ≤ s.dataLeft := by
  have hsize := hs.sizeT_eq
  unfold fillUnixtime
  split
  · exact hs.left_nonneg
  · dsimp only
    omega

/-- `Fill` returns no more than the number of bytes that are left. -/
theorem BuiltinType.fill_le (cells : List Nat) :
    ∀ type : BuiltinType, (type.fill cells s).1 ≤ s.dataLeft
  | unsigned t => t.fill_le hs cells
  | signed t => t.fill_le hs cells
  | string n minLength => fillString_le hs n minLength cells
  | float count _ => fillNumber_le hs 4 count cells
  | double count _ => fillNumber_le hs 8 count cells
  | length => fillLength_le hs cells
  | unixtime => fillUnixtime_le hs cells

/-! ## Inside of the buffer -/

theorem UnsignedType.touched_le (t : UnsignedType) (hcount : 1 ≤ t.count) :
    ((t.touched s).bytes : Int) ≤ s.dataLeft ∧ (t.touched s).values ≤ t.count := by
  have hnum := t.num_le hs
  unfold touched
  split
  · exact ⟨hs.left_nonneg, Nat.zero_le _⟩
  · dsimp only
    refine ⟨by rw [Int.natCast_mul]; exact hnum, ?_⟩
    split <;> omega

theorem touchedString_le (length : Nat) (minLength : Int) :
    ((touchedString length minLength s).bytes : Int) ≤ s.dataLeft ∧
      (touchedString length minLength s).values ≤ length := by
  have hnonneg := hs.left_nonneg
  have hlt := hs.left_lt
  unfold touchedString
  split
  · exact ⟨hnonneg, Nat.zero_le _⟩
  · dsimp only
    have hsize : (sizeT (min (length : Int) s.dataLeft) : Int) = min (length : Int) s.dataLeft := by
      rw [sizeT]
      omega
    omega

theorem touchedNumber_le (size count : Nat) :
    ((touchedNumber size count s).bytes : Int) ≤ s.dataLeft ∧
      (touchedNumber size count s).values ≤ count := by
  have hsize := hs.sizeT_eq
  unfold touchedNumber
  split
  · exact ⟨hs.left_nonneg, Nat.zero_le _⟩
  · dsimp only
    omega

/-- What `Fill` touches is in the bytes that are left, and in the value array. -/
theorem BuiltinType.touched_le : ∀ {type : BuiltinType}, 1 ≤ type.numCells →
    ((type.touched s).bytes : Int) ≤ s.dataLeft ∧ (type.touched s).values ≤ type.numCells
  | unsigned t, ht => t.touched_le hs ht
  | signed t, ht => t.touched_le hs ht
  | string n minLength, _ => touchedString_le hs n minLength
  | float count _, _ => touchedNumber_le hs 4 count
  | double count _, _ => touchedNumber_le hs 8 count
  | length, _ => touchedNumber_le hs 4 1
  | unixtime, _ => touchedNumber_le hs 4 1

end Fill

section Congr

variable {s s' : DecodeState} (hleft : s'.dataLeft = s.dataLeft)

include hleft

theorem UnsignedType.fill_congr {t : UnsignedType} (value : List Nat)
    (h : s'.data.take (t.touched s).bytes = s.data.take (t.touched s).bytes) :
    t.fill value s' = t.fill value s := by
  unfold touched at h
  unfold fill
  rw [hleft]
  by_cases hmin : t.width.bytes * t.minCount > s.dataLeft
  · rw [if_pos hmin, if_pos hmin]
  · rw [if_neg hmin] at h
    rw [if_neg hmin, if_neg hmin]
    dsimp only at h ⊢
    rw [readCells_congr h]

theorem fillString_congr {p : Place} (hs : s.EndsAt p) {length : Nat} {minLength : Int}
    (data : List Nat)
    (h : s'.data.take (touchedString length minLength s).bytes =
      s.data.take (touchedString length minLength s).bytes) :
    fillString length minLength data s' = fillString length minLength data s := by
  unfold touchedString at h
  unfold fillString
  rw [hleft]
  by_cases hmin : s.dataLeft < minLength
  · rw [if_pos hmin, if_pos hmin]
  · have hnonneg := hs.left_nonneg
    have hlt := hs.left_lt
    have hsize : sizeT (min (length : Int) s.dataLeft) =
        1 * (min (length : Int) s.dataLeft).toNat := by
      rw [sizeT]
      omega
    rw [if_neg hmin, hsize] at h
    rw [if_neg hmin, if_neg hmin]
    dsimp only
    rw [readCells_congr h]

theorem fillNumber_congr {size count : Nat} (number : List Nat)
    (h : s'.data.take (touchedNumber size count s).bytes =
      s.data.take (touchedNumber size count s).bytes) :
    fillNumber size count number s' = fillNumber size count number s := by
  unfold touchedNumber at h
  unfold fillNumber
  rw [hleft]
  by_cases hshort : sizeT s.dataLeft < count * size
  · rw [if_pos hshort, if_pos hshort]
  · rw [if_neg hshort, Nat.mul_comm] at h
    rw [if_neg hshort, if_neg hshort, readCells_congr h]

theorem fillLength_congr (value : List Nat)
    (h : s'.data.take (touchedNumber 4 1 s).bytes = s.data.take (touchedNumber 4 1 s).bytes) :
    fillLength value s' = fillLength value s := by
  unfold touchedNumber at h
  unfold fillLength
  rw [hleft]
  by_cases hshort : sizeT s.dataLeft < 4
  · rw [if_pos hshort, if_pos hshort]
  · rw [if_neg hshort] at h
    rw [if_neg hshort, if_neg hshort, h]

theorem fillUnixtime_congr (value : List Nat)
    (h : s'.data.take (touchedNumber 4 1 s).bytes = s.data.take (touchedNumber 4 1 s).bytes) :
    fillUnixtime value s' = fillUnixtime value s := by
  unfold touchedNumber at h
  unfold fillUnixtime
  rw [hleft]
  by_cases hshort : sizeT s.dataLeft < 4
  · rw [if_pos hshort, if_pos hshort]
  · rw [if_neg hshort] at h
    rw [if_neg hshort, if_neg hshort, h]

/-- `Fill` is a function of the bytes that it touches. -/
theorem BuiltinType.fill_congr {p : Place} (hs : s.EndsAt p) (cells : List Nat) :
    ∀ {type : BuiltinType},
      s'.data.take (type.touched s).bytes = s.data.take (type.touched s).bytes →
        type.fill cells s' = type.fill cells s
  | unsigned _, h => UnsignedType.fill_congr hleft cells h
  | signed _, h => UnsignedType.fill_congr hleft cells h
  | string _ _, h => fillString_congr hleft hs cells h
  | float _ _, h => fillNumber_congr hleft cells h
  | double _ _, h => fillNumber_congr hleft cells h
  | length, h => fillLength_congr hleft cells h
  | unixtime, h => fillUnixtime_congr hleft cells h

end Congr

section Accept

variable {s : DecodeState} {p : Place} (hs : s.EndsAt p)

include hs

/-- The sum with the four bytes of the length itself may wrap, but then it is less than four. -/
theorem decode_of_fillLength {value : List Nat} (h : 0 < (fillLength value s).1) :
    (LittleEndian.decode (s.data.take 4) : Int) = s.dataLeft - 4 := by
  have hsize := hs.sizeT_eq
  have hlt := hs.left_lt
  have hdecode := LittleEndian.decode_lt (s.data.take 4)
  have hpow : 256 ^ (s.data.take 4).length ≤ 256 ^ 4 :=
    Nat.pow_le_pow_right (by decide) (List.length_take_le _ _)
  unfold fillLength at h
  by_cases hshort : sizeT s.dataLeft < 4
  · rw [if_pos hshort] at h
    cases h
  · rw [if_neg hshort] at h
    dsimp only at h
    by_cases hne : (LittleEndian.decode (s.data.take 4) + 4) % 2 ^ 32 ≠ uint32 s.dataLeft
    · rw [if_pos hne] at h
      cases h
    · have heq := Decidable.not_not.1 hne
      rw [uint32] at heq
      omega

theorem Builtin.within {object : Builtin} (ht : object.type.Usable) : object.Within s := by
  obtain ⟨hbytes, hvalues⟩ := BuiltinType.touched_le hs ht.numCells_pos
  constructor
  case least_lt => exact ht.least_lt
  case bytes_le => exact hbytes
  case values_le => rw [object.length_cells]; exact hvalues
  case fill_eq =>
    intro s' hleft hrest
    have hnat : (object.type.touched s).bytes ≤ s.dataLeft.toNat := by omega
    -- the bytes that are touched are the first of those that are left
    have htake : s'.data.take (object.type.touched s).bytes =
        s.data.take (object.type.touched s).bytes := by
      have hprefix := congrArg (List.take (object.type.touched s).bytes) hrest
      rw [DecodeState.rest, DecodeState.rest, hleft, List.take_take, List.take_take,
        Nat.min_eq_left hnat] at hprefix
      exact hprefix
    have hfill := BuiltinType.fill_congr hleft hs object.cells htake
    simp only [Builtin.fill, hfill]
  case length_eq =>
    intro htype hpos
    have hfill : 0 < (object.type.fill object.cells s).1 := hpos
    rw [htype] at hfill
    exact decode_of_fillLength hs hfill

end Accept

/-! ## From call to call -/

theorem DecodeState.EndsAt.advance {s : DecodeState} {p : Place} (hs : s.EndsAt p) {r : Int}
    (hnonneg : 0 ≤ r) (hle : r ≤ s.dataLeft) : (s.advance r).EndsAt (p.advance r) := by
  obtain ⟨hpos, hleft, hlt, hend, hrest⟩ := hs
  have hpnat : (p.pos + r).toNat = p.pos.toNat + r.toNat := Int.toNat_add hpos hnonneg
  have hsnat : (s.dataLeft - r).toNat = s.dataLeft.toNat - r.toNat := by omega
  constructor
  case pos_nonneg => exact Int.add_nonneg hpos hnonneg
  case left_nonneg => exact Int.sub_nonneg_of_le hle
  case left_lt =>
    show s.dataLeft - r < 2 ^ 31
    omega
  case end_eq =>
    show p.pos + r + (s.dataLeft - r) = p.buffer.length
    omega
  case rest_eq =>
    show (s.data.drop r.toNat).take (s.dataLeft - r).toNat = p.buffer.drop (p.pos + r).toNat
    rw [hsnat, hpnat, ← List.drop_take, ← List.drop_drop]
    exact congrArg (List.drop r.toNat) hrest

theorem DecodeState.EndsAt.of_reports {s : DecodeState} (hleft : 0 ≤ s.dataLeft)
    (hlt : s.dataLeft < 2 ^ 31) (hroom : s.dataLeft ≤ s.data.length) : s.EndsAt ⟨s.rest, 0⟩ := by
  constructor
  case pos_nonneg => exact Int.le_refl 0
  case left_nonneg => exact hleft
  case left_lt => exact hlt
  case end_eq =>
    show 0 + s.dataLeft = (s.data.take s.dataLeft.toNat).length
    rw [List.length_take]
    omega
  case rest_eq => rfl

theorem DecodeState.endsAt_start (offset : UInt32) {data : List UInt8}
    (h : data.length < 2 ^ 31) : (start offset data).EndsAt ⟨data, 0⟩ := by
  constructor
  case pos_nonneg => exact Int.le_refl 0
  case left_nonneg => exact Int.natCast_nonneg _
  case left_lt =>
    show (data.length : Int) < 2 ^ 31
    omega
  case end_eq => exact Int.zero_add _
  case rest_eq => exact List.take_length

/-- What is to be shown of a type: all calls are sound, and no more is taken than is left. -/
def FieldType.CallsSound (type : FieldType) : Prop :=
  ∀ {p : Place} {s : DecodeState}, s.EndsAt p → (∀ c ∈ type.calls p s, c.Reports) →
    (∀ c ∈ type.calls p s, c.Sound) ∧ (type.fill s).1 ≤ s.dataLeft

section Sound

variable {p : Place} {s : DecodeState} (hs : s.EndsAt p)

include hs

theorem Call.sound_process (a : Action) : Call.Sound ⟨p, s, .process a⟩ :=
  ⟨hs, fun _ h => by cases h⟩

theorem Call.sound_fillStruct (name : String) (actions : List Action) :
    Call.Sound ⟨p, s, .fill (.struct name actions)⟩ := ⟨hs, fun _ h => by cases h⟩

theorem Call.sound_fillSubpacket (sp : Subpacket) : Call.Sound ⟨p, s, .fillSubpacket sp⟩ :=
  ⟨hs, fun _ h => by cases h⟩

theorem Call.sound_fillPacket (packet : Packet) : Call.Sound ⟨p, s, .fillPacket packet⟩ :=
  ⟨hs, fun _ h => by cases h⟩

end Sound

theorem FieldType.callsSound_builtin {object : Builtin} (ht : object.type.Usable) :
    (FieldType.builtin object).CallsSound := by
  intro p s hs _
  refine ⟨?_, BuiltinType.fill_le hs object.cells object.type⟩
  intro c hc
  obtain rfl := List.mem_singleton.1 hc
  refine ⟨hs, ?_⟩
  intro object' heq
  cases heq
  exact Builtin.within hs ht

/-- The loop of `Struct::Fill`: all calls are sound, and at the end there is not less than nothing
left. -/
theorem callsOf_sound {as : List Action} (husable : UsableOf as) {p : Place} {s : DecodeState}
    (hs : s.EndsAt p) (hreports : ∀ c ∈ callsOf p s as, c.Reports) :
    (∀ c ∈ callsOf p s as, c.Sound) ∧ 0 ≤ (processActions s as).1.dataLeft := by
  -- a field, from what is known of its type
  have hfield : ∀ (name : String) (type : FieldType) (offset : UInt32) (as : List Action),
      type.CallsSound →
      (∀ {p : Place} {s : DecodeState}, s.EndsAt p → (∀ c ∈ callsOf p s as, c.Reports) →
        (∀ c ∈ callsOf p s as, c.Sound) ∧ 0 ≤ (processActions s as).1.dataLeft) →
      ∀ {p : Place} {s : DecodeState}, s.EndsAt p →
        (∀ c ∈ callsOf p s (.field name type offset :: as), c.Reports) →
        (∀ c ∈ callsOf p s (.field name type offset :: as), c.Sound) ∧
          0 ≤ (processActions s (.field name type offset :: as)).1.dataLeft := by
    intro name type offset as htype ih p s hs hreports
    obtain ⟨-, hreports⟩ := List.forall_mem_cons.1 hreports
    obtain ⟨hreportsType, hreportsRest⟩ := List.forall_mem_append.1 hreports
    obtain ⟨hsound, hle⟩ := htype hs hreportsType
    have hprocess := Call.sound_process hs (.field name type offset)
    rw [processActions_field]
    by_cases hnone : (type.fill s).1 ≤ 0
    · rw [if_pos hnone]
      refine ⟨List.forall_mem_cons.2 ⟨hprocess, List.forall_mem_append.2 ⟨hsound, ?_⟩⟩,
        hs.left_nonneg⟩
      rw [if_pos hnone]
      exact nofun
    · rw [if_neg hnone] at hreportsRest ⊢
      obtain ⟨hrest, hend⟩ := ih (hs.advance (by omega) hle) hreportsRest
      refine ⟨List.forall_mem_cons.2 ⟨hprocess, List.forall_mem_append.2 ⟨hsound, ?_⟩⟩, hend⟩
      rw [if_neg hnone]
      exact hrest
  induction as using actionsRec generalizing p s with
  | nil => exact ⟨nofun, hs.left_nonneg⟩
  | builtin name object offset as ih =>
      exact hfield name _ offset as (FieldType.callsSound_builtin husable.1) (ih husable.2) hs
        hreports
  | struct name typeName inner offset as ihInner ih =>
      refine hfield name _ offset as ?_ (ih husable.2) hs hreports
      intro p s hs hreports
      obtain ⟨-, hreports⟩ := List.forall_mem_cons.1 hreports
      obtain ⟨hsound, hend⟩ := ihInner husable.1 hs hreports
      refine ⟨List.forall_mem_cons.2 ⟨Call.sound_fillStruct hs _ _, hsound⟩, ?_⟩
      -- what the parent moves by is its own bytes less those left of whatever buffer
      rw [FieldType.fill_struct]
      show s.dataLeft - (processActions s inner).1.dataLeft ≤ s.dataLeft
      omega
  | transformationAction t as ih =>
      obtain ⟨hreport, hrest⟩ := List.forall_mem_cons.1 hreports
      have hprocess := Call.sound_process hs (.transformationAction t)
      rw [processActions_transformationAction]
      cases ht : t.process s with
      | none =>
          refine ⟨List.forall_mem_cons.2 ⟨hprocess, ?_⟩, hs.left_nonneg⟩
          rw [ht]
          exact nofun
      | some s' =>
          rw [ht] at hrest
          obtain ⟨hleft, hlt, hroom⟩ := hreport s' ht
          obtain ⟨hsound, hend⟩ := ih husable (.of_reports hleft hlt hroom) hrest
          refine ⟨List.forall_mem_cons.2 ⟨hprocess, ?_⟩, hend⟩
          rw [ht]
          exact hsound
  | annotationAction name as ih =>
      obtain ⟨-, hrest⟩ := List.forall_mem_cons.1 hreports
      obtain ⟨hsound, hend⟩ := ih husable hs hrest
      exact ⟨List.forall_mem_cons.2 ⟨Call.sound_process hs _, hsound⟩, hend⟩

theorem Packet.calls_sound {p : Packet} (husable : p.Usable) {place : Place} {s : DecodeState}
    (hs : s.EndsAt place) (hreports : ∀ c ∈ p.calls place s, c.Reports) :
    ∀ c ∈ p.calls place s, c.Sound := by
  obtain ⟨-, hreports⟩ := List.forall_mem_cons.1 hreports
  obtain ⟨hheader, hbody⟩ := List.forall_mem_append.1 hreports
  obtain ⟨hsound, hend⟩ := callsOf_sound husable.actions hs hheader
  refine List.forall_mem_cons.2 ⟨Call.sound_fillPacket hs p,
    List.forall_mem_append.2 ⟨hsound, ?_⟩⟩
  by_cases hrejected : p.headerSize s < 0 ∨ p.subpackets ≠ [] ∧ p.headerSize s ≠ p.numPacketBytes
  · rw [if_pos hrejected]
    exact nofun
  rw [if_neg hrejected] at hbody ⊢
  intro c hc
  obtain ⟨sp, hsp, hmem⟩ := List.mem_flatMap.1 hc
  have hspMem := List.mem_of_mem_tried hsp
  -- with a subpacket, the header has taken the bytes that the state moves by
  obtain ⟨hneg, hsize⟩ := not_or.1 hrejected
  have heq : p.headerSize s = p.numPacketBytes :=
    Decidable.byContradiction fun hne => hsize ⟨List.ne_nil_of_mem hspMem, hne⟩
  have hle : p.headerSize s = s.dataLeft - (processActions s p.actions).1.dataLeft := rfl
  have hs' := hs.advance (r := p.numPacketBytes) (by omega) (by omega)
  have hreportsSub : ∀ c ∈ sp.calls (place.advance p.numPacketBytes)
      (s.advance p.numPacketBytes), c.Reports :=
    fun c hc => hbody c (List.mem_flatMap.2 ⟨sp, hsp, hc⟩)
  obtain ⟨-, hreportsSub⟩ := List.forall_mem_cons.1 hreportsSub
  have hsoundSub := (callsOf_sound (husable.subpackets sp hspMem) hs' hreportsSub).1
  exact List.forall_mem_cons.2 ⟨Call.sound_fillSubpacket hs' sp, hsoundSub⟩ c hmem

/-- The type that is filled is usable. -/
def Call.Usable (c : Call) : Prop :=
  match c.callee with
  | .fill (.builtin object) => object.type.Usable
  | _ => True

theorem usable_callsOf {as : List Action} (h : UsableOf as) (p : Place) (s : DecodeState) :
    ∀ c ∈ callsOf p s as, c.Usable := by
  -- a field, from what is known of its type
  have hfield : ∀ (name : String) (type : FieldType) (offset : UInt32) (as : List Action),
      (∀ p s, ∀ c ∈ type.calls p s, c.Usable) → (∀ p s, ∀ c ∈ callsOf p s as, c.Usable) →
        ∀ p s, ∀ c ∈ callsOf p s (.field name type offset :: as), c.Usable := by
    intro name type offset as htype hrest p s
    refine List.forall_mem_cons.2 ⟨trivial, List.forall_mem_append.2 ⟨htype p s, ?_⟩⟩
    split
    · exact List.forall_mem_nil _
    · exact hrest _ _
  induction as using actionsRec generalizing p s with
  | nil => exact List.forall_mem_nil _
  | builtin name object offset as ih =>
      refine hfield name (.builtin object) offset as (fun p s => ?_) (ih h.2) p s
      exact List.forall_mem_singleton.2 h.1
  | struct name typeName inner offset as ihInner ih =>
      refine hfield name _ offset as (fun p s => ?_) (ih h.2) p s
      exact List.forall_mem_cons.2 ⟨trivial, ihInner h.1 p s⟩
  | transformationAction t as ih =>
      refine List.forall_mem_cons.2 ⟨trivial, ?_⟩
      cases t.process s with
      | none => exact List.forall_mem_nil _
      | some s' => exact ih h _ s'
  | annotationAction name as ih => exact List.forall_mem_cons.2 ⟨trivial, ih h p s⟩

theorem Packet.Usable.calls {p : Packet} (h : p.Usable) (place : Place) (s : DecodeState) :
    ∀ c ∈ p.calls place s, c.Usable := by
  refine List.forall_mem_cons.2
    ⟨trivial, List.forall_mem_append.2 ⟨usable_callsOf h.actions place s, ?_⟩⟩
  split
  · exact List.forall_mem_nil _
  · intro c hc
    obtain ⟨sp, hsp, hmem⟩ := List.mem_flatMap.1 hc
    rcases List.mem_cons.1 hmem with rfl | hmem
    · exact trivial
    · exact usable_callsOf (h.subpackets sp (List.mem_of_mem_tried hsp)) _ _ c hmem

theorem DecodeState.EndsAt.left_le {s : DecodeState} {p : Place} (h : s.EndsAt p) :
    s.dataLeft ≤ s.data.length := by
  have hlen := congrArg List.length h.rest_eq
  rw [rest, List.length_take, List.length_drop] at hlen
  have hpos := h.pos_nonneg
  have hend := h.end_eq
  omega

/-- A call that is sound leaves no memory. -/
theorem Call.inside {c : Call} (hsound : c.Sound) (husable : c.Usable) (hkeeps : c.Keeps) :
    c.Inside := by
  obtain ⟨p, s, callee⟩ := c
  cases callee with
  | process a =>
      cases a with
      | transformationAction t =>
          intro hfault
          have hkeeps : t.Keeps s := hkeeps
          have hfault : t.applied s = .fault := hfault
          rwa [Transformation.Keeps, hfault] at hkeeps
      | field name type offset => trivial
      | annotationAction name => trivial
  | fillPacket p => trivial
  | fillSubpacket sp => trivial
  | fill type =>
      cases type with
      | builtin object =>
          have hwithin : object.Within s := hsound.within object rfl
          have hleft : s.dataLeft ≤ s.data.length := hsound.endsAt.left_le
          have hnonneg : 0 ≤ object.type.least := BuiltinType.Usable.least_nonneg husable
          have hbytes := hwithin.bytes_le
          have hinside : (object.type.touched s).bytes ≤ s.data.length := by omega
          exact ⟨hinside, hwithin.values_le, by omega, hwithin.least_lt⟩
      | struct name actions => trivial

end ProtocolDefinition

/-- The bounds hold in all packets of the definition. -/
def ProtocolDefinition.InRange (d : ProtocolDefinition) : Prop :=
  ∀ p ∈ d.packets, ProtocolDefinition.Packet.InRange p

/-- At every call of a `Fill` or a `Process`, what is left is the rest of the current buffer, and no
`Fill` gets outside of that or of its value array. -/
theorem ProtocolDefinition.process_calls {d : ProtocolDefinition} (hbounds : d.InRange)
    (offset : UInt32) {payload : List UInt8} (hpayload : payload.length < 2 ^ 31)
    (hreports : ∀ c ∈ d.calls offset payload, c.Reports) :
    ∀ c ∈ d.calls offset payload, c.Sound := by
  intro c hc
  obtain ⟨p, hp, hmem⟩ := List.mem_flatMap.1 hc
  have hreportsPacket : ∀ c ∈ p.calls ⟨payload, 0⟩ (.start offset payload), c.Reports :=
    fun c hc => hreports c (List.mem_flatMap.2 ⟨p, hp, hc⟩)
  exact Packet.calls_sound (hbounds p (List.mem_of_mem_tried hp)).usable
    (DecodeState.endsAt_start offset hpayload) hreportsPacket c hmem

/-- The calls for a packet with a transformation in the struct of its header. -/
theorem ProtocolDefinition.process_calls_unpacked :
    (ProtocolDefinition.calls ⟨[unpackedHeader]⟩ 0 [0x15, 1, 2, 3, 4, 0x11, 0, 0]).length = 7 ∧
      ∀ c ∈ ProtocolDefinition.calls ⟨[unpackedHeader]⟩ 0 [0x15, 1, 2, 3, 4, 0x11, 0, 0],
        c.Sound := by
  have hbounds : ProtocolDefinition.InRange ⟨[unpackedHeader]⟩ := by
    refine List.forall_mem_cons.2 ⟨⟨⟨⟨?_, trivial⟩, trivial⟩, ?_⟩, nofun⟩
    · exact ⟨⟨by decide, by decide⟩, by decide, by decide⟩
    · exact List.forall_mem_cons.2 ⟨trivial, nofun⟩
  exact ⟨by decide +kernel, process_calls hbounds 0 (by decide) (by decide +kernel)⟩

end OpenRom
