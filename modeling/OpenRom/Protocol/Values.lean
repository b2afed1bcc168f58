import OpenRom.Protocol.Members

/-!
# Values as bytes

The bytes that a member of an emitted struct has for the values of an object. Fields of constant
size, without fixed values and lengths, are filled with the values of the bytes that they are read
from, whatever is behind those (`processActions_unfixed`).
-/

set_option autoImplicit false

namespace OpenRom

namespace ProtocolDefinition

/-- The bytes of one value. -/
def BuiltinType.encode (v : Nat) : BuiltinType → List UInt8
  | unsigned t => LittleEndian.encode t.width.bytes v
  | signed t => LittleEndian.encode t.width.bytes v
  | string _ _ => LittleEndian.encode 1 v
  | float _ _ => LittleEndian.encode 4 v
  | double _ _ => LittleEndian.encode 8 v
  | length => LittleEndian.encode 4 (v + (2 ^ 32 - 4)) -- `Fill` has counted the length itself
  | unixtime => LittleEndian.encode 4 v

def Builtin.bytes (b : Builtin) : List UInt8 := b.cells.flatMap b.type.encode

mutual

/-- The bytes of all values in the type. -/
def FieldType.bytes : FieldType → List UInt8
  | .builtin object => object.bytes
  | .struct _ actions => bytesOf actions

def bytesOf : List Action → List UInt8
  | [] => []
  | .field _ type _ :: as => type.bytes ++ bytesOf as
  | .transformationAction _ :: as => bytesOf as
  | .annotationAction _ :: as => bytesOf as

end

/-- The bytes of each of the fields. -/
def valuesOf : List Action → List (List UInt8)
  | [] => []
  | .field _ type _ :: as => type.bytes :: valuesOf as
  | .transformationAction _ :: as => valuesOf as
  | .annotationAction _ :: as => valuesOf as

theorem flatten_valuesOf (as : List Action) : (valuesOf as).flatten = bytesOf as := by
  induction as with
  | nil => rfl
  | cons a as ih =>
      cases a with
      | field name type offset => exact congrArg (type.bytes ++ ·) ih
      | transformationAction t => exact ih
      | annotationAction name => exact ih

theorem length_valuesOf (as : List Action) (offset : Nat) :
    (valuesOf as).length = (generateFields offset as).length := by
  induction as generalizing offset with
  | nil => rfl
  | cons a as ih =>
      cases a with
      | field name type dataOffset => exact congrArg (· + 1) (ih _)
      | transformationAction t => exact ih offset
      | annotationAction name => exact ih offset

theorem length_valuesOf_layoutOf (as : List Action) :
    (valuesOf (layoutOf as)).length = (valuesOf as).length := by
  induction as with
  | nil => rfl
  | cons a as ih =>
      cases a with
      | field name type offset => exact congrArg (· + 1) ih
      | transformationAction t => exact ih
      | annotationAction name => exact ih

/-- A field alone has all of the bytes. -/
theorem valuesOf_of_one {as : List Action} (h : (valuesOf as).length = 1) :
    valuesOf as = [bytesOf as] := by
  obtain ⟨value, hvalue⟩ := List.length_eq_one_iff.1 h
  rw [← flatten_valuesOf, hvalue, List.flatten_singleton]

/-! ## Built-in types -/

theorem flatMap_readCells {width n : Nat} {data : List UInt8} (h : width * n ≤ data.length) :
    (readCells width n data).flatMap (LittleEndian.encode width) = data.take (width * n) := by
  induction n generalizing data with
  | zero => rfl
  | succ n ih =>
      rw [Nat.mul_succ] at h ⊢
      have hfirst : LittleEndian.encode width (LittleEndian.decode (data.take width)) =
          data.take width := by
        have hlen : (data.take width).length = width := List.length_take_of_le (by omega)
        have hencode := LittleEndian.encode_decode (data.take width)
        rwa [hlen] at hencode
      have hrest : width * n ≤ (data.drop width).length := by
        rw [List.length_drop]
        omega
      rw [readCells, List.flatMap_cons, hfirst, ih hrest, Nat.add_comm, List.take_add]

/-- All of the values are stored. -/
theorem overwrite_readCells {width n : Nat} {data : List UInt8} {cells : List Nat}
    (h : cells.length = n) :
    List.overwrite (readCells width n data) cells = readCells width n data := by
  rw [List.overwrite, length_readCells, List.drop_eq_nil_of_le (Nat.le_of_eq h), List.append_nil]

theorem sizeT_of_lt {n : Int} (h : 0 ≤ n) (hlt : n < 2 ^ 31) : (sizeT n : Int) = n := by
  unfold sizeT
  omega

/-- The object is filled with the values of the bytes that its member has. -/
structure BuiltinType.Stores (cells : List Nat) (s : DecodeState) (type : BuiltinType) : Prop where
  size : (type.fill cells s).1 = type.sizeof
  value : (type.fill cells s).2.flatMap type.encode = s.data.take type.sizeof

section Unfixed

variable {cells : List Nat} {s : DecodeState}

theorem BuiltinType.Stores.of_fill {type : BuiltinType} {width n : Nat}
    (hfill : type.fill cells s = ((type.sizeof : Int), readCells width n s.data))
    (hencode : type.encode = LittleEndian.encode width) (hsize : width * n = type.sizeof)
    (hdata : type.sizeof ≤ s.data.length) : type.Stores cells s := by
  refine ⟨congrArg Prod.fst hfill, ?_⟩
  rw [hfill, hencode, flatMap_readCells (hsize ▸ hdata), hsize]

theorem UnsignedType.fill_unfixed {t : UnsignedType} (hconst : 0 < t.constantSize)
    (hinit : t.generateCInitialize = some []) (hcells : cells.length = t.count)
    (hleft : ((max t.count 1 * t.width.bytes : Nat) : Int) ≤ s.dataLeft) :
    t.fill cells s = (((max t.count 1 * t.width.bytes : Nat) : Int),
      readCells t.width.bytes t.count s.data) := by
  obtain ⟨hmin, -⟩ := count_of_constantSize hconst
  obtain ⟨-, hcount⟩ := sizeof_of_constantSize hconst
  have hpos := t.width.bytes_pos
  rw [Nat.max_eq_left hcount, Nat.mul_comm, Int.natCast_mul] at hleft ⊢
  have hnum : min (s.dataLeft.tdiv t.width.bytes) t.count = t.count := by
    have hnonneg : (0 : Int) ≤ t.width.bytes * t.count := Int.mul_nonneg (by omega) (by omega)
    refine Int.min_eq_right ?_
    rw [Int.tdiv_eq_ediv_of_nonneg (by omega), Int.le_ediv_iff_mul_le (by omega), Int.mul_comm]
    exact hleft
  unfold fill
  rw [← hmin, if_neg (Int.not_lt.2 hleft), hnum, fixedValue_of_nil hinit]
  exact congrArg (Prod.mk _) (overwrite_readCells hcells)

theorem UnsignedType.mul_width {t : UnsignedType} (hconst : 0 < t.constantSize) :
    t.width.bytes * t.count = max t.count 1 * t.width.bytes := by
  rw [Nat.max_eq_left (sizeof_of_constantSize hconst).2, Nat.mul_comm]

theorem fillNumber_eq {size count : Nat} (hcells : cells.length = count)
    (hleft : ((count * size : Nat) : Int) ≤ s.dataLeft) (hlt : s.dataLeft < 2 ^ 31) :
    fillNumber size count cells s =
      (((count * size : Nat) : Int), readCells size count s.data) := by
  have hsize := sizeT_of_lt (Int.le_trans (Int.natCast_nonneg _) hleft) hlt
  unfold fillNumber
  rw [if_neg (by omega), overwrite_readCells hcells]

theorem BuiltinType.stores {type : BuiltinType} (hconst : 0 < type.constantSize)
    (hinit : type.generateCInitialize = some []) (hlength : type ≠ .length)
    (hcells : cells.length = type.numCells) (hleft : type.sizeof ≤ s.dataLeft)
    (hlt : s.dataLeft < 2 ^ 31) (hdata : type.sizeof ≤ s.data.length) : type.Stores cells s := by
  cases type with
  | unsigned t =>
      exact .of_fill (UnsignedType.fill_unfixed hconst hinit hcells hleft) rfl
        (UnsignedType.mul_width hconst) hdata
  | signed t =>
      exact .of_fill (UnsignedType.fill_unfixed hconst hinit hcells hleft) rfl
        (UnsignedType.mul_width hconst) hdata
  | string n minLength =>
      -- the string is as long as it can be, so no characters of it are left over
      obtain ⟨hmin, -⟩ := length_of_constantSize_string hconst
      have hleft : (n : Int) ≤ s.dataLeft := hleft
      have hfill : fillString n minLength cells s = ((n : Int), readCells 1 n s.data) := by
        unfold fillString
        rw [hmin, if_neg (Int.not_lt.2 hleft), Int.min_eq_left hleft]
        exact congrArg (Prod.mk _) (overwrite_readCells hcells)
      exact .of_fill hfill rfl (Nat.one_mul n) hdata
  | float count displayCount =>
      -- the count is not zero, so the member is an array of that many
      have hcount : 0 < (count : Int) * 4 := hconst
      have hsize : (float count displayCount).sizeof = count * 4 :=
        congrArg (· * 4) (Nat.max_eq_left (by omega))
      rw [hsize] at hleft
      have hfill : fillNumber 4 count cells s = _ := fillNumber_eq hcells hleft hlt
      rw [← hsize] at hfill
      exact .of_fill hfill rfl ((Nat.mul_comm _ _).trans hsize.symm) hdata
  | double count displayCount =>
      have hcount : 0 < (count : Int) * 8 := hconst
      have hsize : (double count displayCount).sizeof = count * 8 :=
        congrArg (· * 8) (Nat.max_eq_left (by omega))
      rw [hsize] at hleft
      have hfill : fillNumber 8 count cells s = _ := fillNumber_eq hcells hleft hlt
      rw [← hsize] at hfill
      exact .of_fill hfill rfl ((Nat.mul_comm _ _).trans hsize.symm) hdata
  | length => exact absurd rfl hlength
  | unixtime =>
      have hleft : (4 : Int) ≤ s.dataLeft := hleft
      have hsize := sizeT_of_lt (Int.le_trans (by decide) hleft) hlt
      have hfill : fillUnixtime cells s = (((4 : Nat) : Int), readCells 4 1 s.data) := by
        unfold fillUnixtime
        rw [if_neg (by omega)]
        rfl
      exact .of_fill hfill rfl rfl hdata

end Unfixed

/-! ## Fields -/

/-- The state after the bytes of some members, and the bytes of the values. -/
structure DecodeState.Reads (s s' : DecodeState) (size : Nat) (bytes : List UInt8) : Prop where
  data : s'.data = s.data.drop size
  dataLeft : s'.dataLeft = s.dataLeft - size
  bytes_eq : bytes = s.data.take size

/-- There are enough bytes. -/
structure DecodeState.Holds (s : DecodeState) (size : Nat) : Prop where
  left : size ≤ s.dataLeft
  lt : s.dataLeft < 2 ^ 31
  room : size ≤ s.data.length

/-- A type whose `Fill` reads the bytes of its member. -/
def FieldType.ReadsBytes (type : FieldType) : Prop :=
  ∀ {s : DecodeState}, s.Holds type.sizeof →
    (type.fill s).1 = type.sizeof ∧ (type.fill s).2.bytes = s.data.take type.sizeof

theorem readsBytes_field {type : FieldType} (hconst : 0 < type.constantSize)
    (htype : type.ReadsBytes) (name : String) (offset : UInt32) {as : List Action}
    (ih : ∀ {s : DecodeState}, s.Holds (sizeofMembers as) →
      s.Reads (processActions s as).1 (sizeofMembers as) (bytesOf (processActions s as).2))
    {s : DecodeState} (hs : s.Holds (sizeofMembers (.field name type offset :: as))) :
    s.Reads (processActions s (.field name type offset :: as)).1
      (sizeofMembers (.field name type offset :: as))
      (bytesOf (processActions s (.field name type offset :: as)).2) := by
  obtain ⟨hleft, hlt, hroom⟩ := hs
  rw [sizeofMembers_field] at hleft hroom ⊢
  have hsize := FieldType.sizeof_of_constantSize hconst
  obtain ⟨hfill, hbytes⟩ := htype (s := s) ⟨by omega, hlt, by omega⟩
  have hadvance : (s.advance (type.fill s).1).data = s.data.drop type.sizeof := by
    rw [hfill]
    rfl
  have hrest : (s.advance (type.fill s).1).dataLeft = s.dataLeft - type.sizeof := by
    rw [hfill]
    rfl
  obtain ⟨hdata, hdataLeft, hrestBytes⟩ := ih (s := s.advance (type.fill s).1)
    ⟨by omega, by omega, by rw [hadvance, List.length_drop]; omega⟩
  rw [processActions_field, if_neg (by omega)]
  constructor
  case data => rw [hdata, hadvance, List.drop_drop]
  case dataLeft =>
    rw [hdataLeft, hrest]
    omega
  case bytes_eq =>
    show (type.fill s).2.bytes ++ bytesOf (processActions _ as).2 = _
    rw [hbytes, hrestBytes, hadvance, List.take_add]

/-- Fields without fixed values and lengths read the bytes of their members. -/
theorem processActions_unfixed {as : List Action} (hplain : PlainActions as) (hsized : Sized as)
    (hlength : NoLengths as) (hinit : generateCInitializers as = some []) {s : DecodeState}
    (hs : s.Holds (sizeofMembers as)) :
    s.Reads (processActions s as).1 (sizeofMembers as) (bytesOf (processActions s as).2) := by
  induction as using actionsRec generalizing s with
  | nil => exact ⟨rfl, (Int.sub_zero _).symm, rfl⟩
  | builtin name object offset as ih =>
      obtain ⟨hobject, hrest⟩ := generateCInitializers_field_nil hinit
      refine readsBytes_field hsized.1 ?_ name offset (ih hplain.2 hsized.2 hlength.2 hrest) hs
      rintro s ⟨hleft, hlt, hroom⟩
      obtain ⟨hsize, hvalue⟩ := BuiltinType.stores hsized.1 hobject hlength.1 object.length_cells
        hleft hlt hroom
      exact ⟨hsize, hvalue⟩
  | struct name typeName inner offset as ihInner ih =>
      obtain ⟨hobject, hrest⟩ := generateCInitializers_field_nil hinit
      refine readsBytes_field hsized.1 ?_ name offset (ih hplain.2 hsized.2 hlength.2 hrest) hs
      intro s hs
      obtain ⟨-, hdataLeft, hbytes⟩ := ihInner hplain.1 (sized_of_sizeFrom hplain.1 hsized.1)
        hlength.1 hobject hs
      refine ⟨?_, hbytes⟩
      rw [FieldType.fill_struct, hdataLeft]
      exact Int.sub_sub_self _ _
  | transformationAction t as ih => exact hplain.elim
  | annotationAction name as ih =>
      obtain ⟨hdata, hdataLeft, hbytes⟩ := ih hplain hsized hlength hinit hs
      exact ⟨hdata, hdataLeft, hbytes⟩

end ProtocolDefinition

end OpenRom
