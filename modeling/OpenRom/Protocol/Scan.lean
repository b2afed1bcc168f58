import OpenRom.Protocol.Decode

/-!
# Reading without storing

How many bytes a type takes off the front of a payload depends on the definition and the payload
only. `scanActions` computes what is left of it and whether every field has got its bytes, and
`fst_processActions` says that decoding gets there.
-/

set_option autoImplicit false

namespace OpenRom

namespace ProtocolDefinition

/-! ## Actions without transformations -/

mutual

/-- No transformation is in the type. -/
def FieldType.Plain : FieldType → Prop
  | .builtin _ => True
  | .struct _ actions => PlainActions actions

def PlainActions : List Action → Prop
  | [] => True
  | .field _ type _ :: as => type.Plain ∧ PlainActions as
  | .transformationAction _ :: _ => False
  | .annotationAction _ :: as => PlainActions as

end

/-- The decode state at the front of a payload. -/
def DecodeState.start (offset : UInt32) (bs : List UInt8) : DecodeState := ⟨bs, bs.length, offset⟩

theorem DecodeState.advance_start {offset : UInt32} {bs : List UInt8} {r : Int} (h : 0 ≤ r)
    (hr : r ≤ bs.length) :
    (start offset bs).advance r = start (offset + UInt32.ofInt r) (bs.drop r.toNat) := by
  have hlen : (bs.length : Int) - r = ((bs.drop r.toNat).length : Int) := by
    rw [List.length_drop]
    omega
  rw [start, start, advance, hlen]

theorem sizeT_length {bs : List UInt8} (h : bs.length < 2 ^ 31) : sizeT bs.length = bs.length := by
  rw [sizeT]
  omega

theorem uint32_length {bs : List UInt8} (h : bs.length < 2 ^ 31) :
    uint32 bs.length = bs.length := by
  rw [uint32]
  omega

/-! ## Built-in types -/

/-- The bytes that a numeric type takes, zero when it is not filled. -/
def UnsignedType.takes (t : UnsignedType) (bs : List UInt8) : Nat :=
  if t.width.bytes * t.minCount ≤ bs.length ∧
      t.fixedValue.all fun v => LittleEndian.decode (bs.take t.width.bytes) == v.toNat then
    t.width.bytes * min (bs.length / t.width.bytes) t.count
  else 0

/-- The bytes that a built-in type takes off the front, zero when it is not filled. -/
def BuiltinType.takes (bs : List UInt8) : BuiltinType → Nat
  | unsigned t => t.takes bs
  | signed t => t.takes bs
  | string n minLength => if minLength ≤ bs.length then min n bs.length else 0
  | float count _ => if count * 4 ≤ bs.length then count * 4 else 0
  | double count _ => if count * 8 ≤ bs.length then count * 8 else 0
  | length => if 4 ≤ bs.length ∧ LittleEndian.decode (bs.take 4) + 4 = bs.length then 4 else 0
  | unixtime => if 4 ≤ bs.length then 4 else 0

theorem UnsignedType.takes_le (t : UnsignedType) (bs : List UInt8) : t.takes bs ≤ bs.length := by
  unfold takes
  split
  · calc t.width.bytes * min (bs.length / t.width.bytes) t.count
        ≤ t.width.bytes * (bs.length / t.width.bytes) :=
          Nat.mul_le_mul_left _ (Nat.min_le_left _ _)
      _ ≤ bs.length := Nat.mul_div_le _ _
  · exact Nat.zero_le _

theorem BuiltinType.takes_le (bs : List UInt8) : ∀ type : BuiltinType, type.takes bs ≤ bs.length
  | unsigned t => t.takes_le bs
  | signed t => t.takes_le bs
  | string _ _ => by simp only [takes]; split <;> omega
  | float _ _ => by simp only [takes]; split <;> omega
  | double _ _ => by simp only [takes]; split <;> omega
  | length => by simp only [takes]; split <;> omega
  | unixtime => by simp only [takes]; split <;> omega

theorem head?_overwrite_readCells {width n : Nat} (hn : 0 < n) (data : List UInt8)
    (cells : List Nat) :
    (List.overwrite (readCells width n data) cells).head? =
      some (LittleEndian.decode (data.take width)) := by
  cases n with
  | zero => cases hn
  | succ n => rfl

theorem UnsignedType.toNat_fill (t : UnsignedType) (value : List Nat) (offset : UInt32)
    (bs : List UInt8) : (t.fill value (.start offset bs)).1.toNat = t.takes bs := by
  -- the division of the source is one of natural numbers here
  have hdiv : (bs.length : Int).tdiv t.width.bytes = ((bs.length / t.width.bytes : Nat) : Int) :=
    Int.ofNat_tdiv _ _
  have hnum : min ((bs.length : Int).tdiv t.width.bytes) t.count =
      ((min (bs.length / t.width.bytes) t.count : Nat) : Int) := by
    rw [hdiv]
    omega
  have hbytes : ((t.width.bytes : Int) *
      ((min (bs.length / t.width.bytes) t.count : Nat) : Int)).toNat =
        t.width.bytes * min (bs.length / t.width.bytes) t.count := by
    rw [← Int.natCast_mul, Int.toNat_natCast]
  unfold fill takes
  simp only [DecodeState.start, hnum]
  by_cases hmin : (t.width.bytes * t.minCount : Int) > bs.length
  · rw [if_pos hmin, if_neg fun h => absurd h.1 (Int.not_le.2 hmin)]
    rfl
  rw [if_neg hmin]
  cases hfixed : t.fixedValue with
  | none =>
      rw [if_pos ⟨Int.not_lt.1 hmin, rfl⟩]
      exact hbytes
  | some v =>
      rcases Nat.eq_zero_or_pos (min (bs.length / t.width.bytes) t.count) with hzero | hpos
      · -- nothing is read, and what `m_Value[0]` is compared with does not matter
        rw [hzero, Nat.mul_zero, ite_self]
        dsimp only
        split <;> rfl
      · dsimp only
        rw [head?_overwrite_readCells (by omega)]
        by_cases hv : LittleEndian.decode (bs.take t.width.bytes) = v.toNat
        · rw [if_neg (by rw [hv]; exact fun h => h rfl),
            if_pos ⟨Int.not_lt.1 hmin, by simpa using hv⟩]
          exact hbytes
        · rw [if_pos (by simpa using hv), if_neg (by simpa using fun _ => hv)]
          rfl

theorem toNat_fillString (length : Nat) (minLength : Int) (cells : List Nat) (offset : UInt32)
    (bs : List UInt8) :
    (fillString length minLength cells (.start offset bs)).1.toNat =
      if minLength ≤ bs.length then min length bs.length else 0 := by
  unfold fillString DecodeState.start
  by_cases h : minLength ≤ bs.length
  · rw [if_neg (Int.not_lt.2 h), if_pos h]
    dsimp only
    omega
  · rw [if_pos (Int.not_le.1 h), if_neg h]
    rfl

theorem toNat_fillNumber (size count : Nat) (cells : List Nat) (offset : UInt32) {bs : List UInt8}
    (hbs : bs.length < 2 ^ 31) :
    (fillNumber size count cells (.start offset bs)).1.toNat =
      if count * size ≤ bs.length then count * size else 0 := by
  unfold fillNumber DecodeState.start
  rw [sizeT_length hbs]
  by_cases h : count * size ≤ bs.length
  · rw [if_neg (Nat.not_lt.2 h), if_pos h]
    exact Int.toNat_natCast _
  · rw [if_pos (Nat.not_le.1 h), if_neg h]
    rfl

theorem toNat_fillLength (cells : List Nat) (offset : UInt32) {bs : List UInt8}
    (hbs : bs.length < 2 ^ 31) :
    (fillLength cells (.start offset bs)).1.toNat =
      if 4 ≤ bs.length ∧ LittleEndian.decode (bs.take 4) + 4 = bs.length then 4 else 0 := by
  unfold fillLength DecodeState.start
  rw [sizeT_length hbs, uint32_length hbs]
  by_cases h : 4 ≤ bs.length
  · rw [if_neg (Nat.not_lt.2 h)]
    have hlt := LittleEndian.decode_lt (bs.take 4)
    rw [List.length_take, Nat.min_eq_left h] at hlt
    by_cases hv : LittleEndian.decode (bs.take 4) + 4 = bs.length
    · have hmod : (LittleEndian.decode (bs.take 4) + 4) % 2 ^ 32 = bs.length := by omega
      rw [if_pos ⟨h, hv⟩]
      exact congrArg Int.toNat (if_neg fun hne => hne hmod)
    · -- a number that wraps around is less than four
      have hmod : (LittleEndian.decode (bs.take 4) + 4) % 2 ^ 32 ≠ bs.length := by omega
      rw [if_neg fun hc => hv hc.2]
      exact congrArg Int.toNat (if_pos hmod)
  · rw [if_pos (Nat.not_le.1 h), if_neg fun hc => h hc.1]
    rfl

theorem toNat_fillUnixtime (cells : List Nat) (offset : UInt32) {bs : List UInt8}
    (hbs : bs.length < 2 ^ 31) :
    (fillUnixtime cells (.start offset bs)).1.toNat = if 4 ≤ bs.length then 4 else 0 := by
  unfold fillUnixtime DecodeState.start
  rw [sizeT_length hbs]
  by_cases h : 4 ≤ bs.length
  · rw [if_neg (Nat.not_lt.2 h), if_pos h]
    rfl
  · rw [if_pos (Nat.not_le.1 h), if_neg h]
    rfl

/-- A built-in type is filled with the bytes that it takes. -/
theorem BuiltinType.toNat_fill (cells : List Nat) (offset : UInt32) {bs : List UInt8}
    (hbs : bs.length < 2 ^ 31) :
    ∀ type : BuiltinType, (type.fill cells (.start offset bs)).1.toNat = type.takes bs
  | unsigned t => t.toNat_fill cells offset bs
  | signed t => t.toNat_fill cells offset bs
  | string n minLength => toNat_fillString n minLength cells offset bs
  | float count _ => toNat_fillNumber 4 count cells offset hbs
  | double count _ => toNat_fillNumber 8 count cells offset hbs
  | length => toNat_fillLength cells offset hbs
  | unixtime => toNat_fillUnixtime cells offset hbs

/-! ## Structs -/

mutual

/-- What the type leaves of the bytes, and whether everything in it is filled. -/
def FieldType.scan (bs : List UInt8) : FieldType → List UInt8 × Bool
  | .builtin object => (bs.drop (object.type.takes bs), true)
  | .struct _ actions => scanActions bs actions

/-- What the fields leave of the bytes, up to the first that takes none, and whether all are
filled. -/
def scanActions (bs : List UInt8) : List Action → List UInt8 × Bool
  | [] => (bs, true)
  | .field _ type _ :: as =>
      if (type.scan bs).1.length = bs.length then (bs, false)
      else ((scanActions (type.scan bs).1 as).1,
        (type.scan bs).2 && (scanActions (type.scan bs).1 as).2)
  | .transformationAction _ :: _ => (bs, false)
  | .annotationAction _ :: as => scanActions bs as

end

theorem scanActions_field (bs : List UInt8) (name : String) (type : FieldType) (offset : UInt32)
    (as : List Action) :
    scanActions bs (.field name type offset :: as) =
      if (type.scan bs).1.length = bs.length then (bs, false)
      else ((scanActions (type.scan bs).1 as).1,
        (type.scan bs).2 && (scanActions (type.scan bs).1 as).2) := rfl

/-- What is left is the end of the bytes. -/
theorem scanActions_suffix (bs : List UInt8) (as : List Action) : (scanActions bs as).1 <:+ bs := by
  -- a field, of a built-in type or a struct, from what is known of its type
  have hfield : ∀ (bs : List UInt8) (name : String) (type : FieldType) (offset : UInt32)
      (as : List Action), (type.scan bs).1 <:+ bs → (∀ bs, (scanActions bs as).1 <:+ bs) →
        (scanActions bs (.field name type offset :: as)).1 <:+ bs := by
    intro bs name type offset as htype ih
    rw [scanActions_field]
    split
    · exact List.suffix_refl bs
    · exact (ih _).trans htype
  induction as using actionsRec generalizing bs with
  | nil => exact List.suffix_refl bs
  | builtin name object offset as ih =>
      exact hfield bs name _ offset as (List.drop_suffix _ _) ih
  | struct name typeName inner offset as ihInner ih =>
      exact hfield bs name _ offset as (ihInner bs) ih
  | transformationAction t as ih => exact List.suffix_refl bs
  | annotationAction name as ih => exact ih bs

theorem FieldType.scan_suffix (bs : List UInt8) : ∀ type : FieldType, (type.scan bs).1 <:+ bs
  | .builtin _ => List.drop_suffix _ _
  | .struct _ actions => scanActions_suffix bs actions

theorem length_scanActions_le (bs : List UInt8) (as : List Action) :
    (scanActions bs as).1.length ≤ bs.length := (scanActions_suffix bs as).length_le

/-- The state where reading ends. -/
def DecodeState.after (offset : UInt32) (bs rest : List UInt8) : DecodeState :=
  start (offset + UInt32.ofInt ((bs.length : Int) - rest.length)) rest

theorem DecodeState.after_self (offset : UInt32) (bs : List UInt8) :
    after offset bs bs = start offset bs := by
  rw [after, Int.sub_self]
  exact congrArg (start · bs) (UInt32.add_zero offset)

theorem DecodeState.after_after (offset : UInt32) (bs mid rest : List UInt8) :
    after (offset + UInt32.ofInt ((bs.length : Int) - mid.length)) mid rest =
      after offset bs rest := by
  rw [after, after, UInt32.add_assoc, ← UInt32.ofInt_add]
  congr 3
  omega

theorem DecodeState.advance_suffix {offset : UInt32} {bs rest : List UInt8} (h : rest <:+ bs) :
    (start offset bs).advance ((bs.length : Int) - rest.length) = after offset bs rest := by
  have hle := h.length_le
  have htoNat : ((bs.length : Int) - rest.length).toNat = bs.length - rest.length := by omega
  rw [advance_start (by omega) (by omega), htoNat, after, ← List.suffix_iff_eq_drop.1 h]

/-- `Fill` returns how many bytes have been read. -/
def FieldType.Scanned (type : FieldType) (offset : UInt32) (bs : List UInt8) : Prop :=
  (type.fill (.start offset bs)).1.toNat = bs.length - (type.scan bs).1.length

theorem FieldType.Scanned.advance {type : FieldType} {offset : UInt32} {bs : List UInt8}
    (h : type.Scanned offset bs) (hpos : 0 < (type.fill (.start offset bs)).1) :
    (DecodeState.start offset bs).advance (type.fill (.start offset bs)).1 =
      .after offset bs (type.scan bs).1 := by
  have hsuffix := type.scan_suffix bs
  have hle := hsuffix.length_le
  rw [Scanned] at h
  have hr : (type.fill (.start offset bs)).1 = (bs.length : Int) - (type.scan bs).1.length := by
    omega
  rw [hr, DecodeState.advance_suffix hsuffix]

theorem FieldType.Scanned.pos_iff {type : FieldType} {offset : UInt32} {bs : List UInt8}
    (h : type.Scanned offset bs) :
    0 < (type.fill (.start offset bs)).1 ↔ (type.scan bs).1.length ≠ bs.length := by
  have hle := (type.scan_suffix bs).length_le
  rw [Scanned] at h
  omega

theorem FieldType.scanned_builtin (b : Builtin) (offset : UInt32) {bs : List UInt8}
    (hbs : bs.length < 2 ^ 31) : (builtin b).Scanned offset bs := by
  have htake := BuiltinType.takes_le bs b.type
  show (b.type.fill b.cells (.start offset bs)).1.toNat =
    bs.length - (bs.drop (b.type.takes bs)).length
  rw [BuiltinType.toNat_fill _ _ hbs, List.length_drop]
  omega

theorem FieldType.scanned_struct (name : String) {actions : List Action} {offset : UInt32}
    {bs : List UInt8}
    (h : (processActions (.start offset bs) actions).1 =
      .after offset bs (scanActions bs actions).1) :
    (struct name actions).Scanned offset bs := by
  have hle := length_scanActions_le bs actions
  rw [Scanned, fill_struct, h]
  show ((bs.length : Int) - (scanActions bs actions).1.length).toNat =
    bs.length - (scanActions bs actions).1.length
  omega

/-- A field that reads some bytes is filled, and what follows it is read from there. -/
theorem processActions_of_taken {type : FieldType} {offset : UInt32} {bs : List UInt8}
    (hscanned : type.Scanned offset bs) (hlen : (type.scan bs).1.length ≠ bs.length) (name : String)
    (dataOffset : UInt32) (as : List Action) :
    processActions (.start offset bs) (.field name type dataOffset :: as) =
      ((processActions (.after offset bs (type.scan bs).1) as).1,
        .field name (type.fill (.start offset bs)).2 offset ::
          (processActions (.after offset bs (type.scan bs).1) as).2) := by
  have hpos := hscanned.pos_iff.2 hlen
  rw [processActions_field, if_neg (Int.not_le.2 hpos), hscanned.advance hpos]
  rfl

theorem scanActions_of_taken {type : FieldType} {bs : List UInt8}
    (hlen : (type.scan bs).1.length ≠ bs.length) (name : String) (dataOffset : UInt32)
    (as : List Action) :
    scanActions bs (.field name type dataOffset :: as) =
      ((scanActions (type.scan bs).1 as).1,
        (type.scan bs).2 && (scanActions (type.scan bs).1 as).2) := if_neg hlen

theorem scan_taken {bs : List UInt8} {name : String} {type : FieldType} {offset : UInt32}
    {as : List Action} (h : (scanActions bs (.field name type offset :: as)).2 = true) :
    (type.scan bs).1.length ≠ bs.length ∧ (type.scan bs).2 = true ∧
      (scanActions (type.scan bs).1 as).2 = true := by
  by_cases hlen : (type.scan bs).1.length = bs.length
  · rw [scanActions_field, if_pos hlen] at h
    cases h
  · rw [scanActions_of_taken hlen] at h
    exact ⟨hlen, Bool.and_eq_true_iff.1 h⟩

theorem fst_processActions_field {type : FieldType} {offset : UInt32} {bs : List UInt8}
    (hscanned : type.Scanned offset bs) (name : String) (dataOffset : UInt32) {as : List Action}
    (ih : ∀ offset, (processActions (.start offset (type.scan bs).1) as).1 =
      .after offset (type.scan bs).1 (scanActions (type.scan bs).1 as).1) :
    (processActions (.start offset bs) (.field name type dataOffset :: as)).1 =
      .after offset bs (scanActions bs (.field name type dataOffset :: as)).1 := by
  by_cases hlen : (type.scan bs).1.length = bs.length
  · -- the field takes nothing, and both stop at it
    rw [processActions_field, scanActions_field, if_pos hlen,
      if_pos (Int.not_lt.1 fun h => hscanned.pos_iff.1 h hlen), DecodeState.after_self]
  · rw [processActions_of_taken hscanned hlen, scanActions_of_taken hlen]
    show (processActions (.after offset bs _) as).1 = _
    rw [DecodeState.after, ih, DecodeState.after_after]

/-- Decoding gets as far as reading. -/
theorem fst_processActions {as : List Action} (hplain : PlainActions as) (offset : UInt32)
    {bs : List UInt8} (hbs : bs.length < 2 ^ 31) :
    (processActions (.start offset bs) as).1 = .after offset bs (scanActions bs as).1 := by
  induction as using actionsRec generalizing offset bs with
  | nil => exact (DecodeState.after_self offset bs).symm
  | builtin name object dataOffset as ih =>
      apply fst_processActions_field (FieldType.scanned_builtin object offset hbs)
      intro offset'
      apply ih hplain.2
      exact Nat.lt_of_le_of_lt (FieldType.scan_suffix bs (.builtin object)).length_le hbs
  | struct name typeName inner dataOffset as ihInner ih =>
      apply fst_processActions_field
      · exact FieldType.scanned_struct typeName (ihInner hplain.1 offset hbs)
      · intro offset'
        apply ih hplain.2
        exact Nat.lt_of_le_of_lt (length_scanActions_le bs inner) hbs
  | transformationAction t as ih => exact hplain.elim
  | annotationAction name as ih => exact ih hplain offset hbs

/-! ## Packets -/

/-- No transformation is in the packet. -/
structure Packet.Plain (p : Packet) : Prop where
  actions : PlainActions p.actions
  subpackets : ∀ sp ∈ p.subpackets, PlainActions sp.actions

/-- The subpacket that reads the bytes to their end. -/
def Packet.subpacketFor (p : Packet) (bs : List UInt8) : Option Nat :=
  p.subpackets.findIdx? fun sp => (scanActions bs sp.actions).1.isEmpty

/-- How the packet reads the bytes to their end, if it does: the subpacket, and whether everything
is filled. -/
def Packet.reading (p : Packet) (bs : List UInt8) : Option (Option Nat × Bool) :=
  let header := scanActions bs p.actions
  if p.subpackets.isEmpty then
    if header.1.isEmpty then some (none, header.2) else none
  else if (bs.length : Int) - header.1.length ≠ p.numPacketBytes then
    -- the packet is rejected with a size of zero, which no bytes match
    if bs.isEmpty then some (none, header.2) else none
  else
    match p.subpacketFor header.1 with
    | none => none
    | some k =>
        p.subpackets[k]?.map fun sp => (some k, header.2 && (scanActions header.1 sp.actions).2)

theorem Subpacket.attempt_start {sp : Subpacket} (hplain : PlainActions sp.actions)
    (offset : UInt32) {bs : List UInt8} (hbs : bs.length < 2 ^ 31) :
    (sp.attempt (.start offset bs)).1 = (scanActions bs sp.actions).1.isEmpty := by
  have hle := length_scanActions_le bs sp.actions
  rw [Bool.eq_iff_iff, List.isEmpty_iff_length_eq_zero]
  show decide _ = true ↔ _
  rw [decide_eq_true_iff, fst_processActions hplain offset hbs]
  show (bs.length : Int) - (scanActions bs sp.actions).1.length = bs.length ↔ _
  omega

/-- The subpackets are tried on what the header leaves. -/
theorem Packet.firstMatch_subpackets {p : Packet} (hplain : p.Plain) (offset : UInt32)
    {bs : List UInt8} (hbs : bs.length < 2 ^ 31) :
    (List.firstMatch (Subpacket.attempt (.start offset bs)) p.subpackets).1 =
      p.subpacketFor bs := by
  apply List.fst_firstMatch
  intro sp hsp
  exact Subpacket.attempt_start (hplain.subpackets sp hsp) offset hbs

/-- Bytes that nothing is left of are read to their end by any subpacket. -/
theorem Packet.isSome_subpacketFor_nil {p : Packet} (hsub : p.subpackets ≠ []) :
    (p.subpacketFor []).isSome := by
  obtain ⟨sp, rest, hsp⟩ := List.exists_cons_of_ne_nil hsub
  have hnil : (scanActions [] sp.actions).1 = [] :=
    List.suffix_nil.1 (scanActions_suffix [] sp.actions)
  rw [subpacketFor, hsp, List.findIdx?_cons, hnil]
  rfl

theorem Packet.headerSize_start {p : Packet} (hplain : PlainActions p.actions) (offset : UInt32)
    {bs : List UInt8} (hbs : bs.length < 2 ^ 31) :
    p.headerSize (.start offset bs) = (bs.length : Int) - (scanActions bs p.actions).1.length := by
  rw [headerSize, fst_processActions hplain offset hbs]
  rfl

section Fill

variable {p : Packet} (hplain : p.Plain) (offset : UInt32) {bs : List UInt8}
  (hbs : bs.length < 2 ^ 31)

include hplain hbs

theorem Packet.fill_alone (hsub : p.subpackets = []) :
    (p.fill (.start offset bs)).1 = (bs.length : Int) - (scanActions bs p.actions).1.length ∧
      (p.fill (.start offset bs)).2.lastSubpacket = none := by
  have hsize := headerSize_start hplain.actions offset hbs
  have hle := length_scanActions_le bs p.actions
  -- there is no subpacket to try
  have htry : p.trySubpackets (.start offset bs) = (none, []) := by
    rw [trySubpackets, hsub]
    rfl
  have hfill := fill_of_checked (s := .start offset bs) (p := p) (by omega) (fun h => h.1 hsub)
  have hzero : p.subpacketSize (.start offset bs) = 0 := by
    rw [subpacketSize, htry]
    exact if_neg Bool.false_ne_true
  rw [hfill, hsize, hzero, Int.add_zero]
  exact ⟨rfl, congrArg Prod.fst htry⟩

theorem Packet.fill_mismatch (hsub : p.subpackets ≠ [])
    (hsize : (bs.length : Int) - (scanActions bs p.actions).1.length ≠ p.numPacketBytes) :
    (p.fill (.start offset bs)).1 = 0 ∧ (p.fill (.start offset bs)).2.lastSubpacket = none := by
  rw [← headerSize_start hplain.actions offset hbs] at hsize
  rw [fill_of_rejected (Or.inr ⟨hsub, hsize⟩)]
  exact ⟨rfl, rfl⟩

/-- A header of the right size is followed by a subpacket, which takes the rest. -/
theorem Packet.fill_header
    (hsize : (bs.length : Int) - (scanActions bs p.actions).1.length = p.numPacketBytes) :
    (p.fill (.start offset bs)).1 = p.numPacketBytes +
        (if (p.subpacketFor (scanActions bs p.actions).1).isSome then
          ((scanActions bs p.actions).1.length : Int) else 0) ∧
      (p.fill (.start offset bs)).2.lastSubpacket = p.subpacketFor (scanActions bs p.actions).1 ∧
      (p.fill (.start offset bs)).2.subpackets =
        (List.firstMatch (Subpacket.attempt (.after offset bs (scanActions bs p.actions).1))
          p.subpackets).2 := by
  have hheader := headerSize_start hplain.actions offset hbs
  have hle := length_scanActions_le bs p.actions
  -- the subpackets are tried where the header ends, as it has its size
  have hstate : (DecodeState.start offset bs).advance p.numPacketBytes =
      .after offset bs (scanActions bs p.actions).1 := by
    rw [← hsize, DecodeState.advance_suffix (scanActions_suffix bs p.actions)]
  have htry : p.trySubpackets (.start offset bs) =
      List.firstMatch (Subpacket.attempt (.after offset bs (scanActions bs p.actions).1))
        p.subpackets := by
    rw [trySubpackets, hstate]
  have hfirst : (p.trySubpackets (.start offset bs)).1 =
      p.subpacketFor (scanActions bs p.actions).1 := by
    rw [htry]
    exact firstMatch_subpackets hplain _ (by omega)
  have hleft : (DecodeState.start offset bs).dataLeft - p.numPacketBytes =
      ((scanActions bs p.actions).1.length : Int) := by
    show (bs.length : Int) - p.numPacketBytes = _
    omega
  have hfill := fill_of_checked (s := .start offset bs) (p := p) (by omega)
    (fun h => h.2 (hheader.trans hsize))
  rw [hfill]
  refine ⟨?_, hfirst, congrArg Prod.snd htry⟩
  show p.headerSize _ + p.subpacketSize _ = _
  rw [subpacketSize, hfirst, hleft, hheader, hsize]

/-- The packet takes all of the bytes when it reads them to their end, and no others. -/
theorem Packet.fill_start :
    match p.reading bs with
    | none => (p.fill (.start offset bs)).1 ≠ bs.length
    | some (sel, _) => (p.fill (.start offset bs)).1 = bs.length ∧
        (p.fill (.start offset bs)).2.lastSubpacket = sel := by
  have hle := length_scanActions_le bs p.actions
  unfold reading
  dsimp only
  by_cases hsub : p.subpackets = []
  · obtain ⟨hfill, hlast⟩ := fill_alone hplain offset hbs hsub
    rw [if_pos (List.isEmpty_iff.2 hsub)]
    by_cases hrest : (scanActions bs p.actions).1 = []
    · rw [if_pos (List.isEmpty_iff.2 hrest)]
      refine ⟨?_, hlast⟩
      rw [hfill, hrest]
      exact Int.sub_zero _
    · rw [if_neg (mt List.isEmpty_iff.1 hrest)]
      have := List.length_pos_iff.2 hrest
      dsimp only
      omega
  rw [if_neg (mt List.isEmpty_iff.1 hsub)]
  by_cases hsize : (bs.length : Int) - (scanActions bs p.actions).1.length = p.numPacketBytes
  · obtain ⟨hfill, hlast, -⟩ := fill_header hplain offset hbs hsize
    rw [if_neg fun h => h hsize]
    cases hsel : p.subpacketFor (scanActions bs p.actions).1 with
    | none =>
        rw [hsel, Option.isSome_none, if_neg Bool.false_ne_true] at hfill
        intro hall
        -- without a subpacket the size could be right only if the header took all
        have hrest : (scanActions bs p.actions).1 = [] := by
          apply List.length_eq_zero_iff.1
          omega
        rw [hrest] at hsel
        have hsome := isSome_subpacketFor_nil hsub
        rw [hsel] at hsome
        cases hsome
    | some k =>
        obtain ⟨sp, hsp, -⟩ := List.findIdx?_eq_some.1 hsel
        rw [hsel, Option.isSome_some, if_pos rfl] at hfill
        rw [hsel] at hlast
        dsimp only
        rw [hsp]
        exact ⟨by omega, hlast⟩
  · -- the header is not of its size, and only the empty payload is matched by zero
    obtain ⟨hfill, hlast⟩ := fill_mismatch hplain offset hbs hsub hsize
    rw [if_pos hsize]
    by_cases hnil : bs = []
    · rw [if_pos (List.isEmpty_iff.2 hnil)]
      refine ⟨?_, hlast⟩
      rw [hfill, hnil]
      rfl
    · rw [if_neg (mt List.isEmpty_iff.1 hnil)]
      have := List.length_pos_iff.2 hnil
      dsimp only
      omega

end Fill

theorem Packet.reading_cases {p : Packet} {bs : List UInt8} {sel : Option Nat} {full : Bool}
    (h : p.reading bs = some (sel, full)) :
    (sel = none ∧ (scanActions bs p.actions).1 = [] ∧ full = (scanActions bs p.actions).2) ∨
    ∃ k sp, sel = some k ∧
      (bs.length : Int) - (scanActions bs p.actions).1.length = p.numPacketBytes ∧
      p.subpacketFor (scanActions bs p.actions).1 = some k ∧ p.subpackets[k]? = some sp ∧
      full = ((scanActions bs p.actions).2 &&
        (scanActions (scanActions bs p.actions).1 sp.actions).2) := by
  unfold reading at h
  dsimp only at h
  by_cases hsub : p.subpackets.isEmpty
  · rw [if_pos hsub] at h
    by_cases hrest : (scanActions bs p.actions).1.isEmpty
    · rw [if_pos hrest] at h
      cases h
      exact Or.inl ⟨rfl, List.isEmpty_iff.1 hrest, rfl⟩
    · rw [if_neg hrest] at h
      cases h
  rw [if_neg hsub] at h
  by_cases hsize : (bs.length : Int) - (scanActions bs p.actions).1.length = p.numPacketBytes
  · rw [if_neg fun hne => hne hsize] at h
    cases hsel : p.subpacketFor (scanActions bs p.actions).1 with
    | none =>
        rw [hsel] at h
        cases h
    | some k =>
        rw [hsel] at h
        obtain ⟨sp, hsp, hread⟩ := Option.map_eq_some_iff.1 h
        cases hread
        exact Or.inr ⟨k, sp, rfl, hsize, rfl, hsp, rfl⟩
  · rw [if_pos hsize] at h
    -- only an empty payload is accepted with a header that is not full
    by_cases hnil : bs.isEmpty
    · rw [if_pos hnil] at h
      cases h
      obtain rfl := List.isEmpty_iff.1 hnil
      exact Or.inl ⟨rfl, List.suffix_nil.1 (scanActions_suffix [] p.actions), rfl⟩
    · rw [if_neg hnil] at h
      cases h

/-! ## Definitions -/

/-- No transformation is in the definition. -/
def Plain (d : ProtocolDefinition) : Prop := ∀ p ∈ d.packets, p.Plain

/-- The first packet that reads the payload to its end is returned. -/
theorem fst_process {d : ProtocolDefinition} (hplain : d.Plain) (offset : UInt32) {bs : List UInt8}
    (hbs : bs.length < 2 ^ 31) :
    (d.process offset bs).1 = d.packets.findIdx? fun p => (p.reading bs).isSome := by
  apply List.fst_firstMatch
  intro p hp
  have hfill := Packet.fill_start (hplain p hp) offset hbs
  show decide _ = _
  cases hreading : p.reading bs with
  | none =>
      rw [hreading] at hfill
      exact decide_eq_false hfill
  | some r =>
      rw [hreading] at hfill
      exact decide_eq_true hfill.1

/-- The packet returned is as `Fill` has left it. -/
theorem packets_process {d : ProtocolDefinition} {offset : UInt32} {bs : List UInt8} {i : Nat}
    (h : (d.process offset bs).1 = some i) :
    (d.process offset bs).2.packets[i]? =
      d.packets[i]?.map fun p => (p.fill (.start offset bs)).2 :=
  List.getElem?_firstMatch h

end ProtocolDefinition

end OpenRom
