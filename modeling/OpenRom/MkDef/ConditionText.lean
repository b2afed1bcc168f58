import OpenRom.Library.TextArray
import OpenRom.Protocol.MatchCondition
import OpenRom.RomDump.FieldText

/-!
# The text of conditions

`GenerateMatchCondition` and `GenerateCInitialize` print into arrays of 1024 characters. What is
printed is the text of the comparisons that the generated parser makes, cut at the end of the array,
unless one of them begins behind it: the size that `snprintf` gets is negative then, and it writes
behind the array (`writeMatchCondition_ok`, `writeMatchCondition_error`).
-/

set_option autoImplicit false

namespace OpenRom

namespace ProtocolDefinition

open RomDump

/-! ## Arrays of characters -/

/-- What stops the generator. -/
inductive Stop
  | assertion
  | undefined -- it leaves an array, or reads what has not been stored
  deriving DecidableEq, Repr

/-- An array, with what has been stored in it. -/
abbrev CharArray := List (Option UInt8)

/-- `char s[1024]` -/
def uninitialized : CharArray := List.replicate 1024 none

theorem length_uninitialized : uninitialized.length = 1024 := List.length_replicate

/-- `snprintf(s + offset, sizeof(s) - offset, "%s", text)` -/
def snprintfAt (offset : Nat) (text : List UInt8) (s : CharArray) : Except Stop CharArray :=
  match List.printAt (some 0) offset (text.map some) s with
  | some s => .ok s
  | none => .error .undefined

/-- `strcpy(s, "")` -/
def strcpyEmpty : CharArray → Except Stop CharArray
  | [] => .error .undefined
  | _ :: s => .ok (some 0 :: s)

/-- The string in an array, as `strlen` and `%s` read it. -/
def readString : CharArray → Except Stop (List UInt8)
  | [] => .error .undefined
  | none :: _ => .error .undefined
  | some c :: s => if c = 0 then .ok [] else (readString s).map (c :: ·)

/-- The bytes of a name in the definition, as `%s` reads them. -/
def nameOf (s : String) : List UInt8 := (utf8Of s).takeWhile (· ≠ 0)

/-! ## The code -/

/-- `m_Format == F_HEX ? "0x%x" : "%d"` -/
def fixedValueText (format : Format) (value : UInt32) : List UInt8 :=
  match format with
  | .hex => numberText .hex value.toNat
  | .decimal => signedText value.toNat

/-- `GenerateCInitialize` of a numeric type. -/
def UnsignedType.writeCInitialize (t : UnsignedType) (sCode : CharArray) :
    Except Stop CharArray := do
  let sCode ← strcpyEmpty sCode
  match t.fixedValue with
  | none => return sCode
  | some value =>
      -- an array with a fixed value can be loaded, but not printed
      if t.count ≠ 1 then throw .assertion
      else snprintfAt 0 (fixedValueText t.format value) sCode

def BuiltinType.writeCInitialize (sCode : CharArray) : BuiltinType → Except Stop CharArray
  | unsigned t => t.writeCInitialize sCode
  | signed t => t.writeCInitialize sCode
  | string _ _ => strcpyEmpty sCode
  | float _ _ => strcpyEmpty sCode
  | double _ _ => strcpyEmpty sCode
  | length => strcpyEmpty sCode
  | unixtime => strcpyEmpty sCode

mutual

/-- `GenerateCInitialize`, on an array of `iLength` characters. -/
def FieldType.writeCInitialize (sCode : CharArray) : FieldType → Except Stop CharArray
  | .builtin object => object.type.writeCInitialize sCode
  | .struct _ actions => do
      let sCode ← strcpyEmpty sCode
      writeCInitializers 0 sCode actions

/-- The loop of `Struct::GenerateCInitialize`. -/
def writeCInitializers (iCurrent : Nat) (sCode : CharArray) :
    List Action → Except Stop CharArray
  | [] => .ok sCode
  | .field _ type _ :: as => do
      let rest ← type.writeCInitialize (sCode.drop iCurrent)
      -- the next field is printed over the end of the string
      let text ← readString rest
      writeCInitializers (iCurrent + text.length) (sCode.take iCurrent ++ rest) as
  | .transformationAction _ :: as => writeCInitializers iCurrent sCode as
  | .annotationAction _ :: as => writeCInitializers iCurrent sCode as

end

/-- `((struct %s::Packet*)pData)->m_%s` -/
def memberText (sPacketName name : List UInt8) : List UInt8 :=
  utf8Of "((struct " ++ sPacketName ++ utf8Of "::Packet*)pData)->m_" ++ name

def andText : List UInt8 := utf8Of " && "

def comparisonText (sPacketName name sInit : List UInt8) : List UInt8 :=
  memberText sPacketName name ++ utf8Of " == " ++ sInit

/-- The ` && ` in front of a comparison that is not the first. -/
def writeAnd (iOffset : Nat) (sOutput : CharArray) : Except Stop (Nat × CharArray) :=
  if 0 < iOffset then do
    let sOutput ← snprintfAt iOffset andText sOutput
    return (iOffset + andText.length, sOutput)
  else return (iOffset, sOutput)

/-- `GenerateMatchCondition`, with `iOffset` at its end, which is zero when it returns `false`. -/
def writeMatchCondition (sPacketName : List UInt8) (iOffset : Nat) (sOutput : CharArray) :
    List Action → Except Stop (Nat × CharArray)
  | [] => .ok (iOffset, sOutput)
  | .field name type _ :: as => do
      let sInit ← type.writeCInitialize uninitialized
      let init ← readString sInit
      if init = [] then writeMatchCondition sPacketName iOffset sOutput as
      else do
        let (iOffset, sOutput) ← writeAnd iOffset sOutput
        let text := comparisonText sPacketName (nameOf name) init
        let sOutput ← snprintfAt iOffset text sOutput
        -- `snprintf` returns the length of all of the text, also when it is cut
        writeMatchCondition sPacketName (iOffset + text.length) sOutput as
  | .transformationAction _ :: as => writeMatchCondition sPacketName iOffset sOutput as
  | .annotationAction _ :: as => writeMatchCondition sPacketName iOffset sOutput as

/-! ## Strings in arrays -/

/-- The array holds a string, as far as it fits. -/
abbrev HoldsString (n : Nat) (text : List UInt8) (s : CharArray) : Prop :=
  List.HoldsText (some 0) n (text.map some) s

theorem readString_append {text : List UInt8} (htext : 0 ∉ text) (rest : CharArray) :
    readString (text.map some ++ some 0 :: rest) = .ok text := by
  induction text with
  | nil => rfl
  | cons c text ih =>
      obtain ⟨hc, htext⟩ := not_or.1 (mt List.mem_cons.2 htext)
      rw [List.map_cons, List.cons_append, readString, if_neg (Ne.symm hc), ih htext]
      rfl

theorem HoldsString.readString {n : Nat} {text : List UInt8} {s : CharArray}
    (h : HoldsString n text s) (htext : 0 ∉ text) :
    readString s = .ok (text.take (n - 1)) := by
  obtain ⟨-, rest, rfl⟩ := h
  rw [← List.map_take]
  exact readString_append (fun hmem => htext (List.mem_of_mem_take hmem)) rest

theorem strcpyEmpty_eq {s : CharArray} (hs : 0 < s.length) :
    ∃ s', strcpyEmpty s = .ok s' ∧ HoldsString s.length [] s' := by
  cases s with
  | nil => cases hs
  | cons c s => exact ⟨some 0 :: s, rfl, rfl, s, by rw [List.map_nil, List.take_nil]; rfl⟩

/-! ## Initial values -/

def Literal.text : Literal → List UInt8
  | hex v => fixedValueText .hex v
  | decimal v => fixedValueText .decimal v

/-- The values of the fields of a struct stand one behind the other. -/
def literalsText (literals : List Literal) : List UInt8 := literals.flatMap Literal.text

theorem zero_not_mem_of_allDigits {base : Nat} {cs : List UInt8} (h : AllDigits base cs) :
    0 ∉ cs := by
  intro hmem
  obtain ⟨d, hd⟩ := h 0 hmem
  exact (ne_of_digit hd).2.1 rfl

theorem zero_not_mem_decimal (n : Nat) : 0 ∉ decimal n :=
  zero_not_mem_of_allDigits (allDigits_decimal n)

theorem zero_not_mem_fixedValueText (format : Format) (value : UInt32) :
    0 ∉ fixedValueText format value := by
  cases format with
  | hex =>
      have hstart : (0 : UInt8) ∉ [0x30, 0x78] := by decide
      have hdigits := zero_not_mem_of_allDigits (allDigits_hexNumber value.toNat)
      exact fun hmem => (List.mem_append.1 hmem).elim hstart hdigits
  | decimal =>
      rw [fixedValueText, signedText]
      split
      · exact zero_not_mem_decimal _
      · exact fun hmem => (List.mem_cons.1 hmem).elim (by decide) (zero_not_mem_decimal _)

theorem zero_not_mem_literalsText (literals : List Literal) : 0 ∉ literalsText literals := by
  intro hmem
  obtain ⟨literal, -, hliteral⟩ := List.mem_flatMap.1 hmem
  cases literal with
  | hex v => exact zero_not_mem_fixedValueText .hex v hliteral
  | decimal v => exact zero_not_mem_fixedValueText .decimal v hliteral

theorem Literal.text_ne_nil (literal : Literal) : literal.text ≠ [] := by
  cases literal with
  | hex v => exact numberText_ne_nil .hex v.toNat
  | decimal v => exact signedText_ne_nil v.toNat

theorem snprintfAt_zero {s : CharArray} (hs : 0 < s.length) (text : List UInt8) :
    ∃ s', snprintfAt 0 text s = .ok s' ∧ HoldsString s.length text s' := by
  obtain ⟨s', hprint, h⟩ := List.printAt_zero (some 0) hs rfl (text.map some)
  exact ⟨s', by rw [snprintfAt, hprint], h⟩

theorem literalsText_singleton (literal : Literal) : literalsText [literal] = literal.text :=
  List.append_nil _

theorem UnsignedType.writeCInitialize_eq {t : UnsignedType} {literals : List Literal}
    (h : t.generateCInitialize = some literals) {sCode : CharArray} (hs : 0 < sCode.length) :
    ∃ s', t.writeCInitialize sCode = .ok s' ∧
      HoldsString sCode.length (literalsText literals) s' := by
  obtain ⟨s, hempty, hheld⟩ := strcpyEmpty_eq hs
  rw [writeCInitialize, hempty]
  rw [generateCInitialize] at h
  cases hfixed : t.fixedValue with
  | none =>
      rw [hfixed] at h
      cases h
      exact ⟨s, rfl, hheld⟩
  | some value =>
      simp only [hfixed] at h
      by_cases hcount : t.count ≠ 1
      · -- the assertion fails, and there is no initial value
        rw [if_pos hcount] at h
        cases h
      · rw [if_neg hcount] at h
        have htext : literalsText literals = fixedValueText t.format value := by
          cases hformat : t.format <;> rw [hformat] at h <;> cases h <;>
            exact literalsText_singleton _
        obtain ⟨s', hprint, hheld'⟩ :=
          snprintfAt_zero (hheld.1.symm ▸ hs) (fixedValueText t.format value)
        rw [hheld.1] at hheld'
        refine ⟨s', ?_, htext ▸ hheld'⟩
        show (if t.count ≠ 1 then throw Stop.assertion else _) = _
        rw [if_neg hcount, hprint]

theorem BuiltinType.writeCInitialize_eq {type : BuiltinType} {literals : List Literal}
    (h : type.generateCInitialize = some literals) {sCode : CharArray} (hs : 0 < sCode.length) :
    ∃ s', type.writeCInitialize sCode = .ok s' ∧
      HoldsString sCode.length (literalsText literals) s' := by
  cases type with
  | unsigned t => exact UnsignedType.writeCInitialize_eq h hs
  | signed t => exact UnsignedType.writeCInitialize_eq h hs
  -- the others have no fixed values
  | string n minLength => cases h; exact strcpyEmpty_eq hs
  | float count displayCount => cases h; exact strcpyEmpty_eq hs
  | double count displayCount => cases h; exact strcpyEmpty_eq hs
  | length => cases h; exact strcpyEmpty_eq hs
  | unixtime => cases h; exact strcpyEmpty_eq hs

/-- What the type prints into an array is its initial value, as far as it fits. -/
def FieldType.Writes (type : FieldType) : Prop :=
  ∀ {literals : List Literal}, type.generateCInitialize = some literals →
    ∀ {sCode : CharArray}, 0 < sCode.length → ∃ s', type.writeCInitialize sCode = .ok s' ∧
      HoldsString sCode.length (literalsText literals) s'

/-- The loop over the fields continues the string in the array with their initial values. -/
def WritesAll (as : List Action) : Prop :=
  ∀ {literals : List Literal}, generateCInitializers as = some literals →
    ∀ {n : Nat} {front : List UInt8} {sCode : CharArray}, 0 < n → HoldsString n front sCode →
      ∃ s', writeCInitializers (min front.length (n - 1)) sCode as = .ok s' ∧
        HoldsString n (front ++ literalsText literals) s'

theorem FieldType.writes_builtin (object : Builtin) : (FieldType.builtin object).Writes :=
  BuiltinType.writeCInitialize_eq

theorem FieldType.writes_struct {name : String} {inner : List Action} (h : WritesAll inner) :
    (FieldType.struct name inner).Writes := by
  intro literals hinit sCode hs
  -- the loop starts behind an empty string
  obtain ⟨s, hempty, hheld⟩ := strcpyEmpty_eq hs
  obtain ⟨s', hloop, hheld'⟩ := h hinit hs hheld
  refine ⟨s', ?_, hheld'⟩
  rw [List.length_nil, Nat.zero_min] at hloop
  rw [writeCInitialize, hempty, ← hloop]
  rfl

theorem writesAll_field {name : String} {type : FieldType} {offset : UInt32} {as : List Action}
    (htype : type.Writes) (has : WritesAll as) : WritesAll (.field name type offset :: as) := by
  intro literals h n front sCode hn hheld
  rw [generateCInitializers] at h
  cases hinit : type.generateCInitialize with
  | none =>
      rw [hinit] at h
      cases h
  | some inits =>
      cases hothers : generateCInitializers as with
      | none =>
          rw [hinit, hothers] at h
          cases h
      | some others =>
          rw [hinit, hothers] at h
          cases h
          have hzero := zero_not_mem_literalsText inits
          have hdrop : (sCode.drop (min front.length (n - 1))).length =
              n - min front.length (n - 1) := by
            rw [List.length_drop, hheld.1]
          have hroom : 0 < n - min front.length (n - 1) := by omega
          obtain ⟨rest, hwrite, hrest⟩ := htype hinit (hdrop.symm ▸ hroom)
          rw [hdrop] at hrest
          -- the string in the array now, and its length
          have happend := hheld.append hn (by rw [List.length_map]; exact hrest)
          rw [List.length_map, ← List.map_append] at happend
          have hcurrent : min front.length (n - 1) +
              ((literalsText inits).take (n - min front.length (n - 1) - 1)).length =
              min (front ++ literalsText inits).length (n - 1) := by
            rw [List.length_take, List.length_append]
            omega
          obtain ⟨s', hloop, hheld'⟩ := has hothers hn happend
          refine ⟨s', ?_, ?_⟩
          · rw [writeCInitializers, hwrite, ← hloop, ← hcurrent]
            show (do
              let text ← readString rest
              writeCInitializers (min front.length (n - 1) + text.length) _ as) = _
            rw [HoldsString.readString hrest hzero]
            rfl
          · rw [literalsText, List.flatMap_append, ← List.append_assoc]
            exact hheld'

theorem writesAll (as : List Action) : WritesAll as := by
  induction as using actionsRec with
  | nil =>
      intro literals h n front sCode hn hheld
      cases h
      exact ⟨sCode, rfl, by rwa [literalsText, List.flatMap_nil, List.append_nil]⟩
  | builtin name object offset as ih => exact writesAll_field (FieldType.writes_builtin object) ih
  | struct name typeName inner offset as ihInner ih =>
      exact writesAll_field (FieldType.writes_struct ihInner) ih
  | transformationAction t as ih => exact ih
  | annotationAction name as ih => exact ih

theorem FieldType.writes (type : FieldType) : type.Writes := by
  cases type with
  | builtin object => exact writes_builtin object
  | struct name actions => exact writes_struct (writesAll actions)

theorem Literal.length_text_le (literal : Literal) : literal.text.length ≤ 11 := by
  cases literal with
  | hex v => exact Nat.le_trans (length_numberText_le v.toNat_lt .hex) (by decide)
  | decimal v =>
      have hdigits : ∀ n, n < 2 ^ 32 → (RomDump.decimal n).length ≤ 10 := fun n hn =>
        length_decimal_le (by decide) (Nat.lt_trans hn (by decide))
      have hv := v.toNat_lt
      rw [text, fixedValueText, signedText]
      split
      · exact Nat.le_succ_of_le (hdigits _ (by omega))
      · exact Nat.succ_le_succ (hdigits _ (by omega))

/-- The string that `GenerateMatchCondition` compares a member with. -/
theorem readString_writeCInitialize {type : FieldType} {literals : List Literal}
    (h : type.generateCInitialize = some literals) :
    ∃ s, type.writeCInitialize uninitialized = .ok s ∧
      readString s = .ok ((literalsText literals).take 1023) := by
  have hroom : 0 < uninitialized.length := by
    rw [length_uninitialized]
    decide
  obtain ⟨s, hwrite, hheld⟩ := type.writes h hroom
  rw [length_uninitialized] at hheld
  exact ⟨s, hwrite, HoldsString.readString hheld (zero_not_mem_literalsText literals)⟩

/-! ## Members -/

/-- The member at an offset behind the header, where the first is at `start`. -/
def memberAt (offset start : Nat) : List Action → Option String
  | [] => none
  | .field name type _ :: as =>
      if start = offset ∧ 0 < type.sizeof then some name
      else memberAt offset (start + type.sizeof) as
  | .transformationAction _ :: as => memberAt offset start as
  | .annotationAction _ :: as => memberAt offset start as

/-- Its name in the text. -/
def memberOf (start : Nat) (as : List Action) (offset : Nat) : List UInt8 :=
  ((memberAt offset start as).map nameOf).getD []

def Comparison.text (sPacketName : List UInt8) (start : Nat) (as : List Action) (c : Comparison) :
    List UInt8 :=
  comparisonText sPacketName (memberOf start as c.offset) c.literal.text

theorem memberOf_of_lt {start offset : Nat} {name : String} {type : FieldType}
    {dataOffset : UInt32} {as : List Action} (h : start + type.sizeof ≤ offset) :
    memberOf start (.field name type dataOffset :: as) offset =
      memberOf (start + type.sizeof) as offset := by
  have hne : ¬ (start = offset ∧ 0 < type.sizeof) := by omega
  rw [memberOf, memberAt, if_neg hne]
  rfl

theorem memberOf_self {start : Nat} {name : String} {type : FieldType} {dataOffset : UInt32}
    {as : List Action} (h : 0 < type.sizeof) :
    memberOf start (.field name type dataOffset :: as) start = nameOf name := by
  rw [memberOf, memberAt, if_pos ⟨rfl, h⟩]
  rfl

theorem FieldType.comparison_eq {type : FieldType} {offset : Nat} {literal : Literal}
    {c : Comparison} (h : type.comparison offset literal = some c) :
    c.offset = offset ∧ c.literal = literal ∧ 0 < type.sizeof := by
  have hpos : ∀ t : UnsignedType, 0 < max t.count 1 * t.width.bytes := fun t =>
    Nat.mul_pos (by omega) t.width.bytes_pos
  cases type with
  | struct => cases h
  | builtin object =>
      obtain ⟨type, cells, hcells⟩ := object
      cases type with
      | unsigned t => cases h; exact ⟨rfl, rfl, hpos t⟩
      | signed t => cases h; exact ⟨rfl, rfl, hpos t⟩
      | string => cases h
      | float => cases h
      | double => cases h
      | length => cases h
      | unixtime => cases h

theorem le_offset_of_mem {as : List Action} {offset : Nat} {cs : List Comparison}
    (h : generateMatchCondition offset as = some cs) : ∀ c ∈ cs, offset ≤ c.offset := by
  induction as generalizing offset cs with
  | nil =>
      cases h
      exact List.forall_mem_nil _
  | cons a as ih =>
      cases a with
      | field name type dataOffset =>
          obtain ⟨rest, hrest, hcs⟩ := generateMatchCondition_field h
          have hle : ∀ c ∈ rest, offset ≤ c.offset := fun c hc =>
            Nat.le_trans (Nat.le_add_right _ _) (ih hrest c hc)
          rcases hcs with ⟨-, rfl⟩ | ⟨literal, c, -, hc, rfl⟩
          · exact hle
          · exact List.forall_mem_cons.2 ⟨Nat.le_of_eq (FieldType.comparison_eq hc).1.symm, hle⟩
      | transformationAction t => exact ih h
      | annotationAction name => exact ih h

/-- Behind a field the members are found as they are without it. -/
theorem map_text_field {name : String} {type : FieldType} {dataOffset : UInt32}
    {as : List Action} {start : Nat} {cs : List Comparison}
    (h : generateMatchCondition (start + type.sizeof) as = some cs) (sPacketName : List UInt8) :
    cs.map (Comparison.text sPacketName start (.field name type dataOffset :: as)) =
      cs.map (Comparison.text sPacketName (start + type.sizeof) as) := by
  refine List.map_congr_left fun c hc => ?_
  rw [Comparison.text, memberOf_of_lt (le_offset_of_mem h c hc), Comparison.text]

/-! ## The loop -/

/-- What is printed behind a text of this length. -/
def piecesFrom (iOffset : Nat) (texts : List (List UInt8)) : List (List UInt8) :=
  if iOffset = 0 then texts.intersperse andText else texts.flatMap fun text => [andText, text]

/-- The pieces, each printed behind those in front of it. -/
def writePieces (iOffset : Nat) (sOutput : CharArray) (pieces : List (List UInt8)) :
    Except Stop (Nat × CharArray) :=
  match List.printAll (some 0) iOffset (pieces.map (·.map some)) sOutput with
  | some s => .ok (iOffset + pieces.flatten.length, s)
  | none => .error .undefined

theorem writePieces_cons (iOffset : Nat) (sOutput : CharArray) (piece : List UInt8)
    (pieces : List (List UInt8)) :
    writePieces iOffset sOutput (piece :: pieces) = (do
      let s ← snprintfAt iOffset piece sOutput
      writePieces (iOffset + piece.length) s pieces) := by
  rw [writePieces, List.map_cons, List.printAll, snprintfAt]
  cases List.printAt (some 0) iOffset (piece.map some) sOutput with
  | none => rfl
  | some s =>
      rw [Option.bind_some, List.length_map, List.flatten_cons, List.length_append, ← Nat.add_assoc]
      rfl

theorem intersperse_cons (text : List UInt8) (texts : List (List UInt8)) :
    (text :: texts).intersperse andText =
      text :: texts.flatMap fun text => [andText, text] := by
  induction texts generalizing text with
  | nil => rfl
  | cons next texts ih => rw [List.intersperse_cons_cons, ih, List.flatMap_cons]; rfl

theorem length_comparisonText_pos (sPacketName name sInit : List UInt8) :
    0 < (comparisonText sPacketName name sInit).length := by
  have hstart : 0 < (utf8Of "((struct ").length := by decide
  simp only [comparisonText, memberText, List.length_append]
  omega

/-- One text more, with ` && ` in front of it if it is not the first. -/
theorem writePieces_piecesFrom (iOffset : Nat) (sOutput : CharArray) {text : List UInt8}
    (htext : 0 < text.length) (texts : List (List UInt8)) :
    writePieces iOffset sOutput (piecesFrom iOffset (text :: texts)) = (do
      let (iOffset, sOutput) ← writeAnd iOffset sOutput
      let sOutput ← snprintfAt iOffset text sOutput
      writePieces (iOffset + text.length) sOutput
        (piecesFrom (iOffset + text.length) texts)) := by
  -- behind the text the offset is not zero any more
  have hrest : ∀ iOffset, piecesFrom (iOffset + text.length) texts =
      texts.flatMap fun text => [andText, text] := by
    intro iOffset
    exact if_neg (Nat.ne_of_gt (Nat.add_pos_right _ htext))
  simp only [hrest]
  rw [piecesFrom, writeAnd]
  by_cases hzero : iOffset = 0
  · rw [if_pos hzero, if_neg (Nat.not_lt.2 (Nat.le_of_eq hzero)), intersperse_cons,
      writePieces_cons]
    rfl
  · rw [if_neg hzero, if_pos (Nat.pos_of_ne_zero hzero), List.flatMap_cons, List.cons_append,
      List.cons_append, List.nil_append, writePieces_cons]
    cases snprintfAt iOffset andText sOutput with
    | error stop => rfl
    | ok s => exact writePieces_cons _ _ _ _

/-- A field with these initial values. -/
theorem writeMatchCondition_field {type : FieldType} {literals : List Literal}
    (h : type.generateCInitialize = some literals) (sPacketName : List UInt8) (iOffset : Nat)
    (sOutput : CharArray) (name : String) (dataOffset : UInt32) (as : List Action) :
    writeMatchCondition sPacketName iOffset sOutput (.field name type dataOffset :: as) =
      if (literalsText literals).take 1023 = [] then
        writeMatchCondition sPacketName iOffset sOutput as
      else (do
        let (iOffset, sOutput) ← writeAnd iOffset sOutput
        let text := comparisonText sPacketName (nameOf name) ((literalsText literals).take 1023)
        let sOutput ← snprintfAt iOffset text sOutput
        writeMatchCondition sPacketName (iOffset + text.length) sOutput as) := by
  obtain ⟨s, hwrite, hread⟩ := readString_writeCInitialize h
  rw [writeMatchCondition, hwrite]
  show (do
    let init ← readString s
    if init = [] then writeMatchCondition sPacketName iOffset sOutput as
    else _) = _
  rw [hread]
  rfl

/-- `GenerateMatchCondition` prints the comparisons that the parser makes. -/
theorem writeMatchCondition_eq_writePieces {as : List Action} {start : Nat} {cs : List Comparison}
    (h : generateMatchCondition start as = some cs) (sPacketName : List UInt8) (iOffset : Nat)
    (sOutput : CharArray) :
    writeMatchCondition sPacketName iOffset sOutput as =
      writePieces iOffset sOutput
        (piecesFrom iOffset (cs.map (Comparison.text sPacketName start as))) := by
  induction as generalizing start cs iOffset sOutput with
  | nil =>
      cases h
      rw [List.map_nil, piecesFrom]
      split <;> rfl
  | cons a as ih =>
      cases a with
      | transformationAction t => exact ih h iOffset sOutput
      | annotationAction name => exact ih h iOffset sOutput
      | field name type dataOffset =>
          obtain ⟨rest, hrest, hcs⟩ := generateMatchCondition_field h
          rcases hcs with ⟨hinit, rfl⟩ | ⟨literal, c, hinit, hc, rfl⟩
          · -- nothing to compare with
            rw [writeMatchCondition_field hinit, map_text_field hrest, ← ih hrest]
            exact if_pos rfl
          · obtain ⟨hoffset, hliteral, hsize⟩ := FieldType.comparison_eq hc
            -- the text of one number is not cut
            have hinitial : (literalsText [literal]).take 1023 = literal.text := by
              rw [literalsText_singleton]
              exact List.take_of_length_le (Nat.le_trans literal.length_text_le (by decide))
            have htext : Comparison.text sPacketName start (.field name type dataOffset :: as) c =
                comparisonText sPacketName (nameOf name) literal.text := by
              rw [Comparison.text, hoffset, hliteral, memberOf_self hsize]
            have hpos := length_comparisonText_pos sPacketName (nameOf name) literal.text
            rw [writeMatchCondition_field hinit, hinitial, if_neg literal.text_ne_nil,
              List.map_cons, htext, map_text_field hrest, writePieces_piecesFrom _ _ hpos]
            simp only [ih hrest]

/-! ## The criterium -/

/-- Where the last of the comparisons is printed. -/
def lastPlace (texts : List (List UInt8)) : Nat :=
  (texts.intersperse andText).dropLast.flatten.length

theorem length_pieces (texts : List (List UInt8)) :
    ((texts.intersperse andText).map
      (·.map (some : UInt8 → Option UInt8))).dropLast.flatten.length = lastPlace texts := by
  rw [← List.map_dropLast, ← List.map_flatten, List.length_map, lastPlace]

theorem writeMatchCondition_nil {as : List Action} {start : Nat}
    (h : generateMatchCondition start as = some []) (sPacketName : List UInt8) (s : CharArray) :
    writeMatchCondition sPacketName 0 s as = .ok (0, s) :=
  writeMatchCondition_eq_writePieces h sPacketName 0 s

section

variable {as : List Action} {start : Nat} {cs : List Comparison}
  (h : generateMatchCondition start as = some cs) {sPacketName : List UInt8} {s : CharArray}
  (hs : s.length = 1024)

include h hs

/-- Where it behaves, all of the text is printed, as far as it fits. -/
theorem writeMatchCondition_ok (hne : cs ≠ [])
    (hfits : lastPlace (cs.map (Comparison.text sPacketName start as)) ≤ 1024) :
    ∃ iOffset s', writeMatchCondition sPacketName 0 s as = .ok (iOffset, s') ∧ 0 < iOffset ∧
      HoldsString 1024 (andText.intercalate (cs.map (Comparison.text sPacketName start as)))
        s' := by
  rw [writeMatchCondition_eq_writePieces h, piecesFrom, if_pos rfl, writePieces]
  cases cs with
  | nil => exact absurd rfl hne
  | cons c cs =>
      have hpieces := intersperse_cons (c.text sPacketName start as)
        (cs.map (Comparison.text sPacketName start as))
      have hcons : (((c :: cs).map (Comparison.text sPacketName start as)).intersperse andText).map
          (·.map (some : UInt8 → Option UInt8)) ≠ [] := by
        rw [List.map_cons, hpieces]
        exact List.cons_ne_nil _ _
      rw [← length_pieces] at hfits
      obtain ⟨s', hprint, hheld⟩ :=
        List.printAll_holdsText (some 0) (by decide) hs hcons hfits
      rw [hprint]
      refine ⟨_, s', rfl, ?_, ?_⟩
      · rw [List.map_cons, hpieces, List.flatten_cons, List.length_append]
        exact Nat.add_pos_right _ (Nat.add_pos_left (length_comparisonText_pos _ _ _) _)
      · rw [← List.map_flatten] at hheld
        exact hheld

/-- It writes behind the array when the last comparison is printed there. -/
theorem writeMatchCondition_error
    (hlong : 1024 < lastPlace (cs.map (Comparison.text sPacketName start as))) :
    writeMatchCondition sPacketName 0 s as = .error .undefined := by
  rw [← length_pieces] at hlong
  have hnone := List.printAll_eq_none (some 0) (by decide) hs hlong
  rw [writeMatchCondition_eq_writePieces h, piecesFrom, if_pos rfl, writePieces, hnone]

end

theorem zero_not_mem_nameOf (s : String) : 0 ∉ nameOf s := by
  intro hmem
  have h := List.mem_takeWhile_imp hmem
  exact of_decide_eq_true h rfl

theorem zero_not_mem_memberOf (start : Nat) (as : List Action) (offset : Nat) :
    0 ∉ memberOf start as offset := by
  rw [memberOf]
  cases memberAt offset start as with
  | none => exact List.not_mem_nil
  | some name => exact zero_not_mem_nameOf name

theorem zero_not_mem_intercalate {texts : List (List UInt8)} (h : ∀ text ∈ texts, 0 ∉ text) :
    0 ∉ andText.intercalate texts := by
  have hand : 0 ∉ andText := by decide
  cases texts with
  | nil => exact List.not_mem_nil
  | cons text texts =>
      intro hmem
      rw [List.intercalate, intersperse_cons, List.flatten_cons, List.mem_append] at hmem
      rcases hmem with hmem | hmem
      · exact h text List.mem_cons_self hmem
      · obtain ⟨piece, hpiece, hmem⟩ := List.mem_flatten.1 hmem
        obtain ⟨next, hnext, hpiece⟩ := List.mem_flatMap.1 hpiece
        rcases List.mem_cons.1 hpiece with rfl | hpiece
        · exact hand hmem
        · rw [List.mem_singleton.1 hpiece] at hmem
          exact h next (List.mem_cons_of_mem _ hnext) hmem

theorem Literal.zero_not_mem_text (literal : Literal) : 0 ∉ literal.text :=
  literalsText_singleton literal ▸ zero_not_mem_literalsText [literal]

theorem Comparison.zero_not_mem_text {sPacketName : List UInt8} (h : 0 ∉ sPacketName) (start : Nat)
    (as : List Action) (c : Comparison) : 0 ∉ c.text sPacketName start as := by
  have hstruct : 0 ∉ utf8Of "((struct " := by decide
  have hpacket : 0 ∉ utf8Of "::Packet*)pData)->m_" := by decide
  have hequals : 0 ∉ utf8Of " == " := by decide
  have hmember := zero_not_mem_memberOf start as c.offset
  have hliteral := c.literal.zero_not_mem_text
  simp only [text, comparisonText, memberText, List.mem_append, not_or]
  exact ⟨⟨⟨⟨⟨hstruct, h⟩, hpacket⟩, hmember⟩, hequals⟩, hliteral⟩

end ProtocolDefinition

end OpenRom
