import OpenRom.Protocol.Enumerations
import OpenRom.Protocol.Signed
import OpenRom.RomDump.HexDump
import OpenRom.RomDump.ObjectIds

/-!
# The text of integer fields

`GetHumanReadableContent` and `Print` of `unsignedType` and `signedType`, over an array of 256
characters. The values can be read back from the text of a field, whatever its format and the names
in it (`integerText_readValues`).
-/

set_option autoImplicit false

namespace OpenRom.RomDump

open ProtocolDefinition

/-! ## The code -/

def less : UInt8 := 0x3c
def greater : UInt8 := 0x3e

/-- `m_Format == F_DECIMAL ? "%u" : "0x%x"` -/
def numberText (format : Format) (value : Nat) : List UInt8 :=
  match format with
  | .decimal => decimal value
  | .hex => [0x30, 0x78] ++ hexNumber value

/-- `"%d"` -/
def signedText (value : Nat) : List UInt8 :=
  if value < 2 ^ 31 then decimal value else dash :: decimal (2 ^ 32 - value)

/-- `m_Format == F_DECIMAL ? "%s <%u>" : "%s <0x%x>"` -/
def namedText (format : Format) (sValue : List UInt8) (value : Nat) : List UInt8 :=
  sValue ++ [space, less] ++ numberText format value ++ [greater]

/-- `"<length %d>"` -/
def lengthText (count : Nat) : List UInt8 :=
  [less, 0x6c, 0x65, 0x6e, 0x67, 0x74, 0x68, space] ++ decimal count ++ [greater]

/-- What `snprintf` leaves of a text in an array of this size. -/
def snprintf (size : Nat) (text : List UInt8) : List UInt8 := text.take (size - 1)

/-- The bytes of a string in the document. -/
def utf8Of (s : String) : List UInt8 := s.toUTF8.data.toList

/-- What an integer type refers to: its enumeration, and `Lookup` of the provider of its
annotation. -/
structure References where
  enumeration : Option Enumeration
  provider : Option (UInt32 → List UInt8)

namespace References

variable (refs : References)

/-- A name is shown before the number. -/
def Named : Prop := refs.enumeration.isSome ∨ refs.provider.isSome

instance : Decidable refs.Named :=
  inferInstanceAs (Decidable (refs.enumeration.isSome ∨ refs.provider.isSome))

/-- The name of a value. An enumeration that does not have it leaves it to the annotation. -/
def nameText (value : Nat) : List UInt8 :=
  match refs.enumeration.bind (·.lookup value), refs.provider with
  | some sValue, _ => utf8Of sValue
  | none, some lookup => lookup (.ofNat value)
  | none, none => [0x3f] -- "?"

end References

section Print

variable (refs : References) (t : UnsignedType)

/-- `unsignedType::GetHumanReadableContent`; there is no result when it reads behind the array. -/
def unsignedContent (outlen : Nat) (m_Value : List Nat) : Option (List UInt8) :=
  if refs.Named then do
    let value ← m_Value.head?
    return snprintf (outlen - 1) (namedText t.format (refs.nameText value) value)
  else if t.count ≠ 1 then return snprintf (outlen - 1) (lengthText t.count)
  else do
    let value ← m_Value.head?
    return snprintf (outlen - 1) (numberText t.format value)

/-- `signedType::GetHumanReadableContent` -/
def signedContent (outlen : Nat) (m_Value : List Nat) : Option (List UInt8) :=
  if t.MeantUnsigned then unsignedContent refs t outlen m_Value
  else do
    let value ← m_Value.head?
    return snprintf (outlen - 1) (signedText value)

/-- The loop of `Print`, over this many values of the array. -/
def arrayText (text : Nat → List UInt8) (iCount : Nat) (m_Value : List Nat) :
    Option (List UInt8) :=
  if iCount ≤ m_Value.length then some ([space].intercalate ((m_Value.take iCount).map text))
  else none

/-- `unsignedType::Print`. The content is that of `signedType` where it is called for one, which is
the same then. -/
def unsignedPrint (m_Value : List Nat) : Option (List UInt8) :=
  if t.count = 1 then unsignedContent refs t 256 m_Value
  else arrayText (numberText t.format) t.numPrinted m_Value

/-- `signedType::Print` -/
def signedPrint (m_Value : List Nat) : Option (List UInt8) :=
  if t.MeantUnsigned then unsignedPrint refs t m_Value
  else arrayText signedText t.numPrintedSigned m_Value

end Print

/-- `GetHumanReadableContent` of an integer type. -/
def integerContent (refs : References) (outlen : Nat) (m_Value : List Nat) :
    BuiltinType → Option (List UInt8)
  | .unsigned t => unsignedContent refs t outlen m_Value
  | .signed t => signedContent refs t outlen m_Value
  | .string _ _ => none
  | .float _ _ => none
  | .double _ _ => none
  | .length => none
  | .unixtime => none

/-- The text that `Print` shows of a field of an integer type. -/
def integerText (refs : References) (m_Value : List Nat) : BuiltinType → Option (List UInt8)
  | .unsigned t => unsignedPrint refs t m_Value
  | .signed t => signedPrint refs t m_Value
  | .string _ _ => none
  | .float _ _ => none
  | .double _ _ => none
  | .length => none
  | .unixtime => none

/-! ## Reading -/

/-- A number as it is shown, as a value of 32 bits. -/
def readNumber (cs : List UInt8) : Nat :=
  if [0x30, 0x78].isPrefixOf cs then numberFrom 16 0 (cs.drop 2)
  else if cs.head? = some dash then 2 ^ 32 - numberFrom 10 0 cs.tail
  else numberFrom 10 0 cs

/-- What is between the last `<` and the last character. -/
def behindName (text : List UInt8) : List UInt8 :=
  (text.dropLast.reverse.takeWhile (· ≠ less)).reverse

/-- The values in the text of a field. -/
def readValues (text : List UInt8) : List Nat :=
  if text.getLast? = some greater then [readNumber (behindName text)]
  else if text = [] then []
  else (text.splitOn space).map readNumber

/-! ## Numbers -/

/-- The characters of numbers neither end a number nor surround it. -/
def IsNumberChar (c : UInt8) : Prop := c ≠ space ∧ c ≠ less ∧ c ≠ greater

theorem isNumberChar_digit {base : Nat} {c : UInt8} {d : Nat} (hc : digit base c = some d) :
    IsNumberChar c := by
  have hrange := Numeral.range_of_digit hc
  refine ⟨?_, ?_, ?_⟩ <;> rintro rfl <;> exact absurd hrange (by decide)

theorem isNumberChar_decimal (n : Nat) : ∀ c ∈ decimal n, IsNumberChar c := by
  intro c hc
  obtain ⟨d, hd⟩ := allDigits_decimal n c hc
  exact isNumberChar_digit hd

theorem allDigits_hexNumber (n : Nat) : AllDigits 16 (hexNumber n) := by
  induction n using Nat.strongRecOn with
  | ind n ih =>
      rw [hexNumber]
      by_cases hn : n < 16
      · rw [if_pos hn]
        exact List.forall_mem_singleton.2 ⟨n, digit_hexDigit hn⟩
      · rw [if_neg hn]
        exact List.forall_mem_append.2 ⟨ih (n / 16) (by omega), List.forall_mem_singleton.2
          ⟨n % 16, digit_hexDigit (Nat.mod_lt n (by decide))⟩⟩

theorem numberFrom_hexNumber (n : Nat) : numberFrom 16 0 (hexNumber n) = n := by
  induction n using Nat.strongRecOn with
  | ind n ih =>
      rw [hexNumber]
      by_cases hn : n < 16
      · rw [if_pos hn]
        simp [numberFrom, Numeral.numberFrom, digit_hexDigit hn]
      · rw [if_neg hn, numberFrom_append, ih (n / 16) (by omega)]
        simp only [numberFrom, Numeral.numberFrom, List.foldl_cons, List.foldl_nil,
          digit_hexDigit (Nat.mod_lt n (by decide : 0 < 16)), Option.getD_some]
        omega

theorem length_hexNumber_le {k n : Nat} (hk : 1 ≤ k) (hn : n < 16 ^ k) :
    (hexNumber n).length ≤ k := by
  induction k generalizing n with
  | zero => exact absurd hk (by decide)
  | succ k ih =>
      rw [hexNumber]
      by_cases hsmall : n < 16
      · rw [if_pos hsmall]
        exact hk
      · rw [Nat.pow_succ] at hn
        have hk' : 1 ≤ k := by
          refine Nat.pos_of_ne_zero ?_
          rintro rfl
          omega
        rw [if_neg hsmall, List.length_append]
        exact Nat.succ_le_succ (ih hk' (by omega))

theorem decimal_ne_nil (n : Nat) : decimal n ≠ [] := List.length_pos_iff.1 (length_decimal_pos n)

/-- A number in decimal has no prefix and no sign. -/
theorem readNumber_decimal (n : Nat) : readNumber (decimal n) = n := by
  have hdigits : ∀ c ∈ decimal n, c ≠ 0x78 ∧ c ≠ dash := by
    intro c hc
    obtain ⟨d, hd⟩ := allDigits_decimal n c hc
    constructor <;> rintro rfl <;> cases hd
  have hmark : ¬ [0x30, 0x78].isPrefixOf (decimal n) = true := by
    intro h
    obtain ⟨rest, heq⟩ := List.isPrefixOf_iff_prefix.1 h
    exact (hdigits 0x78 (heq ▸ by simp)).1 rfl
  have hhead : (decimal n).head? ≠ some dash := fun h => (hdigits dash (List.mem_of_head? h)).2 rfl
  rw [readNumber, if_neg hmark, if_neg hhead, numberFrom_decimal]

theorem readNumber_numberText (format : Format) (value : Nat) :
    readNumber (numberText format value) = value := by
  cases format with
  | decimal => exact readNumber_decimal value
  | hex =>
      rw [numberText, readNumber, if_pos (by simp [List.isPrefixOf])]
      exact numberFrom_hexNumber value

theorem readNumber_signedText {value : Nat} (hvalue : value < 2 ^ 32) :
    readNumber (signedText value) = value := by
  rw [signedText]
  split
  · exact readNumber_decimal value
  · rw [readNumber, if_neg (by simp [List.isPrefixOf, dash]), List.head?_cons, if_pos rfl,
      List.tail_cons, numberFrom_decimal]
    omega

theorem isNumberChar_numberText (format : Format) (value : Nat) :
    ∀ c ∈ numberText format value, IsNumberChar c := by
  cases format with
  | decimal => exact isNumberChar_decimal value
  | hex =>
      have hmark : ∀ c ∈ ([0x30, 0x78] : List UInt8), IsNumberChar c :=
        List.forall_mem_cons.2 ⟨⟨by decide, by decide, by decide⟩,
          List.forall_mem_singleton.2 ⟨by decide, by decide, by decide⟩⟩
      refine List.forall_mem_append.2 ⟨hmark, fun c hc => ?_⟩
      obtain ⟨d, hd⟩ := allDigits_hexNumber value c hc
      exact isNumberChar_digit hd

theorem isNumberChar_signedText (value : Nat) : ∀ c ∈ signedText value, IsNumberChar c := by
  rw [signedText]
  split
  · exact isNumberChar_decimal value
  · exact List.forall_mem_cons.2
      ⟨⟨by decide, by decide, by decide⟩, isNumberChar_decimal _⟩

theorem numberText_ne_nil (format : Format) (value : Nat) : numberText format value ≠ [] := by
  cases format with
  | decimal => exact decimal_ne_nil value
  | hex => exact List.cons_ne_nil _ _

theorem signedText_ne_nil (value : Nat) : signedText value ≠ [] := by
  rw [signedText]
  split
  · exact decimal_ne_nil value
  · exact List.cons_ne_nil _ _

theorem length_numberText_le {value : Nat} (hvalue : value < 2 ^ 32) (format : Format) :
    (numberText format value).length ≤ 10 := by
  cases format with
  | decimal => exact length_decimal_le (by decide) (Nat.lt_trans hvalue (by decide))
  | hex =>
      have hlen : (hexNumber value).length ≤ 8 := length_hexNumber_le (by decide) hvalue
      rw [numberText, List.length_append]
      exact Nat.add_le_add_left hlen 2

/-! ## Fields -/

/-- A name of this length leaves room for the number. -/
theorem snprintf_namedText {sValue : List UInt8} (hlen : sValue.length ≤ 241) {value : Nat}
    (hvalue : value < 2 ^ 32) (format : Format) :
    snprintf 255 (namedText format sValue value) = namedText format sValue value := by
  have hnumber := length_numberText_le hvalue format
  refine List.take_of_length_le ?_
  simp only [namedText, List.length_append, List.length_cons, List.length_nil]
  omega

/-- The number is between the last `<` and the end, whatever is in the name. -/
theorem behindName_namedText (format : Format) (sValue : List UInt8) (value : Nat) :
    behindName (namedText format sValue value) = numberText format value := by
  have hnumber : ∀ c ∈ (numberText format value).reverse, c ≠ less := fun c hc =>
    (isNumberChar_numberText format value c (List.mem_reverse.1 hc)).2.1
  rw [behindName, namedText, List.dropLast_concat, List.reverse_append, List.reverse_append]
  have htake := (takeWhile_ne_append (space :: sValue.reverse) hnumber).1
  simp only [List.reverse_cons, List.reverse_nil, List.nil_append, List.cons_append]
  rw [htake, List.reverse_reverse]

theorem readValues_namedText (format : Format) (sValue : List UInt8) (value : Nat) :
    readValues (namedText format sValue value) = [value] := by
  have hlast : (namedText format sValue value).getLast? = some greater := List.getLast?_concat
  rw [readValues, if_pos hlast, behindName_namedText, readNumber_numberText]

theorem mem_intercalate {sep c : UInt8} {ls : List (List UInt8)} (h : c ∈ [sep].intercalate ls) :
    c = sep ∨ ∃ l ∈ ls, c ∈ l := by
  induction ls with
  | nil => cases h
  | cons l ls ih =>
      cases ls with
      | nil =>
          rw [List.intercalate_singleton] at h
          exact Or.inr ⟨l, List.mem_cons_self, h⟩
      | cons l' ls =>
          rw [List.intercalate_cons_cons, List.mem_append, List.mem_append,
            List.mem_singleton] at h
          rcases h with (h | h) | h
          · exact Or.inr ⟨l, List.mem_cons_self, h⟩
          · exact Or.inl h
          · rcases ih h with h | ⟨l'', hl'', h⟩
            · exact Or.inl h
            · exact Or.inr ⟨l'', List.mem_cons_of_mem l hl'', h⟩

/-- Numbers with a blank between them. -/
theorem readValues_intercalate {text : Nat → List UInt8} {values : List Nat}
    (hchars : ∀ v, ∀ c ∈ text v, IsNumberChar c) (hne : ∀ v, text v ≠ [])
    (hread : ∀ v ∈ values, readNumber (text v) = v) :
    readValues ([space].intercalate (values.map text)) = values := by
  cases values with
  | nil => rfl
  | cons v vs =>
      have hlast : ([space].intercalate ((v :: vs).map text)).getLast? ≠ some greater := by
        intro h
        rcases mem_intercalate (List.mem_of_getLast? h) with hspace | ⟨l, hl, hc⟩
        · exact absurd hspace (by decide)
        · obtain ⟨w, -, rfl⟩ := List.mem_map.1 hl
          exact (hchars w greater hc).2.2 rfl
      have hsplit : ([space].intercalate ((v :: vs).map text)).splitOn space =
          (v :: vs).map text := by
        refine List.splitOn_intercalate space (fun l hl hc => ?_) (List.cons_ne_nil _ _)
        obtain ⟨w, -, rfl⟩ := List.mem_map.1 hl
        exact (hchars w space hc).1 rfl
      have hnil : [space].intercalate ((v :: vs).map text) ≠ [] := by
        intro h
        rw [h] at hsplit
        have hfirst : text v = [] := by
          have hone := congrArg List.head? hsplit
          simpa using hone.symm
        exact hne v hfirst
      rw [readValues, if_neg hlast, if_neg hnil, hsplit, List.map_map]
      exact (List.map_congr_left hread).trans (List.map_id _)

theorem readValues_arrayText {text : Nat → List UInt8} {iCount : Nat} {value : List Nat}
    (hchars : ∀ v, ∀ c ∈ text v, IsNumberChar c) (hne : ∀ v, text v ≠ [])
    (hread : ∀ v ∈ value, readNumber (text v) = v) {shown : List UInt8}
    (h : arrayText text iCount value = some shown) :
    iCount ≤ value.length ∧ readValues shown = value.take iCount := by
  unfold arrayText at h
  split at h
  next hcount =>
    cases h
    exact ⟨hcount, readValues_intercalate hchars hne fun v hv => hread v (List.mem_of_mem_take hv)⟩
  · cases h

section Values

variable {refs : References} {t : UnsignedType} {value : List Nat}

/-- The values are of 32 bits, and the name of the one that is shown with a name leaves room for
it. -/
structure Fits (refs : References) (value : List Nat) : Prop where
  lt : ∀ v ∈ value, v < 2 ^ 32
  name : refs.Named → ∀ v ∈ value.head?, (refs.nameText v).length ≤ 241

theorem unsignedPrint_readValues (h : Fits refs value) {text : List UInt8}
    (htext : unsignedPrint refs t value = some text) :
    t.numPrinted ≤ value.length ∧ readValues text = value.take t.numPrinted := by
  have hread : ∀ v ∈ value, readNumber (numberText t.format v) = v := fun v _ =>
    readNumber_numberText t.format v
  unfold unsignedPrint at htext
  split at htext
  next hcount =>
    rw [UnsignedType.numPrinted, if_pos hcount]
    unfold unsignedContent at htext
    split at htext
    next hnamed =>
      obtain ⟨v, hhead, heq⟩ := Option.bind_eq_some_iff.1 htext
      cases heq
      obtain ⟨vs, rfl⟩ := List.head?_eq_some_iff.1 hhead
      have hlt := h.lt v List.mem_cons_self
      rw [snprintf_namedText (h.name hnamed v rfl) hlt, readValues_namedText]
      exact ⟨Nat.le_add_left 1 _, rfl⟩
    · rw [if_neg (not_not.2 hcount)] at htext
      obtain ⟨v, hhead, heq⟩ := Option.bind_eq_some_iff.1 htext
      cases heq
      obtain ⟨vs, rfl⟩ := List.head?_eq_some_iff.1 hhead
      have hlen := length_numberText_le (h.lt v List.mem_cons_self) t.format
      have hwhole : snprintf 255 (numberText t.format v) = numberText t.format v :=
        List.take_of_length_le (by omega)
      -- one number is an array of one number
      have hone : readValues ([space].intercalate ([v].map (numberText t.format))) = [v] :=
        readValues_intercalate (isNumberChar_numberText t.format) (numberText_ne_nil t.format)
          (List.forall_mem_singleton.2 (readNumber_numberText t.format v))
      rw [List.map_singleton, List.intercalate_singleton] at hone
      rw [hwhole, hone]
      exact ⟨Nat.le_add_left 1 _, rfl⟩
  · exact readValues_arrayText (isNumberChar_numberText t.format) (numberText_ne_nil t.format) hread
      htext

theorem BuiltinType.print_of_le {cells values : List Nat} {type : BuiltinType}
    (hle : type.numPrinted ≤ cells.length) (hshown : type.shown cells = values) :
    type.print cells = some values := by
  rw [BuiltinType.print, if_pos hle, hshown]

/-- The values that `Print` goes through can be read in the text that it shows of an integer field,
in both formats, with or without a sign, and behind any name that leaves room for the number. -/
theorem integerText_readValues {type : BuiltinType} (h : Fits refs value) {text : List UInt8}
    (htext : integerText refs value type = some text) :
    BuiltinType.print value type = some (readValues text) := by
  cases type with
  | unsigned t =>
      obtain ⟨hle, hread⟩ := unsignedPrint_readValues h htext
      exact BuiltinType.print_of_le hle hread.symm
  | signed t =>
      have hsigned : signedPrint refs t value = some text := htext
      have hread : t.numPrintedSigned ≤ value.length ∧
          readValues text = value.take t.numPrintedSigned := by
        unfold signedPrint at hsigned
        split at hsigned
        next hmeant =>
          have hcount : t.numPrintedSigned = t.numPrinted := if_pos hmeant
          rw [hcount]
          exact unsignedPrint_readValues h hsigned
        · exact readValues_arrayText isNumberChar_signedText signedText_ne_nil
            (fun v hv => readNumber_signedText (h.lt v hv)) hsigned
      exact BuiltinType.print_of_le hread.1 hread.2.symm
  | string length minLength => cases htext
  | float count displayCount => cases htext
  | double count displayCount => cases htext
  | length => cases htext
  | unixtime => cases htext

end Values

/-- A class, of which one has all bits set. -/
def classType : UnsignedType where
  width := .four
  count := 1
  minCount := 1
  displayCount := -1
  fixedValue := none
  format := .hex
  enumeration := some "class"

def classReferences : References := ⟨some ⟨"class", [(0, "gm"), (-1, "none")]⟩, none⟩

theorem integerText_readValues_classType :
    ∃ text, integerText classReferences [4294967295] (.unsigned classType) = some text ∧
      readValues text = [4294967295] := by
  have hfits : Fits classReferences [4294967295] := by
    refine ⟨List.forall_mem_singleton.2 (by decide), ?_⟩
    rintro - v ⟨⟩
    decide +kernel
  have htext : integerText classReferences [4294967295] (.unsigned classType) = some
      (snprintf 255 (namedText .hex (classReferences.nameText 4294967295) 4294967295)) := rfl
  exact ⟨_, htext, (Option.some.inj (integerText_readValues hfits htext)).symm⟩

/-! ## Names -/

/-- What an integer type of a definition refers to. -/
def references (l : Loader) (t : UnsignedType) (provider : Option (UInt32 → List UInt8)) :
    References :=
  ⟨t.enumeration.bind l.lookupEnumeration, provider⟩

/-- The name of a value, in the document: that in the `enum`, or else that of the annotation. -/
def nodeName (n : XmlNode) (provider : Option (UInt32 → List UInt8)) (value : Nat) : List UInt8 :=
  match n.namesOf value, provider with
  | sName :: _, _ => utf8Of sName
  | [], some lookup => lookup (.ofNat value)
  | [], none => [0x3f]

/-- An integer type with an enumeration shows the names of the first `enum` in the document with
that name, in which at most one element has the value. What is left of the content when the number
is cut off is the name. -/
def ShowsNames (nodes : List XmlNode) (l : Loader) (type : BuiltinType) : Prop :=
  ∀ t ∈ type.integer, ∀ name ∈ t.enumeration, ∃ n, XmlNode.enumNode nodes name = some n ∧
    ∀ value < 2 ^ 32, (n.namesOf value).length ≤ 1 ∧ ∀ provider more,
      integerContent (references l t provider) 256 (value :: more) type =
          some (snprintf 255 (namedText t.format (nodeName n provider value) value)) ∧
        (t.count = 1 → integerText (references l t provider) (value :: more) type =
          some (snprintf 255 (namedText t.format (nodeName n provider value) value))) ∧
        ((nodeName n provider value).length ≤ 241 →
          (nodeName n provider value).getLast? ≠ some space →
            cutId ((snprintf 255
              (namedText t.format (nodeName n provider value) value)).map UInt8.toNat) =
                (nodeName n provider value).map UInt8.toNat)

/-- The number is cut off, and the blank in front of it. -/
theorem cutId_namedText (format : Format) {sValue : List UInt8}
    (hlast : sValue.getLast? ≠ some space) (value : Nat) :
    cutId ((namedText format sValue value).map UInt8.toNat) = sValue.map UInt8.toNat := by
  have hnumber : ∀ c ∈ greater.toNat :: ((numberText format value).map UInt8.toNat).reverse,
      decide (c ≠ 60) = true := by
    refine List.forall_mem_cons.2 ⟨by decide, fun c hc => ?_⟩
    obtain ⟨b, hb, rfl⟩ := List.mem_map.1 (List.mem_reverse.1 hc)
    have hne := (isNumberChar_numberText format value b hb).2.1
    exact decide_eq_true fun heq => hne (UInt8.toNat_inj.1 heq)
  have hreverse : ((namedText format sValue value).map UInt8.toNat).reverse =
      (greater.toNat :: ((numberText format value).map UInt8.toNat).reverse) ++
        60 :: 32 :: (sValue.map UInt8.toNat).reverse := by
    simp [namedText, less, space]
  have hblanks : (32 :: (sValue.map UInt8.toNat).reverse).dropWhile (· = 32) =
      (sValue.map UInt8.toNat).reverse := by
    rw [List.dropWhile_cons_of_pos (by simp)]
    cases hend : (sValue.map UInt8.toNat).reverse with
    | nil => rfl
    | cons c cs =>
        -- the name does not end in a blank
        refine List.dropWhile_cons_of_neg ?_
        rintro hc
        obtain rfl : c = 32 := by simpa using hc
        have hmap : (sValue.map UInt8.toNat).getLast? = some 32 := by
          rw [← List.head?_reverse, hend]
          rfl
        rw [List.getLast?_map, Option.map_eq_some_iff] at hmap
        obtain ⟨b, hb, heq⟩ := hmap
        exact hlast (by rw [hb, ← UInt8.toNat_inj.1 (heq.trans (by decide : 32 = space.toNat))])
  rw [cutId, hreverse, List.dropWhile_append_of_pos hnumber,
    List.dropWhile_cons_of_neg (by simp)]
  simp only
  rw [hblanks, List.reverse_reverse]

section Document

variable {l : Loader} {n : XmlNode} {t : UnsignedType} {name : String} {e : Enumeration}

/-- The name in the enumeration is that in the document. -/
theorem nameText_references (hname : t.enumeration = some name)
    (he : l.lookupEnumeration name = some e) (hn : n.Enumerates e)
    (provider : Option (UInt32 → List UInt8)) {value : Nat} (hvalue : value < 2 ^ 32) :
    (references l t provider).nameText value = nodeName n provider value := by
  have hlookup : (references l t provider).enumeration.bind (·.lookup value) = e.lookup value := by
    rw [references, hname, Option.bind_some, he, Option.bind_some]
  have hnames := hn.namesOf value hvalue
  unfold References.nameText nodeName
  rw [hlookup, hnames]
  cases e.lookup value <;> cases provider <;> rfl

theorem showsNames_of_enumerates (hname : t.enumeration = some name)
    (he : l.lookupEnumeration name = some e) (hn : n.Enumerates e) {type : BuiltinType}
    (ht : type.integer = some t) {value : Nat} (hvalue : value < 2 ^ 32)
    (provider : Option (UInt32 → List UInt8)) (more : List Nat) :
    integerContent (references l t provider) 256 (value :: more) type =
        some (snprintf 255 (namedText t.format (nodeName n provider value) value)) ∧
      (t.count = 1 → integerText (references l t provider) (value :: more) type =
        some (snprintf 255 (namedText t.format (nodeName n provider value) value))) := by
  have hnamed : (references l t provider).Named := by
    refine Or.inl ?_
    rw [references, hname, Option.bind_some, he]
    rfl
  have hcontent : unsignedContent (references l t provider) t 256 (value :: more) =
      some (snprintf 255 (namedText t.format (nodeName n provider value) value)) := by
    rw [unsignedContent, if_pos hnamed, List.head?_cons,
      ← nameText_references hname he hn provider hvalue]
    rfl
  have hprint : t.count = 1 → unsignedPrint (references l t provider) t (value :: more) =
      some (snprintf 255 (namedText t.format (nodeName n provider value) value)) := fun hcount => by
    rw [unsignedPrint, if_pos hcount, hcontent]
  -- a signed type with an enumeration is shown as an unsigned one
  have hmeant : t.MeantUnsigned := Or.inr (Or.inl (by rw [hname]; rfl))
  cases type with
  | unsigned u =>
      obtain rfl := Option.some.inj ht
      exact ⟨hcontent, hprint⟩
  | signed u =>
      obtain rfl := Option.some.inj ht
      refine ⟨?_, fun hcount => ?_⟩
      · rw [integerContent, signedContent, if_pos hmeant, hcontent]
      · rw [integerText, signedPrint, if_pos hmeant, hprint hcount]
  | string length minLength => cases ht
  | float count displayCount => cases ht
  | double count displayCount => cases ht
  | length => cases ht
  | unixtime => cases ht

theorem showsNames_of_declared {grants : Allocation.Request → Bool} {l' : Loader}
    {nodes : List XmlNode} (henums : l.enums = [])
    (hparsed : Loader.Parsed grants l (nodes.filter (·.isElement)) l') {type : BuiltinType}
    (h : type.Declared l') : ShowsNames nodes l' type := by
  intro t ht name hname
  obtain ⟨e, he⟩ := Option.isSome_iff_exists.1 (h t ht name hname)
  rcases hparsed.lookupEnumeration he with hbefore | ⟨-, n, hn, hnode⟩
  · rw [Loader.lookupEnumeration, henums] at hbefore
    cases hbefore
  have hfirst : XmlNode.enumNode nodes name = some n := by
    rw [XmlNode.enumNode, List.find?_filter] at hn
    rw [XmlNode.enumNode, ← hn]
    refine congrArg (List.find? · nodes) (funext fun m => ?_)
    cases m <;> simp [XmlNode.tag, XmlNode.isElement]
  refine ⟨n, hfirst, fun value hvalue => ⟨?_, fun provider more => ?_⟩⟩
  · rw [hnode.namesOf value hvalue]
    exact Option.length_toList_le
  · obtain ⟨hcontent, hprint⟩ := showsNames_of_enumerates hname he hnode ht hvalue provider more
    refine ⟨hcontent, hprint, fun hlen hlast => ?_⟩
    rw [snprintf_namedText hlen hvalue]
    exact cutId_namedText t.format hlast value

end Document

/-- A document that is loaded to its end: whatever has been decoded, every field of an integer type
with an enumeration is shown with the name that the first `enum` of that name in the document gives
to its value, as a number of 32 bits, and `ObjectIdStore::Apply` gets that name from its content. -/
theorem load_showsNames {grants : Allocation.Request → Bool} {l l' : Loader}
    (henums : l.enums = []) (hstructs : l.structs = []) (hpackets : l.packets = [])
    {iVersion : Int} {nodes : List XmlNode}
    (hload : (l.load iVersion (some nodes)).run grants = some (some l')) :
    ∃ d : ProtocolDefinition, List.Forall₂ LoadedPacket.Gives l'.packets d.packets ∧
      ∀ history, ∀ p ∈ (d.run history).packets,
        Body.Everywhere (ShowsNames nodes l') (fun _ => True) ⟨p.actions, p.subpackets⟩ := by
  have hparsed := Loader.parsed_iff.1 hload
  have hl : Loader.Everywhere (ShowsNames nodes l') (fun _ => True)
      { l with version := iVersion } :=
    ⟨fun _ _ => trivial, fun t ht => absurd (hstructs ▸ ht) List.not_mem_nil,
      fun p hp => absurd (hpackets ▸ hp) List.not_mem_nil⟩
  have hall := hparsed.everywhere hl fun l₁ hl₁ _ _ m _ sType proto t hproto ht =>
    showsNames_of_declared (l := { l with version := iVersion }) henums hparsed
      (XmlNode.sets_declared hl₁ m sType proto t hproto ht)
  obtain ⟨d, hd⟩ := hparsed.gives hpackets
  exact ⟨d, hd, everywhere_run (everywhere_of_gives hd hall.packets)⟩

/-- Two enumerations of one name, with numbers that are written in different ways. -/
def classDocument : List XmlNode :=
  [.element "enum" [("name", "class")] [
      .element "value" [("num", "0"), ("name", "gm")] [],
      .element "value" [("num", "0xffffffff"), ("name", "none")] []],
    .element "enum" [("name", "class")] [
      .element "value" [("num", "-1"), ("name", "all")] []],
    .element "packet" [("name", "character"), ("source", "server")] [
      .element "field" [("name", "type"), ("type", "u32"), ("fixed_value", "9")] [],
      .element "field" [("name", "class"), ("type", "s32"), ("enumeration", "class")] []]]

theorem load_showsNames_classDocument :
    ∃ (l' : Loader) (d : ProtocolDefinition),
      (Loader.initial.load 0 (some classDocument)).run (Loader.fits (2 ^ 30)) = some (some l') ∧
        List.Forall₂ LoadedPacket.Gives l'.packets d.packets ∧
          ∀ history, ∀ p ∈ (d.run history).packets,
            Body.Everywhere (ShowsNames classDocument l') (fun _ => True)
              ⟨p.actions, p.subpackets⟩ := by
  have hloaded : (((Loader.initial.load 0 (some classDocument)).run (Loader.fits (2 ^ 30))).bind
      id).isSome = true := by decide +kernel
  obtain ⟨l', hresult⟩ := Option.isSome_iff_exists.1 hloaded
  obtain ⟨_, hload, rfl⟩ := Option.bind_eq_some_iff.1 hresult
  obtain ⟨d, hd, hshows⟩ := load_showsNames rfl rfl rfl hload
  exact ⟨l', d, hload, hd, hshows⟩

end OpenRom.RomDump
