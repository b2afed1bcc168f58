import OpenRom.MkDef.ConditionText
import OpenRom.Protocol.Sender

/-!
# The text of the parser

`GenerateParser`, with its arrays for the criterium and for the name of a subpacket. It stays inside
of them exactly if no comparison but those printed first begins behind the end of the criterium, and
every name of a subpacket fits; then what it prints is the text of the blocks that
`generateParser` has, with the criteria cut (`writeParser_iff`).
-/

set_option autoImplicit false

namespace OpenRom

namespace ProtocolDefinition

open RomDump

/-! ## The code -/

/-- The name of the first field of the type `length`. -/
def lengthField : List Action → Option String
  | [] => none
  | .field name (.builtin ⟨.length, _, _⟩) _ :: _ => some name
  | .field _ _ _ :: as => lengthField as
  | .transformationAction _ :: as => lengthField as
  | .annotationAction _ :: as => lengthField as

/-- The sum of `GetConstantSize` over the fields, in an `uint32_t`. -/
def packetLen : List Action → UInt32
  | [] => 0
  | .field _ type _ :: as => .ofInt type.constantSize + packetLen as
  | .transformationAction _ :: as => packetLen as
  | .annotationAction _ :: as => packetLen as

/-- `bIsConstantSize` -/
def hasConstantSizes : List Action → Bool
  | [] => true
  | .field _ type _ :: as => decide (UInt32.ofInt type.constantSize ≠ 0) && hasConstantSizes as
  | .transformationAction _ :: as => hasConstantSizes as
  | .annotationAction _ :: as => hasConstantSizes as

def lengthMember (sPacketName : List UInt8) : List UInt8 :=
  memberText sPacketName (utf8Of "header.p_length")

/-- `sizeof(struct ROM::Packet) + 0x%x` -/
def sizeofText (n : Nat) : List UInt8 := utf8Of "sizeof(struct ROM::Packet) + 0x" ++ hexNumber n

/-- `p_length`, compared with a size. -/
def sizeText (sPacketName operator : List UInt8) (n : Nat) : List UInt8 :=
  lengthMember sPacketName ++ operator ++ sizeofText n ++ andText

/-- `p_length`, compared with a length field. -/
def sizeIsLengthText (sPacketName pLengthField : List UInt8) (n : Nat) : List UInt8 :=
  lengthMember sPacketName ++ utf8Of " == " ++ memberText sPacketName pLengthField ++
    utf8Of " + " ++ sizeofText n ++ utf8Of " &&"

/-- A length field, compared with the size of a subpacket. -/
def lengthIsText (sPacketName pLengthField : List UInt8) (n : Nat) : List UInt8 :=
  memberText sPacketName (utf8Of "packet_" ++ pLengthField) ++ utf8Of " == 0x" ++ hexNumber n ++
    andText

/-- What stands in front of the criterium of a packet. -/
def Packet.sizesText (p : Packet) : List UInt8 :=
  let iPacketLen := packetLen p.actions
  if iPacketLen = 0 then []
  else
    match lengthField p.actions with
    | none => sizeText (nameOf p.name) (utf8Of " == ") iPacketLen.toNat
    | some pLengthField =>
        sizeText (nameOf p.name) (utf8Of " >= ") iPacketLen.toNat ++
          sizeIsLengthText (nameOf p.name) (nameOf pLengthField) iPacketLen.toNat

/-- What stands in front of the criterium of a subpacket. -/
def Packet.subpacketSizesText (p : Packet) (sPacketName : List UInt8) (sp : Subpacket) :
    List UInt8 :=
  match lengthField p.actions with
  | none => []
  | some pLengthField =>
      if 0 < packetLen sp.actions ∧ hasTransformation sp.actions = false ∧
          hasConstantSizes sp.actions = true then
        lengthIsText sPacketName (nameOf pLengthField) (packetLen sp.actions).toNat
      else []

def requestText (indent name : List UInt8) : List UInt8 :=
  indent ++ name ++ utf8Of " oRequest(pData, iDataLength);\n" ++
    indent ++ utf8Of "On" ++ name ++ utf8Of "(oRequest);\n" ++
    indent ++ utf8Of "return true;\n"

/-- `%s_%s` -/
def Packet.subpacketName (p : Packet) (sp : Subpacket) : List UInt8 :=
  nameOf p.name ++ [0x5f] ++ nameOf sp.name

/-- `sPacketName[snprintf(sPacketName, sizeof(sPacketName), "%s_%s", ..)] = '\0'` -/
def Packet.writeName (p : Packet) (sp : Subpacket) : Except Stop (List UInt8) := do
  let text := p.subpacketName sp
  let s ← snprintfAt 0 text uninitialized
  -- the index is the length of all of the text, also when it is cut
  if text.length < s.length then readString (s.set text.length (some 0))
  else throw .undefined

/-- A block of the parser, with the conditions and what it does. -/
def ifText (indent conditions body : List UInt8) : List UInt8 :=
  indent ++ utf8Of "if (" ++ conditions ++ utf8Of ") \x7b\n" ++ body ++ indent ++ utf8Of "\x7d\n"

def oneTab : List UInt8 := utf8Of "\t"
def twoTabs : List UInt8 := utf8Of "\t\t"
def threeTabs : List UInt8 := utf8Of "\t\t\t"

/-- The loop over the subpackets. The criterium of the packet is still in the array. -/
def Packet.writeSubpackets (p : Packet) (sCriterium : CharArray) :
    List Subpacket → Except Stop (List UInt8)
  | [] => .ok []
  | sp :: sps => do
      let sPacketName ← p.writeName sp
      let (iOffset, sCriterium) ← writeMatchCondition sPacketName 0 sCriterium sp.actions
      -- no fixed values
      if iOffset = 0 then p.writeSubpackets sCriterium sps
      else do
        let criterium ← readString sCriterium
        let rest ← p.writeSubpackets sCriterium sps
        return ifText twoTabs (p.subpacketSizesText sPacketName sp ++ criterium)
          (requestText threeTabs sPacketName) ++ rest

/-- The body of the loop over the packets. -/
def Packet.writeBlock (p : Packet) : Except Stop (List UInt8) := do
  let (iOffset, sCriterium) ← writeMatchCondition (nameOf p.name) 0 uninitialized p.actions
  if iOffset = 0 then return []
  else do
    let criterium ← readString sCriterium
    let subpackets ← p.writeSubpackets sCriterium p.subpackets
    return ifText oneTab (p.sizesText ++ criterium)
      ((if p.subpackets.isEmpty then requestText twoTabs (nameOf p.name) else []) ++ subpackets)

def writeBlocks : List Packet → Except Stop (List UInt8)
  | [] => .ok []
  | p :: ps => do
      let block ← p.writeBlock
      let rest ← writeBlocks ps
      return block ++ rest

def parserBegin : List UInt8 :=
  utf8Of "bool\nParser::Process(char* pData, int iDataLength)\n\x7b\n" ++
    utf8Of "\tif (iDataLength < (int)sizeof(ROM::Packet))\n\t\treturn false;\n" ++
    utf8Of "\tif (((struct ROM::Packet*)pData)->p_length != iDataLength)\n\t\treturn false;\n"

def parserEnd : List UInt8 := utf8Of "\treturn false; /* what's this? */\n\x7d\n"

/-- `GenerateParser`, with what it prints into the file. -/
def writeParser (d : ProtocolDefinition) : Except Stop (List UInt8) := do
  let blocks ← writeBlocks d.packets
  return parserBegin ++ blocks ++ parserEnd

/-! ## The text of the blocks -/

/-- A condition in front of the criterium. -/
def Condition.text (p : Packet) (sPacketName : List UInt8) : Condition → List UInt8
  | sizeIs n => sizeText sPacketName (utf8Of " == ") n
  | sizeAtLeast n => sizeText sPacketName (utf8Of " >= ") n
  | sizeIsLength offset n => sizeIsLengthText sPacketName (memberOf 0 p.actions offset) n
  | lengthIs offset n => lengthIsText sPacketName (memberOf 0 p.actions offset) n
  | comparison _ => []

def Condition.comparison? : Condition → Option Comparison
  | comparison c => some c
  | sizeIs _ => none
  | sizeAtLeast _ => none
  | sizeIsLength _ _ => none
  | lengthIs _ _ => none

/-- The texts of the comparisons among the conditions. -/
def comparisonTexts (sPacketName : List UInt8) (start : Nat) (as : List Action)
    (conditions : List Condition) : List (List UInt8) :=
  (conditions.filterMap Condition.comparison?).map (Comparison.text sPacketName start as)

/-- The text of the conditions, where an array has room for 1023 characters of the comparisons. -/
def conditionsText (p : Packet) (sPacketName : List UInt8) (start : Nat) (as : List Action)
    (conditions : List Condition) : List UInt8 :=
  conditions.flatMap (Condition.text p sPacketName) ++
    (andText.intercalate (comparisonTexts sPacketName start as conditions)).take 1023

def SubpacketBlock.text (p : Packet) (block : SubpacketBlock) : List UInt8 :=
  match p.subpackets[block.index]? with
  | none => []
  | some sp =>
      ifText twoTabs
        (conditionsText p (p.subpacketName sp) (sizeofMembers p.actions) sp.actions
          block.conditions)
        (requestText threeTabs (p.subpacketName sp))

def PacketBlock.text (ps : List Packet) (block : PacketBlock) : List UInt8 :=
  match ps[block.index]? with
  | none => []
  | some p =>
      ifText oneTab (conditionsText p (nameOf p.name) 0 p.actions block.conditions)
        ((if block.isAlone then requestText twoTabs (nameOf p.name) else []) ++
          block.subpackets.flatMap (SubpacketBlock.text p))

/-- The text of the parser. -/
def parserText (d : ProtocolDefinition) (parser : List PacketBlock) : List UInt8 :=
  parserBegin ++ parser.flatMap (PacketBlock.text d.packets) ++ parserEnd

/-! ## What fits -/

/-- No comparison of the subpacket is printed behind the array. -/
def SubpacketBlock.Fits (p : Packet) (block : SubpacketBlock) : Prop :=
  ∀ sp, p.subpackets[block.index]? = some sp →
    lastPlace (comparisonTexts (p.subpacketName sp) (sizeofMembers p.actions) sp.actions
      block.conditions) ≤ 1024

/-- No comparison of the packet or of its subpackets is printed behind the array, and the names of
the subpackets fit into theirs. -/
def PacketBlock.Fits (ps : List Packet) (block : PacketBlock) : Prop :=
  ∀ p, ps[block.index]? = some p →
    lastPlace (comparisonTexts (nameOf p.name) 0 p.actions block.conditions) ≤ 1024 ∧
      (∀ sp ∈ p.subpackets, (p.subpacketName sp).length < 1024) ∧
      ∀ b ∈ block.subpackets, b.Fits p

/-- The sizes can be counted in 32 bits. -/
def SizesFit (d : ProtocolDefinition) : Prop :=
  ∀ p ∈ d.packets, constantSizes p.actions < 2 ^ 32 ∧
    ∀ sp ∈ p.subpackets, constantSizes sp.actions < 2 ^ 32

/-! ## Sizes -/

theorem BuiltinType.constantSize_nonneg (type : BuiltinType) : 0 ≤ type.constantSize := by
  have hunsigned : ∀ t : UnsignedType, 0 ≤ t.constantSize := by
    intro t
    rw [UnsignedType.constantSize]
    split
    · exact Int.le_refl 0
    · exact Int.mul_nonneg (Int.natCast_nonneg _) (Int.natCast_nonneg _)
  cases type with
  | unsigned t => exact hunsigned t
  | signed t => exact hunsigned t
  | string n minLength =>
      rw [constantSize]
      split
      · exact Int.le_refl 0
      · exact Int.natCast_nonneg n
  | float count displayCount => exact Int.mul_nonneg (Int.natCast_nonneg _) (by decide)
  | double count displayCount => exact Int.mul_nonneg (Int.natCast_nonneg _) (by decide)
  | length => decide
  | unixtime => decide

theorem sizeFrom_nonneg (as : List Action) : ∀ size, 0 ≤ size → 0 ≤ sizeFrom size as := by
  -- a field ends the sum or adds to it
  have hfield : ∀ (name : String) (type : FieldType) (offset : UInt32) (as : List Action),
      (∀ size, 0 ≤ size → 0 ≤ sizeFrom size as) →
      ∀ size, 0 ≤ size → 0 ≤ sizeFrom size (.field name type offset :: as) := by
    intro name type offset as ih size hsize
    rw [sizeFrom_field]
    by_cases hconst : type.constantSize ≤ 0
    · exact Int.le_of_eq (if_pos hconst).symm
    · rw [if_neg hconst]
      exact ih _ (Int.add_nonneg hsize (Int.le_of_lt (Int.not_le.1 hconst)))
  induction as using actionsRec with
  | nil => exact fun size hsize => hsize
  | builtin name object offset as ih => exact hfield name _ offset as ih
  | struct name typeName inner offset as ihInner ih => exact hfield name _ offset as ih
  | transformationAction t as ih => exact ih
  | annotationAction name as ih => exact ih

theorem FieldType.constantSize_nonneg (type : FieldType) : 0 ≤ type.constantSize := by
  cases type with
  | builtin object => exact object.type.constantSize_nonneg
  | struct name actions => exact sizeFrom_nonneg actions 0 (Int.le_refl 0)

theorem toNat_ofInt {v : Int} (hpos : 0 ≤ v) (hv : v.toNat < 2 ^ 32) :
    (UInt32.ofInt v).toNat = v.toNat := by
  have hmod : v % 2 ^ 32 = v := Int.emod_eq_of_lt hpos (by omega)
  rw [UInt32.ofInt, hmod]
  exact UInt32.toNat_ofNat_of_lt' hv

/-- The sums agree while they fit into 32 bits. -/
theorem toNat_packetLen {as : List Action} (h : constantSizes as < 2 ^ 32) :
    (packetLen as).toNat = constantSizes as := by
  induction as with
  | nil => rfl
  | cons a as ih =>
      cases a with
      | field name type offset =>
          -- no addition of the loop wraps
          have hsum : type.constantSize.toNat + constantSizes as < 2 ^ 32 := h
          rw [packetLen, UInt32.toNat_add, ih (by omega),
            toNat_ofInt type.constantSize_nonneg (by omega), Nat.mod_eq_of_lt hsum]
          rfl
      | transformationAction t => exact ih h
      | annotationAction name => exact ih h

theorem packetLen_eq_zero {as : List Action} (h : constantSizes as < 2 ^ 32) :
    packetLen as = 0 ↔ constantSizes as = 0 := by
  rw [← UInt32.toNat_inj, toNat_packetLen h]
  rfl

/-- Both loops look for fields without a constant size and for transformations. -/
theorem isConstantSize_iff {as : List Action} (h : constantSizes as < 2 ^ 32) :
    isConstantSize as = true ↔
      hasTransformation as = false ∧ hasConstantSizes as = true := by
  induction as with
  | nil => exact iff_of_true rfl ⟨rfl, rfl⟩
  | cons a as ih =>
      cases a with
      | field name type offset =>
          have hsum : type.constantSize.toNat + constantSizes as < 2 ^ 32 := h
          have hpos := type.constantSize_nonneg
          have hsize : UInt32.ofInt type.constantSize ≠ 0 ↔ type.constantSize ≠ 0 := by
            rw [Ne, Ne, ← UInt32.toNat_inj, toNat_ofInt hpos (by omega)]
            show ¬ type.constantSize.toNat = 0 ↔ _
            omega
          show (decide (type.constantSize ≠ 0) && isConstantSize as) = true ↔
            hasTransformation as = false ∧
              (decide (UInt32.ofInt type.constantSize ≠ 0) && hasConstantSizes as) = true
          rw [Bool.and_eq_true, Bool.and_eq_true, decide_eq_true_iff, decide_eq_true_iff, hsize,
            ih (by omega)]
          exact and_left_comm
      | transformationAction t =>
          -- the generator notes it, and sums up what is behind it
          exact iff_of_false Bool.false_ne_true fun hboth => Bool.noConfusion hboth.1
      | annotationAction name => exact ih h

/-- Both look for the first field of the type `length`. -/
theorem lengthOffset_eq_memberAt (as : List Action) (start : Nat) :
    (lengthOffset start as = none ∧ lengthField as = none) ∨
      ∃ offset name, lengthOffset start as = some offset ∧ lengthField as = some name ∧
        start ≤ offset ∧ memberOf start as offset = nameOf name := by
  induction as generalizing start with
  | nil => exact Or.inl ⟨rfl, rfl⟩
  | cons a as ih =>
      cases a with
      | field name type dataOffset =>
          -- both loops end at a field of the type, and go on behind any other
          by_cases htype : ∃ object, type = .builtin object ∧ object.type = .length
          · obtain ⟨⟨type, cells, hcells⟩, rfl, rfl⟩ := htype
            exact Or.inr ⟨start, name, rfl, rfl, Nat.le_refl _, memberOf_self (Nat.zero_lt_succ 3)⟩
          · have hoffset : lengthOffset start (.field name type dataOffset :: as) =
                lengthOffset (start + type.sizeof) as := by
              rw [lengthOffset]
              intro cells hcells heq
              exact htype ⟨_, heq, rfl⟩
            have hfield : lengthField (.field name type dataOffset :: as) = lengthField as := by
              rw [lengthField]
              intro cells hcells heq
              exact htype ⟨_, heq, rfl⟩
            rw [hoffset, hfield]
            rcases ih (start + type.sizeof) with
              hnone | ⟨offset, pLengthField, hsome, hlength, hle, hmember⟩
            · exact Or.inl hnone
            · refine Or.inr ⟨offset, pLengthField, hsome, hlength, by omega, ?_⟩
              rw [memberOf_of_lt hle, hmember]
      | transformationAction t => exact ih start
      | annotationAction name => exact ih start

/-! ## Results -/

/-- The generator gets to this result if the condition holds, and else leaves an array. -/
def Results {α : Type} (x : Except Stop α) (P : Prop) (a : α) : Prop :=
  (P → x = .ok a) ∧ (¬ P → x = .error .undefined)

theorem Results.ok {α : Type} (a : α) : Results (.ok a) True a :=
  ⟨fun _ => rfl, fun h => absurd trivial h⟩

theorem Results.bind {α β : Type} {x : Except Stop α} {P Q : Prop} {a : α}
    {f : α → Except Stop β} {b : β} (hx : Results x P a) (hf : Results (f a) Q b) :
    Results (x >>= f) (P ∧ Q) b := by
  constructor
  · rintro ⟨hP, hQ⟩
    rw [hx.1 hP]
    exact hf.1 hQ
  · intro hne
    by_cases hP : P
    · rw [hx.1 hP]
      exact hf.2 fun hQ => hne ⟨hP, hQ⟩
    · rw [hx.2 hP]
      rfl

theorem Results.map {α β : Type} {x : Except Stop α} {P : Prop} {a : α} (hx : Results x P a)
    (f : α → β) : Results (x >>= fun a => .ok (f a)) P (f a) := by
  constructor
  · intro hP
    rw [hx.1 hP]
    rfl
  · intro hP
    rw [hx.2 hP]
    rfl

theorem Results.congr {α : Type} {x : Except Stop α} {P Q : Prop} {a b : α} (hx : Results x P a)
    (hPQ : P ↔ Q) (hab : a = b) : Results x Q b := by
  subst hab
  exact ⟨fun hQ => hx.1 (hPQ.2 hQ), fun hQ => hx.2 fun hP => hQ (hPQ.1 hP)⟩

/-- What follows the criterium, where it is not empty. -/
theorem results_criterium {β : Type} {as : List Action} {start : Nat} {cs : List Comparison}
    (h : generateMatchCondition start as = some cs) (hne : cs ≠ []) {sPacketName : List UInt8}
    (hname : 0 ∉ sPacketName) {s : CharArray} (hs : s.length = 1024)
    (skip : CharArray → Except Stop β) (next : List UInt8 → CharArray → Except Stop β) {Q : Prop}
    {b : β}
    (hnext : ∀ s' : CharArray, s'.length = 1024 → Results (next ((andText.intercalate
      (cs.map (Comparison.text sPacketName start as))).take 1023) s') Q b) :
    Results (do
      let (iOffset, s') ← writeMatchCondition sPacketName 0 s as
      if iOffset = 0 then skip s'
      else do
        let criterium ← readString s'
        next criterium s')
      (lastPlace (cs.map (Comparison.text sPacketName start as)) ≤ 1024 ∧ Q) b := by
  by_cases hfits : lastPlace (cs.map (Comparison.text sPacketName start as)) ≤ 1024
  · obtain ⟨iOffset, s', hwrite, hpos, hheld⟩ := writeMatchCondition_ok h hs hne hfits
    -- no NUL is inside the criterium, so all of it is read back
    have hread : readString s' = _ := HoldsString.readString hheld (zero_not_mem_intercalate
      (List.forall_mem_map.2 fun c _ => Comparison.zero_not_mem_text hname start as c))
    rw [hwrite]
    show Results (if iOffset = 0 then skip s' else _) _ _
    rw [if_neg (Nat.ne_of_gt hpos), hread]
    exact (hnext s' hheld.1).congr (iff_and_self.2 fun _ => hfits) rfl
  · rw [writeMatchCondition_error h hs (Nat.lt_of_not_le hfits)]
    exact ⟨fun hboth => absurd hboth.1 hfits, fun _ => rfl⟩

theorem zero_not_mem_subpacketName (p : Packet) (sp : Subpacket) : 0 ∉ p.subpacketName sp := by
  have hline : (0 : UInt8) ∉ [0x5f] := by decide
  have hp := zero_not_mem_nameOf p.name
  have hsp := zero_not_mem_nameOf sp.name
  simp only [Packet.subpacketName, List.mem_append, not_or]
  exact ⟨⟨hp, hline⟩, hsp⟩

theorem writeName_results (p : Packet) (sp : Subpacket) :
    Results (p.writeName sp) ((p.subpacketName sp).length < 1024) (p.subpacketName sp) := by
  have hroom : 0 < uninitialized.length := by
    rw [length_uninitialized]
    decide
  obtain ⟨s, hprint, hheld⟩ := snprintfAt_zero hroom (p.subpacketName sp)
  rw [length_uninitialized] at hheld
  rw [Packet.writeName, hprint]
  show Results (if _ < s.length then _ else _) _ _
  rw [hheld.1]
  constructor
  · intro hlt
    obtain ⟨-, rest, heq⟩ := hheld
    have hall : ((p.subpacketName sp).map some).take 1023 = (p.subpacketName sp).map some :=
      List.take_of_length_le (by rw [List.length_map]; omega)
    -- the NUL goes over the one that ends the name
    rw [if_pos hlt, heq, hall, List.set_append_right _ _ (by rw [List.length_map]),
      List.length_map, Nat.sub_self, List.set_cons_zero]
    exact readString_append (zero_not_mem_subpacketName p sp) rest
  · intro hge
    rw [if_neg hge]
    rfl

/-! ## Conditions -/

theorem comparisonTexts_append {sizes : List Condition}
    (hsizes : ∀ c ∈ sizes, c.comparison? = none) (sPacketName : List UInt8) (start : Nat)
    (as : List Action) (cs : List Comparison) :
    comparisonTexts sPacketName start as (sizes ++ cs.map .comparison) =
      cs.map (Comparison.text sPacketName start as) := by
  have hcomparisons : (cs.map Condition.comparison).filterMap Condition.comparison? = cs := by
    rw [List.filterMap_map]
    exact List.filterMap_some
  rw [comparisonTexts, List.filterMap_append, List.filterMap_eq_nil_iff.2 hsizes, hcomparisons,
    List.nil_append]

/-- The criterium stands behind the sizes. -/
theorem conditionsText_append {sizes : List Condition}
    (hsizes : ∀ c ∈ sizes, c.comparison? = none) (p : Packet) (sPacketName : List UInt8)
    (start : Nat) (as : List Action) (cs : List Comparison) :
    conditionsText p sPacketName start as (sizes ++ cs.map .comparison) =
      sizes.flatMap (Condition.text p sPacketName) ++
        (andText.intercalate (cs.map (Comparison.text sPacketName start as))).take 1023 := by
  have hcomparisons : (cs.map Condition.comparison).flatMap (Condition.text p sPacketName) = [] :=
    List.flatMap_eq_nil_iff.2 (List.forall_mem_map.2 fun c _ => rfl)
  rw [conditionsText, comparisonTexts_append hsizes, List.flatMap_append, hcomparisons,
    List.append_nil]

theorem Packet.comparison_sizeConditions (p : Packet) :
    ∀ c ∈ p.sizeConditions, c.comparison? = none := by
  rw [sizeConditions]
  split
  · exact List.forall_mem_nil _
  · split
    · exact List.forall_mem_singleton.2 rfl
    · exact List.forall_mem_cons.2 ⟨rfl, List.forall_mem_singleton.2 rfl⟩

theorem Packet.comparison_subpacketSizeConditions (p : Packet) (sp : Subpacket) :
    ∀ c ∈ p.subpacketSizeConditions sp, c.comparison? = none := by
  rw [subpacketSizeConditions]
  split
  · exact List.forall_mem_nil _
  · split
    · exact List.forall_mem_singleton.2 rfl
    · exact List.forall_mem_nil _

theorem Packet.sizesText_eq {p : Packet} (h : constantSizes p.actions < 2 ^ 32) :
    p.sizesText = p.sizeConditions.flatMap (Condition.text p (nameOf p.name)) := by
  rw [sizesText, sizeConditions]
  by_cases hzero : constantSizes p.actions = 0
  · rw [if_pos hzero]
    exact if_pos ((packetLen_eq_zero h).2 hzero)
  · rw [if_neg hzero]
    refine (if_neg (mt (packetLen_eq_zero h).1 hzero)).trans ?_
    rcases lengthOffset_eq_memberAt p.actions 0 with
      ⟨hoffset, hlength⟩ | ⟨offset, pLengthField, hoffset, hlength, -, hmember⟩
    · rw [hoffset, hlength, toNat_packetLen h]
      exact (List.append_nil _).symm
    · simp only [hoffset, hlength, toNat_packetLen h, ← hmember]
      exact congrArg _ (List.append_nil _).symm

theorem Packet.subpacketSizesText_eq {p : Packet} {sp : Subpacket}
    (h : constantSizes sp.actions < 2 ^ 32) (sPacketName : List UInt8) :
    p.subpacketSizesText sPacketName sp =
      (p.subpacketSizeConditions sp).flatMap (Condition.text p sPacketName) := by
  have hpos : 0 < packetLen sp.actions ↔ 0 < constantSizes sp.actions := by
    rw [UInt32.lt_iff_toNat_lt, toNat_packetLen h]
    rfl
  rw [subpacketSizesText, subpacketSizeConditions]
  rcases lengthOffset_eq_memberAt p.actions 0 with
    ⟨hoffset, hlength⟩ | ⟨offset, pLengthField, hoffset, hlength, -, hmember⟩
  · rw [hoffset, hlength]
    rfl
  · simp only [hoffset, hlength, toNat_packetLen h, ← hmember, hpos, ← isConstantSize_iff h]
    split
    · exact (List.append_nil _).symm
    · rfl

/-! ## Blocks -/

theorem getElem?_of_drop {α : Type} {xs ys : List α} {x : α} {k : Nat} (h : xs.drop k = x :: ys) :
    xs[k]? = some x ∧ xs.drop (k + 1) = ys := by
  constructor
  · have hhead : (xs.drop k)[0]? = some x := by rw [h]; rfl
    rwa [List.getElem?_drop, Nat.add_zero] at hhead
  · rw [← List.drop_drop, h]
    rfl

theorem SubpacketBlock.fits_iff {p : Packet} {block : SubpacketBlock} {sp : Subpacket}
    (h : p.subpackets[block.index]? = some sp) :
    block.Fits p ↔ lastPlace (comparisonTexts (p.subpacketName sp) (sizeofMembers p.actions)
      sp.actions block.conditions) ≤ 1024 := by
  constructor
  · exact fun hfits => hfits sp h
  · rintro hle sp' hsp'
    cases h.symm.trans hsp'
    exact hle

/-- The text of the block of a subpacket with these comparisons. -/
theorem SubpacketBlock.text_eq {p : Packet} {sp : Subpacket} {k : Nat}
    (hget : p.subpackets[k]? = some sp) (hsize : constantSizes sp.actions < 2 ^ 32)
    (cs : List Comparison) :
    SubpacketBlock.text p ⟨k, p.subpacketSizeConditions sp ++ cs.map .comparison⟩ =
      ifText twoTabs (p.subpacketSizesText (p.subpacketName sp) sp ++
        (andText.intercalate (cs.map (Comparison.text (p.subpacketName sp)
          (sizeofMembers p.actions) sp.actions))).take 1023)
        (requestText threeTabs (p.subpacketName sp)) := by
  rw [SubpacketBlock.text, hget, Packet.subpacketSizesText_eq hsize]
  simp only [conditionsText_append (p.comparison_subpacketSizeConditions sp)]

theorem writeSubpackets_results {p : Packet} {sps : List Subpacket} {k : Nat}
    {blocks : List SubpacketBlock} (hgen : p.generateSubpackets k sps = some blocks)
    (hsps : p.subpackets.drop k = sps) (hsizes : ∀ sp ∈ sps, constantSizes sp.actions < 2 ^ 32)
    {s : CharArray} (hs : s.length = 1024) :
    Results (p.writeSubpackets s sps)
      ((∀ sp ∈ sps, (p.subpacketName sp).length < 1024) ∧ ∀ b ∈ blocks, b.Fits p)
      (blocks.flatMap (SubpacketBlock.text p)) := by
  induction sps generalizing k blocks s with
  | nil =>
      cases hgen
      exact (Results.ok []).congr
        (iff_of_true trivial ⟨List.forall_mem_nil _, List.forall_mem_nil _⟩) rfl
  | cons sp sps ih =>
      obtain ⟨hget, hdrop⟩ := getElem?_of_drop hsps
      obtain ⟨hsize, hsizes⟩ := List.forall_mem_cons.1 hsizes
      have hname := zero_not_mem_subpacketName p sp
      rw [Packet.generateSubpackets] at hgen
      rw [Packet.writeSubpackets]
      cases hmatch : generateMatchCondition (sizeofMembers p.actions) sp.actions with
      | none =>
          rw [hmatch] at hgen
          cases hgen
      | some cs =>
          cases cs with
          | nil =>
              rw [hmatch] at hgen
              -- no fixed values, and the next subpacket
              refine (Results.bind (Q := (∀ sp ∈ sps, (p.subpacketName sp).length < 1024) ∧
                ∀ b ∈ blocks, b.Fits p) (writeName_results p sp) ?_).congr ?_ rfl
              · rw [writeMatchCondition_nil hmatch]
                exact ih hgen hdrop hsizes hs
              · rw [List.forall_mem_cons, and_assoc]
          | cons c cs =>
              rw [hmatch] at hgen
              obtain ⟨rest, hrest, rfl⟩ := Option.map_eq_some_iff.1 hgen
              have hcomparison := p.comparison_subpacketSizeConditions sp
              refine ((writeName_results p sp).bind (results_criterium hmatch
                (List.cons_ne_nil _ _) hname hs (p.writeSubpackets · sps)
                (fun criterium s' => p.writeSubpackets s' sps >>= fun rest =>
                  .ok (ifText twoTabs (p.subpacketSizesText (p.subpacketName sp) sp ++ criterium)
                    (requestText threeTabs (p.subpacketName sp)) ++ rest))
                fun s' hs' => (ih hrest hdrop hsizes hs').map _)).congr ?_ ?_
              · rw [List.forall_mem_cons, List.forall_mem_cons, SubpacketBlock.fits_iff hget,
                  comparisonTexts_append hcomparison]
                constructor
                · rintro ⟨hn, hl, hns, hbs⟩
                  exact ⟨⟨hn, hns⟩, hl, hbs⟩
                · rintro ⟨⟨hn, hns⟩, hl, hbs⟩
                  exact ⟨hn, hl, hns, hbs⟩
              · rw [List.flatMap_cons, SubpacketBlock.text_eq hget hsize]

theorem PacketBlock.fits_iff {ps : List Packet} {block : PacketBlock} {p : Packet}
    (h : ps[block.index]? = some p) :
    block.Fits ps ↔
      lastPlace (comparisonTexts (nameOf p.name) 0 p.actions block.conditions) ≤ 1024 ∧
        (∀ sp ∈ p.subpackets, (p.subpacketName sp).length < 1024) ∧
        ∀ b ∈ block.subpackets, b.Fits p := by
  constructor
  · exact fun hfits => hfits p h
  · rintro hall p' hp'
    cases h.symm.trans hp'
    exact hall

/-- A packet with fixed values. -/
theorem writeBlock_results {ps : List Packet} {i : Nat} {p : Packet} (hget : ps[i]? = some p)
    {cs : List Comparison} (hmatch : generateMatchCondition 0 p.actions = some cs) (hne : cs ≠ [])
    {subpackets : List SubpacketBlock}
    (hgen : p.generateSubpackets 0 p.subpackets = some subpackets)
    (hsize : constantSizes p.actions < 2 ^ 32)
    (hsizes : ∀ sp ∈ p.subpackets, constantSizes sp.actions < 2 ^ 32) {block : PacketBlock}
    (hblock : block = ⟨i, p.sizeConditions ++ cs.map .comparison, p.subpackets.isEmpty,
      subpackets⟩) :
    Results p.writeBlock (block.Fits ps) (block.text ps) := by
  subst hblock
  have hcomparison := p.comparison_sizeConditions
  refine (results_criterium hmatch hne (zero_not_mem_nameOf p.name) length_uninitialized
    (fun _ => .ok [])
    (fun criterium s' => p.writeSubpackets s' p.subpackets >>= fun subpackets =>
      .ok (ifText oneTab (p.sizesText ++ criterium)
        ((if p.subpackets.isEmpty then requestText twoTabs (nameOf p.name) else []) ++ subpackets)))
    fun s' hs' => (writeSubpackets_results hgen rfl hsizes hs').map _).congr ?_ ?_
  · rw [PacketBlock.fits_iff hget, comparisonTexts_append hcomparison]
  · rw [PacketBlock.text, hget, Packet.sizesText_eq hsize]
    simp only [conditionsText_append hcomparison]

theorem writeBlocks_results {all ps : List Packet} {i : Nat} {parser : List PacketBlock}
    (hgen : generatePackets i ps = some parser) (hps : all.drop i = ps)
    (hsizes : ∀ p ∈ ps, constantSizes p.actions < 2 ^ 32 ∧
      ∀ sp ∈ p.subpackets, constantSizes sp.actions < 2 ^ 32) :
    Results (writeBlocks ps) (∀ b ∈ parser, b.Fits all)
      (parser.flatMap (PacketBlock.text all)) := by
  induction ps generalizing i parser with
  | nil =>
      cases hgen
      exact (Results.ok []).congr (iff_of_true trivial (List.forall_mem_nil _)) rfl
  | cons p ps ih =>
      obtain ⟨hget, hdrop⟩ := getElem?_of_drop hps
      obtain ⟨⟨hsize, hsub⟩, hsizes⟩ := List.forall_mem_cons.1 hsizes
      rw [generatePackets] at hgen
      cases hmatch : generateMatchCondition 0 p.actions with
      | none =>
          rw [hmatch] at hgen
          cases hgen
      | some cs =>
          cases cs with
          | nil =>
              rw [hmatch] at hgen
              -- without fixed values there is no block
              have hblock : p.writeBlock = .ok [] := by
                rw [Packet.writeBlock, writeMatchCondition_nil hmatch]
                rfl
              rw [writeBlocks, hblock]
              exact (ih hgen hdrop hsizes).map ([] ++ ·)
          | cons c cs =>
              rw [hmatch] at hgen
              cases hsubpackets : p.generateSubpackets 0 p.subpackets with
              | none =>
                  simp only [hsubpackets] at hgen
                  cases hgen
              | some subpackets =>
                  simp only [hsubpackets] at hgen
                  obtain ⟨rest, hrest, rfl⟩ := Option.map_eq_some_iff.1 hgen
                  have hblock := writeBlock_results hget hmatch (List.cons_ne_nil _ _) hsubpackets
                    hsize hsub rfl
                  exact (hblock.bind ((ih hrest hdrop hsizes).map _)).congr
                    List.forall_mem_cons.symm List.flatMap_cons.symm

theorem writeParser_results {d : ProtocolDefinition} {parser : List PacketBlock}
    (hgen : generateParser d = some parser) (hsizes : d.SizesFit) :
    Results d.writeParser (∀ b ∈ parser, b.Fits d.packets) (d.parserText parser) :=
  (writeBlocks_results hgen rfl hsizes).map _

/-- The generator prints the text of the parser, with criteria of up to 1023 characters, or leaves
an array, where a name or a criterium is too long for it. -/
theorem writeParser_iff {d : ProtocolDefinition} {parser : List PacketBlock}
    (hgen : generateParser d = some parser) (hsizes : d.SizesFit) :
    (d.writeParser = .ok (d.parserText parser) ↔ ∀ b ∈ parser, b.Fits d.packets) ∧
      (d.writeParser = .error .undefined ↔ ¬ ∀ b ∈ parser, b.Fits d.packets) := by
  obtain ⟨hok, herror⟩ := writeParser_results hgen hsizes
  by_cases hfits : ∀ b ∈ parser, b.Fits d.packets
  · rw [hok hfits]
    exact ⟨iff_of_true rfl hfits, iff_of_false (fun heq => by cases heq) fun hne => hne hfits⟩
  · rw [herror hfits]
    exact ⟨iff_of_false (fun heq => by cases heq) hfits, iff_of_true rfl hfits⟩

/-- Fields with the value 1. -/
def columnFields : List Action :=
  (List.range 21).map fun i => .field (String.ofList ['v', Char.ofNat (97 + i)]) (u32 (some 1)) 0

theorem isField_columnFields : ∀ a ∈ columnFields, a.IsField :=
  List.forall_mem_map.2 fun _ _ => trivial

theorem sizeFrom_columnFields : 84 = sizeFrom 0 columnFields := by decide

theorem numPacketBytes_ne_columns (h : ([] : List Subpacket) ≠ []) : (84 : Int) ≠ 0 := absurd rfl h

def columnsPacket : Packet where
  name := "columns"
  actions := columnFields
  subpackets := []
  numPacketBytes := 84
  lastSubpacket := none
  isField := isField_columnFields
  numPacketBytes_eq := sizeFrom_columnFields
  numPacketBytes_ne := numPacketBytes_ne_columns

/-- The last of the comparisons begins at 980 and is cut: `== 0x1` becomes `== 0`, which is still
C++. -/
theorem writeParser_iff_columnsPacket :
    ∃ parser, generateParser ⟨[columnsPacket]⟩ = some parser ∧
      writeParser ⟨[columnsPacket]⟩ = .ok (parserText ⟨[columnsPacket]⟩ parser) := by
  refine ⟨_, rfl, (writeParser_iff rfl ?_).1.2 ?_⟩
  · exact List.forall_mem_singleton.2 ⟨by decide, List.forall_mem_nil _⟩
  · refine List.forall_mem_singleton.2 fun p hp => ?_
    cases hp
    exact ⟨by decide +kernel, List.forall_mem_nil _, List.forall_mem_nil _⟩

end ProtocolDefinition

end OpenRom
