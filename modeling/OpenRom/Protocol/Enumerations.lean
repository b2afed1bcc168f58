import OpenRom.Protocol.Everywhere

/-!
# Enumerations

`LookupEnumeration` and `Enumeration::Lookup` against the document. `ParseEnum` lets no two elements
of an `enum` have one number as an `int`, so at most one of them names a value of 32 bits, whatever
its number is written as, and that one is found (`entries_namesOf`). The first `enum` with a name is
the one that all fields get (`Parsed.lookupEnumeration`), and a field gets none that is not there
(`declared_parseNode`).
-/

set_option autoImplicit false

namespace OpenRom

namespace ProtocolDefinition

open Allocation

/-- `Enumeration::Lookup`, of a value that becomes an `int` for it. -/
def Enumeration.lookup (e : Enumeration) (value : Nat) : Option String :=
  e.entries.lookup (toInt value)

/-! ## The document -/

namespace XmlNode

/-- The value that the number of the element stands for, as one of 32 bits. -/
def number (n : XmlNode) : Option Nat :=
  (n.getProp "num").map fun sNum => (toUInt32 (strtol 0 sNum.toList).1).toNat

/-- The names that the elements of an `enum` give to a value. -/
def namesOf (n : XmlNode) (value : Nat) : List String :=
  (n.children.filter fun c => c.tag = some "value" ∧ c.number = some value).filterMap
    (·.getProp "name")

/-- The `enum` that a field gets for the name. -/
def enumNode (ns : List XmlNode) (name : String) : Option XmlNode :=
  ns.find? fun n => n.tag = some "enum" ∧ n.getProp "name" = some name

end XmlNode

/-! ## The entries of an enumeration -/

/-- A number as an `int`, and as an `uint32_t`. -/
theorem toInt_eq_iff {v : Int} {value : Nat} (hvalue : value < 2 ^ 32) :
    toInt v = toInt value ↔ (toUInt32 v).toNat = value := by
  have hmod : (toUInt32 v).toNat = (v % 2 ^ 32).toNat := by
    refine UInt32.toNat_ofNat_of_lt' ?_
    have hlt := Int.emod_lt_of_pos v (by decide : (0 : Int) < 2 ^ 32)
    exact (Int.toNat_lt (Int.emod_nonneg v (by decide))).2 hlt
  rw [hmod, toInt, toInt, Int.bmod_eq_bmod_iff_bmod_sub_eq_zero, ← Int.dvd_iff_bmod_eq_zero]
  change (4294967296 : Int) ∣ v - value ↔ _
  omega

theorem isEntry_number {n : XmlNode} {e : Int × String} (h : Loader.IsEntry n e) {value : Nat}
    (hvalue : value < 2 ^ 32) : n.number = some value ↔ e.1 = toInt value := by
  obtain ⟨-, -, sNum, hnum, hkey⟩ := h
  rw [XmlNode.number, hnum, Option.map_some, Option.some_inj, ← toInt_eq_iff hvalue, hkey]

/-- Keys are not there twice. -/
theorem nodup_parseEnumValues {ns : List XmlNode} {entries entries' : List (Int × String)}
    (h : Loader.parseEnumValues entries ns = some entries')
    (hentries : (entries.map Prod.fst).Nodup) : (entries'.map Prod.fst).Nodup := by
  induction ns generalizing entries with
  | nil =>
      cases h
      exact hentries
  | cons n ns ih =>
      rw [Loader.parseEnumValues] at h
      by_cases hn : n.isElement = true
      · rw [if_neg (not_not.2 hn)] at h
        split at h
        · cases h
        · split at h
          next sNum sName hnum hname =>
            simp only at h
            split at h
            next hok =>
              refine ih h ?_
              rw [List.map_append, List.nodup_append]
              refine ⟨hentries, List.pairwise_singleton _ _, ?_⟩
              -- the key that is added has not been found
              rintro key hkey _ hadded rfl
              obtain rfl := List.mem_singleton.1 hadded
              obtain ⟨entry, hentry, heq⟩ := List.mem_map.1 hkey
              have hne := List.lookup_eq_none_iff.1 (Option.isNone_iff_eq_none.1 hok.2) entry hentry
              simp [heq] at hne
            · cases h
          · cases h
      · rw [if_pos hn] at h
        exact ih h hentries

/-- At most one element names a value, and its name is the one that is found. -/
theorem namesOf_entries {cs : List XmlNode} {entries : List (Int × String)}
    (h : List.Forall₂ Loader.IsEntry cs entries) (hnodup : (entries.map Prod.fst).Nodup)
    {value : Nat} (hvalue : value < 2 ^ 32) :
    (cs.filter fun c => c.tag = some "value" ∧ c.number = some value).filterMap
      (·.getProp "name") = (entries.lookup (toInt value)).toList := by
  induction h with
  | nil => rfl
  | @cons c e cs entries hentry _ ih =>
      obtain ⟨hkey, hrest⟩ := List.nodup_cons.1 hnodup
      have hnumber := isEntry_number hentry hvalue
      rw [List.filter_cons, List.lookup_cons]
      by_cases hfound : e.1 = toInt value
      · -- no other entry has the key
        have hnone : entries.lookup (toInt value) = none := by
          refine List.lookup_eq_none_iff.2 fun entry hmem => ?_
          simp only [bne_iff_ne, ne_eq]
          rintro heq
          exact hkey (List.mem_map.2 ⟨entry, hmem, heq.symm.trans hfound.symm⟩)
        rw [if_pos (decide_eq_true ⟨hentry.1, hnumber.2 hfound⟩),
          List.filterMap_cons_some (f := fun c : XmlNode => c.getProp "name") hentry.2.1, ih hrest,
          hnone, hfound, beq_self_eq_true]
        rfl
      · rw [if_neg (by simpa [hnumber] using fun _ => hfound), ih hrest,
          beq_eq_false_iff_ne.2 (Ne.symm hfound)]

/-- The enumeration is that of the node. -/
structure XmlNode.Enumerates (n : XmlNode) (e : Enumeration) : Prop where
  tag : n.tag = some "enum"
  name : n.getProp "name" = some e.name
  namesOf : ∀ value < 2 ^ 32, n.namesOf value = (e.lookup value).toList

/-- What `ParseEnum` adds. -/
theorem enumerates_parseEnum {l l' : Loader} {n : XmlNode} (htag : n.tag = some "enum")
    (h : l.parseEnum n = some l') :
    ∃ e : Enumeration, l' = { l with enums := l.enums ++ [e] } ∧ n.Enumerates e := by
  simp only [Loader.parseEnum, Option.bind_eq_bind, Option.bind_eq_some_iff] at h
  obtain ⟨sName, hname, entries, hentries, heq⟩ := h
  cases heq
  refine ⟨⟨sName, entries⟩, rfl, htag, hname, fun value hvalue => ?_⟩
  obtain ⟨added, hadded, hforall⟩ := Loader.forall₂_parseEnumValues hentries
  obtain rfl : entries = added := hadded
  have hnames := namesOf_entries hforall (nodup_parseEnumValues hentries List.nodup_nil) hvalue
  rw [List.filter_filter] at hnames
  rw [XmlNode.namesOf, Enumeration.lookup, ← hnames]
  refine congrArg _ (List.filter_congr fun c _ => ?_)
  cases c <;> simp [XmlNode.tag, XmlNode.isElement]

/-! ## The enumerations of a document -/

namespace Loader

variable {l l' : Loader} {n : XmlNode} {ns : List XmlNode} {name : String}

theorem enums_of_parseElement (h : (l.parseElement n).result = some l') :
    (n.tag = some "enum" ∧ ∃ e, l'.enums = l.enums ++ [e] ∧ n.Enumerates e) ∨
      n.tag ≠ some "enum" ∧ l'.enums = l.enums := by
  unfold parseElement at h
  split at h
  next htag =>
    obtain ⟨e, rfl, he⟩ := enumerates_parseEnum htag h
    exact Or.inl ⟨htag, e, rfl, he⟩
  next htag =>
    obtain ⟨t, rfl, -⟩ := parseStruct_eq_some h
    exact Or.inr ⟨by simp [htag], rfl⟩
  next htag =>
    obtain ⟨p, rfl, -⟩ := parsePacket_eq_some h
    exact Or.inr ⟨by simp [htag], rfl⟩
  next htag =>
    obtain ⟨d, rfl, -⟩ := parseDefinition_eq_some h
    exact Or.inr ⟨by simp [htag], rfl⟩
  · cases h

/-- An enumeration that is found is one that there was before, or else that of the first node with
the name. -/
theorem Parsed.lookupEnumeration {grants : Request → Bool} (h : Parsed grants l ns l')
    {e : Enumeration} (he : l'.lookupEnumeration name = some e) :
    l.lookupEnumeration name = some e ∨
      l.lookupEnumeration name = none ∧ ∃ n, XmlNode.enumNode ns name = some n ∧
        n.Enumerates e := by
  induction h with
  | nil l => exact Or.inl he
  | @cons l l₁ l₂ n ns hr _ ih =>
      rw [XmlNode.enumNode, List.find?_cons]
      rcases enums_of_parseElement (Alloc.run_eq_some_iff.1 hr).2 with
        ⟨htag, e₁, henums, he₁⟩ | ⟨htag, henums⟩
      · have hlookup : l₁.lookupEnumeration name =
            (l.lookupEnumeration name).or (if e₁.name = name then some e₁ else none) := by
          rw [Loader.lookupEnumeration, henums, List.find?_append, List.find?_singleton]
          simp only [beq_iff_eq, Loader.lookupEnumeration]
        cases hfound : l.lookupEnumeration name with
        | some e₂ =>
            rw [hfound, Option.some_or] at hlookup
            rcases ih he with hsome | ⟨hnone, -⟩
            · exact Or.inl (hlookup.symm.trans hsome)
            · rw [hlookup] at hnone
              cases hnone
        | none =>
            rw [hfound, Option.none_or] at hlookup
            refine Or.inr ⟨rfl, ?_⟩
            by_cases hname : e₁.name = name
            · -- it is the first one
              rw [if_pos hname] at hlookup
              have hfirst : n.tag = some "enum" ∧ n.getProp "name" = some name :=
                ⟨htag, hname ▸ he₁.name⟩
              rcases ih he with hsome | ⟨hnone, -⟩
              · rw [hlookup] at hsome
                cases hsome
                exact ⟨n, by rw [decide_eq_true hfirst], he₁⟩
              · rw [hlookup] at hnone
                cases hnone
            · rw [if_neg hname] at hlookup
              have hnot : ¬ (n.tag = some "enum" ∧ n.getProp "name" = some name) := by
                rintro ⟨-, hsame⟩
                exact hname (Option.some.inj (he₁.name.symm.trans hsame))
              rw [decide_eq_false hnot]
              rcases ih he with hsome | ⟨-, hrest⟩
              · rw [hlookup] at hsome
                cases hsome
              · exact hrest
      · have hnot : ¬ (n.tag = some "enum" ∧ n.getProp "name" = some name) := fun hboth =>
          htag hboth.1
        have hlookup : l₁.lookupEnumeration name = l.lookupEnumeration name := by
          rw [Loader.lookupEnumeration, henums]
          rfl
        rw [decide_eq_false hnot, ← hlookup]
        exact ih he

end Loader

/-! ## Fields -/

namespace UnsignedType

/-- The enumeration of the type is one that can be looked up. -/
def Declared (l : Loader) (t : UnsignedType) : Prop :=
  ∀ name ∈ t.enumeration, (l.lookupEnumeration name).isSome = true

variable {l : Loader} {n : XmlNode}

/-- A step that does nothing to the enumeration. -/
theorem Declared.of_enumeration {c c' : Checked UnsignedType} (h : c.Holds (Declared l))
    (henumeration : c'.1.enumeration = c.1.enumeration) (hok : c'.2 = true → c.2 = true) :
    c'.Holds (Declared l) := by
  intro ht
  rw [Declared, henumeration]
  exact h (hok ht)

theorem declared_parseFixedValue {t : UnsignedType} (h : t.Declared l) :
    (t.parseFixedValue l n).Holds (Declared l) := by
  unfold parseFixedValue
  cases n.getProp "fixed_value" with
  | none => exact fun _ => h
  | some s => exact fun _ => h

theorem declared_parseCount {c : Checked UnsignedType} (h : c.Holds (Declared l)) :
    (parseCount l n c).result.Holds (Declared l) := by
  unfold parseCount
  cases n.getProp "count" with
  | none => exact h
  | some s =>
      simp only
      split
      next hok =>
        rw [Alloc.result_bind]
        exact .of_enumeration h rfl fun _ => hok.1
      · exact fun hfalse => absurd hfalse Bool.false_ne_true

theorem declared_parseMinCount {c : Checked UnsignedType} (h : c.Holds (Declared l)) :
    (parseMinCount l n c).Holds (Declared l) := by
  unfold parseMinCount
  cases n.getProp "min_count" with
  | none => exact h
  | some s => exact .of_enumeration h rfl fun ht => (Bool.and_eq_true_iff.1 ht).1

theorem declared_parseDisplayCount {c : Checked UnsignedType} (h : c.Holds (Declared l)) :
    (parseDisplayCount l n c).Holds (Declared l) := by
  unfold parseDisplayCount
  cases n.getProp "display" with
  | none => exact h
  | some s => exact .of_enumeration h rfl fun ht => (Bool.and_eq_true_iff.1 ht).1

theorem declared_parseFormat {c : Checked UnsignedType} (h : c.Holds (Declared l)) :
    (parseFormat n c).Holds (Declared l) := by
  unfold parseFormat
  cases n.getProp "format" with
  | none => exact h
  | some s =>
      simp only
      split
      · split <;> exact .of_enumeration h rfl fun ht => ht
      · exact fun hfalse => absurd hfalse Bool.false_ne_true

/-- A name that is not found makes it fail. -/
theorem declared_parseEnumeration {c : Checked UnsignedType} (h : c.Holds (Declared l)) :
    (parseEnumeration l n c).Holds (Declared l) := by
  unfold parseEnumeration
  cases n.getProp "enumeration" with
  | none => exact h
  | some s =>
      intro ht name hname
      obtain ⟨-, hsome⟩ := Bool.and_eq_true_iff.1 ht
      obtain ⟨e, he⟩ := Option.isSome_iff_exists.1 hsome
      simp only [he, Option.map_some, Option.mem_some] at hname
      have hsame : e.name = s := by simpa using List.find?_some he
      rw [← hname, hsame]
      exact hsome

theorem declared_annotated {c : Checked UnsignedType} (h : c.Holds (Declared l)) :
    (parseAnnotationProp l n c).Holds (Declared l) := by
  unfold parseAnnotationProp
  cases n.getProp "annotation" with
  | none => exact h
  | some s => exact .of_enumeration h rfl fun ht => (Bool.and_eq_true_iff.1 ht).1

theorem declared_parseNode {t t' : UnsignedType} (h : t.Declared l)
    (ht : (t.parseNode l n).result = some t') : t'.Declared l := by
  simp only [parseNode, Alloc.result_bind, Alloc.result_pure] at ht
  have hcount := declared_parseCount (n := n) (declared_parseFixedValue (n := n) h)
  have hdisplay := declared_parseDisplayCount (n := n) (declared_parseMinCount (n := n) hcount)
  have hformat := declared_parseFormat (n := n) hdisplay
  exact (declared_annotated (declared_parseEnumeration hformat)).of_get ht

end UnsignedType

/-- What the definition file says of an `unsignedType` or a `signedType`. -/
def BuiltinType.integer : BuiltinType → Option UnsignedType
  | unsigned t => some t
  | signed t => some t
  | string _ _ => none
  | float _ _ => none
  | double _ _ => none
  | length => none
  | unixtime => none

theorem integer_parseString {l : Loader} {n : XmlNode} {t : BuiltinType}
    (h : (parseString l n).result = some t) : t.integer = none := by
  unfold parseString at h
  split at h
  · cases h
  · simp only [Alloc.result_bind] at h
    split at h
    all_goals
      rw [Checked.eq_of_get h]
      rfl

/-- Its enumeration, if it has one, can be looked up. -/
def BuiltinType.Declared (l : Loader) (t : BuiltinType) : Prop := ∀ u ∈ t.integer, u.Declared l

/-- What is found stays. -/
theorem Loader.Extends.lookupEnumeration {l l' : Loader} (h : l.Extends l') {name : String}
    {e : Enumeration} (he : l.lookupEnumeration name = some e) :
    l'.lookupEnumeration name = some e := by
  obtain ⟨more, henums⟩ := h.enums
  rw [Loader.lookupEnumeration, ← henums, List.find?_append]
  exact Option.or_eq_some_iff.2 (Or.inl he)

theorem UnsignedType.Declared.mono {l l' : Loader} {t : UnsignedType} (h : t.Declared l)
    (hext : l.Extends l') : t.Declared l' := by
  intro name hname
  obtain ⟨e, he⟩ := Option.isSome_iff_exists.1 (h name hname)
  rw [hext.lookupEnumeration he]
  rfl

theorem XmlNode.sets_declared {l l' : Loader} (hext : l.Extends l') (n : XmlNode) :
    n.Sets (BuiltinType.Declared l') l := by
  intro sType proto t hproto ht
  have hnew : ∀ w : Width, (UnsignedType.prototype w).Declared l := fun w name hname => by
    cases hname
  -- an integer type starts from a prototype without an enumeration
  have hinteger : ∀ u ∈ proto.result.integer, u.Declared l := by
    unfold Loader.clonePrototype at hproto
    split at hproto <;> cases hproto
    all_goals first
      | rintro u ⟨⟩
        exact hnew _
      | rintro u ⟨⟩
  intro u hu
  cases hresult : proto.result with
  | unsigned v | signed v =>
      rw [hresult] at ht hinteger
      simp only [BuiltinType.parseNode, Alloc.result_bind, Alloc.result_pure,
        Option.map_eq_some_iff] at ht
      obtain ⟨v', hv', rfl⟩ := ht
      obtain rfl := Option.some.inj hu
      exact (UnsignedType.declared_parseNode (hinteger v rfl) hv').mono hext
  | string length minLength =>
      rw [hresult] at ht
      rw [integer_parseString ht] at hu
      cases hu
  | float count displayCount | double count displayCount =>
      rw [hresult] at ht
      simp only [BuiltinType.parseNode, Alloc.result_bind, Alloc.result_pure,
        Option.map_eq_some_iff] at ht
      obtain ⟨c, -, rfl⟩ := ht
      cases hu
  | length | unixtime =>
      rw [hresult] at ht
      cases ht
      cases hu

end ProtocolDefinition

end OpenRom
