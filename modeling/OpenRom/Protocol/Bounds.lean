import OpenRom.Protocol.Calls
import OpenRom.Protocol.Everywhere
import OpenRom.Protocol.Packing

/-!
# From the document to the decoder

Counts and lengths that are in range in a document are in range in every type that is loaded from it
(`sets_inRange`). So with providers that keep to their interface, the document gives a definition
with which no payload is read or stored out of bounds, whatever has been decoded before
(`load_calls`).
-/

set_option autoImplicit false

namespace OpenRom

namespace ProtocolDefinition

open Allocation

/-! ## Attributes -/

/-- What is resolved to a number for a text: the text itself, or that of its definition. -/
def Loader.readings (l : Loader) (s : String) : List String :=
  s :: (l.lookupDefinition s).toList

/-- The attribute is between these, if it is there and a number. -/
def XmlNode.Between (l : Loader) (n : XmlNode) (name : String) (low high : Int) : Prop :=
  ∀ s ∈ n.getProp name, ∀ t ∈ l.readings s, (strtol 0 t.toList).2.isEmpty = true →
    low ≤ toInt (strtol 0 t.toList).1 ∧ toInt (strtol 0 t.toList).1 ≤ high

instance (l : Loader) (n : XmlNode) (name : String) (low high : Int) :
    Decidable (n.Between l name low high) :=
  inferInstanceAs (Decidable (∀ s ∈ (_ : Option String), ∀ t ∈ (_ : List String), _))

/-- The bounds on the attributes of a node. -/
structure XmlNode.Bounded (l : Loader) (n : XmlNode) : Prop where
  count : n.Between l "count" 1 (2 ^ 28)
  length : n.Between l "length" 1 (2 ^ 28)
  minCount : n.Between l "min_count" 0 (2 ^ 28)
  minLength : n.Between l "min_length" 0 (2 ^ 28)

instance (l : Loader) (n : XmlNode) : Decidable (n.Bounded l) :=
  decidable_of_iff (n.Between l "count" 1 (2 ^ 28) ∧ n.Between l "length" 1 (2 ^ 28) ∧
    n.Between l "min_count" 0 (2 ^ 28) ∧ n.Between l "min_length" 0 (2 ^ 28))
    ⟨fun h => ⟨h.1, h.2.1, h.2.2.1, h.2.2.2⟩,
      fun h => ⟨h.count, h.length, h.minCount, h.minLength⟩⟩

theorem XmlNode.Between.resolve {l : Loader} {n : XmlNode} {name : String} {low high : Int}
    (h : n.Between l name low high) {s : String} (hs : n.getProp name = some s)
    (hok : (l.resolveStringToNumber s).2 = true) :
    low ≤ toInt (l.resolveStringToNumber s).1 ∧ toInt (l.resolveStringToNumber s).1 ≤ high := by
  refine h s hs _ ?_ hok
  rw [Loader.readings]
  cases l.lookupDefinition s with
  | none => exact List.mem_cons_self
  | some t => exact List.mem_cons_of_mem s List.mem_cons_self

namespace UnsignedType

variable {l : Loader} {n : XmlNode}

/-- A step that does nothing to the counts. -/
theorem InRange.of_counts {c c' : Checked UnsignedType} (h : c.Holds InRange)
    (hcount : c'.1.count = c.1.count) (hmin : c'.1.minCount = c.1.minCount)
    (hok : c'.2 = true → c.2 = true) : c'.Holds InRange := by
  intro ht
  rw [InRange, hcount, hmin]
  exact h (hok ht)

theorem inRange_parseFixedValue {t : UnsignedType} (h : t.InRange) :
    (t.parseFixedValue l n).Holds InRange := by
  intro _
  unfold parseFixedValue
  cases n.getProp "fixed_value" <;> exact h

theorem inRange_parseCount (hn : n.Between l "count" 1 (2 ^ 28)) {c : Checked UnsignedType}
    (h : c.Holds InRange) : (parseCount l n c).result.Holds InRange := by
  unfold parseCount
  cases hs : n.getProp "count" with
  | none => exact h
  | some s =>
      simp only
      split
      next hok =>
        obtain ⟨hlow, hhigh⟩ := hn.resolve hs hok.2
        obtain ⟨-, hmin⟩ := h hok.1
        intro _
        simp only [Alloc.result_bind, Alloc.result_pure, InRange]
        refine ⟨⟨by omega, by omega⟩, ?_⟩
        split
        · exact ⟨by omega, hhigh⟩
        · exact hmin
      · exact fun hfalse => absurd hfalse Bool.false_ne_true

theorem inRange_parseMinCount (hn : n.Between l "min_count" 0 (2 ^ 28)) {c : Checked UnsignedType}
    (h : c.Holds InRange) : (parseMinCount l n c).Holds InRange := by
  unfold parseMinCount
  cases hs : n.getProp "min_count" with
  | none => exact h
  | some s =>
      intro ht
      obtain ⟨hc, hok⟩ := Bool.and_eq_true_iff.1 ht
      exact ⟨(h hc).1, hn.resolve hs hok⟩

theorem inRange_parseDisplayCount {c : Checked UnsignedType} (h : c.Holds InRange) :
    (parseDisplayCount l n c).Holds InRange := by
  unfold parseDisplayCount
  cases n.getProp "display" with
  | none => exact h
  | some s => exact .of_counts h rfl rfl fun ht => (Bool.and_eq_true_iff.1 ht).1

theorem inRange_parseFormat {c : Checked UnsignedType} (h : c.Holds InRange) :
    (parseFormat n c).Holds InRange := by
  unfold parseFormat
  cases n.getProp "format" with
  | none => exact h
  | some s =>
      simp only
      split
      · split <;> exact .of_counts h rfl rfl fun ht => ht
      · exact fun hfalse => absurd hfalse Bool.false_ne_true

theorem inRange_parseEnumeration {c : Checked UnsignedType} (h : c.Holds InRange) :
    (parseEnumeration l n c).Holds InRange := by
  unfold parseEnumeration
  cases n.getProp "enumeration" with
  | none => exact h
  | some s => exact .of_counts h rfl rfl fun ht => (Bool.and_eq_true_iff.1 ht).1

theorem inRange_annotated {c : Checked UnsignedType} (h : c.Holds InRange) :
    (parseAnnotationProp l n c).Holds InRange := by
  unfold parseAnnotationProp
  cases n.getProp "annotation" with
  | none => exact h
  | some s => exact .of_counts h rfl rfl fun ht => (Bool.and_eq_true_iff.1 ht).1

theorem inRange_of_parseNode (hn : n.Bounded l) {t t' : UnsignedType} (h : t.InRange)
    (ht : (t.parseNode l n).result = some t') : t'.InRange := by
  simp only [parseNode, Alloc.result_bind, Alloc.result_pure] at ht
  have hcount := inRange_parseCount hn.count (inRange_parseFixedValue (l := l) (n := n) h)
  have hdisplay := inRange_parseDisplayCount (l := l) (n := n)
    (inRange_parseMinCount hn.minCount hcount)
  exact (inRange_annotated (inRange_parseEnumeration (inRange_parseFormat hdisplay))).of_get
    ht

end UnsignedType

section Attributes

variable {l : Loader} {n : XmlNode}

theorem inRange_parseString (hn : n.Bounded l) {t : BuiltinType}
    (ht : (parseString l n).result = some t) : t.InRange := by
  unfold parseString at ht
  cases hlength : n.getProp "length" with
  | none => rw [hlength] at ht; cases ht
  | some sLength =>
      simp only [hlength, Alloc.result_bind] at ht
      have hrange := hn.length.resolve hlength
      cases hmin : n.getProp "min_length" with
      | none =>
          rw [hmin] at ht
          refine Checked.Holds.of_get (P := BuiltinType.InRange) (fun hok => ?_) ht
          obtain ⟨hlow, hhigh⟩ := hrange hok
          simp only [BuiltinType.InRange]
          omega
      | some sMinLength =>
          rw [hmin] at ht
          refine Checked.Holds.of_get (P := BuiltinType.InRange) (fun hok => ?_) ht
          obtain ⟨hok, hokMin⟩ := Bool.and_eq_true_iff.1 hok
          obtain ⟨hlow, hhigh⟩ := hrange hok
          have hrangeMin := hn.minLength.resolve hmin hokMin
          simp only [BuiltinType.InRange]
          omega

theorem inRange_parseNumbers (hn : n.Bounded l) {size count : Nat} {displayCount : Int}
    (hcount : 1 ≤ count ∧ count ≤ 2 ^ 28) {c : Nat × Int}
    (hc : (parseNumbers l n size count displayCount).result = some c) :
    1 ≤ c.1 ∧ c.1 ≤ 2 ^ 28 := by
  -- whatever there is to display
  have hget : ∀ (count : Nat) (display : Int) (ok : Bool),
      (ok = true → 1 ≤ count ∧ count ≤ 2 ^ 28) →
        Checked.get ((count, display), ok) = some c → 1 ≤ c.1 ∧ c.1 ≤ 2 ^ 28 :=
    fun count display ok hcount hc =>
      Checked.Holds.of_get (P := fun c : Nat × Int => 1 ≤ c.1 ∧ c.1 ≤ 2 ^ 28)
        (c := ((count, display), ok)) hcount hc
  unfold parseNumbers at hc
  cases hs : n.getProp "count" with
  | none =>
      simp only [hs, Alloc.result_bind, Alloc.result_pure] at hc
      cases hd : n.getProp "display" with
      | none =>
          rw [hd] at hc
          exact hget _ _ _ (fun _ => hcount) hc
      | some sDisplayCount =>
          rw [hd] at hc
          exact hget _ _ _ (fun _ => hcount) hc
  | some sCount =>
      simp only [hs] at hc
      by_cases hok : (l.resolveStringToNumber sCount).2 = true
      · obtain ⟨hlow, hhigh⟩ := hn.count.resolve hs hok
        have hread : 1 ≤ (toInt (l.resolveStringToNumber sCount).1).toNat ∧
            (toInt (l.resolveStringToNumber sCount).1).toNat ≤ 2 ^ 28 := by omega
        rw [if_pos hok] at hc
        simp only [Alloc.result_bind, Alloc.result_pure] at hc
        cases hd : n.getProp "display" with
        | none =>
            rw [hd] at hc
            exact hget _ _ _ (fun _ => hread) hc
        | some sDisplayCount =>
            rw [hd] at hc
            exact hget _ _ _ (fun _ => hread) hc
      · -- a count that is no number makes it fail
        have hfails : ∀ okDisplay : Bool, (false && okDisplay) = true →
            1 ≤ count ∧ count ≤ 2 ^ 28 := fun _ hfalse => absurd hfalse Bool.false_ne_true
        rw [if_neg hok] at hc
        simp only [Alloc.result_bind, Alloc.result_pure] at hc
        cases hd : n.getProp "display" with
        | none =>
            rw [hd] at hc
            exact hget _ _ _ (hfails true) hc
        | some sDisplayCount =>
            rw [hd] at hc
            exact hget _ _ _ (hfails _) hc

/-- A built-in type, from its prototype. -/
theorem BuiltinType.inRange_of_parseNode (hn : n.Bounded l) {t t' : BuiltinType}
    (h : t.InRange ∨ t = .string 0 0) (ht : (t.parseNode l n).result = some t') : t'.InRange := by
  have hrange : t ≠ .string 0 0 → t.InRange := h.resolve_right
  cases t with
  | unsigned t =>
      simp only [parseNode, Alloc.result_bind, Alloc.result_pure, Option.map_eq_some_iff] at ht
      obtain ⟨u, hu, rfl⟩ := ht
      exact UnsignedType.inRange_of_parseNode hn (hrange (fun heq => by cases heq)) hu
  | signed t =>
      simp only [parseNode, Alloc.result_bind, Alloc.result_pure, Option.map_eq_some_iff] at ht
      obtain ⟨u, hu, rfl⟩ := ht
      exact UnsignedType.inRange_of_parseNode hn (hrange (fun heq => by cases heq)) hu
  | string length minLength => exact inRange_parseString hn ht
  | float count displayCount =>
      simp only [parseNode, Alloc.result_bind, Alloc.result_pure, Option.map_eq_some_iff] at ht
      obtain ⟨c, hc, rfl⟩ := ht
      exact inRange_parseNumbers hn (hrange (fun heq => by cases heq)) hc
  | double count displayCount =>
      simp only [parseNode, Alloc.result_bind, Alloc.result_pure, Option.map_eq_some_iff] at ht
      obtain ⟨c, hc, rfl⟩ := ht
      exact inRange_parseNumbers hn (hrange (fun heq => by cases heq)) hc
  | length | unixtime =>
      cases ht
      exact trivial

theorem Loader.inRange_clonePrototype {sType : String} {clone : Alloc BuiltinType}
    (h : l.clonePrototype sType = some clone) :
    clone.result.InRange ∨ clone.result = .string 0 0 := by
  have hone : ∀ w : Width, (UnsignedType.prototype w).InRange := fun w =>
    ⟨⟨Nat.le_refl 1, (by decide : 1 ≤ 2 ^ 28)⟩, (by decide : (0 : Int) ≤ 1),
      (by decide : (1 : Int) ≤ 2 ^ 28)⟩
  unfold clonePrototype at h
  split at h <;> cases h
  all_goals first
    | exact Or.inr rfl
    | exact Or.inl (hone _)
    | exact Or.inl trivial
    | exact Or.inl ⟨Nat.le_refl 1, (by decide : 1 ≤ 2 ^ 28)⟩

end Attributes

/-! ## Nodes -/

theorem XmlNode.sets_inRange {l : Loader} {n : XmlNode} (hn : n.Bounded l) :
    n.Sets BuiltinType.InRange l := fun _ _ _ hproto ht =>
  BuiltinType.inRange_of_parseNode hn (Loader.inRange_clonePrototype hproto) ht

namespace XmlNode

/-- All nodes in it are within the bounds. -/
def AllBounded (l : Loader) (n : XmlNode) : Prop := ∀ m ∈ n.nodes, m.Bounded l

instance (l : Loader) (n : XmlNode) : Decidable (n.AllBounded l) :=
  inferInstanceAs (Decidable (∀ m ∈ n.nodes, m.Bounded l))

end XmlNode

/-! ## Definitions that come later -/

section Prefix

variable {l l' : Loader}

/-- A definition that comes first is the one that is found. -/
theorem lookup_of_front {xs ys : List (String × String)} (h : xs <+: ys) {name value : String}
    (hfound : xs.lookup name = some value) : ys.lookup name = some value := by
  obtain ⟨more, rfl⟩ := h
  rw [List.lookup_append, hfound, Option.some_or]

/-- What is within the bounds with all definitions is so with those that there are before. -/
theorem XmlNode.Between.of_front (h : l.definitions <+: l'.definitions) {n : XmlNode}
    {name : String} {low high : Int} (hn : n.Between l' name low high) :
    n.Between l name low high := by
  intro s hs t ht
  refine hn s hs t ?_
  rcases List.mem_cons.1 ht with rfl | ht
  · exact List.mem_cons_self
  · have hfound : l'.lookupDefinition s = some t :=
      lookup_of_front h (Option.mem_toList.1 ht)
    rw [Loader.readings, hfound]
    exact List.mem_cons_of_mem s List.mem_cons_self

theorem XmlNode.AllBounded.of_front (h : l.definitions <+: l'.definitions) {n : XmlNode}
    (hn : n.AllBounded l') : n.AllBounded l := fun m hm =>
  ⟨.of_front h (hn m hm).count, .of_front h (hn m hm).length, .of_front h (hn m hm).minCount,
    .of_front h (hn m hm).minLength⟩

end Prefix

/-! ## Calls -/

theorem inRangeOf_of_everywhere {Q : Transformation → Prop} {as : List Action}
    (h : EverywhereOf BuiltinType.InRange Q as) : InRangeOf as := by
  induction as using actionsRec with
  | nil => exact trivial
  | builtin name object offset as ih => exact ⟨h.1, ih h.2⟩
  | struct name typeName inner offset as ihInner ih => exact ⟨ihInner h.1, ih h.2⟩
  | transformationAction t as ih => exact ih h.2
  | annotationAction name as ih => exact ih h

/-- A packet with everything in range. -/
def Packet.Everywhere (p : Packet) : Prop :=
  Body.Everywhere BuiltinType.InRange (fun _ => True) ⟨p.actions, p.subpackets⟩

theorem Packet.Everywhere.inRange {p : Packet} (h : p.Everywhere) : p.InRange :=
  ⟨inRangeOf_of_everywhere h.1, fun sp hsp => inRangeOf_of_everywhere (h.2 sp hsp)⟩

/-- A document that is loaded to its end, with counts and lengths from 1 to 2^28 and minima from 0
to 2^28, whether these are given as numbers or by their definitions. Whatever has been processed
before, as long as the providers keep to their interface: at every call of a `Fill` or a `Process`,
what is left is the rest of the current buffer, no `Fill` gets outside of that or of its value
array, and no provider outside of its source or its destination. -/
theorem Loader.load_calls {grants : Request → Bool} {l l' : Loader} (hstructs : l.structs = [])
    (hpackets : l.packets = []) {iVersion : Int} {nodes : List XmlNode}
    (hload : (l.load iVersion (some nodes)).run grants = some (some l'))
    (hnodes : ∀ n ∈ nodes, n.AllBounded l') :
    (∃ d : ProtocolDefinition, List.Forall₂ LoadedPacket.Gives l'.packets d.packets) ∧
      ∀ d : ProtocolDefinition, List.Forall₂ LoadedPacket.Gives l'.packets d.packets →
        ∀ (history : List (UInt32 × List UInt8)) (offset : UInt32) (payload : List UInt8),
          payload.length < 2 ^ 31 → (∀ c ∈ (d.run history).calls offset payload, c.Keeps) →
            ∀ c ∈ (d.run history).calls offset payload, c.Sound ∧ c.Inside := by
  have hparsed := parsed_iff.1 hload
  have hl : Loader.Everywhere BuiltinType.InRange (fun _ => True) { l with version := iVersion } :=
    ⟨fun _ _ => trivial, fun t ht => absurd (hstructs ▸ ht) List.not_mem_nil,
      fun p hp => absurd (hpackets ▸ hp) List.not_mem_nil⟩
  have hall := hparsed.everywhere hl fun l₁ hl₁ n hn m hm => XmlNode.sets_inRange
    ((hnodes n (List.mem_of_mem_filter hn)).of_front hl₁.definitions m hm)
  refine ⟨hparsed.gives hpackets, fun d hd history offset payload hpayload hkeeps => ?_⟩
  have hpacket := everywhere_of_gives hd hall.packets
  have hrange : (d.run history).InRange := fun p hp =>
    Packet.Everywhere.inRange (everywhere_run hpacket history p hp)
  have hsound := process_calls hrange offset hpayload fun c hc => (hkeeps c hc).reports
  intro c hc
  obtain ⟨p, hp, hmem⟩ := List.mem_flatMap.1 hc
  have hcall := (hrange p (List.mem_of_mem_tried hp)).usable.calls _ _ c hmem
  exact ⟨hsound c hc, Call.inside (hsound c hc) hcall (hkeeps c hc)⟩

/-- An initial definition with `rompack`. -/
def Loader.withRomPacking : Loader := { Loader.initial with transformations := [romPacking] }

/-- A packet with a struct that is packed, and has an array whose length is a definition. -/
def packedDocument : List XmlNode :=
  [.element "define" [("name", "MAX_ITEMS"), ("value", "0x10")] [],
    .element "struct" [("name", "items")] [
      .element "transformation" [("name", "rompack")] [],
      .element "field"
        [("name", "item"), ("type", "u16"), ("count", "MAX_ITEMS"), ("min_count", "0")] []],
    .element "packet" [("name", "inventory"), ("source", "server")] [
      .element "field" [("name", "type"), ("type", "u32"), ("fixed_value", "7")] [],
      .element "field" [("name", "items"), ("type", "items")] []]]

/-- An inventory of two items, behind one of three. -/
theorem Loader.load_calls_packedDocument :
    ∃ (l' : Loader) (d : ProtocolDefinition),
      (withRomPacking.load 0 (some packedDocument)).run (fits (2 ^ 30)) = some (some l') ∧
        l'.toDefinition = some d ∧
          ∀ c ∈ (d.run [(0, [7, 0, 0, 0, 0x17, 1, 0, 2, 0, 3, 0, 0x11, 0, 0])]).calls 0
            [7, 0, 0, 0, 0x12, 7, 0x40, 0, 0x11, 0, 0], c.Sound ∧ c.Inside := by
  have hloaded : (((withRomPacking.load 0 (some packedDocument)).run (fits (2 ^ 30))).bind id).any
      (fun l' => decide (∀ n ∈ packedDocument, n.AllBounded l') && l'.toDefinition.any fun d =>
        decide (∀ c ∈ (d.run [(0, [7, 0, 0, 0, 0x17, 1, 0, 2, 0, 3, 0, 0x11, 0, 0])]).calls 0
          [7, 0, 0, 0, 0x12, 7, 0x40, 0, 0x11, 0, 0], c.Keeps)) = true := by decide +kernel
  obtain ⟨l', hresult, hchecked⟩ := (Option.any_eq_true _ _).1 hloaded
  obtain ⟨_, hload, rfl⟩ := Option.bind_eq_some_iff.1 hresult
  obtain ⟨hnodes, hany⟩ := Bool.and_eq_true_iff.1 hchecked
  obtain ⟨d, hd, hkeeps⟩ := (Option.any_eq_true _ _).1 hany
  exact ⟨l', d, hload, hd, (load_calls rfl rfl hload (of_decide_eq_true hnodes)).2 d
    (gives_of_toDefinition hd) _ 0 _ (by decide) (of_decide_eq_true hkeeps)⟩

end ProtocolDefinition

end OpenRom
