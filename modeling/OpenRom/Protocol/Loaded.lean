import Mathlib.Data.List.Forall2
import OpenRom.Protocol.Load

/-!
# What has been loaded

When no element of a document is rejected and all arrays can be allocated, every element has its
object in the definition, with an action for each of its children that count for the version
(`Loader.Registered`).
-/

set_option autoImplicit false

namespace OpenRom

namespace ProtocolDefinition

open Allocation

/-! ## Children that count -/

/-- The children of a filter count for the version. -/
def XmlNode.AppliesTo (version : Int) (n : XmlNode) : Prop :=
  version < 0 ∨ ∀ s ∈ n.getProp "version", version ≥ toInt (strtol 10 s.toList).1

instance (version : Int) (n : XmlNode) : Decidable (n.AppliesTo version) :=
  inferInstanceAs (Decidable (_ ∨ ∀ s ∈ (_ : Option String), _))

/-- The elements for which a node stands among the children of a struct. -/
def XmlNode.members (version : Int) (n : XmlNode) : List XmlNode :=
  if n.tag = some "filter" then
    if n.AppliesTo version then n.children.filter (·.isElement) else []
  else [n].filter (·.isElement)

def members (version : Int) (ns : List XmlNode) : List XmlNode := ns.flatMap (·.members version)

theorem members_cons (version : Int) (n : XmlNode) (ns : List XmlNode) :
    members version (n :: ns) = n.members version ++ members version ns := List.flatMap_cons

theorem appliesTo_of_parseFilterVersion {l : Loader} {n : XmlNode} {b : Bool}
    (h : l.parseFilterVersion n = some b) : b = true ↔ n.AppliesTo l.version := by
  unfold Loader.parseFilterVersion at h
  unfold XmlNode.AppliesTo
  cases hv : n.getProp "version" with
  | none => rw [hv] at h; cases h
  | some s =>
      simp only [hv] at h
      by_cases hrest : (strtol 10 s.toList).2.isEmpty
      · rw [if_pos hrest] at h
        cases h
        simp
      · rw [if_neg hrest] at h
        cases h

/-! ## Actions for the children -/

/-- The action is what a struct gets from the node. -/
inductive Hooked (version : Int) : XmlNode → Action → Prop
  | builtin {n : XmlNode} {name : String} {object : Builtin} : n.tag = some "field" →
      n.getProp "name" = some name → n.getProp "type" = some object.type.name →
        Hooked version n (.field name (.builtin object) 0)
  | struct {n : XmlNode} {name sStruct : String} {base added : List Action} :
      n.tag = some "field" → n.getProp "name" = some name → n.getProp "type" = some sStruct →
        List.Forall₂ (Hooked version) (members version n.children) added →
          Hooked version n (.field name (.struct sStruct (base ++ added)) 0)
  | transformationAction {n : XmlNode} {t : Transformation} : n.tag = some "transformation" →
      n.getProp "name" = some t.name → Hooked version n (.transformationAction t)
  | annotationAction {n : XmlNode} {name : String} : n.tag = some "annotation" →
      n.getProp "name" = some name → Hooked version n (.annotationAction name)

/-- The subpacket is what a packet gets from the node. -/
def HookedSubpacket (version : Int) (n : XmlNode) (sp : Subpacket) : Prop :=
  n.getProp "name" = some sp.name ∧
    List.Forall₂ (Hooked version) (members version n.children) sp.actions

def XmlNode.IsSubpacket (n : XmlNode) : Prop := n.tag = some "subpacket"

instance (n : XmlNode) : Decidable n.IsSubpacket := inferInstanceAs (Decidable (_ = _))

/-- A body has all that the nodes ask for. A packet has only fields and subpackets, and nothing else
has subpackets. -/
structure Covers (version : Int) (packet : Bool) (ns : List XmlNode) (b : Body) : Prop where
  actions : List.Forall₂ (Hooked version) (ns.filter fun n => ¬ n.IsSubpacket) b.actions
  subpackets : List.Forall₂ (HookedSubpacket version) (ns.filter fun n => n.IsSubpacket)
    b.subpackets
  isField : packet = true → ∀ a ∈ b.actions, a.IsField
  noSubpackets : packet = false → b.subpackets = []

/-- Both bodies. -/
def Body.append (b c : Body) : Body := ⟨b.actions ++ c.actions, b.subpackets ++ c.subpackets⟩

namespace Covers

variable {version : Int} {packet : Bool}

theorem nil : Covers version packet [] ⟨[], []⟩ := ⟨.nil, .nil, fun _ => nofun, fun _ => rfl⟩

theorem append {ns ms : List XmlNode} {b c : Body} (hb : Covers version packet ns b)
    (hc : Covers version packet ms c) : Covers version packet (ns ++ ms) (b.append c) where
  actions := by
    rw [List.filter_append]
    exact List.rel_append hb.actions hc.actions
  subpackets := by
    rw [List.filter_append]
    exact List.rel_append hb.subpackets hc.subpackets
  isField hpacket := List.forall_mem_append.2 ⟨hb.isField hpacket, hc.isField hpacket⟩
  noSubpackets hplain := by
    show b.subpackets ++ c.subpackets = []
    rw [hb.noSubpackets hplain, hc.noSubpackets hplain, List.append_nil]

/-- Nothing but a packet has subpackets, so every node has an action. -/
theorem forall₂ {ns : List XmlNode} {b : Body} (h : Covers version false ns b) :
    List.Forall₂ (Hooked version) ns b.actions := by
  have hnone := h.subpackets
  rw [h.noSubpackets rfl, List.forall₂_nil_right_iff, List.filter_eq_nil_iff] at hnone
  have hall : ns.filter (fun n => ¬ n.IsSubpacket) = ns :=
    List.filter_eq_self.2 fun n hn => by simpa using hnone n hn
  rw [← hall]
  exact h.actions

/-- One action. -/
theorem action {n : XmlNode} {a : Action} (hn : ¬ n.IsSubpacket) (ha : Hooked version n a)
    (hfield : packet = true → a.IsField) : Covers version packet [n] ⟨[a], []⟩ where
  actions := by
    rw [List.filter_cons_of_pos (by simpa using hn)]
    exact .cons ha .nil
  subpackets := by
    rw [List.filter_cons_of_neg (by simpa using hn)]
    exact .nil
  isField hpacket := List.forall_mem_singleton.2 (hfield hpacket)
  noSubpackets _ := rfl

/-- One subpacket. -/
theorem subpacket {n : XmlNode} {sp : Subpacket} (hn : n.IsSubpacket)
    (hsp : HookedSubpacket version n sp) : Covers version true [n] ⟨[], [sp]⟩ where
  actions := by
    rw [List.filter_cons_of_neg (by simpa using hn)]
    exact .nil
  subpackets := by
    rw [List.filter_cons_of_pos (by simpa using hn)]
    exact .cons hsp .nil
  isField _ := nofun
  noSubpackets := nofun

end Covers

/-! ## Types -/

theorem Checked.eq_of_get {τ : Type} {c : Checked τ} {t : τ} (h : c.get = some t) : t = c.1 := by
  unfold Checked.get at h
  split at h <;> cases h
  rfl

namespace UnsignedType

variable (l : Loader) (n : XmlNode) (t : UnsignedType) (c : Checked UnsignedType)

@[simp] theorem width_parseFixedValue : (t.parseFixedValue l n).1.width = t.width := by
  unfold parseFixedValue
  cases n.getProp "fixed_value" <;> rfl

@[simp] theorem width_parseCount : (parseCount l n c).result.1.width = c.1.width := by
  unfold parseCount
  cases n.getProp "count" with
  | none => rfl
  | some s =>
      simp only
      split <;> simp

@[simp] theorem width_parseMinCount : (parseMinCount l n c).1.width = c.1.width := by
  unfold parseMinCount
  cases n.getProp "min_count" <;> rfl

@[simp] theorem width_parseDisplayCount : (parseDisplayCount l n c).1.width = c.1.width := by
  unfold parseDisplayCount
  cases n.getProp "display" <;> rfl

@[simp] theorem width_parseFormat : (parseFormat n c).1.width = c.1.width := by
  unfold parseFormat
  cases n.getProp "format" with
  | none => rfl
  | some s =>
      simp only
      split <;> split <;> rfl

@[simp] theorem width_parseEnumeration : (parseEnumeration l n c).1.width = c.1.width := by
  unfold parseEnumeration
  cases n.getProp "enumeration" <;> rfl

@[simp] theorem width_parseAnnotation : (parseAnnotationProp l n c).1.width = c.1.width := by
  unfold parseAnnotationProp
  cases n.getProp "annotation" <;> rfl

theorem width_of_parseNode {l : Loader} {n : XmlNode} {t t' : UnsignedType}
    (h : (t.parseNode l n).result = some t') : t'.width = t.width := by
  simp only [parseNode, Alloc.result_bind, Alloc.result_pure] at h
  simp [Checked.eq_of_get h]

end UnsignedType

/-- What is found in the attributes leaves the type what it is. -/
theorem BuiltinType.name_of_parseNode {l : Loader} {n : XmlNode} {t t' : BuiltinType}
    (h : (t.parseNode l n).result = some t') : t'.name = t.name := by
  cases t with
  | unsigned t =>
      simp only [parseNode, Alloc.result_bind, Alloc.result_pure, Option.map_eq_some_iff] at h
      obtain ⟨u, hu, rfl⟩ := h
      simp only [name, UnsignedType.width_of_parseNode hu]
  | signed t =>
      simp only [parseNode, Alloc.result_bind, Alloc.result_pure, Option.map_eq_some_iff] at h
      obtain ⟨u, hu, rfl⟩ := h
      simp only [name, UnsignedType.width_of_parseNode hu]
  | string length minLength =>
      -- the attributes of a string change its lengths only
      simp only [parseNode, parseString] at h
      cases hlen : n.getProp "length" with
      | none => rw [hlen] at h; cases h
      | some s =>
          rw [hlen] at h
          simp only [Alloc.result_bind] at h
          cases hmin : n.getProp "min_length" with
          | none =>
              rw [hmin] at h
              rw [Checked.eq_of_get h]
              rfl
          | some sMin =>
              rw [hmin] at h
              rw [Checked.eq_of_get h]
              rfl
  | float count displayCount =>
      simp only [parseNode, Alloc.result_bind, Alloc.result_pure, Option.map_eq_some_iff] at h
      obtain ⟨c, -, rfl⟩ := h
      rfl
  | double count displayCount =>
      simp only [parseNode, Alloc.result_bind, Alloc.result_pure, Option.map_eq_some_iff] at h
      obtain ⟨c, -, rfl⟩ := h
      rfl
  | length | unixtime =>
      cases h
      rfl

/-- The prototype with the name. -/
theorem Loader.name_of_clonePrototype {l : Loader} {sType : String} {clone : Alloc BuiltinType}
    (h : l.clonePrototype sType = some clone) : clone.result.name = sType := by
  unfold clonePrototype at h
  split at h <;> cases h <;> rfl

/-- A type with the name. -/
def FieldType.name : FieldType → String
  | builtin object => object.type.name
  | struct name _ => name

theorem Loader.name_of_cloneType {l : Loader} {self : Option StructType} {sType : String}
    {clone : Alloc FieldType} (h : l.cloneType self sType = some clone) :
    clone.result.name = sType := by
  unfold cloneType at h
  cases hp : l.clonePrototype sType with
  | some prototype =>
      rw [hp] at h
      cases h
      simp only [Alloc.result_bind, Alloc.result_pure, FieldType.name]
      exact name_of_clonePrototype hp
  | none =>
      rw [hp] at h
      obtain ⟨t, ht, rfl⟩ := Option.map_eq_some_iff.1 h
      simp only [FieldType.clone, Alloc.result_bind, Alloc.result_pure, FieldType.name]
      exact (lookupType_eq_some ht).2

/-! ## Structs -/

theorem Body.append_nil (b : Body) : b.append ⟨[], []⟩ = b := by
  simp [Body.append]

theorem Body.append_assoc (b c d : Body) : (b.append c).append d = b.append (c.append d) := by
  simp [Body.append]

/-- The body, if there is one, is what there was before and what the nodes ask for. -/
def Gets (version : Int) (packet : Bool) (ns : List XmlNode) (b : Body) (r : Option Body) : Prop :=
  ∀ b' ∈ r, ∃ c, b' = b.append c ∧ Covers version packet ns c

theorem gets_nil (version : Int) (packet : Bool) (b : Body) :
    Gets version packet [] b (some b) := by
  rintro b' ⟨⟩
  exact ⟨_, b.append_nil.symm, .nil⟩

namespace Loader

variable {l : Loader} {packet : Bool}

/-- The loop of a filter. -/
theorem gets_parseFiltered {ns : List XmlNode}
    (hns : ∀ n ∈ ns, ∀ self b, Gets l.version packet ([n].filter (·.isElement)) b
      (l.parseChildNode packet self b n).result) (self : Option Open) (b : Body) :
    Gets l.version packet (ns.filter (·.isElement)) b
      (l.parseFiltered packet self b ns).result := by
  induction ns generalizing b with
  | nil => exact gets_nil l.version packet b
  | cons n ns ih =>
      obtain ⟨hn, hns⟩ := List.forall_mem_cons.1 hns
      intro b' hb'
      simp only [parseFiltered, Alloc.result_bind] at hb'
      cases hr : (l.parseChildNode packet self b n).result with
      | none => rw [hr] at hb'; cases hb'
      | some b₁ =>
          rw [hr] at hb'
          obtain ⟨c, rfl, hc⟩ := hn self b b₁ hr
          obtain ⟨d, rfl, hd⟩ := ih hns _ b' hb'
          refine ⟨c.append d, Body.append_assoc b c d, ?_⟩
          have hall := hc.append hd
          rwa [← List.filter_append] at hall

/-- The loop of `Struct::ParseNode`. -/
theorem gets_parseNode {ns : List XmlNode}
    (hns : ∀ n ∈ ns, ∀ self b,
      (n.tag = some "filter" → Gets l.version packet (n.members l.version) b
        (l.parseFilter packet self b n).result) ∧
      Gets l.version packet ([n].filter (·.isElement)) b
        (l.parseChildNode packet self b n).result) (self : Option Open) (b : Body) :
    Gets l.version packet (members l.version ns) b (l.parseNode packet self b ns).result := by
  induction ns generalizing b with
  | nil => exact gets_nil l.version packet b
  | cons n ns ih =>
      obtain ⟨hn, hns⟩ := List.forall_mem_cons.1 hns
      have hnode : Gets l.version packet (n.members l.version) b
          (if n.tag = some "filter" then l.parseFilter packet self b n
            else l.parseChildNode packet self b n).result := by
        by_cases htag : n.tag = some "filter"
        · rw [if_pos htag]
          exact (hn self b).1 htag
        · rw [if_neg htag, XmlNode.members, if_neg htag]
          exact (hn self b).2
      intro b' hb'
      simp only [parseNode, Alloc.result_bind] at hb'
      cases hr : (if n.tag = some "filter" then l.parseFilter packet self b n
          else l.parseChildNode packet self b n).result with
      | none => rw [hr] at hb'; cases hb'
      | some b₁ =>
          rw [hr] at hb'
          obtain ⟨c, rfl, hc⟩ := hnode b₁ hr
          obtain ⟨d, rfl, hd⟩ := ih hns _ b' hb'
          refine ⟨c.append d, Body.append_assoc b c d, ?_⟩
          rw [members_cons]
          exact hc.append hd

/-- A node is one from which structs and packets get what they should. -/
def Sound (l : Loader) (n : XmlNode) : Prop :=
  ∀ packet self b,
    (n.tag = some "filter" → Gets l.version packet (n.members l.version) b
      (l.parseFilter packet self b n).result) ∧
    Gets l.version packet ([n].filter (·.isElement)) b (l.parseChildNode packet self b n).result

variable {tag : String} {attributes : List (String × String)} {children : List XmlNode}

/-- A filter. -/
theorem gets_parseFilter (hchildren : ∀ c ∈ children, l.Sound c)
    (htag : tag = "filter") (self : Option Open) (b : Body) :
    Gets l.version packet ((XmlNode.element tag attributes children).members l.version) b
      (l.parseFilter packet self b (.element tag attributes children)).result := by
  have hfilter : (XmlNode.element tag attributes children).tag = some "filter" := by rw [htag]; rfl
  rw [XmlNode.members, if_pos hfilter, parseFilter]
  cases hv : l.parseFilterVersion (.element tag attributes children) with
  | none => exact nofun
  | some applies =>
      have happlies := appliesTo_of_parseFilterVersion hv
      cases applies with
      | false =>
          rw [if_neg fun h => Bool.false_ne_true (happlies.2 h)]
          exact gets_nil l.version packet b
      | true =>
          rw [if_pos (happlies.1 rfl)]
          exact gets_parseFiltered (fun c hc self b => (hchildren c hc packet self b).2) self b

/-- The body of a struct or a subpacket. -/
theorem gets_children (hchildren : ∀ c ∈ children, l.Sound c) (packet : Bool)
    (self : Option Open) (b : Body) :
    Gets l.version packet (members l.version children) b
      (l.parseNode packet self b children).result :=
  gets_parseNode (fun c hc self b => hchildren c hc packet self b) self b

/-- A field. -/
theorem gets_field (hchildren : ∀ c ∈ children, l.Sound c) (htag : tag = "field")
    (self : Option Open) (b : Body) :
    Gets l.version packet [.element tag attributes children] b
      (l.parseChildNode packet self b (.element tag attributes children)).result := by
  have hfield : (XmlNode.element tag attributes children).tag = some "field" := by rw [htag]; rfl
  have hplain : ¬ (XmlNode.element tag attributes children).IsSubpacket := by
    rw [XmlNode.IsSubpacket, hfield]
    decide
  intro b' hb'
  simp only [parseChildNode] at hb'
  cases hname : (XmlNode.element tag attributes children).getProp "name" with
  | none => simp only [hname] at hb'; cases hb'
  | some sName =>
      simp only [hname, if_pos htag] at hb'
      cases htype : (XmlNode.element tag attributes children).getProp "type" with
      | none => simp only [htype] at hb'; cases hb'
      | some sType =>
          simp only [htype] at hb'
          cases hclone : l.cloneType (self.map fun s => ⟨s.name, s.actions b.actions⟩) sType with
          | none => simp only [hclone] at hb'; cases hb'
          | some clone =>
              -- what is cloned has the name of its type, and the node may add to a struct
              have hcloned := name_of_cloneType hclone
              simp only [hclone, Alloc.result_bind] at hb'
              cases hresult : clone.result with
              | builtin object =>
                  rw [hresult] at hcloned
                  simp only [hresult, Alloc.result_bind] at hb'
                  cases ht :
                      (object.type.parseNode l (.element tag attributes children)).result with
                  | none => rw [ht] at hb'; cases hb'
                  | some t =>
                      rw [ht] at hb'
                      cases hb'
                      refine ⟨⟨[.field sName (.builtin t.object) 0], []⟩, by
                        simp [Body.append, Body.addAction],
                        .action hplain (.builtin hfield hname ?_) fun _ => trivial⟩
                      have ht' : t.object.type = t := rfl
                      rw [ht', BuiltinType.name_of_parseNode ht, htype, ← hcloned]
                      rfl
              | struct sStruct actions =>
                  rw [hresult] at hcloned
                  simp only [hresult, Alloc.result_bind] at hb'
                  cases hr : (l.parseNode false (self.map fun s => ⟨s.name, fun inner =>
                      s.actions (b.actions ++ [.field sName (.struct sStruct inner) 0])⟩)
                      ⟨actions, []⟩ children).result with
                  | none => rw [hr] at hb'; cases hb'
                  | some inner =>
                      rw [hr] at hb'
                      cases hb'
                      obtain ⟨c, rfl, hc⟩ := gets_children hchildren false _ _ inner hr
                      exact ⟨⟨[.field sName (.struct sStruct (actions ++ c.actions)) 0], []⟩, by
                        simp [Body.append, Body.addAction], .action hplain
                        (.struct hfield hname (htype.trans (congrArg some hcloned.symm)) hc.forall₂)
                        fun _ => trivial⟩

/-- A subpacket. -/
theorem gets_subpacket (hchildren : ∀ c ∈ children, l.Sound c) (htag : tag = "subpacket")
    (self : Option Open) (b : Body) :
    Gets l.version true [.element tag attributes children] b
      (l.parseChildNode true self b (.element tag attributes children)).result := by
  have hsubpacket : (XmlNode.element tag attributes children).IsSubpacket := by
    rw [XmlNode.IsSubpacket, htag]
    rfl
  have hnotField : ¬ tag = "field" := by
    rw [htag]
    decide
  intro b' hb'
  simp only [parseChildNode] at hb'
  cases hname : (XmlNode.element tag attributes children).getProp "name" with
  | none => simp only [hname] at hb'; cases hb'
  | some sName =>
      simp only [hname, if_neg hnotField, if_pos htag, if_true, Alloc.result_bind] at hb'
      cases hr : (l.parseNode false none ⟨[], []⟩ children).result with
      | none => rw [hr] at hb'; cases hb'
      | some inner =>
          rw [hr] at hb'
          cases hb'
          obtain ⟨c, rfl, hc⟩ := gets_children hchildren false _ _ inner hr
          exact ⟨⟨[], [⟨sName, c.actions⟩]⟩, by simp [Body.append], .subpacket hsubpacket
            ⟨hname, hc.forall₂⟩⟩

theorem name_of_lookupTransformation {name : String} {t : Transformation}
    (h : l.lookupTransformation name = some t) : t.name = name := by
  unfold lookupTransformation at h
  have hfound := List.find?_some h
  exact beq_iff_eq.1 hfound

theorem name_of_lookupAnnotation {name found : String}
    (h : l.lookupAnnotation name = some found) : found = name := by
  unfold lookupAnnotation at h
  have hfound := List.find?_some h
  exact beq_iff_eq.1 hfound

/-- A transformation or an annotation. -/
theorem gets_parseExtraNode {n : XmlNode} {sName : String} (hname : n.getProp "name" = some sName)
    (b : Body) : Gets l.version false [n] b (l.parseExtraNode sName n b) := by
  unfold parseExtraNode
  by_cases htransformation : n.tag = some "transformation"
  · rw [if_pos htransformation]
    intro b' hb'
    obtain ⟨t, ht, rfl⟩ := Option.map_eq_some_iff.1 hb'
    have hplain : ¬ n.IsSubpacket := by
      rw [XmlNode.IsSubpacket, htransformation]
      decide
    have hnamed : n.getProp "name" = some t.name := by
      rw [hname, name_of_lookupTransformation ht]
    exact ⟨⟨[.transformationAction t], []⟩, by simp [Body.append, Body.addAction],
      .action hplain (.transformationAction htransformation hnamed) nofun⟩
  rw [if_neg htransformation]
  by_cases hannotation : n.tag = some "annotation"
  · rw [if_pos hannotation]
    intro b' hb'
    obtain ⟨name, hfound, rfl⟩ := Option.map_eq_some_iff.1 hb'
    have hplain : ¬ n.IsSubpacket := by
      rw [XmlNode.IsSubpacket, hannotation]
      decide
    have hnamed : n.getProp "name" = some name := by
      rw [hname, name_of_lookupAnnotation hfound]
    exact ⟨⟨[.annotationAction name], []⟩, by simp [Body.append, Body.addAction],
      .action hplain (.annotationAction hannotation hnamed) nofun⟩
  · rw [if_neg hannotation]
    exact nofun

/-- Every node, by induction over the nodes in it. -/
theorem sound (l : Loader) (n : XmlNode) : l.Sound n := by
  induction n using XmlNode.induction with
  | hOther => exact fun packet self b => ⟨nofun, gets_nil l.version packet b⟩
  | hElement tag attributes children ih =>
      intro packet self b
      refine ⟨fun htag => gets_parseFilter ih (Option.some.inj htag) self b, ?_⟩
      show Gets l.version packet [.element tag attributes children] b _
      by_cases hfield : tag = "field"
      · exact gets_field ih hfield self b
      cases packet with
      | true =>
          by_cases hsubpacket : tag = "subpacket"
          · exact gets_subpacket ih hsubpacket self b
          · -- a packet gets nothing else
            intro b' hb'
            simp only [parseChildNode, if_neg hfield, if_neg hsubpacket, if_true] at hb'
            split at hb' <;> cases hb'
      | false =>
          intro b' hb'
          simp only [parseChildNode, if_neg hfield] at hb'
          cases hname : (XmlNode.element tag attributes children).getProp "name" with
          | none => rw [hname] at hb'; cases hb'
          | some sName =>
              rw [hname] at hb'
              exact gets_parseExtraNode hname b b' hb'

/-- The body of a struct or a packet in the document. -/
theorem covers_of_parseNode {self : Option Open} {ns : List XmlNode} {b : Body}
    (h : (l.parseNode packet self ⟨[], []⟩ ns).result = some b) :
    Covers l.version packet (members l.version ns) b := by
  obtain ⟨c, heq, hc⟩ := gets_children (fun c _ => l.sound c) packet self _ b h
  obtain rfl : b = c := heq
  exact hc

/-! ## Elements -/

/-- The entry of an enumeration for a node. -/
def IsEntry (n : XmlNode) (e : Int × String) : Prop :=
  n.tag = some "value" ∧ n.getProp "name" = some e.2 ∧
    ∃ sNum, n.getProp "num" = some sNum ∧ toInt (strtol 0 sNum.toList).1 = e.1

/-- The element has its object in the definition, with all that its children ask for. -/
inductive Registered (l : Loader) (n : XmlNode) : Prop
  | enum (e : Enumeration) : n.tag = some "enum" → n.getProp "name" = some e.name →
      List.Forall₂ IsEntry (n.children.filter (·.isElement)) e.entries → e ∈ l.enums →
        Registered l n
  | struct (t : StructType) : n.tag = some "struct" → n.getProp "name" = some t.name →
      List.Forall₂ (Hooked l.version) (members l.version n.children) t.actions →
        t ∈ l.structs → Registered l n
  | packet (p : LoadedPacket) : n.tag = some "packet" → n.getProp "name" = some p.name →
      parseSource n = some p.source →
        Covers l.version true (members l.version n.children) ⟨p.actions, p.subpackets⟩ →
          p ∈ l.packets → Registered l n
  | define (d : String × String) : n.tag = some "define" → n.getProp "name" = some d.1 →
      n.getProp "value" = some d.2 → d ∈ l.definitions → Registered l n

/-- What is registered stays. -/
structure Grows (l l' : Loader) : Prop where
  version : l'.version = l.version
  enums : l.enums ⊆ l'.enums
  structs : l.structs ⊆ l'.structs
  packets : l.packets ⊆ l'.packets
  definitions : l.definitions ⊆ l'.definitions

theorem Grows.refl (l : Loader) : l.Grows l :=
  ⟨rfl, List.Subset.refl _, List.Subset.refl _, List.Subset.refl _, List.Subset.refl _⟩

theorem Grows.trans {l l₁ l₂ : Loader} (h : l.Grows l₁) (h' : l₁.Grows l₂) : l.Grows l₂ where
  version := h'.version.trans h.version
  enums := List.Subset.trans h.enums h'.enums
  structs := List.Subset.trans h.structs h'.structs
  packets := List.Subset.trans h.packets h'.packets
  definitions := List.Subset.trans h.definitions h'.definitions

theorem Registered.mono {l l' : Loader} {n : XmlNode} (h : l.Registered n) (hgrows : l.Grows l') :
    l'.Registered n := by
  cases h with
  | enum e htag hname hentries he => exact .enum e htag hname hentries (hgrows.enums he)
  | struct t htag hname hactions ht =>
      rw [← hgrows.version] at hactions
      exact .struct t htag hname hactions (hgrows.structs ht)
  | packet p htag hname hsource hcovers hp =>
      rw [← hgrows.version] at hcovers
      exact .packet p htag hname hsource hcovers (hgrows.packets hp)
  | define d htag hname hvalue hd => exact .define d htag hname hvalue (hgrows.definitions hd)

theorem forall₂_parseEnumValues {ns : List XmlNode} {entries entries' : List (Int × String)}
    (h : parseEnumValues entries ns = some entries') :
    ∃ added, entries' = entries ++ added ∧
      List.Forall₂ IsEntry (ns.filter (·.isElement)) added := by
  induction ns generalizing entries with
  | nil =>
      cases h
      exact ⟨[], (List.append_nil _).symm, .nil⟩
  | cons n ns ih =>
      rw [parseEnumValues] at h
      by_cases hn : n.isElement = true
      · rw [if_neg (not_not.2 hn)] at h
        rw [List.filter_cons_of_pos hn]
        by_cases htag : n.tag = some "value"
        · rw [if_neg (not_not.2 htag)] at h
          cases hnum : n.getProp "num" with
          | none => rw [hnum] at h; cases h
          | some sNum =>
              cases hname : n.getProp "name" with
              | none => rw [hnum, hname] at h; cases h
              | some sName =>
                  rw [hnum, hname] at h
                  simp only at h
                  split at h
                  · obtain ⟨added, rfl, hadded⟩ := ih h
                    exact ⟨_, List.append_assoc _ _ _,
                      .cons ⟨htag, hname, sNum, hnum, rfl⟩ hadded⟩
                  · cases h
        · rw [if_pos htag] at h
          cases h
      · rw [if_pos hn] at h
        rw [List.filter_cons_of_neg hn]
        exact ih h

theorem parseEnum_eq_some {l l' : Loader} {n : XmlNode} (h : l.parseEnum n = some l') :
    ∃ e : Enumeration, l' = { l with enums := l.enums ++ [e] } ∧ n.getProp "name" = some e.name ∧
      List.Forall₂ IsEntry (n.children.filter (·.isElement)) e.entries := by
  simp only [parseEnum, Option.bind_eq_bind, Option.bind_eq_some_iff] at h
  obtain ⟨sName, hname, entries, hentries, heq⟩ := h
  cases heq
  obtain ⟨_, rfl, hadded⟩ := forall₂_parseEnumValues hentries
  exact ⟨⟨sName, _⟩, rfl, hname, hadded⟩

theorem parseDefinition_eq_some {l l' : Loader} {n : XmlNode}
    (h : l.parseDefinition n = some l') :
    ∃ d : String × String, l' = { l with definitions := l.definitions ++ [d] } ∧
      n.getProp "name" = some d.1 ∧ n.getProp "value" = some d.2 := by
  simp only [parseDefinition, Option.bind_eq_bind, Option.bind_eq_some_iff] at h
  obtain ⟨sName, hname, -, -, sValue, hvalue, heq⟩ := h
  cases heq
  exact ⟨(sName, sValue), rfl, hname, hvalue⟩

theorem parseStruct_eq_some {l l' : Loader} {n : XmlNode}
    (h : (l.parseStruct n).result = some l') :
    ∃ t : StructType, l' = { l with structs := l.structs ++ [t] } ∧
      n.getProp "name" = some t.name ∧
        List.Forall₂ (Hooked l.version) (members l.version n.children) t.actions := by
  unfold parseStruct at h
  cases hname : n.getProp "name" with
  | none => rw [hname] at h; cases h
  | some sName =>
      rw [hname] at h
      simp only [Alloc.result_bind] at h
      cases hr : (l.parseNode false (some ⟨sName, id⟩) ⟨[], []⟩ n.children).result with
      | none => rw [hr] at h; cases h
      | some b =>
          rw [hr] at h
          cases h
          exact ⟨⟨sName, b.actions⟩, rfl, rfl, (covers_of_parseNode hr).forall₂⟩

theorem parsePacket_eq_some {l l' : Loader} {n : XmlNode}
    (h : (l.parsePacket n).result = some l') :
    ∃ p : LoadedPacket, l' = { l with packets := l.packets ++ [p] } ∧
      n.getProp "name" = some p.name ∧ parseSource n = some p.source ∧
        Covers l.version true (members l.version n.children) ⟨p.actions, p.subpackets⟩ ∧
          p.numPacketBytes = sizeFrom 0 p.actions ∧
            (p.subpackets ≠ [] → p.numPacketBytes ≠ 0) := by
  unfold parsePacket at h
  cases hname : n.getProp "name" with
  | none => rw [hname] at h; cases h
  | some sName =>
      rw [hname] at h
      simp only [Alloc.result_bind] at h
      cases hr : (l.parseNode true none ⟨[], []⟩ n.children).result with
      | none => rw [hr] at h; cases h
      | some b =>
          rw [hr] at h
          obtain ⟨p, hp, rfl⟩ := Option.map_eq_some_iff.1 h
          simp only [finishPacket, Option.bind_eq_bind, Option.bind_eq_some_iff] at hp
          obtain ⟨source, hsource, _, hguard, heq⟩ := hp
          cases heq
          have hsize : b.subpackets.isEmpty = true ∨ sizeFrom 0 b.actions ≠ 0 := by
            refine Decidable.byContradiction fun hnot => ?_
            rw [guard, if_neg hnot] at hguard
            cases hguard
          exact ⟨_, rfl, rfl, hsource, covers_of_parseNode hr, rfl, fun hne =>
            hsize.resolve_left (mt List.isEmpty_iff.1 hne)⟩

/-- An element that is parsed to the end has its object. -/
theorem registered_of_parseElement {l l' : Loader} {n : XmlNode}
    (h : (l.parseElement n).result = some l') : l.Grows l' ∧ l'.Registered n := by
  unfold parseElement at h
  split at h
  next htag =>
    obtain ⟨e, rfl, hname, hentries⟩ := parseEnum_eq_some h
    exact ⟨{ Grows.refl l with enums := List.subset_append_left _ _ },
      .enum e htag hname hentries (List.mem_append_right _ List.mem_cons_self)⟩
  next htag =>
    obtain ⟨t, rfl, hname, hactions⟩ := parseStruct_eq_some h
    exact ⟨{ Grows.refl l with structs := List.subset_append_left _ _ },
      .struct t htag hname hactions (List.mem_append_right _ List.mem_cons_self)⟩
  next htag =>
    obtain ⟨p, rfl, hname, hsource, hcovers, -⟩ := parsePacket_eq_some h
    exact ⟨{ Grows.refl l with packets := List.subset_append_left _ _ },
      .packet p htag hname hsource hcovers (List.mem_append_right _ List.mem_cons_self)⟩
  next htag =>
    obtain ⟨d, rfl, hname, hvalue⟩ := parseDefinition_eq_some h
    exact ⟨{ Grows.refl l with definitions := List.subset_append_left _ _ },
      .define d htag hname hvalue (List.mem_append_right _ List.mem_cons_self)⟩
  · cases h

/-- The packets are those of the decoder. -/
def PacketsSound (l : Loader) : Prop :=
  ∀ p ∈ l.packets, ∃ q : Packet, q.name = p.name ∧ q.actions = p.actions ∧
    q.subpackets = p.subpackets ∧ q.numPacketBytes = p.numPacketBytes

theorem packetsSound_of_parseElement {l l' : Loader} {n : XmlNode} (hl : l.PacketsSound)
    (h : (l.parseElement n).result = some l') : l'.PacketsSound := by
  unfold parseElement at h
  split at h
  · obtain ⟨e, rfl, -⟩ := parseEnum_eq_some h
    exact hl
  · obtain ⟨t, rfl, -⟩ := parseStruct_eq_some h
    exact hl
  · obtain ⟨p, rfl, -, -, hcovers, hsize, hne⟩ := parsePacket_eq_some h
    intro p' hp'
    rcases List.mem_append.1 hp' with hp' | hp'
    · exact hl p' hp'
    · obtain rfl := List.mem_singleton.1 hp'
      exact ⟨⟨p'.name, p'.actions, p'.subpackets, p'.numPacketBytes, none,
        hcovers.isField rfl, hsize, hne⟩, rfl, rfl, rfl, rfl⟩
  · obtain ⟨d, rfl, -⟩ := parseDefinition_eq_some h
    exact hl
  · cases h

/-! ## Documents -/

/-- The elements are parsed to the end, one after the other, when these arrays can be allocated. -/
inductive Parsed (grants : Request → Bool) : Loader → List XmlNode → Loader → Prop
  | nil (l : Loader) : Parsed grants l [] l
  | cons {l l₁ l₂ : Loader} {n : XmlNode} {ns : List XmlNode} :
      (l.parseElement n).run grants = some (some l₁) → Parsed grants l₁ ns l₂ →
        Parsed grants l (n :: ns) l₂

/-- The element is malformed: it is rejected, or asks for an array that cannot be allocated. -/
def Malformed (grants : Request → Bool) (l : Loader) (n : XmlNode) : Prop :=
  ∀ l', (l.parseElement n).run grants ≠ some (some l')

variable {grants : Request → Bool}

theorem parsed_iff {l l' : Loader} {ns : List XmlNode} :
    (l.parseElements ns).run grants = some (some l') ↔
      Parsed grants l (ns.filter (·.isElement)) l' := by
  induction ns generalizing l with
  | nil =>
      constructor
      · intro h
        cases h
        exact .nil _
      · rintro ⟨⟩
        rfl
  | cons n ns ih =>
      rw [parseElements]
      by_cases hn : n.isElement = true
      · rw [if_pos hn, List.filter_cons_of_pos hn, Alloc.run_bind]
        constructor
        · intro h
          cases hr : (l.parseElement n).run grants with
          | none => rw [hr] at h; cases h
          | some r =>
              cases r with
              | none => rw [hr] at h; cases h
              | some l₁ =>
                  rw [hr] at h
                  exact .cons hr (ih.1 h)
        · rintro (_ | ⟨hr, hrest⟩)
          rw [hr]
          exact ih.2 hrest
      · rw [if_neg hn, List.filter_cons_of_neg hn]
        exact ih

theorem Parsed.registered {l l' : Loader} {ns : List XmlNode} (h : Parsed grants l ns l') :
    l.Grows l' ∧ ∀ n ∈ ns, l'.Registered n := by
  induction h with
  | nil l => exact ⟨.refl l, List.forall_mem_nil _⟩
  | cons hr _ ih =>
      obtain ⟨hgrows, hregistered⟩ := registered_of_parseElement (Alloc.run_eq_some_iff.1 hr).2
      exact ⟨hgrows.trans ih.1, List.forall_mem_cons.2 ⟨hregistered.mono ih.1, ih.2⟩⟩

/-- What is loaded is a definition for the decoder. -/
theorem Parsed.packetsSound {l l' : Loader} {ns : List XmlNode} (h : Parsed grants l ns l')
    (hl : l.PacketsSound) : l'.PacketsSound := by
  induction h with
  | nil l => exact hl
  | cons hr _ ih =>
      exact ih (packetsSound_of_parseElement hl (Alloc.run_eq_some_iff.1 hr).2)

/-- No element is malformed where it is parsed. -/
theorem Parsed.not_malformed {l l₁ l' : Loader} {before after : List XmlNode} {n : XmlNode}
    (h : Parsed grants l (before ++ n :: after) l') (hbefore : Parsed grants l before l₁) :
    ¬ Malformed grants l₁ n := by
  induction hbefore with
  | nil l =>
      cases h with
      | cons hr _ => exact fun hmalformed => hmalformed _ hr
  | cons hr _ ih =>
      cases h with
      | cons hr' hrest =>
          rw [hr] at hr'
          cases hr'
          exact ih hrest

/-- `Load` reports failure: when it returns `true`, all elements have been parsed to the end and
have their objects, and when one is malformed, it returns `false`. -/
structure ReportsFailure (grants : Request → Bool) (l : Loader) (iVersion : Int)
    (pDoc : Option (List XmlNode)) : Prop where
  registered : l.loads grants iVersion pDoc = true → ∃ nodes l', pDoc = some nodes ∧
    (l.load iVersion pDoc).run grants = some (some l') ∧
      Parsed grants { l with version := iVersion } (nodes.filter (·.isElement)) l' ∧
        ∀ n ∈ nodes.filter (·.isElement), l'.Registered n
  malformed : ∀ nodes before n after l₁, pDoc = some nodes →
    nodes.filter (·.isElement) = before ++ n :: after →
      Parsed grants { l with version := iVersion } before l₁ → Malformed grants l₁ n →
        l.loads grants iVersion pDoc = false

/-- Arrays for which there is room in so many bytes. None has a negative length. -/
def fits (bytes : Nat) (r : Request) : Bool := 0 ≤ r.count ∧ r.count * r.size ≤ bytes

/-- A `ProtocolDefinition` as its constructor leaves it, without providers. -/
def initial : Loader where
  version := 0
  transformations := []
  annotations := []
  stringLength := 0
  definitions := []
  enums := []
  structs := []
  packets := []

/-- A struct with an array of a negative length. -/
def negativeCount : List XmlNode :=
  [.element "struct" [("name", "s")]
    [.element "field" [("name", "a"), ("type", "u8"), ("count", "-1")] []]]

end Loader

end ProtocolDefinition

end OpenRom
