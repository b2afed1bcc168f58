import OpenRom.Protocol.Document
import OpenRom.Protocol.History
import OpenRom.Protocol.Loaded

/-!
# What holds of all that is loaded

A property that the nodes of a document give to the built-in types that are made of them holds of
every type in what is loaded, through the clones of structs, the fields that are added to these, and
the filters (`Parsed.everywhere`). Decoding does not change it (`everywhere_run`).
-/

set_option autoImplicit false

namespace OpenRom

namespace ProtocolDefinition

open Allocation

/-! ## What holds of all parts -/

section Everywhere

variable (P : BuiltinType → Prop) (Q : Transformation → Prop)

mutual

/-- All built-in types in it and all transformations have their property. -/
def FieldType.Everywhere : FieldType → Prop
  | .builtin object => P object.type
  | .struct _ actions => EverywhereOf actions

def EverywhereOf : List Action → Prop
  | [] => True
  | .field _ type _ :: as => type.Everywhere ∧ EverywhereOf as
  | .transformationAction t :: as => Q t ∧ EverywhereOf as
  | .annotationAction _ :: as => EverywhereOf as

end

end Everywhere

variable {P : BuiltinType → Prop} {Q : Transformation → Prop}

theorem everywhereOf_append {as bs : List Action} (has : EverywhereOf P Q as)
    (hbs : EverywhereOf P Q bs) : EverywhereOf P Q (as ++ bs) := by
  induction as with
  | nil => exact hbs
  | cons a as ih =>
      cases a with
      | field name type offset => exact ⟨has.1, ih has.2⟩
      | transformationAction t => exact ⟨has.1, ih has.2⟩
      | annotationAction name => exact ih has

/-- Values do not matter. -/
theorem everywhereOf_layoutOf {as : List Action} :
    EverywhereOf P Q (layoutOf as) ↔ EverywhereOf P Q as := by
  induction as using actionsRec with
  | nil => rfl
  | builtin name object offset as ih => exact and_congr Iff.rfl ih
  | struct name typeName inner offset as ihInner ih => exact and_congr ihInner ih
  | transformationAction t as ih => exact and_congr Iff.rfl ih
  | annotationAction name as ih => exact ih

theorem result_clone (t : BuiltinType) : t.clone.result = t := by
  cases t <;> rfl

theorem everywhereOf_clone {as : List Action} (h : EverywhereOf P Q as) :
    EverywhereOf P Q (cloneActions as).result := by
  induction as using actionsRec with
  | nil => exact trivial
  | builtin name object offset as ih =>
      simp only [cloneActions, FieldType.clone, Alloc.result_bind, Alloc.result_pure, result_clone]
      exact ⟨h.1, ih h.2⟩
  | struct name typeName inner offset as ihInner ih =>
      simp only [cloneActions, FieldType.clone, Alloc.result_bind, Alloc.result_pure]
      exact ⟨ihInner h.1, ih h.2⟩
  | transformationAction t as ih =>
      simp only [cloneActions, Alloc.result_bind, Alloc.result_pure]
      exact ⟨h.1, ih h.2⟩
  | annotationAction name as ih =>
      simp only [cloneActions, Alloc.result_bind, Alloc.result_pure]
      exact ih h

/-! ## Nodes -/

/-- The property holds of the type, if all is in order. -/
def Checked.Holds {τ : Type} (P : τ → Prop) (c : Checked τ) : Prop := c.2 = true → P c.1

theorem Checked.Holds.of_get {τ : Type} {P : τ → Prop} {c : Checked τ} (h : c.Holds P) {t : τ}
    (ht : c.get = some t) : P t := by
  unfold Checked.get at ht
  split at ht <;> cases ht
  exact h ‹_›

namespace XmlNode

mutual

/-- The node and all nodes in it. -/
def nodes : XmlNode → List XmlNode
  | .other => [.other]
  | .element tag attributes children => .element tag attributes children :: nodesOf children

def nodesOf : List XmlNode → List XmlNode
  | [] => []
  | n :: ns => n.nodes ++ nodesOf ns

end

theorem mem_nodes_self (n : XmlNode) : n ∈ n.nodes := by
  cases n <;> exact List.mem_cons_self

theorem nodes_subset_nodesOf {n : XmlNode} {ns : List XmlNode} (h : n ∈ ns) :
    n.nodes ⊆ nodesOf ns := by
  induction ns with
  | nil => exact absurd h List.not_mem_nil
  | cons m ns ih =>
      rcases List.mem_cons.1 h with rfl | h
      · exact List.subset_append_left _ _
      · exact List.subset_append_of_subset_right _ (ih h)

end XmlNode

/-- What is made of a prototype with the node has the property. -/
def XmlNode.Sets (P : BuiltinType → Prop) (l : Loader) (n : XmlNode) : Prop :=
  ∀ sType proto t, l.clonePrototype sType = some proto →
    (proto.result.parseNode l n).result = some t → P t

section Nodes

variable (P Q)

def Body.Everywhere (b : Body) : Prop :=
  EverywhereOf P Q b.actions ∧
    ∀ sp ∈ b.subpackets, EverywhereOf P Q sp.actions

/-- What has been loaded is in range, and has only transformations with the property. -/
structure Loader.Everywhere (l : Loader) : Prop where
  transformations : ∀ t ∈ l.transformations, Q t
  structs : ∀ t ∈ l.structs, EverywhereOf P Q t.actions
  packets : ∀ p ∈ l.packets, Body.Everywhere P Q ⟨p.actions, p.subpackets⟩

/-- The struct that is being parsed, whatever its fields come to. -/
def Open.Everywhere (s : Open) : Prop :=
  ∀ inner, EverywhereOf P Q inner →
    EverywhereOf P Q (s.actions inner)

variable {P Q}

theorem Body.Everywhere.addAction {b : Body} (h : b.Everywhere P Q) {a : Action}
    (ha : EverywhereOf P Q [a]) : (b.addAction a).Everywhere P Q :=
  ⟨everywhereOf_append h.1 ha, h.2⟩

theorem Body.everywhere_nil : Body.Everywhere P Q ⟨[], []⟩ := ⟨trivial, List.forall_mem_nil _⟩

namespace Loader

variable {l : Loader}

/-- A field of a built-in type starts from the prototype, and one of a struct from its actions. -/
theorem everywhere_cloneType (hl : l.Everywhere P Q) {self : Option StructType}
    (hself : ∀ t ∈ self, EverywhereOf P Q t.actions) {sType : String}
    {clone : Alloc FieldType} (h : l.cloneType self sType = some clone) :
    match clone.result with
    | .builtin object => ∃ proto, l.clonePrototype sType = some proto ∧ proto.result = object.type
    | .struct _ actions => EverywhereOf P Q actions := by
  unfold cloneType at h
  cases hproto : l.clonePrototype sType with
  | some proto =>
      rw [hproto] at h
      cases h
      simp only [Alloc.result_bind, Alloc.result_pure]
      exact ⟨proto, rfl, rfl⟩
  | none =>
      rw [hproto] at h
      obtain ⟨t, ht, rfl⟩ := Option.map_eq_some_iff.1 h
      simp only [FieldType.clone, Alloc.result_bind, Alloc.result_pure]
      refine everywhereOf_clone ?_
      rcases List.mem_append.1 (lookupType_eq_some ht).1 with hmem | hmem
      · exact hl.structs t hmem
      · exact hself t (Option.mem_toList.1 hmem)

/-- What a node does in a struct or packet keeps everything in range. -/
def Keeps (l : Loader) (P : BuiltinType → Prop) (Q : Transformation → Prop) (n : XmlNode) : Prop :=
  ∀ packet self b, (∀ s ∈ self, Open.Everywhere P Q s) → b.Everywhere P Q →
    (∀ b' ∈ (l.parseChildNode packet self b n).result, b'.Everywhere P Q) ∧
      ∀ b' ∈ (l.parseFilter packet self b n).result, b'.Everywhere P Q

section Loops

variable {packet : Bool} {self : Option Open} {ns : List XmlNode}

theorem everywhere_parseFiltered (hns : ∀ n ∈ ns, l.Keeps P Q n)
    (hself : ∀ s ∈ self, Open.Everywhere P Q s) {b : Body} (hb : b.Everywhere P Q) :
    ∀ b' ∈ (l.parseFiltered packet self b ns).result, b'.Everywhere P Q := by
  induction ns generalizing b with
  | nil =>
      rintro b' ⟨⟩
      exact hb
  | cons n ns ih =>
      obtain ⟨hn, hns⟩ := List.forall_mem_cons.1 hns
      intro b' hb'
      simp only [parseFiltered, Alloc.result_bind] at hb'
      cases hr : (l.parseChildNode packet self b n).result with
      | none => rw [hr] at hb'; cases hb'
      | some b₁ =>
          rw [hr] at hb'
          exact ih hns ((hn packet self b hself hb).1 b₁ hr) b' hb'

theorem everywhere_parseNode (hns : ∀ n ∈ ns, l.Keeps P Q n)
    (hself : ∀ s ∈ self, Open.Everywhere P Q s) {b : Body} (hb : b.Everywhere P Q) :
    ∀ b' ∈ (l.parseNode packet self b ns).result, b'.Everywhere P Q := by
  induction ns generalizing b with
  | nil =>
      rintro b' ⟨⟩
      exact hb
  | cons n ns ih =>
      obtain ⟨hn, hns⟩ := List.forall_mem_cons.1 hns
      intro b' hb'
      simp only [parseNode, Alloc.result_bind] at hb'
      cases hr : (if n.tag = some "filter" then l.parseFilter packet self b n
          else l.parseChildNode packet self b n).result with
      | none => rw [hr] at hb'; cases hb'
      | some b₁ =>
          rw [hr] at hb'
          refine ih hns ?_ b' hb'
          split at hr
          · exact (hn packet self b hself hb).2 b₁ hr
          · exact (hn packet self b hself hb).1 b₁ hr

end Loops

section Element

variable {tag : String} {attributes : List (String × String)} {children : List XmlNode}
  {self : Option Open} {b : Body}

theorem everywhere_field (hl : l.Everywhere P Q)
    (hsets : (XmlNode.element tag attributes children).Sets P l)
    (hchildren : ∀ n ∈ children, l.Keeps P Q n) (htag : tag = "field") (packet : Bool)
    (hself : ∀ s ∈ self, Open.Everywhere P Q s) (hb : b.Everywhere P Q) :
    ∀ b' ∈ (l.parseChildNode packet self b (.element tag attributes children)).result,
      b'.Everywhere P Q := by
  intro b' hb'
  simp only [parseChildNode] at hb'
  cases hname : (XmlNode.element tag attributes children).getProp "name" with
  | none => simp only [hname] at hb'; cases hb'
  | some sName =>
      simp only [hname, if_pos htag] at hb'
      cases htype : (XmlNode.element tag attributes children).getProp "type" with
      | none => simp only [htype] at hb'; cases hb'
      | some sType =>
          simp only [htype] at hb'
          cases hclone : l.cloneType (self.map fun s => ⟨s.name, s.actions b.actions⟩) sType with
          | none => simp only [hclone] at hb'; cases hb'
          | some clone =>
              have hcloned := everywhere_cloneType hl (fun t ht => by
                obtain ⟨s, hs, rfl⟩ := Option.map_eq_some_iff.1 ht
                exact hself s hs b.actions hb.1) hclone
              simp only [hclone, Alloc.result_bind] at hb'
              cases hresult : clone.result with
              | builtin object =>
                  rw [hresult] at hcloned
                  simp only [hresult, Alloc.result_bind] at hb'
                  cases ht :
                      (object.type.parseNode l (.element tag attributes children)).result with
                  | none => rw [ht] at hb'; cases hb'
                  | some t =>
                      rw [ht] at hb'
                      cases hb'
                      obtain ⟨proto, hproto, heq⟩ := hcloned
                      rw [← heq] at ht
                      exact hb.addAction ⟨hsets sType proto t hproto ht, trivial⟩
              | struct sStruct actions =>
                  rw [hresult] at hcloned
                  simp only [hresult, Alloc.result_bind] at hb'
                  cases hr : (l.parseNode false (self.map fun s => ⟨s.name, fun inner =>
                      s.actions (b.actions ++ [.field sName (.struct sStruct inner) 0])⟩)
                      ⟨actions, []⟩ children).result with
                  | none => rw [hr] at hb'; cases hb'
                  | some inner =>
                      rw [hr] at hb'
                      cases hb'
                      -- the struct that is being parsed has the field already
                      have hinside : ∀ s ∈ self.map fun s : Open => (⟨s.name, fun inner =>
                          s.actions (b.actions ++ [.field sName (.struct sStruct inner) 0])⟩ :
                            Open), Open.Everywhere P Q s := by
                        intro s hs
                        obtain ⟨outer, houter, rfl⟩ := Option.map_eq_some_iff.1 hs
                        exact fun inner hinner =>
                          hself outer houter _ (everywhereOf_append hb.1 ⟨hinner, trivial⟩)
                      have hinner := everywhere_parseNode hchildren hinside
                        ⟨hcloned, List.forall_mem_nil _⟩ inner hr
                      exact hb.addAction ⟨hinner.1, trivial⟩

theorem everywhere_subpacket (hchildren : ∀ n ∈ children, l.Keeps P Q n) (htag : tag = "subpacket")
    (hb : b.Everywhere P Q) :
    ∀ b' ∈ (l.parseChildNode true self b (.element tag attributes children)).result,
      b'.Everywhere P Q := by
  have hnotField : ¬ tag = "field" := by
    rw [htag]
    decide
  intro b' hb'
  simp only [parseChildNode] at hb'
  cases hname : (XmlNode.element tag attributes children).getProp "name" with
  | none => simp only [hname] at hb'; cases hb'
  | some sName =>
      simp only [hname, if_neg hnotField, if_pos htag, if_true, Alloc.result_bind] at hb'
      cases hr : (l.parseNode false none ⟨[], []⟩ children).result with
      | none => rw [hr] at hb'; cases hb'
      | some inner =>
          rw [hr] at hb'
          cases hb'
          have hinner := everywhere_parseNode hchildren (fun s hs => by cases hs)
            Body.everywhere_nil inner hr
          exact ⟨hb.1, List.forall_mem_append.2 ⟨hb.2, List.forall_mem_singleton.2 hinner.1⟩⟩

theorem everywhere_parseExtraNode (hl : l.Everywhere P Q) {n : XmlNode} {sName : String}
    (hb : b.Everywhere P Q) : ∀ b' ∈ l.parseExtraNode sName n b, b'.Everywhere P Q := by
  intro b' hb'
  unfold parseExtraNode at hb'
  split at hb'
  · obtain ⟨t, ht, rfl⟩ := Option.map_eq_some_iff.1 hb'
    exact hb.addAction ⟨hl.transformations t (List.mem_of_find?_eq_some ht), trivial⟩
  split at hb'
  · obtain ⟨name, -, rfl⟩ := Option.map_eq_some_iff.1 hb'
    exact hb.addAction trivial
  · cases hb'

end Element

/-- By induction over the nodes in a node. -/
theorem keeps_of_sets (hl : l.Everywhere P Q) {n : XmlNode} (hn : ∀ m ∈ n.nodes, m.Sets P l) :
    l.Keeps P Q n := by
  induction n using XmlNode.induction with
  | hOther =>
      intro packet self b hself hb
      refine ⟨?_, ?_⟩ <;> rintro b' ⟨⟩ <;> exact hb
  | hElement tag attributes children ih =>
      have hchildren : ∀ n ∈ children, l.Keeps P Q n := fun n hmem =>
        ih n hmem fun m hm => hn m (List.mem_cons_of_mem _ (XmlNode.nodes_subset_nodesOf hmem hm))
      have hsets := hn _ (XmlNode.mem_nodes_self _)
      intro packet self b hself hb
      refine ⟨?_, ?_⟩
      · by_cases hfield : tag = "field"
        · exact everywhere_field hl hsets hchildren hfield packet hself hb
        cases packet with
        | true =>
            by_cases hsubpacket : tag = "subpacket"
            · exact everywhere_subpacket hchildren hsubpacket hb
            · intro b' hb'
              simp only [parseChildNode, if_neg hfield, if_neg hsubpacket, if_true] at hb'
              split at hb' <;> cases hb'
        | false =>
            intro b' hb'
            simp only [parseChildNode, if_neg hfield] at hb'
            split at hb'
            · cases hb'
            · exact everywhere_parseExtraNode hl hb b' hb'
      · intro b' hb'
        simp only [parseFilter] at hb'
        split at hb'
        · cases hb'
        · cases hb'
          exact hb
        · exact everywhere_parseFiltered hchildren hself hb b' hb'

/-! ## Documents -/

theorem everywhere_of_parseElement {l' : Loader} (hl : l.Everywhere P Q) {n : XmlNode}
    (hn : ∀ m ∈ n.nodes, m.Sets P l) (h : (l.parseElement n).result = some l') :
    l'.Everywhere P Q := by
  have hchildren : ∀ m ∈ n.children, l.Keeps P Q m := by
    intro m hm
    cases n with
    | other => exact absurd hm List.not_mem_nil
    | element tag attributes children =>
        exact keeps_of_sets hl fun k hk =>
          hn k (List.mem_cons_of_mem _ (XmlNode.nodes_subset_nodesOf hm hk))
  unfold parseElement at h
  split at h
  · obtain ⟨e, rfl, -⟩ := parseEnum_eq_some h
    exact ⟨hl.transformations, hl.structs, hl.packets⟩
  · unfold parseStruct at h
    cases hname : n.getProp "name" with
    | none => rw [hname] at h; cases h
    | some sName =>
        simp only [hname, Alloc.result_bind] at h
        cases hr : (l.parseNode false (some ⟨sName, id⟩) ⟨[], []⟩ n.children).result with
        | none => rw [hr] at h; cases h
        | some b =>
            rw [hr] at h
            cases h
            -- inside of the struct, its own name stands for what has been parsed of it
            have hself : ∀ s ∈ some (⟨sName, id⟩ : Open), Open.Everywhere P Q s := by
              rintro s ⟨⟩
              exact fun inner hinner => hinner
            have hb := everywhere_parseNode hchildren hself Body.everywhere_nil b hr
            exact ⟨hl.transformations, List.forall_mem_append.2
              ⟨hl.structs, List.forall_mem_singleton.2 hb.1⟩, hl.packets⟩
  · unfold parsePacket at h
    cases hname : n.getProp "name" with
    | none => rw [hname] at h; cases h
    | some sName =>
        simp only [hname, Alloc.result_bind] at h
        cases hr : (l.parseNode true none ⟨[], []⟩ n.children).result with
        | none => rw [hr] at h; cases h
        | some b =>
            rw [hr] at h
            obtain ⟨p, hp, rfl⟩ := Option.map_eq_some_iff.1 h
            -- the packet is made of the body, whose counts are only summed up
            simp only [finishPacket, Option.bind_eq_bind, Option.bind_eq_some_iff] at hp
            obtain ⟨source, -, _, -, heq⟩ := hp
            cases heq
            have hb := everywhere_parseNode hchildren (fun s hs => by cases hs)
              Body.everywhere_nil b hr
            exact ⟨hl.transformations, hl.structs, List.forall_mem_append.2
              ⟨hl.packets, List.forall_mem_singleton.2 hb⟩⟩
  · obtain ⟨d, rfl, -⟩ := parseDefinition_eq_some h
    exact ⟨hl.transformations, hl.structs, hl.packets⟩
  · cases h

/-- What comes later is looked up behind what there is before. -/
structure Extends (l l' : Loader) : Prop where
  definitions : l.definitions <+: l'.definitions
  enums : l.enums <+: l'.enums

theorem Extends.trans {l l₁ l₂ : Loader} (h : l.Extends l₁) (h' : l₁.Extends l₂) : l.Extends l₂ :=
  ⟨h.definitions.trans h'.definitions, h.enums.trans h'.enums⟩

theorem extends_of_parseElement {l' : Loader} {n : XmlNode}
    (h : (l.parseElement n).result = some l') : l.Extends l' := by
  unfold parseElement at h
  split at h
  · obtain ⟨e, rfl, -⟩ := parseEnum_eq_some h
    exact ⟨List.prefix_rfl, List.prefix_append _ _⟩
  · obtain ⟨t, rfl, -⟩ := parseStruct_eq_some h
    exact ⟨List.prefix_rfl, List.prefix_rfl⟩
  · obtain ⟨p, rfl, -⟩ := parsePacket_eq_some h
    exact ⟨List.prefix_rfl, List.prefix_rfl⟩
  · obtain ⟨d, rfl, -⟩ := parseDefinition_eq_some h
    exact ⟨List.prefix_append _ _, List.prefix_rfl⟩
  · cases h

variable {grants : Request → Bool} {l' : Loader}

theorem Parsed.extends {ns : List XmlNode} (h : Parsed grants l ns l') : l.Extends l' := by
  induction h with
  | nil l => exact ⟨List.prefix_rfl, List.prefix_rfl⟩
  | cons hr _ ih => exact (extends_of_parseElement (Alloc.run_eq_some_iff.1 hr).2).trans ih

/-- What all nodes set, with what has been registered when they are parsed, holds of all that is
loaded. -/
theorem Parsed.everywhere {ns : List XmlNode} (h : Parsed grants l ns l') (hl : l.Everywhere P Q)
    (hns : ∀ l₁ : Loader, l₁.Extends l' → ∀ n ∈ ns, ∀ m ∈ n.nodes, m.Sets P l₁) :
    l'.Everywhere P Q := by
  induction h with
  | nil l => exact hl
  | cons hr hrest ih =>
      have hresult := (Alloc.run_eq_some_iff.1 hr).2
      have hext := (extends_of_parseElement hresult).trans hrest.extends
      have hnode := (List.forall_mem_cons.1 (hns _ hext)).1
      refine ih (everywhere_of_parseElement hl hnode hresult) fun l₁ hl₁ => ?_
      exact (List.forall_mem_cons.1 (hns l₁ hl₁)).2

end Loader

end Nodes

/-! ## Decoding -/

section Decoding

variable {P : BuiltinType → Prop} {Q : Transformation → Prop}

/-- Values do not matter. -/
theorem Packet.everywhere_congr {p q : Packet} (h : p.layout = q.layout)
    (hq : Body.Everywhere P Q ⟨q.actions, q.subpackets⟩) :
    Body.Everywhere P Q ⟨p.actions, p.subpackets⟩ := by
  obtain ⟨hactions, hsubpackets⟩ := Prod.mk.inj h
  refine ⟨?_, fun sp hsp => ?_⟩
  · rw [← everywhereOf_layoutOf, hactions, everywhereOf_layoutOf]
    exact hq.1
  · have hmem := List.mem_map_of_mem (f := fun sp : Subpacket => layoutOf sp.actions) hsp
    rw [hsubpackets] at hmem
    obtain ⟨sq, hsq, heq⟩ := List.mem_map.1 hmem
    rw [← everywhereOf_layoutOf, ← heq, everywhereOf_layoutOf]
    exact hq.2 sq hsq

/-- It still holds, whatever has been processed. -/
theorem everywhere_run {d : ProtocolDefinition}
    (hd : ∀ p ∈ d.packets, Body.Everywhere P Q ⟨p.actions, p.subpackets⟩)
    (history : List (UInt32 × List UInt8)) :
    ∀ p ∈ (d.run history).packets, Body.Everywhere P Q ⟨p.actions, p.subpackets⟩ := by
  intro p hp
  have hmem := List.mem_map_of_mem (f := Packet.layout) hp
  rw [layout_run] at hmem
  obtain ⟨q, hq, heq⟩ := List.mem_map.1 hmem
  exact Packet.everywhere_congr heq.symm (hd q hq)

/-- The packet, as the decoder has it before it has processed anything. -/
def LoadedPacket.Gives (p : LoadedPacket) (q : Packet) : Prop :=
  q.name = p.name ∧ q.actions = p.actions ∧ q.subpackets = p.subpackets ∧
    q.numPacketBytes = p.numPacketBytes ∧ q.lastSubpacket = none

/-- What is loaded is a definition for the decoder. -/
theorem Loader.Parsed.gives {grants : Request → Bool} {l l' : Loader} {ns : List XmlNode}
    (h : Parsed grants l ns l') (hl : l.packets = []) :
    ∃ d : ProtocolDefinition, List.Forall₂ LoadedPacket.Gives l'.packets d.packets := by
  have hsound := h.packetsSound (fun p hp => absurd (hl ▸ hp) List.not_mem_nil)
  have hall : ∀ ps : List LoadedPacket, (∀ p ∈ ps, ∃ q : Packet, p.Gives q) →
      ∃ qs, List.Forall₂ LoadedPacket.Gives ps qs := by
    intro ps hps
    induction ps with
    | nil => exact ⟨[], .nil⟩
    | cons p ps ih =>
        obtain ⟨⟨q, hq⟩, hrest⟩ := List.forall_mem_cons.1 hps
        obtain ⟨qs, hqs⟩ := ih hrest
        exact ⟨q :: qs, .cons hq hqs⟩
  obtain ⟨qs, hqs⟩ := hall l'.packets fun p hp => by
    obtain ⟨q, hname, hactions, hsubpackets, hbytes⟩ := hsound p hp
    exact ⟨⟨q.name, q.actions, q.subpackets, q.numPacketBytes, none, q.isField,
      q.numPacketBytes_eq, q.numPacketBytes_ne⟩, hname, hactions, hsubpackets, hbytes, rfl⟩
  exact ⟨⟨qs⟩, hqs⟩

/-- The packet for the decoder, if it is one. -/
def LoadedPacket.toPacket (p : LoadedPacket) : Option Packet :=
  if h : (∀ a ∈ p.actions, a.IsField) ∧ p.numPacketBytes = sizeFrom 0 p.actions ∧
      (p.subpackets ≠ [] → p.numPacketBytes ≠ 0) then
    some ⟨p.name, p.actions, p.subpackets, p.numPacketBytes, none, h.1, h.2.1, h.2.2⟩
  else none

theorem LoadedPacket.gives_of_toPacket {p : LoadedPacket} {q : Packet}
    (h : p.toPacket = some q) : p.Gives q := by
  unfold toPacket at h
  split at h <;> cases h
  exact ⟨rfl, rfl, rfl, rfl, rfl⟩

/-- The definition for the decoder. -/
def Loader.toDefinition (l : Loader) : Option ProtocolDefinition :=
  (l.packets.mapM LoadedPacket.toPacket).map ProtocolDefinition.mk

theorem Loader.gives_of_toDefinition {l : Loader} {d : ProtocolDefinition}
    (h : l.toDefinition = some d) : List.Forall₂ LoadedPacket.Gives l.packets d.packets := by
  obtain ⟨qs, hqs, rfl⟩ := Option.map_eq_some_iff.1 h
  clear h
  dsimp only
  generalize l.packets = ps at hqs
  induction ps generalizing qs with
  | nil =>
      cases hqs
      exact .nil
  | cons p ps ih =>
      rw [List.mapM_cons] at hqs
      obtain ⟨q, hq, hrest⟩ := Option.bind_eq_some_iff.1 hqs
      obtain ⟨rest, hps, heq⟩ := Option.bind_eq_some_iff.1 hrest
      cases heq
      exact .cons (LoadedPacket.gives_of_toPacket hq) (ih rest hps)

theorem everywhere_of_gives {ps : List LoadedPacket} {qs : List Packet}
    (h : List.Forall₂ LoadedPacket.Gives ps qs)
    (hps : ∀ p ∈ ps, Body.Everywhere P Q ⟨p.actions, p.subpackets⟩) :
    ∀ q ∈ qs, Body.Everywhere P Q ⟨q.actions, q.subpackets⟩ := by
  induction h with
  | nil => exact List.forall_mem_nil _
  | cons hgives _ ih =>
      obtain ⟨hp, hps⟩ := List.forall_mem_cons.1 hps
      obtain ⟨-, hactions, hsubpackets, -⟩ := hgives
      refine List.forall_mem_cons.2 ⟨?_, ih hps⟩
      rw [hactions, hsubpackets]
      exact hp

end Decoding

end ProtocolDefinition

end OpenRom
