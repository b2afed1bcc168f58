import OpenRom.Protocol.Load

/-!
# Versions of a definition

What a document says about versions. Loading it for a version is loading, without one, the document
from which the filters for later versions have been taken out: the same objects, the same requests
for memory, the same failures (`Loader.load_prune`). So two versions that no filter tells apart are
the same, and a version that is not below that of any filter is the same as none
(`Loader.load_version`).
-/

set_option autoImplicit false

namespace OpenRom

namespace ProtocolDefinition

open Allocation

/-! ## Filters -/

/-- The version of a filter, when it has one that is a number. -/
def XmlNode.filterVersion (n : XmlNode) : Option Int :=
  if n.tag = some "filter" then
    match n.getProp "version" with
    | none => none
    | some sVersion =>
        let (version, rest) := strtol 10 sVersion.toList
        if rest.isEmpty then some (toInt version) else none
  else none

/-- What a filter for `w` has counts for version `v`; every filter counts when there is none. -/
def Counts (v w : Int) : Prop := v < 0 ∨ v ≥ w

instance (v w : Int) : Decidable (Counts v w) := inferInstanceAs (Decidable (_ ∨ _))

/-- A filter for later versions. -/
def XmlNode.IsLater (v : Int) (n : XmlNode) : Prop := ∃ w ∈ n.filterVersion, ¬ Counts v w

instance (v : Int) (n : XmlNode) : Decidable (n.IsLater v) :=
  inferInstanceAs (Decidable (∃ w ∈ (_ : Option Int), _))

namespace XmlNode

mutual

/-- A node without the filters for later versions in it. -/
def prune (v : Int) : XmlNode → XmlNode
  | .other => .other
  | .element tag attributes children =>
      .element tag attributes
        (if tag = "filter" then pruneFiltered v children else pruneNodes v children)

/-- The children of a struct. -/
def pruneNodes (v : Int) : List XmlNode → List XmlNode
  | [] => []
  | n :: ns => if n.IsLater v then pruneNodes v ns else n.prune v :: pruneNodes v ns

/-- The children of a filter, among which there can be no filter. -/
def pruneFiltered (v : Int) : List XmlNode → List XmlNode
  | [] => []
  | n :: ns => n.prune v :: pruneFiltered v ns

end

/-- An element of the document. Filters have a meaning in structs and packets only. -/
def pruneElement (v : Int) (n : XmlNode) : XmlNode :=
  if n.tag = some "struct" ∨ n.tag = some "packet" then n.prune v else n

end XmlNode

/-! ## Structs and packets -/

namespace XmlNode

variable {v : Int}

@[simp] theorem tag_prune (n : XmlNode) : (n.prune v).tag = n.tag := by
  cases n <;> rfl

@[simp] theorem getProp_prune (n : XmlNode) (name : String) :
    (n.prune v).getProp name = n.getProp name := by
  cases n <;> rfl

@[simp] theorem isElement_prune (n : XmlNode) : (n.prune v).isElement = n.isElement := by
  cases n <;> rfl

theorem prune_of_ne_filter {tag : String} (htag : tag ≠ "filter")
    (attributes : List (String × String)) (children : List XmlNode) :
    (element tag attributes children).prune v =
      .element tag attributes (pruneNodes v children) := by
  rw [prune, if_neg htag]

theorem isLater_iff_of_filterVersion {n : XmlNode} {w : Int} (h : n.filterVersion = some w) :
    n.IsLater v ↔ ¬ Counts v w := by
  simp [IsLater, h]

theorem tag_of_isLater {n : XmlNode} (h : n.IsLater v) : n.tag = some "filter" := by
  refine Decidable.byContradiction fun hne => ?_
  obtain ⟨w, hw, -⟩ := h
  rw [filterVersion, if_neg hne] at hw
  cases hw

end XmlNode

namespace Loader

variable (l : Loader) (v : Int)

/-- The definition, for another version. -/
def atVersion : Loader := { l with version := v }

variable {l v}

theorem parseFilterVersion_eq {n : XmlNode} (h : n.tag = some "filter") :
    l.parseFilterVersion n = n.filterVersion.map fun w => decide (Counts l.version w) := by
  rw [parseFilterVersion, XmlNode.filterVersion, if_pos h]
  cases n.getProp "version" with
  | none => rfl
  | some sVersion =>
      by_cases hrest : (strtol 10 sVersion.toList).2.isEmpty
      · simp only [if_pos hrest]
        rfl
      · simp only [if_neg hrest]
        rfl

/-- The node does the same in a struct, when the filters for later versions are not there. -/
def PrunesTo (l : Loader) (v : Int) (n : XmlNode) : Prop :=
  ∀ packet self b,
    (l.atVersion v).parseChildNode packet self b n =
      (l.atVersion (-1)).parseChildNode packet self b (n.prune v) ∧
    (n.tag = some "filter" → (l.atVersion v).parseFilter packet self b n =
      if n.IsLater v then pure (some b)
      else (l.atVersion (-1)).parseFilter packet self b (n.prune v))

theorem parseFiltered_prune {ns : List XmlNode} (hns : ∀ n ∈ ns, PrunesTo l v n) (packet : Bool)
    (self : Option Open) (b : Body) :
    (l.atVersion v).parseFiltered packet self b ns =
      (l.atVersion (-1)).parseFiltered packet self b (XmlNode.pruneFiltered v ns) := by
  induction ns generalizing b with
  | nil => rfl
  | cons n ns ih =>
      obtain ⟨hn, hns⟩ := List.forall_mem_cons.1 hns
      simp only [XmlNode.pruneFiltered, parseFiltered, (hn packet self b).1]
      refine Alloc.bind_congr ?_
      cases ((l.atVersion (-1)).parseChildNode packet self b (n.prune v)).result with
      | none => rfl
      | some b' => exact ih hns b'

theorem parseNode_prune {ns : List XmlNode} (hns : ∀ n ∈ ns, PrunesTo l v n) (packet : Bool)
    (self : Option Open) (b : Body) :
    (l.atVersion v).parseNode packet self b ns =
      (l.atVersion (-1)).parseNode packet self b (XmlNode.pruneNodes v ns) := by
  induction ns generalizing b with
  | nil => rfl
  | cons n ns ih =>
      obtain ⟨hn, hns⟩ := List.forall_mem_cons.1 hns
      have hnode := hn packet self b
      simp only [XmlNode.pruneNodes, parseNode]
      by_cases hlater : n.IsLater v
      · -- a filter that does not count leaves nothing
        have htag := XmlNode.tag_of_isLater hlater
        rw [if_pos hlater, if_pos htag, hnode.2 htag, if_pos hlater]
        exact ih hns b
      · have hsame : (if n.tag = some "filter" then (l.atVersion v).parseFilter packet self b n
            else (l.atVersion v).parseChildNode packet self b n) =
              if (n.prune v).tag = some "filter" then
                (l.atVersion (-1)).parseFilter packet self b (n.prune v)
              else (l.atVersion (-1)).parseChildNode packet self b (n.prune v) := by
          rw [XmlNode.tag_prune]
          by_cases htag : n.tag = some "filter"
          · rw [if_pos htag, if_pos htag, hnode.2 htag, if_neg hlater]
          · rw [if_neg htag, if_neg htag, hnode.1]
        rw [if_neg hlater, parseNode, hsame]
        refine Alloc.bind_congr ?_
        cases (if (n.prune v).tag = some "filter" then
            (l.atVersion (-1)).parseFilter packet self b (n.prune v)
          else (l.atVersion (-1)).parseChildNode packet self b (n.prune v)).result with
        | none => rfl
        | some b' => exact ih hns b'

variable {tag : String} {attributes : List (String × String)} {children : List XmlNode}

/-- A filter that is not for a later version, or has none that is a number. -/
theorem parseFilter_prune (hchildren : ∀ n ∈ children, PrunesTo l v n) (htag : tag = "filter")
    (packet : Bool) (self : Option Open) (b : Body) :
    (l.atVersion v).parseFilter packet self b (.element tag attributes children) =
      if (XmlNode.element tag attributes children).IsLater v then pure (some b)
      else (l.atVersion (-1)).parseFilter packet self b
        ((XmlNode.element tag attributes children).prune v) := by
  have hfilter : (XmlNode.element tag attributes children).tag = some "filter" := by rw [htag]; rfl
  have hversion (w : Int) := parseFilterVersion_eq (l := l.atVersion w) hfilter
  have hpruned : (l.atVersion (-1)).parseFilterVersion
      ((XmlNode.element tag attributes children).prune v) =
        (l.atVersion (-1)).parseFilterVersion (.element tag attributes children) := rfl
  simp only [XmlNode.prune] at hpruned
  simp only [XmlNode.prune, parseFilter, hpruned, hversion]
  cases hw : (XmlNode.element tag attributes children).filterVersion with
  | none => simp [XmlNode.IsLater, hw]
  | some w =>
      have hlater := XmlNode.isLater_iff_of_filterVersion (v := v) hw
      have hnone : Counts (-1) w := Or.inl (by decide)
      by_cases hcounts : Counts v w
      · rw [if_neg fun h => hlater.1 h hcounts, if_pos htag]
        simp only [Option.map_some, atVersion, hcounts, hnone, decide_true]
        exact parseFiltered_prune hchildren packet self b
      · rw [if_pos (hlater.2 hcounts)]
        simp only [Option.map_some, atVersion, hcounts, decide_false]

/-- Nodes of other kinds, which do the same for any version but for what is in them. -/
theorem parseChildNode_prune (hchildren : ∀ n ∈ children, PrunesTo l v n) (packet : Bool)
    (self : Option Open) (b : Body) :
    (l.atVersion v).parseChildNode packet self b (.element tag attributes children) =
      (l.atVersion (-1)).parseChildNode packet self b
        ((XmlNode.element tag attributes children).prune v) := by
  have hname (name : String) : (XmlNode.element tag attributes (if tag = "filter" then
      XmlNode.pruneFiltered v children else XmlNode.pruneNodes v children)).getProp name =
        (XmlNode.element tag attributes children).getProp name := rfl
  simp only [XmlNode.prune, parseChildNode, hname]
  cases (XmlNode.element tag attributes children).getProp "name" with
  | none => rfl
  | some sName =>
      by_cases hfield : tag = "field"
      · subst hfield
        simp only [if_true]
        cases (XmlNode.element "field" attributes children).getProp "type" with
        | none => rfl
        | some sType =>
            -- the types that are known do not depend on the version
            have hclone : (l.atVersion v).cloneType = (l.atVersion (-1)).cloneType := rfl
            simp only [hclone]
            cases (l.atVersion (-1)).cloneType (self.map fun s => ⟨s.name, s.actions b.actions⟩)
                sType with
            | none => rfl
            | some clone =>
                refine Alloc.bind_congr ?_
                cases clone.result with
                | builtin object => rfl
                | struct sStruct actions =>
                    simp only [parseNode_prune hchildren]
                    rfl
      · simp only [if_neg hfield]
        cases packet with
        | false => rfl
        | true =>
            by_cases hsubpacket : tag = "subpacket"
            · subst hsubpacket
              simp only [parseNode_prune hchildren]
              rfl
            · simp only [if_neg hsubpacket, if_true]

theorem prunesTo (l : Loader) (v : Int) (n : XmlNode) : PrunesTo l v n := by
  induction n using XmlNode.induction with
  | hElement tag attributes children ih =>
      intro packet self b
      refine ⟨parseChildNode_prune ih packet self b, fun htag => ?_⟩
      exact parseFilter_prune ih (Option.some.inj htag) packet self b
  | hOther =>
      intro packet self b
      exact ⟨rfl, fun htag => by cases htag⟩

/-! ## Documents -/

/-- What it comes to, for another version. -/
def relabel (v : Int) (p : Alloc (Option Loader)) : Alloc (Option Loader) :=
  p >>= fun r => pure (r.map (·.atVersion v))

theorem relabel_bind {α : Type} (p : Alloc α) (f : α → Alloc (Option Loader)) :
    relabel v (p >>= f) = p >>= fun a => relabel v (f a) := Alloc.bind_assoc p f _

theorem parseEnum_atVersion (n : XmlNode) :
    (l.atVersion v).parseEnum n = ((l.atVersion (-1)).parseEnum n).map (·.atVersion v) := by
  unfold parseEnum
  cases n.getProp "name" with
  | none => rfl
  | some sName => cases parseEnumValues [] n.children <;> rfl

theorem parseDefinition_atVersion (n : XmlNode) :
    (l.atVersion v).parseDefinition n =
      ((l.atVersion (-1)).parseDefinition n).map (·.atVersion v) := by
  have hlookup : (l.atVersion v).lookupDefinition = (l.atVersion (-1)).lookupDefinition := rfl
  unfold parseDefinition
  rw [hlookup]
  cases n.getProp "name" with
  | none => rfl
  | some sName =>
      simp only [Option.bind_eq_bind, Option.bind_some]
      cases (guard ((l.atVersion (-1)).lookupDefinition sName).isNone : Option Unit) with
      | none => rfl
      | some _ => cases n.getProp "value" <;> rfl

theorem parseStruct_prune (attributes : List (String × String)) (children : List XmlNode) :
    (l.atVersion v).parseStruct (.element "struct" attributes children) =
      relabel v ((l.atVersion (-1)).parseStruct
        ((XmlNode.element "struct" attributes children).prune v)) := by
  rw [XmlNode.prune_of_ne_filter (by decide)]
  unfold parseStruct
  have hname : (XmlNode.element "struct" attributes (XmlNode.pruneNodes v children)).getProp
      "name" = (XmlNode.element "struct" attributes children).getProp "name" := rfl
  rw [hname]
  cases (XmlNode.element "struct" attributes children).getProp "name" with
  | none => rfl
  | some sName =>
      simp only [relabel_bind, XmlNode.children, parseNode_prune fun n _ => prunesTo l v n]
      refine Alloc.bind_congr ?_
      cases ((l.atVersion (-1)).parseNode false (some ⟨sName, id⟩) ⟨[], []⟩
        (XmlNode.pruneNodes v children)).result <;> rfl

theorem parsePacket_prune (attributes : List (String × String)) (children : List XmlNode) :
    (l.atVersion v).parsePacket (.element "packet" attributes children) =
      relabel v ((l.atVersion (-1)).parsePacket
        ((XmlNode.element "packet" attributes children).prune v)) := by
  rw [XmlNode.prune_of_ne_filter (by decide)]
  unfold parsePacket
  have hprop (name : String) : (XmlNode.element "packet" attributes
      (XmlNode.pruneNodes v children)).getProp name =
        (XmlNode.element "packet" attributes children).getProp name := rfl
  simp only [finishPacket, parseSource, hprop]
  cases (XmlNode.element "packet" attributes children).getProp "name" with
  | none => rfl
  | some sName =>
      simp only [relabel_bind, XmlNode.children, parseNode_prune fun n _ => prunesTo l v n]
      refine Alloc.bind_congr ?_
      cases ((l.atVersion (-1)).parseNode true none ⟨[], []⟩
          (XmlNode.pruneNodes v children)).result with
      | none => rfl
      | some b =>
          refine congrArg Alloc.done ?_
          rw [Option.map_map]
          rfl

theorem parseElement_prune (l : Loader) (v : Int) (n : XmlNode) :
    (l.atVersion v).parseElement n =
      relabel v ((l.atVersion (-1)).parseElement (n.pruneElement v)) := by
  unfold parseElement XmlNode.pruneElement
  cases n with
  | other => rfl
  | element tag attributes children =>
      by_cases hstruct : tag = "struct"
      · subst hstruct
        exact parseStruct_prune attributes children
      by_cases hpacket : tag = "packet"
      · subst hpacket
        exact parsePacket_prune attributes children
      rw [if_neg fun h => h.elim (fun h => hstruct (Option.some.inj h))
        fun h => hpacket (Option.some.inj h)]
      simp only [XmlNode.tag]
      split
      next h => exact congrArg Alloc.done (parseEnum_atVersion _)
      next h => exact absurd (Option.some.inj h) hstruct
      next h => exact absurd (Option.some.inj h) hpacket
      next h => exact congrArg Alloc.done (parseDefinition_atVersion _)
      next h => rfl

/-- What has been loaded is for the same version. -/
theorem version_of_parseElement {n : XmlNode} {l' : Loader}
    (h : (l.parseElement n).result = some l') : l'.version = l.version := by
  have hself : l.atVersion l.version = l := rfl
  rw [← hself, parseElement_prune, relabel, Alloc.result_bind, Alloc.result_pure] at h
  obtain ⟨l'', -, rfl⟩ := Option.map_eq_some_iff.1 h
  rfl

/-- The document without the filters for later versions in its structs and packets. -/
def prune (v : Int) (nodes : List XmlNode) : List XmlNode := nodes.map (·.pruneElement v)

theorem parseElements_prune (l : Loader) (v : Int) (nodes : List XmlNode) :
    (l.atVersion v).parseElements nodes =
      relabel v ((l.atVersion (-1)).parseElements (prune v nodes)) := by
  induction nodes generalizing l with
  | nil => rfl
  | cons n ns ih =>
      have helement : (n.pruneElement v).isElement = n.isElement := by
        unfold XmlNode.pruneElement
        split
        next _ => exact n.isElement_prune
        next _ => rfl
      rw [prune, List.map_cons, parseElements, parseElements, helement]
      by_cases hn : n.isElement
      · rw [if_pos hn, if_pos hn, relabel_bind, parseElement_prune, relabel, Alloc.bind_assoc]
        refine Alloc.bind_congr ?_
        cases hr : ((l.atVersion (-1)).parseElement (n.pruneElement v)).result with
        | none => rfl
        | some l' =>
            have hversion : l'.atVersion (-1) = l' := by
              have hsame := version_of_parseElement hr
              cases l'
              cases hsame
              rfl
            have hrest := ih l'
            rw [hversion] at hrest
            exact hrest
      · rw [if_neg hn, if_neg hn]
        exact ih l

end Loader

/-! ## Versions that no filter tells apart -/

namespace XmlNode

mutual

/-- The versions of the filters in a node. -/
def filters : XmlNode → List Int
  | .other => []
  | .element tag attributes children =>
      (XmlNode.element tag attributes children).filterVersion.toList ++ filtersOf children

def filtersOf : List XmlNode → List Int
  | [] => []
  | n :: ns => n.filters ++ filtersOf ns

end

variable {v v' : Int}

/-- The two versions are on the same side of all of these. -/
def SameFor (v v' : Int) (ws : List Int) : Prop := ∀ w ∈ ws, Counts v w ↔ Counts v' w

theorem isLater_congr {n : XmlNode} (h : SameFor v v' n.filters) : n.IsLater v ↔ n.IsLater v' := by
  cases n with
  | other => exact exists_congr fun w => and_congr_right fun hw => by cases hw
  | element tag attributes children =>
      have hfilter : ∀ w ∈ (XmlNode.element tag attributes children).filterVersion,
          Counts v w ↔ Counts v' w := fun w hw =>
        h w (List.mem_append_left _ (Option.mem_toList.2 hw))
      exact exists_congr fun w => and_congr_right fun hw => not_congr (hfilter w hw)

theorem pruneFiltered_congr {ns : List XmlNode}
    (hns : ∀ n ∈ ns, SameFor v v' n.filters → n.prune v = n.prune v')
    (h : SameFor v v' (filtersOf ns)) : pruneFiltered v ns = pruneFiltered v' ns := by
  induction ns with
  | nil => rfl
  | cons n ns ih =>
      obtain ⟨hhead, htail⟩ := List.forall_mem_append.1 h
      obtain ⟨hn, hns⟩ := List.forall_mem_cons.1 hns
      rw [pruneFiltered, pruneFiltered, hn hhead, ih hns htail]

theorem pruneNodes_congr {ns : List XmlNode}
    (hns : ∀ n ∈ ns, SameFor v v' n.filters → n.prune v = n.prune v')
    (h : SameFor v v' (filtersOf ns)) : pruneNodes v ns = pruneNodes v' ns := by
  induction ns with
  | nil => rfl
  | cons n ns ih =>
      obtain ⟨hhead, htail⟩ := List.forall_mem_append.1 h
      obtain ⟨hn, hns⟩ := List.forall_mem_cons.1 hns
      rw [pruneNodes, pruneNodes, ih hns htail, hn hhead]
      by_cases hlater : n.IsLater v
      · rw [if_pos hlater, if_pos ((isLater_congr hhead).1 hlater)]
      · rw [if_neg hlater, if_neg fun hlater' => hlater ((isLater_congr hhead).2 hlater')]

theorem prune_congr {n : XmlNode} (h : SameFor v v' n.filters) : n.prune v = n.prune v' := by
  induction n using XmlNode.induction with
  | hElement tag attributes children ih =>
      obtain ⟨-, hchildren⟩ := List.forall_mem_append.1 h
      rw [prune, prune, pruneFiltered_congr ih hchildren, pruneNodes_congr ih hchildren]
  | hOther => rfl

end XmlNode

namespace Loader

variable {l : Loader} {v v' : Int}

theorem prune_congr {nodes : List XmlNode}
    (h : XmlNode.SameFor v v' (XmlNode.filtersOf nodes)) : prune v nodes = prune v' nodes := by
  induction nodes with
  | nil => rfl
  | cons n ns ih =>
      obtain ⟨hhead, htail⟩ := List.forall_mem_append.1 h
      have hn : n.pruneElement v = n.pruneElement v' := by
        rw [XmlNode.pruneElement, XmlNode.pruneElement, XmlNode.prune_congr hhead]
      have hns : ns.map (·.pruneElement v) = ns.map (·.pruneElement v') := ih htail
      rw [prune, prune, List.map_cons, List.map_cons, hn, hns]

theorem relabel_relabel (p : Alloc (Option Loader)) : relabel v (relabel v' p) = relabel v p := by
  rw [relabel, relabel, Alloc.bind_assoc]
  refine Alloc.bind_congr ?_
  cases p.result <;> rfl

/-- What `Load` returns does not depend on the label. -/
theorem run_relabel (grants : Request → Bool) (p : Alloc (Option Loader)) :
    ((relabel v p).run grants).map Option.isSome = (p.run grants).map Option.isSome := by
  rw [relabel, Alloc.run_bind]
  cases p.run grants with
  | none => rfl
  | some r => cases r <;> rfl

theorem loads_congr {grants : Request → Bool} {pDoc pDoc' : Option (List XmlNode)}
    (h : l.load v pDoc = relabel v (l.load v' pDoc')) :
    l.loads grants v pDoc = l.loads grants v' pDoc' := by
  have hrun := congrArg (fun p => (p.run grants).map Option.isSome) h
  simp only [run_relabel] at hrun
  unfold loads
  cases hleft : (l.load v pDoc).run grants <;> cases hright : (l.load v' pDoc').run grants <;>
    simp_all

theorem load_prune (l : Loader) (v : Int) (pDoc : Option (List XmlNode)) :
    l.load v pDoc = relabel v (l.load (-1) (pDoc.map (prune v))) := by
  cases pDoc with
  | none => rfl
  | some nodes => exact parseElements_prune l v nodes

/-- Loading a document for a version is loading, without one, what is left when the filters for
later versions are taken out of it: with the same requests and the same result, but for the version
itself. And two versions that are on the same side of all filters come to the same. -/
theorem load_version (l : Loader) (v : Int) (pDoc : Option (List XmlNode)) :
    (l.load v pDoc = relabel v (l.load (-1) (pDoc.map (prune v))) ∧
      ∀ grants, l.loads grants v pDoc = l.loads grants (-1) (pDoc.map (prune v))) ∧
    ∀ v', (∀ nodes ∈ pDoc, XmlNode.SameFor v v' (XmlNode.filtersOf nodes)) →
      l.load v pDoc = relabel v (l.load v' pDoc) ∧
        ∀ grants, l.loads grants v pDoc = l.loads grants v' pDoc := by
  refine ⟨⟨load_prune l v pDoc, fun grants => loads_congr (load_prune l v pDoc)⟩,
    fun v' hsame => ?_⟩
  have hprune : pDoc.map (prune v) = pDoc.map (prune v') := by
    cases pDoc with
    | none => rfl
    | some nodes => exact congrArg some (prune_congr (hsame nodes rfl))
  have hload : l.load v pDoc = relabel v (l.load v' pDoc) := by
    rw [load_prune l v' pDoc, relabel_relabel, ← hprune, load_prune l v pDoc]
  exact ⟨hload, fun grants => loads_congr hload⟩

/-- A struct with a field that it has from version 3 on. -/
def filtered : List XmlNode :=
  [.element "struct" [("name", "position")]
    [.element "field" [("name", "x"), ("type", "float")] [],
      .element "filter" [("version", "3")] [
        .element "field" [("name", "height"), ("type", "float")] []]]]

theorem load_version_filtered (l : Loader) :
    l.load 5 (some filtered) = relabel 5 (l.load (-1) (some filtered)) ∧
      prune 2 filtered = [.element "struct" [("name", "position")]
        [.element "field" [("name", "x"), ("type", "float")] []]] := by
  have hsame : XmlNode.SameFor 5 (-1) (XmlNode.filtersOf filtered) := by
    unfold XmlNode.SameFor
    decide +kernel
  refine ⟨((load_version l 5 (some filtered)).2 (-1) fun nodes hnodes => ?_).1, ?_⟩
  · cases hnodes
    exact hsame
  · rfl

end Loader

end ProtocolDefinition

end OpenRom
