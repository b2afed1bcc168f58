import OpenRom.Library.Region
import OpenRom.Protocol.Agreement

/-!
# Members of the emitted structs

The members that `GenerateFields` emits for the fields of a packet and of a subpacket, one behind
the other in a packed struct. The comparisons that the generator emits are those of the members
that it initializes (`mem_comparisons_iff`), and the length that the parser looks at is one of the
members that are filled with the length (`exists_of_lengthOffset`).
-/

set_option autoImplicit false

namespace OpenRom

namespace ProtocolDefinition

/-- A member of an emitted struct, at an offset behind the header. -/
structure Member where
  offset : Nat
  type : FieldType

/-- `GenerateFields`, for members from an offset on. -/
def generateFields (offset : Nat) : List Action → List Member
  | [] => []
  | .field _ type _ :: as => ⟨offset, type⟩ :: generateFields (offset + type.sizeof) as
  | .transformationAction _ :: as => generateFields offset as
  | .annotationAction _ :: as => generateFields offset as

/-- The name of the type is `length`. -/
def FieldType.isLength : FieldType → Bool
  | .builtin ⟨.length, _, _⟩ => true
  | _ => false

/-- The members of the struct of a subpacket: those of the packet, and its own. -/
def Packet.membersWith (p : Packet) (sp : Subpacket) : List Member :=
  generateFields 0 p.actions ++ generateFields (sizeofMembers p.actions) sp.actions

/-! ## Where the members are -/

theorem generateFields_bounds {as : List Action} {offset : Nat} :
    ∀ m ∈ generateFields offset as,
      offset ≤ m.offset ∧ m.offset + m.type.sizeof ≤ offset + sizeofMembers as := by
  induction as generalizing offset with
  | nil => exact nofun
  | cons a as ih =>
      cases a with
      | field name type dataOffset =>
          rw [sizeofMembers_field]
          refine List.forall_mem_cons.2 ⟨⟨Nat.le_refl _, by dsimp only; omega⟩, fun m hm => ?_⟩
          obtain ⟨hlow, hhigh⟩ := ih m hm
          exact ⟨by omega, by omega⟩
      | transformationAction t => exact ih
      | annotationAction name => exact ih

theorem generateFields_pairwise {as : List Action} {offset : Nat} :
    (generateFields offset as).Pairwise fun m m' => m.offset + m.type.sizeof ≤ m'.offset := by
  induction as generalizing offset with
  | nil => exact .nil
  | cons a as ih =>
      cases a with
      | field name type dataOffset =>
          exact List.pairwise_cons.2 ⟨fun m hm => (generateFields_bounds m hm).1, ih⟩
      | transformationAction t => exact ih
      | annotationAction name => exact ih

theorem generateFields_append (as bs : List Action) (offset : Nat) :
    generateFields offset (as ++ bs) =
      generateFields offset as ++ generateFields (offset + sizeofMembers as) bs := by
  induction as generalizing offset with
  | nil => rfl
  | cons a as ih =>
      cases a with
      | field name type dataOffset =>
          rw [List.cons_append, generateFields, ih, generateFields, sizeofMembers_field,
            Nat.add_assoc]
          rfl
      | transformationAction t => exact ih offset
      | annotationAction name => exact ih offset

theorem sizeofMembers_append (as bs : List Action) :
    sizeofMembers (as ++ bs) = sizeofMembers as + sizeofMembers bs := by
  induction as with
  | nil => exact (Nat.zero_add _).symm
  | cons a as ih =>
      cases a with
      | field name type offset =>
          rw [List.cons_append, sizeofMembers_field, ih, sizeofMembers_field, Nat.add_assoc]
      | transformationAction t => exact ih
      | annotationAction name => exact ih

theorem generateFields_sized {as : List Action} (h : Sized as) {offset : Nat} :
    ∀ m ∈ generateFields offset as, 0 < m.type.constantSize := by
  induction as generalizing offset with
  | nil => exact nofun
  | cons a as ih =>
      cases a with
      | field name type dataOffset => exact List.forall_mem_cons.2 ⟨h.1, ih h.2⟩
      | transformationAction t => exact h.elim
      | annotationAction name => exact ih h

theorem Packet.membersWith_bounds {p : Packet} {sp : Subpacket} :
    ∀ m ∈ p.membersWith sp,
      m.offset + m.type.sizeof ≤ sizeofMembers p.actions + sizeofMembers sp.actions := by
  intro m hm
  rcases List.mem_append.1 hm with hm | hm
  · have hbound := (generateFields_bounds m hm).2
    omega
  · exact (generateFields_bounds m hm).2

theorem Packet.membersWith_pairwise {p : Packet} {sp : Subpacket} :
    (p.membersWith sp).Pairwise fun m m' => m.offset + m.type.sizeof ≤ m'.offset := by
  refine List.pairwise_append.2 ⟨generateFields_pairwise, generateFields_pairwise, ?_⟩
  intro m hm m' hm'
  have hbound := (generateFields_bounds m hm).2
  have hlow := (generateFields_bounds m' hm').1
  omega

/-- Members of constant size that are not the same do not overlap. -/
theorem Packet.membersWith_apart {p : Packet} {sp : Subpacket} {m m' : Member}
    (hm : m ∈ p.membersWith sp) (hm' : m' ∈ p.membersWith sp) (hne : m ≠ m') :
    List.Apart m.offset m.type.sizeof m'.offset m'.type.sizeof :=
  List.apart_of_mem membersWith_pairwise hm hm' hne

/-! ## What the generator finds -/

/-- The comparison of the member with its fixed value. -/
def Member.Compares (m : Member) (literal : Literal) (c : Comparison) : Prop :=
  m.type.generateCInitialize = some [literal] ∧ m.type.comparison m.offset literal = some c

theorem Member.Compares.shape {m : Member} {literal : Literal} {c : Comparison}
    (h : m.Compares literal c) : c.offset = m.offset ∧ c.literal = literal := by
  obtain ⟨-, hc⟩ := h
  obtain ⟨offset, type⟩ := m
  cases type with
  | struct => cases hc
  | builtin object =>
      obtain ⟨type, cells, hcells⟩ := object
      cases type with
      | unsigned t =>
          cases hc
          exact ⟨rfl, rfl⟩
      | signed t =>
          cases hc
          exact ⟨rfl, rfl⟩
      | string => cases hc
      | float => cases hc
      | double => cases hc
      | length => cases hc
      | unixtime => cases hc

/-- The generator compares the members that it initializes. -/
theorem mem_comparisons_iff {as : List Action} {offset : Nat} {cs : List Comparison}
    (h : generateMatchCondition offset as = some cs) (c : Comparison) :
    c ∈ cs ↔ ∃ m ∈ generateFields offset as, ∃ literal, m.Compares literal c := by
  induction as generalizing offset cs with
  | nil =>
      cases h
      exact iff_of_false List.not_mem_nil fun ⟨m, hm, _⟩ => List.not_mem_nil hm
  | cons a as ih =>
      cases a with
      | field name type dataOffset =>
          obtain ⟨rest, hrest, hcs⟩ := generateMatchCondition_field h
          simp only [generateFields, List.mem_cons, or_and_right, exists_or, exists_eq_left]
          rw [← ih hrest]
          rcases hcs with ⟨hinit, rfl⟩ | ⟨literal, c', hinit, hc', rfl⟩
          · refine (or_iff_right ?_).symm
            rintro ⟨literal, hinit', -⟩
            cases hinit.symm.trans hinit'
          · rw [List.mem_cons]
            refine or_congr_left ⟨?_, ?_⟩
            · rintro rfl
              exact ⟨literal, hinit, hc'⟩
            · rintro ⟨literal', hinit', hc⟩
              cases hinit.symm.trans hinit'
              exact Option.some.inj (hc.symm.trans hc')
      | transformationAction t => exact ih h
      | annotationAction name => exact ih h

theorem generateCInitialize_of_mem {as : List Action} {offset : Nat} {cs : List Comparison}
    (h : generateMatchCondition offset as = some cs) :
    ∀ m ∈ generateFields offset as, m.type.generateCInitialize = some [] ∨
      ∃ literal c, m.Compares literal c := by
  induction as generalizing offset cs with
  | nil => exact nofun
  | cons a as ih =>
      cases a with
      | field name type dataOffset =>
          obtain ⟨rest, hrest, hcs⟩ := generateMatchCondition_field h
          refine List.forall_mem_cons.2 ⟨?_, ih hrest⟩
          rcases hcs with ⟨hinit, -⟩ | ⟨literal, c, hinit, hc, -⟩
          · exact Or.inl hinit
          · exact Or.inr ⟨literal, c, hinit, hc⟩
      | transformationAction t => exact ih h
      | annotationAction name => exact ih h

theorem exists_of_lengthOffset {as : List Action} {offset o : Nat}
    (h : lengthOffset offset as = some o) :
    ∃ m ∈ generateFields offset as, m.offset = o ∧ m.type.isLength = true := by
  induction as generalizing offset with
  | nil => cases h
  | cons a as ih =>
      cases a with
      | field name type dataOffset =>
          have hbehind : lengthOffset (offset + type.sizeof) as = some o →
              ∃ m ∈ generateFields offset (.field name type dataOffset :: as),
                m.offset = o ∧ m.type.isLength = true := by
            intro hrest
            obtain ⟨m, hm, hfield⟩ := ih hrest
            exact ⟨m, List.mem_cons_of_mem _ hm, hfield⟩
          cases type with
          | struct => exact hbehind h
          | builtin object =>
              obtain ⟨type, cells, hcells⟩ := object
              cases type with
              | length =>
                  cases h
                  exact ⟨_, List.mem_cons_self, rfl, rfl⟩
              | unsigned => exact hbehind h
              | signed => exact hbehind h
              | string => exact hbehind h
              | float => exact hbehind h
              | double => exact hbehind h
              | unixtime => exact hbehind h
      | transformationAction t => exact ih h
      | annotationAction name => exact ih h

end ProtocolDefinition

end OpenRom
