import OpenRom.Protocol.MatchCondition
import OpenRom.Protocol.Packing
import OpenRom.Protocol.Soundness

/-!
# The leaves that are filled

A call of `Fill` seen from the built-in types at the leaves of its type: which of them it fills, and
with what (`leavesOf`). A type of constant size without transformations takes all of its size if and
only if all of its leaves are filled, although a field that fails stops no more than its own struct
(`FieldType.sizeSound`).
-/

set_option autoImplicit false

namespace OpenRom

namespace ProtocolDefinition

mutual

/-- The leaves of a type that is not filled. -/
def FieldType.unfilled : FieldType → List (Option Builtin)
  | .builtin _ => [none]
  | .struct _ actions => unfilledOf actions

def unfilledOf : List Action → List (Option Builtin)
  | [] => []
  | .field _ type _ :: as => type.unfilled ++ unfilledOf as
  | .transformationAction _ :: as => unfilledOf as
  | .annotationAction _ :: as => unfilledOf as

end

mutual

/-- The leaves of a type, in order: the objects as `Fill` leaves them, where it fills them. -/
def FieldType.leaves (s : DecodeState) : FieldType → List (Option Builtin)
  | .builtin object => [if (object.fill s).1 ≤ 0 then none else some (object.fill s).2]
  | .struct _ actions => leavesOf s actions

/-- What is behind the action that the loop of `Struct::Fill` stops at is not filled. -/
def leavesOf (s : DecodeState) : List Action → List (Option Builtin)
  | [] => []
  | .field _ type _ :: as =>
      type.leaves s ++
        if (type.fill s).1 ≤ 0 then unfilledOf as else leavesOf (s.advance (type.fill s).1) as
  | .transformationAction t :: as =>
      match t.process s with
      | none => unfilledOf as
      | some s' => leavesOf s' as
  | .annotationAction _ :: as => leavesOf s as

end

theorem leavesOf_field (s : DecodeState) (name : String) (type : FieldType) (offset : UInt32)
    (as : List Action) :
    leavesOf s (.field name type offset :: as) =
      type.leaves s ++
        if (type.fill s).1 ≤ 0 then unfilledOf as
        else leavesOf (s.advance (type.fill s).1) as := rfl

/-- What the fields of a struct take. -/
def taken (s : DecodeState) (as : List Action) : Int :=
  s.dataLeft - (processActions s as).1.dataLeft

theorem taken_field (s : DecodeState) (name : String) (type : FieldType) (offset : UInt32)
    (as : List Action) :
    taken s (.field name type offset :: as) =
      if (type.fill s).1 ≤ 0 then 0
      else (type.fill s).1 + taken (s.advance (type.fill s).1) as := by
  rw [taken, processActions_field]
  split
  · exact Int.sub_self _
  · have hadvance : (s.advance (type.fill s).1).dataLeft = s.dataLeft - (type.fill s).1 := rfl
    rw [taken, hadvance]
    dsimp only
    omega

/-! ## Constant sizes -/

/-- What `Fill` takes is at most the size, and all of it only when all of the leaves are filled. -/
def FieldType.SizeSound (type : FieldType) : Prop :=
  ∀ s : DecodeState, (type.fill s).1 ≤ type.constantSize ∧
    ((type.fill s).1 = type.constantSize ↔ ∀ leaf ∈ type.leaves s, leaf.isSome)

theorem UnsignedType.fill_of_constantSize {t : UnsignedType} (h : 0 < t.constantSize)
    (value : List Nat) (s : DecodeState) :
    (t.fill value s).1 = t.constantSize ∨ (t.fill value s).1 ≤ 0 := by
  obtain ⟨hcount, hsize⟩ := count_of_constantSize h
  have hw : (0 : Int) < t.width.bytes := Int.natCast_pos.2 t.width.bytes_pos
  unfold fill
  by_cases hmin : t.width.bytes * t.minCount > s.dataLeft
  · rw [if_pos hmin]
    exact Or.inr (Int.le_refl 0)
  · -- there are as many values as the count says
    have hroom : (t.count : Int) * t.width.bytes ≤ s.dataLeft := by
      rw [hcount, Int.mul_comm]
      exact Int.not_lt.1 hmin
    have hleft : 0 ≤ s.dataLeft := Int.le_trans (hsize ▸ Int.le_of_lt h) hroom
    have hle : (t.count : Int) ≤ s.dataLeft.tdiv t.width.bytes := by
      rw [Int.tdiv_eq_ediv_of_nonneg hleft]
      exact (Int.le_ediv_iff_mul_le hw).2 hroom
    have hnum : min (s.dataLeft.tdiv t.width.bytes) t.count = t.count := Int.min_eq_right hle
    have hfull : t.width.bytes * min (s.dataLeft.tdiv t.width.bytes) t.count = t.constantSize := by
      rw [hnum, hsize, Int.mul_comm]
    rw [if_neg hmin]
    dsimp only
    split
    · exact Or.inl hfull
    · split
      · exact Or.inr (show (-1 : Int) ≤ 0 by decide)
      · exact Or.inl hfull

theorem fillString_whole {length : Nat} {minLength : Int} (h : minLength = length)
    (data : List Nat) (s : DecodeState) :
    (fillString length minLength data s).1 = length ∨
      (fillString length minLength data s).1 ≤ 0 := by
  unfold fillString
  by_cases hleft : s.dataLeft < minLength
  · rw [if_pos hleft]
    exact Or.inr (Int.le_refl 0)
  · rw [if_neg hleft]
    exact Or.inl (Int.min_eq_left (by omega))

theorem fillNumber_whole (size count : Nat) (number : List Nat) (s : DecodeState) :
    (fillNumber size count number s).1 = (count * size : Nat) ∨
      (fillNumber size count number s).1 ≤ 0 := by
  unfold fillNumber
  split
  · exact Or.inr (Int.le_refl 0)
  · exact Or.inl rfl

theorem fillLength_whole (value : List Nat) (s : DecodeState) :
    (fillLength value s).1 = 4 ∨ (fillLength value s).1 ≤ 0 := by
  unfold fillLength
  split
  · exact Or.inr (Int.le_refl 0)
  · dsimp only
    split
    · exact Or.inr (Int.le_refl 0)
    · exact Or.inl rfl

theorem fillUnixtime_whole (value : List Nat) (s : DecodeState) :
    (fillUnixtime value s).1 = 4 ∨ (fillUnixtime value s).1 ≤ 0 := by
  unfold fillUnixtime
  split
  · exact Or.inr (Int.le_refl 0)
  · exact Or.inl rfl

/-- A built-in type of constant size is filled whole or not. -/
theorem BuiltinType.fill_of_constantSize {type : BuiltinType} (h : 0 < type.constantSize)
    (cells : List Nat) (s : DecodeState) :
    (type.fill cells s).1 = type.constantSize ∨ (type.fill cells s).1 ≤ 0 := by
  cases type with
  | unsigned t | signed t => exact t.fill_of_constantSize h cells s
  | string n minLength =>
      obtain ⟨hmin, hsize⟩ := length_of_constantSize_string h
      rw [hsize]
      exact fillString_whole hmin cells s
  | float count displayCount => exact fillNumber_whole 4 count cells s
  | double count displayCount => exact fillNumber_whole 8 count cells s
  | length => exact fillLength_whole cells s
  | unixtime => exact fillUnixtime_whole cells s

theorem FieldType.sizeSound_builtin {object : Builtin}
    (h : 0 < (FieldType.builtin object).constantSize) : (FieldType.builtin object).SizeSound := by
  intro s
  have hfill := BuiltinType.fill_of_constantSize h object.cells s
  have hleaves : (FieldType.builtin object).leaves s =
    [if (object.fill s).1 ≤ 0 then none else some (object.fill s).2] := rfl
  have hsize : (FieldType.builtin object).constantSize = object.type.constantSize := rfl
  have hcount : ((FieldType.builtin object).fill s).1 = (object.type.fill object.cells s).1 := rfl
  have hobject : (object.fill s).1 = (object.type.fill object.cells s).1 := rfl
  rw [hsize] at h ⊢
  rw [hcount, hleaves, hobject]
  simp only [List.mem_singleton, forall_eq]
  rcases hfill with hfull | hnone
  · rw [if_neg (by omega)]
    exact ⟨by omega, iff_of_true hfull rfl⟩
  · rw [if_pos hnone]
    exact ⟨by omega, iff_of_false (by omega) nofun⟩

/-- The sum over the fields of a struct. -/
theorem taken_sizeSound {as : List Action} (hplain : PlainActions as) (hsized : Sized as)
    (s : DecodeState) :
    taken s as ≤ sizeofMembers as ∧
      (taken s as = sizeofMembers as ↔ ∀ leaf ∈ leavesOf s as, leaf.isSome) := by
  -- a field, from what is known of its type
  have hfield : ∀ (name : String) (type : FieldType) (offset : UInt32) (as : List Action),
      0 < type.constantSize → type.SizeSound →
      (∀ s, taken s as ≤ sizeofMembers as ∧
        (taken s as = sizeofMembers as ↔ ∀ leaf ∈ leavesOf s as, leaf.isSome)) → ∀ s,
      taken s (.field name type offset :: as) ≤ sizeofMembers (.field name type offset :: as) ∧
        (taken s (.field name type offset :: as) =
            sizeofMembers (.field name type offset :: as) ↔
          ∀ leaf ∈ leavesOf s (.field name type offset :: as), leaf.isSome) := by
    intro name type offset as hconst htype ih s
    obtain ⟨hle, hiff⟩ := htype s
    have hsizeof := FieldType.sizeof_of_constantSize hconst
    rw [taken_field, sizeofMembers_field, leavesOf_field]
    simp only [List.mem_append, or_imp, forall_and, ← hiff]
    by_cases hnone : (type.fill s).1 ≤ 0
    · -- nothing is taken, and the field has missed its size
      rw [if_pos hnone, if_pos hnone]
      exact ⟨by omega, iff_of_false (by omega) fun hall => by omega⟩
    · obtain ⟨hrestLe, hrestIff⟩ := ih (s.advance (type.fill s).1)
      rw [if_neg hnone, if_neg hnone, ← hrestIff]
      exact ⟨by omega, by omega⟩
  induction as using actionsRec generalizing s with
  | nil => exact ⟨Int.le_of_eq (Int.sub_self _), iff_of_true (Int.sub_self _) nofun⟩
  | builtin name object offset as ih =>
      exact hfield name _ offset as hsized.1 (FieldType.sizeSound_builtin hsized.1)
        (ih hplain.2 hsized.2) s
  | struct name typeName inner offset as ihInner ih =>
      refine hfield name _ offset as hsized.1 (fun s => ?_) (ih hplain.2 hsized.2) s
      rw [← FieldType.sizeof_of_constantSize hsized.1]
      exact ihInner hplain.1 (sized_of_sizeFrom hplain.1 hsized.1) s
  | transformationAction t as ih => exact hplain.elim
  | annotationAction name as ih => exact ih hplain hsized s

theorem FieldType.sizeSound {type : FieldType} (hplain : type.Plain)
    (hconst : 0 < type.constantSize) : type.SizeSound := by
  cases type with
  | builtin object => exact sizeSound_builtin hconst
  | struct name inner =>
      intro s
      rw [← sizeof_of_constantSize hconst]
      exact taken_sizeSound hplain (sized_of_sizeFrom hplain hconst) s

/-! ## Fixed values -/

theorem not_mem_unfilledOf {as : List Action} {object : Builtin} :
    some object ∉ unfilledOf as := by
  induction as using actionsRec with
  | nil => exact nofun
  | builtin name leaf offset as ih =>
      intro hmem
      rcases List.mem_append.1 hmem with hmem | hmem
      · cases List.mem_singleton.1 hmem
      · exact ih hmem
  | struct name typeName inner offset as ihInner ih =>
      intro hmem
      rcases List.mem_append.1 hmem with hmem | hmem
      · exact ihInner hmem
      · exact ih hmem
  | transformationAction t as ih => exact ih
  | annotationAction name as ih => exact ih

/-- A leaf that is filled has its fixed value, wherever it is. -/
theorem matches_of_mem {as : List Action} {s : DecodeState} {object : Builtin}
    (h : some object ∈ leavesOf s as) : object.Matches := by
  -- behind a field nothing is filled, or what the rest of the loop fills
  have hrest : ∀ {s : DecodeState} {type : FieldType} {as : List Action},
      (∀ {s}, some object ∈ leavesOf s as → object.Matches) →
      (some object ∈ if (type.fill s).1 ≤ 0 then unfilledOf as
        else leavesOf (s.advance (type.fill s).1) as) → object.Matches := by
    intro s type as ih hmem
    split at hmem
    · exact absurd hmem not_mem_unfilledOf
    · exact ih hmem
  induction as using actionsRec generalizing s with
  | nil => cases h
  | builtin name leaf offset as ih =>
      rcases List.mem_append.1 h with hmem | hmem
      · by_cases hnone : (leaf.fill s).1 ≤ 0
        · have hleaf := List.mem_singleton.1 hmem
          rw [if_pos hnone] at hleaf
          cases hleaf
        · have hleaf := List.mem_singleton.1 hmem
          rw [if_neg hnone] at hleaf
          rw [Option.some.inj hleaf]
          exact Builtin.matches_fill (Int.not_le.1 hnone)
      · exact hrest ih hmem
  | struct name typeName inner offset as ihInner ih =>
      rcases List.mem_append.1 h with hmem | hmem
      · exact ihInner hmem
      · exact hrest ih hmem
  | transformationAction t as ih =>
      change some object ∈ (match t.process s with
        | none => unfilledOf as
        | some s' => leavesOf s' as) at h
      split at h
      · exact absurd h not_mem_unfilledOf
      · exact ih h
  | annotationAction name as ih => exact ih h

/-- The header of a packet with subpackets is filled whole, or the packet is rejected. -/
theorem Packet.header_of_fill {p : Packet} (hsub : p.subpackets ≠ [])
    (hplain : PlainActions p.actions) {s : DecodeState} (h : (p.fill s).1 ≠ 0) :
    ∀ leaf ∈ leavesOf s p.actions, ∃ object, leaf = some object ∧ object.Matches := by
  have hne := p.numPacketBytes_ne hsub
  have hsize : p.headerSize s = p.numPacketBytes := by
    refine Decidable.byContradiction fun hother => ?_
    rw [fill_of_rejected (Or.inr ⟨hsub, hother⟩)] at h
    exact h rfl
  rw [p.numPacketBytes_eq] at hne hsize
  have hsum := sizeFrom_eq hne
  have hpos : 0 < sizeFrom 0 p.actions := by omega
  have hsized := sized_of_sizeFrom hplain hpos
  have htaken : taken s p.actions = sizeofMembers p.actions := by
    rw [← Int.zero_add (sizeofMembers p.actions : Int), ← hsum]
    exact hsize
  intro leaf hmem
  have hsome := (taken_sizeSound hplain hsized s).2.1 htaken leaf hmem
  obtain ⟨object, rfl⟩ := Option.isSome_iff_exists.1 hsome
  exact ⟨object, rfl, matches_of_mem hmem⟩

/-- A type of constant size without transformations takes that size if and only if all of its leaves
are filled, and a packet with subpackets, and without transformations in the structs of its header,
is accepted only when that is filled and its fixed values match. The sizes are those of the code
when they can be counted in an `int`. -/
theorem constantSize_sound :
    (∀ (type : FieldType) (s : DecodeState), type.Plain → 0 < type.constantSize →
      type.constantSize < 2 ^ 31 →
        (type.fill s).1 ≤ type.constantSize ∧
          ((type.fill s).1 = type.constantSize ↔ ∀ leaf ∈ type.leaves s, leaf.isSome)) ∧
    ∀ (p : Packet) (s : DecodeState), p.subpackets ≠ [] → PlainActions p.actions →
      p.numPacketBytes < 2 ^ 31 → (p.fill s).1 ≠ 0 →
        ∀ leaf ∈ leavesOf s p.actions, ∃ object, leaf = some object ∧ object.Matches :=
  ⟨fun _ s hplain hconst _ => FieldType.sizeSound hplain hconst s,
    fun _ _ hsub hplain _ h => Packet.header_of_fill hsub hplain h⟩

/-- A header that is filled, and one of its types. -/
theorem constantSize_sound_message :
    (((u32 (some 1)).fill (.start 0 [1, 3, 0, 0])).1 ≤ 4 ∧
      (((u32 (some 1)).fill (.start 0 [1, 3, 0, 0])).1 = 4 ↔
        ∀ leaf ∈ (u32 (some 1)).leaves (.start 0 [1, 3, 0, 0]), leaf.isSome)) ∧
    ∀ leaf ∈ leavesOf (.start 0 [1, 3, 0, 0, 0, 8, 97, 98]) messagePacket.actions,
      ∃ object, leaf = some object ∧ object.Matches :=
  ⟨constantSize_sound.1 (u32 (some 1)) (.start 0 [1, 3, 0, 0]) trivial (by decide) (by decide),
    constantSize_sound.2 messagePacket _ nofun ⟨trivial, trivial, trivial⟩ (by decide) (by decide)⟩

/-- A packet whose header is a struct with a transformation and a fixed value. -/
def unpackedHeader : Packet where
  name := "unpacked"
  actions := [.field "header" (.struct "header"
    [.transformationAction (romPacking), .field "kind" (u32 (some 5)) 0]) 0]
  subpackets := [⟨"empty", []⟩]
  numPacketBytes := 4
  lastSubpacket := none
  isField := List.forall_mem_cons.2 ⟨trivial, nofun⟩
  numPacketBytes_eq := rfl
  numPacketBytes_ne _ := by decide

/-- Eight bytes are unpacked to four. The struct takes the difference, which happens to be the size
of the header. -/
theorem unpacked_header_accepted :
    ¬ ∀ (p : Packet) (s : DecodeState), p.subpackets ≠ [] → p.numPacketBytes < 2 ^ 31 →
      (p.fill s).1 ≠ 0 →
        ∀ leaf ∈ leavesOf s p.actions, ∃ object, leaf = some object ∧ object.Matches := by
  intro hall
  have hfill : (unpackedHeader.fill (.start 0 [0x15, 1, 2, 3, 4, 0x11, 0, 0])).1 ≠ 0 := by
    decide +kernel
  have hleaves : (leavesOf (.start 0 [0x15, 1, 2, 3, 4, 0x11, 0, 0]) unpackedHeader.actions).all
      Option.isSome = false := by
    decide +kernel
  obtain ⟨leaf, hmem, hnone⟩ := List.all_eq_false.1 hleaves
  obtain ⟨object, rfl, -⟩ := hall unpackedHeader _ nofun (by decide) hfill leaf hmem
  exact hnone rfl

end ProtocolDefinition

end OpenRom
