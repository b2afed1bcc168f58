import OpenRom.Protocol.Calls
import OpenRom.Protocol.MatchCondition

/-!
# Calls of constant-size fields

Without transformations nothing but `Fill` is called, which stays inside of the bytes that are left
when the types are usable (`inside_of_plain`), as types of constant size are
(`usableOf_of_sized`). The calls of fields in front of other actions are those of the fields, and
those of the other actions from where the fields have got to (`mem_callsOf_append`).
-/

set_option autoImplicit false

namespace OpenRom

namespace ProtocolDefinition

/-! ## Usable types -/

theorem UnsignedType.least_of_constantSize {t : UnsignedType} (h : 0 < t.constantSize)
    (hlt : max t.count 1 * t.width.bytes < 2 ^ 31) :
    1 ≤ t.count ∧ 0 ≤ t.width.bytes * t.minCount ∧ t.width.bytes * t.minCount < 2 ^ 31 := by
  obtain ⟨hmin, hsize⟩ := count_of_constantSize h
  obtain ⟨hmax, hcount⟩ := sizeof_of_constantSize h
  rw [← hmin, Int.mul_comm, ← hsize, ← hmax]
  exact ⟨hcount, Int.natCast_nonneg _, by omega⟩

theorem BuiltinType.usable_of_constantSize : ∀ {type : BuiltinType}, 0 < type.constantSize →
    type.sizeof < 2 ^ 31 → type.Usable
  | unsigned _, h, hlt | signed _, h, hlt =>
      have hleast := UnsignedType.least_of_constantSize h hlt
      ⟨hleast.1, hleast.2.1, hleast.2.2⟩
  | string n minLength, h, hlt => by
      obtain ⟨hmin, hsize⟩ := length_of_constantSize_string h
      have hlt : n < 2 ^ 31 := hlt
      rw [hsize] at h
      refine ⟨Int.natCast_pos.1 h, ?_, ?_⟩
      · show 0 ≤ minLength
        omega
      · show minLength < 2 ^ 31
        omega
  | float count _, h, _ => by
      have hcount : 0 < (count : Int) * 4 := h
      refine ⟨?_, Int.le_refl 0, (by decide : (0 : Int) < 2 ^ 31)⟩
      show 1 ≤ count
      omega
  | double count _, h, _ => by
      have hcount : 0 < (count : Int) * 8 := h
      refine ⟨?_, Int.le_refl 0, (by decide : (0 : Int) < 2 ^ 31)⟩
      show 1 ≤ count
      omega
  | length, _, _ | unixtime, _, _ =>
      ⟨Nat.le_refl 1, Int.le_refl 0, (by decide : (0 : Int) < 2 ^ 31)⟩

theorem usableOf_of_sized {as : List Action} (hplain : PlainActions as) (hsized : Sized as)
    (hlt : sizeofMembers as < 2 ^ 31) : UsableOf as := by
  induction as using actionsRec with
  | nil => trivial
  | builtin name object offset as ih =>
      rw [sizeofMembers_field] at hlt
      have hsize : object.type.sizeof < 2 ^ 31 := Nat.lt_of_le_of_lt (Nat.le_add_right _ _) hlt
      exact ⟨BuiltinType.usable_of_constantSize hsized.1 hsize,
        ih hplain.2 hsized.2 (by omega)⟩
  | struct name typeName inner offset as ihInner ih =>
      rw [sizeofMembers_field] at hlt
      have hsize : sizeofMembers inner < 2 ^ 31 := Nat.lt_of_le_of_lt (Nat.le_add_right _ _) hlt
      exact ⟨ihInner hplain.1 (sized_of_sizeFrom hplain.1 hsized.1) hsize,
        ih hplain.2 hsized.2 (by omega)⟩
  | transformationAction t as ih => exact hplain.elim
  | annotationAction name as ih => exact ih hplain hsized hlt

/-! ## Calls -/

/-- No provider is called for plain fields. -/
theorem keeps_of_plain {as : List Action} (hplain : PlainActions as) (p : Place)
    (s : DecodeState) : ∀ c ∈ callsOf p s as, c.Keeps := by
  -- a field, from what is known of its type
  have hfield : ∀ (name : String) (type : FieldType) (offset : UInt32) (as : List Action),
      (∀ p s, ∀ c ∈ type.calls p s, c.Keeps) → (∀ p s, ∀ c ∈ callsOf p s as, c.Keeps) →
        ∀ p s, ∀ c ∈ callsOf p s (.field name type offset :: as), c.Keeps := by
    intro name type offset as htype hrest p s
    refine List.forall_mem_cons.2 ⟨trivial, List.forall_mem_append.2 ⟨htype p s, ?_⟩⟩
    split
    · exact List.forall_mem_nil _
    · exact hrest _ _
  induction as using actionsRec generalizing p s with
  | nil => exact List.forall_mem_nil _
  | builtin name object offset as ih =>
      refine hfield name (.builtin object) offset as (fun p s => ?_) (ih hplain.2) p s
      exact List.forall_mem_singleton.2 trivial
  | struct name typeName inner offset as ihInner ih =>
      refine hfield name _ offset as (fun p s => ?_) (ih hplain.2) p s
      exact List.forall_mem_cons.2 ⟨trivial, ihInner hplain.1 p s⟩
  | transformationAction t as ih => exact hplain.elim
  | annotationAction name as ih => exact List.forall_mem_cons.2 ⟨trivial, ih hplain p s⟩

/-- No call for plain fields of usable types leaves its memory. -/
theorem inside_of_plain {as : List Action} (hplain : PlainActions as) (husable : UsableOf as)
    {p : Place} {s : DecodeState} (hs : s.EndsAt p) : ∀ c ∈ callsOf p s as, c.Inside := by
  have hkeeps := keeps_of_plain hplain p s
  have hsound := (callsOf_sound husable hs fun c hc => (hkeeps c hc).reports).1
  exact fun c hc => Call.inside (hsound c hc) (usable_callsOf husable p s c hc) (hkeeps c hc)

/-- Behind some of the actions, the others go on with the state that these have left. -/
theorem mem_callsOf_append {as bs : List Action} {p : Place} {s : DecodeState} {c : Call}
    (h : c ∈ callsOf p s (as ++ bs)) :
    c ∈ callsOf p s as ∨ ∃ p', c ∈ callsOf p' (processActions s as).1 bs := by
  induction as generalizing p s with
  | nil => exact Or.inr ⟨p, h⟩
  | cons a as ih =>
      cases a with
      | field name type offset =>
          rw [processActions_field]
          rcases List.mem_cons.1 h with rfl | h
          · exact Or.inl List.mem_cons_self
          · rcases List.mem_append.1 h with h | h
            · exact Or.inl (List.mem_cons_of_mem _ (List.mem_append_left _ h))
            · -- a field that takes nothing ends the walk, on both sides
              by_cases hnone : (type.fill s).1 ≤ 0
              · rw [if_pos hnone] at h
                cases h
              · rw [if_neg hnone] at h ⊢
                refine (ih h).imp_left fun h => ?_
                refine List.mem_cons_of_mem _ (List.mem_append_right _ ?_)
                rwa [if_neg hnone]
      | transformationAction t =>
          rw [processActions_transformationAction]
          rcases List.mem_cons.1 h with rfl | h
          · exact Or.inl List.mem_cons_self
          · cases ht : t.process s with
            | none =>
                rw [ht] at h
                cases h
            | some s' =>
                rw [ht] at h
                refine (ih h).imp_left fun h => ?_
                refine List.mem_cons_of_mem _ ?_
                rwa [ht]
      | annotationAction name =>
          rw [processActions_annotationAction]
          rcases List.mem_cons.1 h with rfl | h
          · exact Or.inl List.mem_cons_self
          · exact (ih h).imp_left (List.mem_cons_of_mem _)

/-- The same calls from another place. -/
theorem exists_callsOf_of_place {as : List Action} {p p' : Place} {s : DecodeState} :
    ∀ c ∈ callsOf p' s as, ∃ c' ∈ callsOf p s as, c'.state = c.state ∧ c'.callee = c.callee := by
  -- a field, from what is known of its type
  have hfield : ∀ (name : String) (type : FieldType) (offset : UInt32) (as : List Action),
      (∀ p p' s, ∀ c ∈ type.calls p' s, ∃ c' ∈ type.calls p s, c'.state = c.state ∧
        c'.callee = c.callee) →
      (∀ p p' s, ∀ c ∈ callsOf p' s as, ∃ c' ∈ callsOf p s as, c'.state = c.state ∧
        c'.callee = c.callee) →
      ∀ p p' s, ∀ c ∈ callsOf p' s (.field name type offset :: as),
        ∃ c' ∈ callsOf p s (.field name type offset :: as), c'.state = c.state ∧
          c'.callee = c.callee := by
    intro name type offset as htype hrest p p' s c hc
    rcases List.mem_cons.1 hc with rfl | hc
    · exact ⟨_, List.mem_cons_self, rfl, rfl⟩
    · rcases List.mem_append.1 hc with hc | hc
      · obtain ⟨c', hc', hsame⟩ := htype p p' s c hc
        exact ⟨c', List.mem_cons_of_mem _ (List.mem_append_left _ hc'), hsame⟩
      · by_cases hnone : (type.fill s).1 ≤ 0
        · rw [if_pos hnone] at hc
          cases hc
        · rw [if_neg hnone] at hc
          obtain ⟨c', hc', hsame⟩ := hrest (p.advance (type.fill s).1) _ _ c hc
          refine ⟨c', List.mem_cons_of_mem _ (List.mem_append_right _ ?_), hsame⟩
          rwa [if_neg hnone]
  induction as using actionsRec generalizing p p' s with
  | nil => exact List.forall_mem_nil _
  | builtin name object offset as ih =>
      refine hfield name (.builtin object) offset as (fun p p' s => ?_) (fun _ _ _ => ih) p p' s
      exact List.forall_mem_singleton.2 ⟨_, List.mem_cons_self, rfl, rfl⟩
  | struct name typeName inner offset as ihInner ih =>
      refine hfield name _ offset as (fun p p' s => ?_) (fun _ _ _ => ih) p p' s
      refine List.forall_mem_cons.2 ⟨⟨_, List.mem_cons_self, rfl, rfl⟩, fun c hc => ?_⟩
      obtain ⟨c', hc', hsame⟩ := ihInner (p := p) c hc
      exact ⟨c', List.mem_cons_of_mem _ hc', hsame⟩
  | transformationAction t as ih =>
      refine List.forall_mem_cons.2 ⟨⟨_, List.mem_cons_self, rfl, rfl⟩, fun c hc => ?_⟩
      -- what has been produced is a buffer of its own
      exact ⟨c, List.mem_cons_of_mem _ hc, rfl, rfl⟩
  | annotationAction name as ih =>
      refine List.forall_mem_cons.2 ⟨⟨_, List.mem_cons_self, rfl, rfl⟩, fun c hc => ?_⟩
      obtain ⟨c', hc', hsame⟩ := ih (p := p) c hc
      exact ⟨c', List.mem_cons_of_mem _ hc', hsame⟩

/-- What a call touches does not depend on where `m_Data` points to. -/
theorem inside_of_place {as : List Action} {p : Place} {s : DecodeState}
    (h : ∀ c ∈ callsOf p s as, c.Inside) (p' : Place) : ∀ c ∈ callsOf p' s as, c.Inside := by
  rintro ⟨place, state, callee⟩ hc
  obtain ⟨c, hmem, rfl, rfl⟩ := exists_callsOf_of_place (p := p) _ hc
  exact h c hmem

/-! ## A fixed value at the start -/

theorem BuiltinType.usable_of_tag {w : Width} {v : UInt32} :
    ∀ {type : BuiltinType}, type.tag = some (w, v) → type.Usable
  | unsigned t, h | signed t, h => by
      obtain ⟨hcount, hmin, -, -⟩ := UnsignedType.of_tag h
      have hleast : t.width.bytes * t.minCount = (t.width.bytes : Int) := by
        rw [hmin, Int.mul_one]
      have hwidth : t.width.bytes ≤ 4 := by cases t.width <;> decide
      refine ⟨Nat.le_of_eq hcount.symm, ?_, ?_⟩
      · show 0 ≤ t.width.bytes * t.minCount
        omega
      · show t.width.bytes * t.minCount < 2 ^ 31
        omega

/-- What is filled from a buffer, whatever the place is called. -/
theorem Builtin.inside_start {object : Builtin} (husable : object.type.Usable) (offset : UInt32)
    {data : List UInt8} (hlt : data.length < 2 ^ 31) : object.Inside (.start offset data) := by
  obtain ⟨hsound, -⟩ := FieldType.callsSound_builtin husable (DecodeState.endsAt_start offset hlt)
    (List.forall_mem_singleton.2 trivial)
  exact Call.inside (hsound _ List.mem_cons_self) husable trivial

/-- Fields that start with a scalar whose fixed value is not there: nothing but the scalar is
filled, which stays inside. -/
theorem inside_of_tag {as : List Action} {w : Width} {v : UInt32} (h : tagOf as = some (w, v))
    {data : List UInt8} (hne : LittleEndian.decode (data.take w.bytes) ≠ v.toNat)
    (hlt : data.length < 2 ^ 31) (offset : UInt32) (p : Place) :
    ∀ c ∈ callsOf p (.start offset data) as, c.Inside := by
  induction as with
  | nil => cases h
  | cons a as ih =>
      cases a with
      | transformationAction t => cases h
      | annotationAction name => exact List.forall_mem_cons.2 ⟨trivial, ih h⟩
      | field name type dataOffset =>
          cases type with
          | struct => cases h
          | builtin object =>
              have hscanned := FieldType.scanned_builtin object offset hlt
              have hnone : ((FieldType.builtin object).scan data).1.length = data.length := by
                show (data.drop (object.type.takes data)).length = data.length
                rw [BuiltinType.takes_of_tag hne h]
                rfl
              have hstop : ((FieldType.builtin object).fill (.start offset data)).1 ≤ 0 :=
                Int.not_lt.1 fun h => hscanned.pos_iff.1 h hnone
              refine List.forall_mem_cons.2 ⟨trivial, List.forall_mem_append.2 ⟨?_, ?_⟩⟩
              · exact List.forall_mem_singleton.2
                  (Builtin.inside_start (BuiltinType.usable_of_tag h) offset hlt)
              · rw [if_pos hstop]
                exact List.forall_mem_nil _

end ProtocolDefinition

end OpenRom
