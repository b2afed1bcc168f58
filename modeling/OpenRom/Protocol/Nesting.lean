import OpenRom.Protocol.Leaves

/-!
# Nested structs and their fields in place

A field whose type is a struct against the fields of that struct in its place. The loop over the
fields of the inner struct is the same, but a field is a success when it has taken anything, and so
what is behind it is processed also when that loop has stopped on the way. Nothing else is different
(`inline_iff`).
-/

set_option autoImplicit false

namespace OpenRom

namespace ProtocolDefinition

mutual

/-- There is no transformation and no annotation in the type. -/
def FieldType.OnlyFields : FieldType → Prop
  | .builtin _ => True
  | .struct _ actions => OnlyFields actions

def OnlyFields : List Action → Prop
  | [] => True
  | .field _ type _ :: as => type.OnlyFields ∧ OnlyFields as
  | .transformationAction _ :: _ => False
  | .annotationAction _ :: _ => False

end

theorem onlyFields_append {as bs : List Action} :
    OnlyFields (as ++ bs) ↔ OnlyFields as ∧ OnlyFields bs := by
  induction as with
  | nil =>
      show OnlyFields bs ↔ True ∧ OnlyFields bs
      rw [true_and]
  | cons a as ih =>
      cases a with
      | field name type offset =>
          show _ ∧ OnlyFields (as ++ bs) ↔ (_ ∧ _) ∧ _
          rw [ih, and_assoc]
      | transformationAction t => exact iff_of_false id fun h => h.1
      | annotationAction name => exact iff_of_false id fun h => h.1

/-! ## One loop after the other -/

/-- The loop of `Struct::Fill` gets to the end. -/
def completes (s : DecodeState) : List Action → Bool
  | [] => true
  | a :: as =>
      match a.process s with
      | (true, s', _) => completes s' as
      | (false, _, _) => false

theorem completes_field (s : DecodeState) (name : String) (type : FieldType) (offset : UInt32)
    (as : List Action) :
    completes s (.field name type offset :: as) =
      if (type.fill s).1 ≤ 0 then false else completes (s.advance (type.fill s).1) as := by
  rw [completes, Action.process]
  by_cases h : (type.fill s).1 ≤ 0
  · simp only [if_pos h]
  · simp only [if_neg h]

/-- The state that the loop ends in. -/
def after (s : DecodeState) (as : List Action) : DecodeState := (processActions s as).1

theorem after_field (s : DecodeState) (name : String) (type : FieldType) (offset : UInt32)
    (as : List Action) :
    after s (.field name type offset :: as) =
      if (type.fill s).1 ≤ 0 then s else after (s.advance (type.fill s).1) as := by
  rw [after, processActions_field]
  split <;> rfl

theorem after_append {as : List Action} (has : OnlyFields as) (bs : List Action)
    (s : DecodeState) :
    after s (as ++ bs) = if completes s as then after (after s as) bs else after s as := by
  induction as generalizing s with
  | nil => rfl
  | cons a as ih =>
      cases a with
      | field name type offset =>
          rw [List.cons_append, after_field, after_field, completes_field]
          by_cases h : (type.fill s).1 ≤ 0
          · simp only [if_pos h, Bool.false_eq_true, if_false]
          · simp only [if_neg h]
            exact ih has.2 _
      | transformationAction t => exact has.elim
      | annotationAction name => exact has.elim

theorem unfilledOf_append (as bs : List Action) :
    unfilledOf (as ++ bs) = unfilledOf as ++ unfilledOf bs := by
  induction as with
  | nil => rfl
  | cons a as ih =>
      cases a with
      | field name type offset =>
          show type.unfilled ++ unfilledOf (as ++ bs) = (type.unfilled ++ unfilledOf as) ++ _
          rw [ih, List.append_assoc]
      | transformationAction t => exact ih
      | annotationAction name => exact ih

theorem leavesOf_append {as : List Action} (has : OnlyFields as) (bs : List Action)
    (s : DecodeState) :
    leavesOf s (as ++ bs) =
      leavesOf s as ++ if completes s as then leavesOf (after s as) bs else unfilledOf bs := by
  induction as generalizing s with
  | nil => rfl
  | cons a as ih =>
      cases a with
      | field name type offset =>
          rw [List.cons_append, leavesOf_field, leavesOf_field, after_field, completes_field]
          by_cases h : (type.fill s).1 ≤ 0
          · simp only [if_pos h, Bool.false_eq_true, if_false, unfilledOf_append,
              List.append_assoc]
          · simp only [if_neg h]
            rw [ih has.2, List.append_assoc]
      | transformationAction t => exact has.elim
      | annotationAction name => exact has.elim

/-! ## What a loop takes -/

theorem DecodeState.advance_advance (s : DecodeState) {m n : Int} (hm : 0 ≤ m) (hn : 0 ≤ n) :
    (s.advance m).advance n = s.advance (m + n) := by
  have hnat : (m + n).toNat = m.toNat + n.toNat := Int.toNat_add hm hn
  simp only [advance, hnat, List.drop_drop, UInt32.ofInt_add, mk.injEq, true_and]
  exact ⟨by omega, UInt32.add_assoc _ _ _⟩

theorem DecodeState.advance_zero (s : DecodeState) : s.advance 0 = s := by
  have hoffset : UInt32.ofInt 0 = 0 := rfl
  simp [advance, hoffset]

/-- The loop moves over what it takes. -/
theorem after_eq_advance {as : List Action} (has : OnlyFields as) (s : DecodeState) :
    0 ≤ taken s as ∧ after s as = s.advance (taken s as) := by
  induction as generalizing s with
  | nil => exact ⟨Int.le_of_eq (Int.sub_self _).symm, by
      rw [taken, processActions, Int.sub_self, DecodeState.advance_zero]
      rfl⟩
  | cons a as ih =>
      cases a with
      | field name type offset =>
          rw [taken_field, after_field]
          by_cases h : (type.fill s).1 ≤ 0
          · rw [if_pos h, if_pos h]
            exact ⟨Int.le_refl 0, s.advance_zero.symm⟩
          · rw [if_neg h, if_neg h]
            obtain ⟨hpos, hafter⟩ := ih has.2 (s.advance (type.fill s).1)
            refine ⟨by omega, ?_⟩
            rw [hafter, s.advance_advance (by omega) hpos]
      | transformationAction t => exact has.elim
      | annotationAction name => exact has.elim

/-- Every field that is a success takes something. -/
theorem taken_pos_of_completes {as : List Action} (has : OnlyFields as) (hne : as ≠ [])
    {s : DecodeState} (h : completes s as = true) : 0 < taken s as := by
  cases as with
  | nil => exact absurd rfl hne
  | cons a as =>
      cases a with
      | field name type offset =>
          rw [completes_field] at h
          by_cases hnone : (type.fill s).1 ≤ 0
          · rw [if_pos hnone] at h
            cases h
          · have hrest := (after_eq_advance has.2 (s.advance (type.fill s).1)).1
            rw [taken_field, if_neg hnone]
            omega
      | transformationAction t => exact has.elim
      | annotationAction name => exact has.elim

/-- Nothing is filled where nothing is taken. -/
theorem leavesOf_of_taken {as : List Action} (has : OnlyFields as) {s : DecodeState}
    (h : taken s as ≤ 0) : leavesOf s as = unfilledOf as := by
  -- the first field has failed, or it would have taken something
  have hfield : ∀ (name : String) (type : FieldType) (offset : UInt32) (as : List Action),
      OnlyFields as → ((type.fill s).1 ≤ 0 → type.leaves s = type.unfilled) →
      taken s (.field name type offset :: as) ≤ 0 →
      leavesOf s (.field name type offset :: as) = unfilledOf (.field name type offset :: as) := by
    intro name type offset as has htype h
    rw [taken_field] at h
    by_cases hnone : (type.fill s).1 ≤ 0
    · rw [leavesOf_field, if_pos hnone, htype hnone]
      rfl
    · have hrest := (after_eq_advance has (s.advance (type.fill s).1)).1
      rw [if_neg hnone] at h
      omega
  induction as using actionsRec with
  | nil => rfl
  | builtin name object offset as ih =>
      refine hfield name _ offset as has.2 (fun hnone => ?_) h
      have hobject : (object.fill s).1 ≤ 0 := hnone
      show [_] = [none]
      rw [if_pos hobject]
  | struct name typeName inner offset as ihInner ih =>
      exact hfield name _ offset as has.2 (fun hnone => ihInner has.1 hnone) h
  | transformationAction t as ih => exact has.elim
  | annotationAction name as ih => exact has.elim

/-! ## A struct against its fields -/

section Inline

variable {inner : List Action} (hinner : OnlyFields inner) (name typeName : String)
  (offset : UInt32) (back : List Action) (s : DecodeState)

include hinner

theorem after_nested :
    after s (.field name (.struct typeName inner) offset :: back) =
      if taken s inner ≤ 0 then s else after (after s inner) back := by
  rw [after_field, (after_eq_advance hinner s).2]
  rfl

theorem leavesOf_nested :
    leavesOf s (.field name (.struct typeName inner) offset :: back) =
      leavesOf s inner ++
        if taken s inner ≤ 0 then unfilledOf back else leavesOf (after s inner) back := by
  rw [leavesOf_field, (after_eq_advance hinner s).2]
  rfl

end Inline

/-- The nested struct is reached, and it stops behind a field that is filled, where the field behind
the struct is filled again. -/
structure GoesOn (s : DecodeState) (front inner back : List Action) : Prop where
  reached : completes s front = true
  stops : completes (after s front) inner = false
  begins : 0 < taken (after s front) inner
  behind : 0 < taken (after (after s front) inner) back

/-- A struct whose field has a struct type, and the struct with the fields of that type in its
place, take the same and fill the same leaves with the same values, unless the first goes on behind
a nested struct that has stopped. -/
theorem inline_iff (name fieldName typeName : String) (offset : UInt32)
    {front inner back : List Action}
    (hfields : OnlyFields (front ++ .field fieldName (.struct typeName inner) offset :: back))
    (hne : inner ≠ []) (s : DecodeState) :
    ((FieldType.struct name
          (front ++ .field fieldName (.struct typeName inner) offset :: back)).fill s).1 =
        ((FieldType.struct name (front ++ (inner ++ back))).fill s).1 ∧
      (FieldType.struct name
          (front ++ .field fieldName (.struct typeName inner) offset :: back)).leaves s =
        (FieldType.struct name (front ++ (inner ++ back))).leaves s ↔
      ¬ GoesOn s front inner back := by
  obtain ⟨hfront, hinner, hback⟩ := onlyFields_append.1 hfields
  show s.dataLeft - (after s (front ++ _)).dataLeft = s.dataLeft - (after s (front ++ _)).dataLeft ∧
    leavesOf s (front ++ _) = leavesOf s (front ++ _) ↔ _
  rw [after_append hfront, after_append hfront, leavesOf_append hfront, leavesOf_append hfront]
  by_cases hreached : completes s front = true
  case neg =>
    -- the loop stops before the struct
    have hunfilled : unfilledOf (.field fieldName (.struct typeName inner) offset :: back) =
      unfilledOf (inner ++ back) := (unfilledOf_append inner back).symm
    rw [if_neg hreached, if_neg hreached, if_neg hreached, if_neg hreached, hunfilled]
    exact iff_of_true ⟨rfl, rfl⟩ fun h => hreached h.reached
  simp only [if_pos hreached]
  generalize hs : after s front = s₁
  rw [after_nested hinner, leavesOf_nested hinner, after_append hinner, leavesOf_append hinner]
  by_cases hstops : completes s₁ inner = true
  · -- every field of the inner struct is filled
    have hpos := taken_pos_of_completes hinner hne hstops
    rw [if_pos hstops, if_pos hstops, if_neg (by omega), if_neg (by omega)]
    refine iff_of_true ⟨rfl, rfl⟩ fun h => ?_
    have hstopped := h.stops
    rw [hs, hstops] at hstopped
    cases hstopped
  rw [if_neg hstops, if_neg hstops]
  obtain ⟨hnonneg, hafter⟩ := after_eq_advance hinner s₁
  by_cases hbegins : taken s₁ inner ≤ 0
  · -- none of them is
    have hzero : taken s₁ inner = 0 := by omega
    rw [if_pos hbegins, if_pos hbegins, hafter, hzero, DecodeState.advance_zero]
    refine iff_of_true ⟨rfl, rfl⟩ fun h => ?_
    have hpos := h.begins
    rw [hs] at hpos
    omega
  rw [if_neg hbegins, if_neg hbegins]
  have hbehind := (after_eq_advance hback (after s₁ inner)).1
  have htaken : taken (after s₁ inner) back =
    (after s₁ inner).dataLeft - (after (after s₁ inner) back).dataLeft := rfl
  by_cases hmore : 0 < taken (after s₁ inner) back
  · -- the first struct takes more
    refine iff_of_false (fun h => ?_) (not_not_intro ⟨hreached, ?_, ?_, ?_⟩)
    · have hsame := h.1
      omega
    · rw [hs]
      exact Bool.eq_false_iff.2 hstops
    · rw [hs]
      omega
    · rw [hs]
      exact hmore
  · refine iff_of_true ⟨by omega, ?_⟩ fun h => ?_
    · rw [leavesOf_of_taken hback (Int.not_lt.1 hmore)]
    · have hpos := h.behind
      rw [hs] at hpos
      exact hmore hpos

/-- The fields of a struct of a value and a fixed one. -/
def pairFields : List Action := [.field "value" (u32 none) 0, .field "mark" (u32 (some 5)) 0]

theorem onlyFields_pair : OnlyFields ([] ++
    .field "pair" (.struct "pair" pairFields) 0 :: [.field "last" (u32 none) 0]) :=
  ⟨⟨trivial, trivial, trivial⟩, trivial, trivial⟩

/-- Both fields of the pair are filled, and the field behind it. -/
theorem inline_filled_pair :
    ((FieldType.struct "outer" ([] ++
          .field "pair" (.struct "pair" pairFields) 0 :: [.field "last" (u32 none) 0])).fill
            (.start 0 [1, 0, 0, 0, 5, 0, 0, 0, 3, 0, 0, 0])).1 =
        ((FieldType.struct "outer" ([] ++ (pairFields ++ [.field "last" (u32 none) 0]))).fill
          (.start 0 [1, 0, 0, 0, 5, 0, 0, 0, 3, 0, 0, 0])).1 ∧
      (FieldType.struct "outer" ([] ++
          .field "pair" (.struct "pair" pairFields) 0 :: [.field "last" (u32 none) 0])).leaves
            (.start 0 [1, 0, 0, 0, 5, 0, 0, 0, 3, 0, 0, 0]) =
        (FieldType.struct "outer" ([] ++ (pairFields ++ [.field "last" (u32 none) 0]))).leaves
          (.start 0 [1, 0, 0, 0, 5, 0, 0, 0, 3, 0, 0, 0]) :=
  (inline_iff "outer" "pair" "pair" 0 onlyFields_pair (List.cons_ne_nil _ _) _).2 fun h =>
    absurd h.stops (by decide)

/-- The second field of the pair is not filled, and the one behind the pair is. -/
theorem inline_differs :
    ¬ ∀ (name fieldName typeName : String) (offset : UInt32) (front inner back : List Action),
      OnlyFields (front ++ .field fieldName (.struct typeName inner) offset :: back) →
      inner ≠ [] → ∀ s,
        ((FieldType.struct name
              (front ++ .field fieldName (.struct typeName inner) offset :: back)).fill s).1 =
            ((FieldType.struct name (front ++ (inner ++ back))).fill s).1 ∧
          (FieldType.struct name
              (front ++ .field fieldName (.struct typeName inner) offset :: back)).leaves s =
            (FieldType.struct name (front ++ (inner ++ back))).leaves s := by
  intro hall
  have hsame := (hall "outer" "pair" "pair" 0 [] pairFields [.field "last" (u32 none) 0]
    onlyFields_pair (List.cons_ne_nil _ _) (.start 0 [1, 0, 0, 0, 2, 0, 0, 0, 3, 0, 0, 0])).1
  revert hsame
  decide

end ProtocolDefinition

end OpenRom
