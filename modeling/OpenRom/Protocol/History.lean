import OpenRom.Protocol.Display
import OpenRom.Protocol.Scan

/-!
# What earlier payloads leave

Two runs of one definition are compared on the last payload. It selects the same packet in both and
stores the same values, but `Print` also shows the values behind those, in fields that the payload
fills in part or does not reach. Where nothing leaves its memory, the display is the same if and
only if these are (`printed_iff`), and they can be those of earlier payloads (`stale_printed`).
-/

set_option autoImplicit false

namespace OpenRom

namespace ProtocolDefinition

/-! ## Built-in types -/

/-- The states are at the same place of the same buffer. -/
def DecodeState.Same (s s' : DecodeState) : Prop := s.data = s'.data ∧ s.dataLeft = s'.dataLeft

theorem DecodeState.Same.advance {s s' : DecodeState} (h : s.Same s') (r : Int) :
    (s.advance r).Same (s'.advance r) :=
  ⟨congrArg (List.drop r.toNat) h.1, congrArg (· - r) h.2⟩

/-- The values that `unsignedType::Fill` stores. -/
def UnsignedType.stored (t : UnsignedType) (s : DecodeState) : List Nat :=
  if t.width.bytes * t.minCount > s.dataLeft then []
  else readCells t.width.bytes (min (s.dataLeft.tdiv t.width.bytes) t.count).toNat s.data

/-- The values that `Fill` stores at the front of the array. -/
def BuiltinType.stored (s : DecodeState) : BuiltinType → List Nat
  | unsigned t => t.stored s
  | signed t => t.stored s
  | string n minLength =>
      if s.dataLeft < minLength then [] else readCells 1 (min (n : Int) s.dataLeft).toNat s.data
  | float count _ => if sizeT s.dataLeft < count * 4 then [] else readCells 4 count s.data
  | double count _ => if sizeT s.dataLeft < count * 8 then [] else readCells 8 count s.data
  | length =>
      if sizeT s.dataLeft < 4 then []
      else [(LittleEndian.decode (s.data.take 4) + 4) % 2 ^ 32]
  | unixtime => if sizeT s.dataLeft < 4 then [] else [LittleEndian.decode (s.data.take 4)]

theorem UnsignedType.snd_fill (t : UnsignedType) (value : List Nat) (s : DecodeState) :
    (t.fill value s).2 = List.overwrite (t.stored s) value := by
  unfold fill stored
  by_cases hmin : t.width.bytes * t.minCount > s.dataLeft
  · rw [if_pos hmin, if_pos hmin, List.overwrite_nil]
  · rw [if_neg hmin, if_neg hmin]
    cases t.fixedValue with
    | none => rfl
    | some v =>
        dsimp only
        split <;> rfl

theorem overwrite_ite {c : Prop} [Decidable c] (new cells : List Nat) (a b : Int) :
    (if c then (a, cells) else (b, List.overwrite new cells)).2 =
      List.overwrite (if c then [] else new) cells := by
  by_cases h : c
  · rw [if_pos h, if_pos h, List.overwrite_nil]
  · rw [if_neg h, if_neg h]

theorem overwrite_single_ite {c : Prop} [Decidable c] {cells : List Nat} (h : cells.length = 1)
    (v : Nat) (a b : Int) :
    (if c then (a, cells) else (b, [v])).2 = List.overwrite (if c then [] else [v]) cells := by
  have hsingle : List.overwrite [v] cells = [v] := by
    rw [List.overwrite, List.length_singleton, List.drop_eq_nil_of_le (Nat.le_of_eq h),
      List.append_nil]
  by_cases hc : c
  · rw [if_pos hc, if_pos hc, List.overwrite_nil]
  · rw [if_neg hc, if_neg hc, hsingle]

/-- `Fill` stores at the front of the array. -/
theorem BuiltinType.snd_fill {cells : List Nat} (s : DecodeState) :
    ∀ {type : BuiltinType}, cells.length = type.numCells →
      (type.fill cells s).2 = List.overwrite (type.stored s) cells
  | unsigned t, _ => t.snd_fill cells s
  | signed t, _ => t.snd_fill cells s
  | string _ _, _ => overwrite_ite _ _ _ _
  | float _ _, _ => overwrite_ite _ _ _ _
  | double _ _, _ => overwrite_ite _ _ _ _
  | length, h => overwrite_single_ite h _ _ _
  | unixtime, h => overwrite_single_ite h _ _ _

/-- Whether and how far a numeric field is filled does not depend on the values it has. -/
theorem UnsignedType.toNat_fill_cells (t : UnsignedType) (cells cells' : List Nat)
    (s : DecodeState) : (t.fill cells s).1.toNat = (t.fill cells' s).1.toNat := by
  unfold fill
  by_cases hmin : t.width.bytes * t.minCount > s.dataLeft
  · rw [if_pos hmin, if_pos hmin]
  rw [if_neg hmin, if_neg hmin]
  cases t.fixedValue with
  | none => rfl
  | some v =>
      dsimp only
      rcases Nat.eq_zero_or_pos (min (s.dataLeft.tdiv t.width.bytes) t.count).toNat with
        hzero | hpos
      · -- no value is read: either result counts as no bytes
        have hnum : min (s.dataLeft.tdiv t.width.bytes) (t.count : Int) ≤ 0 := by omega
        have hbytes : ((t.width.bytes : Int) *
            min (s.dataLeft.tdiv t.width.bytes) (t.count : Int)).toNat = 0 :=
          Int.toNat_of_nonpos (Int.mul_nonpos_of_nonneg_of_nonpos (by omega) hnum)
        have hnone : ∀ (c : Prop) [Decidable c] (x : List Nat),
            (if c then ((-1 : Int), x) else ((t.width.bytes : Int) *
              min (s.dataLeft.tdiv t.width.bytes) (t.count : Int), x)).1.toNat = 0 := by
          intro c _ x
          split
          · rfl
          · exact hbytes
        rw [hnone, hnone]
      · -- the value that is compared has just been read
        rw [head?_overwrite_readCells hpos, head?_overwrite_readCells hpos]
        split <;> rfl

theorem BuiltinType.toNat_fill_cells (cells cells' : List Nat) (s : DecodeState) :
    ∀ type : BuiltinType, (type.fill cells s).1.toNat = (type.fill cells' s).1.toNat
  | unsigned t => t.toNat_fill_cells cells cells' s
  | signed t => t.toNat_fill_cells cells cells' s
  | string n minLength => by
      show (fillString _ _ _ s).1.toNat = (fillString _ _ _ s).1.toNat
      unfold fillString
      split <;> rfl
  | float count _ => by
      show (fillNumber _ _ _ s).1.toNat = (fillNumber _ _ _ s).1.toNat
      unfold fillNumber
      split <;> rfl
  | double count _ => by
      show (fillNumber _ _ _ s).1.toNat = (fillNumber _ _ _ s).1.toNat
      unfold fillNumber
      split <;> rfl
  | length => by
      show (fillLength _ s).1.toNat = (fillLength _ s).1.toNat
      unfold fillLength
      split <;> rfl
  | unixtime => by
      show (fillUnixtime _ s).1.toNat = (fillUnixtime _ s).1.toNat
      unfold fillUnixtime
      split <;> rfl

/-- What `Print` shows of the values that the object has and `Fill` does not store over. -/
def BuiltinType.leftover (s : DecodeState) (cells : List Nat) : BuiltinType → List Nat
  | unsigned t => (cells.drop (stored s (unsigned t)).length).take
      (t.numPrinted - (stored s (unsigned t)).length)
  | signed t => (cells.drop (stored s (signed t)).length).take
      (t.numPrintedSigned - (stored s (signed t)).length)
  | string n minLength =>
      if (stored s (string n minLength)).all (· != 0) then
        (cells.drop (stored s (string n minLength)).length).takeWhile (· != 0)
      else [] -- the text ends in what is stored
  | float count displayCount => (cells.drop (stored s (float count displayCount)).length).take
      (numPrintedNumber count displayCount - (stored s (float count displayCount)).length)
  | double count displayCount => (cells.drop (stored s (double count displayCount)).length).take
      (numPrintedNumber count displayCount - (stored s (double count displayCount)).length)
  | length => (cells.drop (stored s length).length).take (1 - (stored s length).length)
  | unixtime => (cells.drop (stored s unixtime).length).take (1 - (stored s unixtime).length)

theorem BuiltinType.shown_overwrite_iff {cells cells' : List Nat} (s : DecodeState) :
    ∀ type : BuiltinType,
      type.shown (List.overwrite (type.stored s) cells) =
          type.shown (List.overwrite (type.stored s) cells') ↔
        type.leftover s cells = type.leftover s cells'
  | unsigned _ => List.take_overwrite_iff
  | signed _ => List.take_overwrite_iff
  | string n minLength => by
      refine List.takeWhile_overwrite_iff.trans ?_
      show _ ↔ (if _ then _ else _) = if _ then _ else _
      by_cases hall : ((string n minLength).stored s).all (· != 0) = true
      · rw [if_pos hall, if_pos hall]
        exact ⟨fun h => h hall, fun h _ => h⟩
      · rw [if_neg hall, if_neg hall]
        exact ⟨fun _ => rfl, fun _ h => absurd h hall⟩
  | float _ _ => List.take_overwrite_iff
  | double _ _ => List.take_overwrite_iff
  | length => List.take_overwrite_iff
  | unixtime => List.take_overwrite_iff

/-- Reading looks at the buffer only. -/
theorem BuiltinType.fill_same {s s' : DecodeState} (h : s.Same s') (cells : List Nat)
    (type : BuiltinType) : type.fill cells s = type.fill cells s' := by
  obtain ⟨data, dataLeft, offset⟩ := s
  obtain ⟨data', dataLeft', offset'⟩ := s'
  obtain ⟨rfl, rfl⟩ : data = data' ∧ dataLeft = dataLeft' := h
  cases type <;> rfl

theorem BuiltinType.stored_same {s s' : DecodeState} (h : s.Same s') (type : BuiltinType) :
    type.stored s = type.stored s' := by
  obtain ⟨data, dataLeft, offset⟩ := s
  obtain ⟨data', dataLeft', offset'⟩ := s'
  obtain ⟨rfl, rfl⟩ : data = data' ∧ dataLeft = dataLeft' := h
  cases type <;> rfl

theorem BuiltinType.leftover_same {s s' : DecodeState} (h : s.Same s') (cells : List Nat)
    (type : BuiltinType) : type.leftover s cells = type.leftover s' cells := by
  have hstored := type.stored_same h
  cases type <;> simp only [leftover, hstored]

/-! ## Actions -/

/-- What has the layout of a field and more actions is a field and more actions. -/
theorem layoutOf_eq_field {name : String} {type : FieldType} {offset : UInt32} {as bs : List Action}
    (h : layoutOf (.field name type offset :: as) = layoutOf bs) :
    ∃ type' offset' bs', bs = .field name type' offset' :: bs' ∧
      type.layout = type'.layout ∧ layoutOf as = layoutOf bs' := by
  rcases bs with - | ⟨⟨name', type', offset'⟩ | t | note, bs⟩
  · cases h
  · obtain ⟨hhead, hrest⟩ := List.cons.inj h
    injection hhead with hname htype
    exact ⟨type', offset', bs, by rw [hname], htype, hrest⟩
  · cases (List.cons.inj h).1
  · cases (List.cons.inj h).1

theorem layoutOf_eq_transformationAction {t : Transformation} {as bs : List Action}
    (h : layoutOf (.transformationAction t :: as) = layoutOf bs) :
    ∃ bs', bs = .transformationAction t :: bs' ∧ layoutOf as = layoutOf bs' := by
  rcases bs with - | ⟨⟨name', type', offset'⟩ | t' | note, bs⟩
  · cases h
  · cases (List.cons.inj h).1
  · obtain ⟨hhead, hrest⟩ := List.cons.inj h
    cases hhead
    exact ⟨bs, rfl, hrest⟩
  · cases (List.cons.inj h).1

theorem layoutOf_eq_annotationAction {name : String} {as bs : List Action}
    (h : layoutOf (.annotationAction name :: as) = layoutOf bs) :
    ∃ bs', bs = .annotationAction name :: bs' ∧ layoutOf as = layoutOf bs' := by
  rcases bs with - | ⟨⟨name', type', offset'⟩ | t | note, bs⟩
  · cases h
  · cases (List.cons.inj h).1
  · cases (List.cons.inj h).1
  · obtain ⟨hhead, hrest⟩ := List.cons.inj h
    cases hhead
    exact ⟨bs, rfl, hrest⟩

theorem FieldType.layout_eq_builtin {object : Builtin} {type : FieldType}
    (h : (builtin object).layout = type.layout) :
    ∃ object', type = .builtin object' ∧ object.type = object'.type := by
  cases type with
  | builtin object' =>
      injection h with hobject
      refine ⟨object', rfl, ?_⟩
      show object.layout.type = object'.layout.type
      rw [hobject]
  | struct name actions => cases h

theorem FieldType.layout_eq_struct {name : String} {actions : List Action} {type : FieldType}
    (h : (struct name actions).layout = type.layout) :
    ∃ actions', type = .struct name actions' ∧ layoutOf actions = layoutOf actions' := by
  cases type with
  | builtin object => cases h
  | struct name' actions' =>
      injection h with hname hactions
      exact ⟨actions', by rw [hname], hactions⟩

theorem FieldType.layout_fill (s : DecodeState) :
    ∀ type : FieldType, (type.fill s).2.layout = type.layout
  | .builtin _ => rfl
  | .struct name actions => congrArg (struct name) (layoutOf_processActions s actions)

/-! ## What decoding leaves -/

mutual

/-- What `Print` shows of the values that the type has and `Fill` does not store over. -/
def FieldType.leftover (s : DecodeState) : FieldType → List (List Nat)
  | .builtin object => [object.type.leftover s object.cells]
  | .struct _ actions => leftoverActions s actions

/-- What `Print` shows of the values that the fields have and decoding does not store over: parts of
the fields that are reached, and all of those that are not. -/
def leftoverActions (s : DecodeState) : List Action → List (List Nat)
  | [] => []
  | .field _ type _ :: as =>
      type.leftover s ++
        if (type.fill s).1 ≤ 0 then shownFields as
        else leftoverActions (s.advance (type.fill s).1) as
  | .transformationAction t :: as =>
      match t.process s with
      | none => shownFields as
      | some s' => leftoverActions s' as
  | .annotationAction _ :: as => leftoverActions s as

end

theorem leftoverActions_field (s : DecodeState) (name : String) (type : FieldType) (offset : UInt32)
    (as : List Action) :
    leftoverActions s (.field name type offset :: as) =
      type.leftover s ++
        if (type.fill s).1 ≤ 0 then shownFields as
        else leftoverActions (s.advance (type.fill s).1) as := rfl

theorem leftoverActions_transformationAction (s : DecodeState) (t : Transformation)
    (as : List Action) :
    leftoverActions s (.transformationAction t :: as) =
      match t.process s with
      | none => shownFields as
      | some s' => leftoverActions s' as := rfl

/-- There is something left, or nothing, of every value that is shown. -/
theorem length_leftoverActions (s : DecodeState) (as : List Action) :
    (leftoverActions s as).length = (shownFields as).length := by
  -- a field, of a built-in type or a struct, from what is known of its type
  have hfield : ∀ (s : DecodeState) (name : String) (type : FieldType) (offset : UInt32)
      (as : List Action), (type.leftover s).length = type.shown.length →
      (∀ s, (leftoverActions s as).length = (shownFields as).length) →
        (leftoverActions s (.field name type offset :: as)).length =
          (shownFields (.field name type offset :: as)).length := by
    intro s name type offset as htype ih
    rw [leftoverActions_field, shownFields_field, List.length_append, List.length_append, htype]
    split
    · rfl
    · rw [ih]
  induction as using actionsRec generalizing s with
  | nil => rfl
  | builtin name object offset as ih => exact hfield s name _ offset as rfl ih
  | struct name typeName inner offset as ihInner ih =>
      exact hfield s name _ offset as (ihInner s) ih
  | transformationAction t as ih =>
      rw [leftoverActions_transformationAction]
      cases t.process s with
      | none => rfl
      | some s' => exact ih s'
  | annotationAction name as ih => exact ih s

theorem FieldType.length_leftover (s : DecodeState) :
    ∀ type : FieldType, (type.leftover s).length = type.shown.length
  | .builtin _ => rfl
  | .struct _ actions => length_leftoverActions s actions

theorem length_shownFields_congr {as bs : List Action} (h : layoutOf as = layoutOf bs) :
    (shownFields as).length = (shownFields bs).length := by
  induction as using actionsRec generalizing bs with
  | nil =>
      cases bs with
      | nil => rfl
      | cons b bs => cases b <;> cases h
  | builtin name object offset as ih =>
      obtain ⟨type', offset', bs, rfl, htype, hrest⟩ := layoutOf_eq_field h
      obtain ⟨object', rfl, -⟩ := FieldType.layout_eq_builtin htype
      exact congrArg (· + 1) (ih hrest)
  | struct name typeName inner offset as ihInner ih =>
      obtain ⟨type', offset', bs, rfl, htype, hrest⟩ := layoutOf_eq_field h
      obtain ⟨inner', rfl, hinner⟩ := FieldType.layout_eq_struct htype
      rw [shownFields_field, shownFields_field, List.length_append, List.length_append, ih hrest]
      exact congrArg (· + _) (ihInner hinner)
  | transformationAction t as ih =>
      obtain ⟨bs, rfl, hrest⟩ := layoutOf_eq_transformationAction h
      show (shownFields as).length = (shownFields bs).length
      exact ih hrest
  | annotationAction name as ih =>
      obtain ⟨bs, rfl, hrest⟩ := layoutOf_eq_annotationAction h
      show (shownFields as).length = (shownFields bs).length
      exact ih hrest

theorem FieldType.length_shown_congr :
    ∀ {type type' : FieldType}, type.layout = type'.layout → type.shown.length = type'.shown.length
  | .builtin _, _, h => by
      obtain ⟨object', rfl, -⟩ := layout_eq_builtin h
      rfl
  | .struct _ _, _, h => by
      obtain ⟨actions', rfl, hactions⟩ := layout_eq_struct h
      exact length_shownFields_congr hactions

/-! ## Two runs -/

/-- Two runs over actions of one layout end at the same place, and they show the same exactly when
the values that they leave are the same. -/
structure Runs (s s' : DecodeState) (as bs : List Action) : Prop where
  same : (processActions s as).1.Same (processActions s' bs).1
  shown_iff : shownFields (processActions s as).2 = shownFields (processActions s' bs).2 ↔
    leftoverActions s as = leftoverActions s' bs

/-- The same for the type of a field. -/
structure FieldType.Runs (s s' : DecodeState) (type type' : FieldType) : Prop where
  toNat_eq : (type.fill s).1.toNat = (type'.fill s').1.toNat
  shown_iff : (type.fill s).2.shown = (type'.fill s').2.shown ↔ type.leftover s = type'.leftover s'

section Runs

variable {s s' : DecodeState} {type type' : FieldType} {as bs : List Action}

/-- What is shown of a field and of the actions behind it is the same when each is. -/
theorem FieldType.shown_cons_iff (htype : type.layout = type'.layout) {xs ys : List (List Nat)} :
    (type.fill s).2.shown ++ xs = (type'.fill s').2.shown ++ ys ↔
      (type.fill s).2.shown = (type'.fill s').2.shown ∧ xs = ys := by
  have hlen : (type.fill s).2.shown.length = (type'.fill s').2.shown.length := by
    apply length_shown_congr
    rw [layout_fill, layout_fill, htype]
  exact ⟨fun h => List.append_inj h hlen, fun ⟨hx, hy⟩ => by rw [hx, hy]⟩

theorem FieldType.leftover_cons_iff (htype : type.layout = type'.layout) {xs ys : List (List Nat)} :
    type.leftover s ++ xs = type'.leftover s' ++ ys ↔
      type.leftover s = type'.leftover s' ∧ xs = ys := by
  have hlen : (type.leftover s).length = (type'.leftover s').length := by
    rw [length_leftover, length_leftover, length_shown_congr htype]
  exact ⟨fun h => List.append_inj h hlen, fun ⟨hx, hy⟩ => by rw [hx, hy]⟩

/-- A field that is filled is followed by the rest of the actions in both runs, and one that is not
ends both. -/
theorem FieldType.Runs.cons (hruns : type.Runs s s' type') (hsame : s.Same s')
    (htype : type.layout = type'.layout)
    (hrest : ∀ {s s'}, DecodeState.Same s s' → ProtocolDefinition.Runs s s' as bs)
    (name : String) (offset offset' : UInt32) :
    ProtocolDefinition.Runs s s' (.field name type offset :: as)
      (.field name type' offset' :: bs) := by
  have hr := hruns.toNat_eq
  by_cases h : (type.fill s).1 ≤ 0
  · -- neither field is filled, and what follows them is shown as it was
    have h' : (type'.fill s').1 ≤ 0 := by omega
    constructor
    · rw [processActions_field, processActions_field, if_pos h, if_pos h']
      exact hsame
    · rw [processActions_field, processActions_field, leftoverActions_field, leftoverActions_field,
        if_pos h, if_pos h', if_pos h, if_pos h', shownFields_field, shownFields_field,
        shown_cons_iff htype, leftover_cons_iff htype, hruns.shown_iff]
  · -- both fields are, by the same number of bytes, and the runs go on
    have h' : ¬ (type'.fill s').1 ≤ 0 := by omega
    have heq : (type'.fill s').1 = (type.fill s).1 := by omega
    have hadvanced := hrest (hsame.advance (type.fill s).1)
    constructor
    · rw [processActions_field, processActions_field, if_neg h, if_neg h', heq]
      exact hadvanced.same
    · rw [processActions_field, processActions_field, leftoverActions_field, leftoverActions_field,
        if_neg h, if_neg h', if_neg h, if_neg h', heq, shownFields_field, shownFields_field,
        shown_cons_iff htype, leftover_cons_iff htype, hruns.shown_iff, hadvanced.shown_iff]

theorem FieldType.runs_builtin (hsame : s.Same s') {object object' : Builtin}
    (h : object.type = object'.type) : (builtin object).Runs s s' (.builtin object') := by
  obtain ⟨type, cells, hcells⟩ := object
  obtain ⟨type', cells', hcells'⟩ := object'
  obtain rfl : type = type' := h
  constructor
  · show (type.fill cells s).1.toNat = (type.fill cells' s').1.toNat
    rw [← BuiltinType.fill_same hsame, BuiltinType.toNat_fill_cells cells cells']
  · show [type.shown (type.fill cells s).2] = [type.shown (type.fill cells' s').2] ↔
      [type.leftover s cells] = [type.leftover s' cells']
    rw [← BuiltinType.fill_same hsame, ← BuiltinType.leftover_same hsame,
      BuiltinType.snd_fill s hcells, BuiltinType.snd_fill s hcells', List.singleton_inj,
      List.singleton_inj, BuiltinType.shown_overwrite_iff]

theorem FieldType.runs_struct (hsame : s.Same s') (hruns : ProtocolDefinition.Runs s s' as bs)
    (name : String) : (struct name as).Runs s s' (.struct name bs) := by
  constructor
  · rw [fill_struct, fill_struct, hsame.2, hruns.same.2]
  · exact hruns.shown_iff

theorem Transformation.process_same (hsame : s.Same s') (t : Transformation) :
    t.process s = t.process s' := by
  rw [process, process, applied, applied, hsame.1, hsame.2]

theorem runs_actions (hsame : s.Same s') (h : layoutOf as = layoutOf bs) : Runs s s' as bs := by
  induction as using actionsRec generalizing bs s s' with
  | nil =>
      cases bs with
      | nil => exact ⟨hsame, Iff.rfl⟩
      | cons b bs => cases b <;> cases h
  | builtin name object offset as ih =>
      obtain ⟨type', offset', bs, rfl, htype, hrest⟩ := layoutOf_eq_field h
      obtain ⟨object', rfl, hobject⟩ := FieldType.layout_eq_builtin htype
      exact (FieldType.runs_builtin hsame hobject).cons hsame htype (fun h => ih h hrest) name _ _
  | struct name typeName inner offset as ihInner ih =>
      obtain ⟨type', offset', bs, rfl, htype, hrest⟩ := layoutOf_eq_field h
      obtain ⟨inner', rfl, hinner⟩ := FieldType.layout_eq_struct htype
      exact (FieldType.runs_struct hsame (ihInner hsame hinner) typeName).cons hsame htype
        (fun h => ih h hrest) name _ _
  | transformationAction t as ih =>
      obtain ⟨bs, rfl, hrest⟩ := layoutOf_eq_transformationAction h
      have hprocess := Transformation.process_same hsame t
      cases ht : t.process s with
      | none =>
          -- the transformation fails in both runs, and what follows it is not reached
          rw [ht] at hprocess
          constructor
          · rw [processActions_transformationAction, processActions_transformationAction, ht,
              ← hprocess]
            exact hsame
          · rw [processActions_transformationAction, processActions_transformationAction,
              leftoverActions_transformationAction, leftoverActions_transformationAction, ht,
              ← hprocess]
            exact Iff.rfl
      | some s₁ =>
          -- both runs go on in the buffer that the transformation has filled
          rw [ht] at hprocess
          have hruns : Runs s₁ s₁ as bs := ih ⟨rfl, rfl⟩ hrest
          constructor
          · rw [processActions_transformationAction, processActions_transformationAction, ht,
              ← hprocess]
            exact hruns.same
          · rw [processActions_transformationAction, processActions_transformationAction,
              leftoverActions_transformationAction, leftoverActions_transformationAction, ht,
              ← hprocess]
            exact hruns.shown_iff
  | annotationAction name as ih =>
      obtain ⟨bs, rfl, hrest⟩ := layoutOf_eq_annotationAction h
      have hruns := ih hsame hrest
      exact ⟨hruns.same, hruns.shown_iff⟩

end Runs

/-! ## Packets -/

/-- What the definition file says of the fields of a packet and its subpackets. -/
def Packet.layout (p : Packet) : List Action × List (List Action) :=
  (layoutOf p.actions, p.subpackets.map fun sp => layoutOf sp.actions)

/-- What `Print` shows of the values that the packet and the subpacket it selects have and `Fill`
does not store over. -/
def Packet.leftover (s : DecodeState) (p : Packet) :
    List (List Nat) × Option (Nat × List (List Nat)) :=
  (leftoverActions s p.actions, (p.fill s).2.lastSubpacket.bind fun k =>
    p.subpackets[k]?.map fun sp => (k, leftoverActions (s.advance p.numPacketBytes) sp.actions))

theorem Packet.layout_fill (s : DecodeState) (p : Packet) : (p.fill s).2.layout = p.layout := by
  -- trying a subpacket stores values in it and changes nothing else
  have hattempt : ∀ (s : DecodeState) (sp : Subpacket),
      layoutOf (sp.attempt s).2.actions = layoutOf sp.actions :=
    fun s sp => layoutOf_processActions s sp.actions
  have hactions := layoutOf_processActions s p.actions
  rcases p.fill_cases s with h | h
  · rw [h]
    exact Prod.ext hactions rfl
  · rw [h]
    have hsubpackets : (p.trySubpackets s).2.map (fun sp => layoutOf sp.actions) =
        p.subpackets.map fun sp => layoutOf sp.actions :=
      List.map_firstMatch (hattempt _) p.subpackets
    exact Prod.ext hactions hsubpackets

/-- `Print` stays inside of the arrays of the packet and of the subpacket that it selects. -/
def Packet.Displayable (s : DecodeState) (p : Packet) : Prop :=
  PrintableFields p.actions ∧ ∀ k ∈ (p.fill s).2.lastSubpacket, ∀ sp ∈ p.subpackets[k]?,
    PrintableFields sp.actions

/-- Display counts are not stored by `Fill`. -/
theorem Packet.printable_iff_of_layout {p q : Packet} {s : DecodeState} (h : q.layout = p.layout)
    (hlast : q.lastSubpacket = (p.fill s).2.lastSubpacket) : q.Printable ↔ p.Displayable s := by
  have hfields : ∀ {as bs : List Action}, layoutOf as = layoutOf bs →
      (PrintableFields as ↔ PrintableFields bs) := fun hlayout => by
    rw [← printableFields_layoutOf, hlayout, printableFields_layoutOf]
  refine and_congr (hfields (congrArg Prod.fst h)) ?_
  rw [selected, hlast]
  cases (p.fill s).2.lastSubpacket with
  | none => exact iff_of_true nofun nofun
  | some k =>
      have hmap := congrArg (fun l => l.2[k]?) h
      simp only [layout, List.getElem?_map] at hmap
      cases hsp : p.subpackets[k]? with
      | none =>
          rw [hsp, Option.map_none, Option.map_eq_none_iff] at hmap
          simp [hmap, hsp]
      | some sp =>
          rw [hsp, Option.map_some, Option.map_eq_some_iff] at hmap
          obtain ⟨sq, hsq, hlayout⟩ := hmap
          simpa [hsq, hsp] using hfields hlayout

section Packets

variable {s s' : DecodeState} {p q : Packet} (hsame : s.Same s') (h : p.layout = q.layout)

include h in
theorem Packet.numPacketBytes_congr : p.numPacketBytes = q.numPacketBytes := by
  have hactions : layoutOf p.actions = layoutOf q.actions := congrArg Prod.fst h
  rw [p.numPacketBytes_eq, q.numPacketBytes_eq, ← sizeFrom_layoutOf, hactions, sizeFrom_layoutOf]

include h in
theorem Packet.subpackets_ne_congr : p.subpackets ≠ [] ↔ q.subpackets ≠ [] := by
  have hmap := congrArg (fun l => l.2.length) h
  have hlen : p.subpackets.length = q.subpackets.length := by
    simpa only [layout, List.length_map] using hmap
  rw [← List.length_pos_iff, ← List.length_pos_iff, hlen]

include hsame h

theorem Packet.runs_actions : Runs s s' p.actions q.actions :=
  ProtocolDefinition.runs_actions hsame (congrArg Prod.fst h)

theorem Packet.headerSize_congr : p.headerSize s = q.headerSize s' := by
  rw [headerSize, headerSize, hsame.2, (runs_actions hsame h).same.2]

/-- The same subpacket is selected. -/
theorem Packet.fst_trySubpackets_congr : (p.trySubpackets s).1 = (q.trySubpackets s').1 := by
  have hmap : p.subpackets.map (fun sp => layoutOf sp.actions) =
      q.subpackets.map fun sp => layoutOf sp.actions := congrArg Prod.snd h
  apply List.fst_firstMatch_congr hmap
  intro sp sq hlayout
  rw [numPacketBytes_congr h]
  have hadvanced := hsame.advance q.numPacketBytes
  have hruns := ProtocolDefinition.runs_actions hadvanced hlayout
  show decide _ = decide _
  rw [hadvanced.2, hruns.same.2]

theorem Packet.fst_fill_congr : (p.fill s).1 = (q.fill s').1 := by
  have hheader := headerSize_congr hsame h
  by_cases hrejected : p.headerSize s < 0 ∨ p.subpackets ≠ [] ∧ p.headerSize s ≠ p.numPacketBytes
  · -- both packets are rejected, or neither is
    rw [fill_of_rejected hrejected]
    rw [hheader, numPacketBytes_congr h, subpackets_ne_congr h] at hrejected
    rw [fill_of_rejected hrejected]
  · obtain ⟨hneg, hsize⟩ := not_or.1 hrejected
    rw [fill_of_checked hneg hsize]
    rw [hheader] at hneg
    rw [hheader, numPacketBytes_congr h, subpackets_ne_congr h] at hsize
    rw [fill_of_checked hneg hsize]
    show p.headerSize s + p.subpacketSize s = q.headerSize s' + q.subpacketSize s'
    rw [hheader, subpacketSize, subpacketSize, fst_trySubpackets_congr hsame h,
      numPacketBytes_congr h, hsame.2]

/-- The subpacket that both runs select is shown the same exactly when they leave the same in it. -/
theorem Packet.subpacket_shown_iff :
    ((p.trySubpackets s).1.bind fun k =>
        (p.trySubpackets s).2[k]?.map fun sp => (k, shownFields sp.actions)) =
      ((q.trySubpackets s').1.bind fun k =>
        (q.trySubpackets s').2[k]?.map fun sp => (k, shownFields sp.actions)) ↔
    ((p.trySubpackets s).1.bind fun k => p.subpackets[k]?.map fun sp =>
        (k, leftoverActions (s.advance p.numPacketBytes) sp.actions)) =
      ((q.trySubpackets s').1.bind fun k => q.subpackets[k]?.map fun sp =>
        (k, leftoverActions (s'.advance q.numPacketBytes) sp.actions)) := by
  have hfst := fst_trySubpackets_congr hsame h
  cases hk : (q.trySubpackets s').1 with
  | none =>
      rw [hk] at hfst
      rw [hfst]
      exact Iff.rfl
  | some k =>
      rw [hk] at hfst
      -- the subpackets that both have selected are as their try has left them
      have hp : (p.trySubpackets s).2[k]? = _ := List.getElem?_firstMatch hfst
      have hq : (q.trySubpackets s').2[k]? = _ := List.getElem?_firstMatch hk
      rw [hfst, Option.bind_some, Option.bind_some, Option.bind_some, Option.bind_some, hp, hq]
      have hmap := congrArg (fun l => l.2[k]?) h
      simp only [layout, List.getElem?_map] at hmap
      cases hsp : p.subpackets[k]? with
      | none =>
          rw [hsp, Option.map_none, eq_comm, Option.map_eq_none_iff] at hmap
          rw [hmap]
          exact Iff.rfl
      | some sp =>
          rw [hsp, Option.map_some, eq_comm, Option.map_eq_some_iff] at hmap
          obtain ⟨sq, hsq, hlayout⟩ := hmap
          have hruns :=
            ProtocolDefinition.runs_actions (hsame.advance p.numPacketBytes) hlayout.symm
          rw [hsq, ← numPacketBytes_congr h]
          simp only [Option.map_some, Option.some_inj, Prod.ext_iff, true_and]
          exact hruns.shown_iff

/-- A packet that is rejected shows its own fields, and one that is not shows the subpacket that it
selects too. -/
theorem Packet.shown_fill_iff :
    (p.fill s).2.shown = (q.fill s').2.shown ↔ p.leftover s = q.leftover s' := by
  have hheader := headerSize_congr hsame h
  have hruns := runs_actions hsame h
  by_cases hrejected : p.headerSize s < 0 ∨ p.subpackets ≠ [] ∧ p.headerSize s ≠ p.numPacketBytes
  · -- a packet that is rejected has no subpacket to show
    unfold leftover
    rw [fill_of_rejected hrejected]
    rw [hheader, numPacketBytes_congr h, subpackets_ne_congr h] at hrejected
    rw [fill_of_rejected hrejected, Prod.ext_iff, Prod.ext_iff]
    exact and_congr_left fun _ => hruns.shown_iff
  · obtain ⟨hneg, hsize⟩ := not_or.1 hrejected
    unfold leftover
    rw [fill_of_checked hneg hsize]
    rw [hheader] at hneg
    rw [hheader, numPacketBytes_congr h, subpackets_ne_congr h] at hsize
    rw [fill_of_checked hneg hsize, Prod.ext_iff, Prod.ext_iff]
    exact and_congr hruns.shown_iff (subpacket_shown_iff hsame h)

/-- The same subpacket is printed. -/
theorem Packet.lastSubpacket_fill_congr :
    (p.fill s).2.lastSubpacket = (q.fill s').2.lastSubpacket := by
  have hheader := headerSize_congr hsame h
  by_cases hrejected : p.headerSize s < 0 ∨ p.subpackets ≠ [] ∧ p.headerSize s ≠ p.numPacketBytes
  · rw [fill_of_rejected hrejected]
    rw [hheader, numPacketBytes_congr h, subpackets_ne_congr h] at hrejected
    rw [fill_of_rejected hrejected]
    rfl
  · obtain ⟨hneg, hsize⟩ := not_or.1 hrejected
    rw [fill_of_checked hneg hsize]
    rw [hheader] at hneg
    rw [hheader, numPacketBytes_congr h, subpackets_ne_congr h] at hsize
    rw [fill_of_checked hneg hsize]
    exact fst_trySubpackets_congr hsame h

/-- Both runs print inside of the arrays, or neither does. -/
theorem Packet.printable_fill_iff :
    ((p.fill s).2.Printable ↔ p.Displayable s) ∧ ((q.fill s').2.Printable ↔ p.Displayable s) :=
  ⟨printable_iff_of_layout (p.layout_fill s) rfl,
    printable_iff_of_layout ((q.layout_fill s').trans h.symm)
      (lastSubpacket_fill_congr hsame h).symm⟩

end Packets

/-! ## Definitions -/

theorem layout_process (d : ProtocolDefinition) (offset : UInt32) (bs : List UInt8) :
    (d.process offset bs).2.packets.map Packet.layout = d.packets.map Packet.layout :=
  List.map_firstMatch (fun p => p.layout_fill _) d.packets

theorem layout_run (d : ProtocolDefinition) (payloads : List (UInt32 × List UInt8)) :
    (d.run payloads).packets.map Packet.layout = d.packets.map Packet.layout := by
  induction payloads generalizing d with
  | nil => rfl
  | cons payload payloads ih =>
      obtain ⟨offset, bs⟩ := payload
      calc (d.run ((offset, bs) :: payloads)).packets.map Packet.layout
          = (d.process offset bs).2.packets.map Packet.layout := ih _
        _ = d.packets.map Packet.layout := layout_process d offset bs

/-- Which packet is returned does not depend on the values that are stored. -/
theorem fst_process_congr {d e : ProtocolDefinition}
    (h : d.packets.map Packet.layout = e.packets.map Packet.layout) (offset offset' : UInt32)
    (bs : List UInt8) : (d.process offset bs).1 = (e.process offset' bs).1 := by
  apply List.fst_firstMatch_congr h
  intro p q hlayout
  have hsame : (DecodeState.start offset bs).Same (.start offset' bs) := ⟨rfl, rfl⟩
  have hfill := Packet.fst_fill_congr hsame hlayout
  show decide ((p.fill (.start offset bs)).1 = _) = decide ((q.fill (.start offset' bs)).1 = _)
  rw [hfill]

theorem insideAll_concat {d : ProtocolDefinition} {payloads : List (UInt32 × List UInt8)}
    {offset : UInt32} {bs : List UInt8} :
    d.InsideAll (payloads ++ [(offset, bs)]) ↔
      d.InsideAll payloads ∧ (d.run payloads).Inside offset bs := by
  induction payloads generalizing d with
  | nil => exact and_comm
  | cons payload payloads ih => exact (and_congr_right fun _ => ih).trans and_assoc.symm

/-- What is displayed of a payload is what `Print` shows of the packet as `Fill` leaves it, when the
program stays inside of its memory. -/
theorem printed_eq_some_iff {d : ProtocolDefinition} {history : List (UInt32 × List UInt8)}
    {offset : UInt32} {bs : List UInt8} {i : Nat} {p : Packet}
    (haccepted : ((d.run history).process offset bs).1 = some i)
    (hp : (d.run history).packets[i]? = some p)
    {x : Nat × List (List Nat) × Option (Nat × List (List Nat))} :
    printed d history offset bs = some x ↔ d.InsideAll (history ++ [(offset, bs)]) ∧
      (p.fill (.start offset bs)).2.Printable ∧ (i, (p.fill (.start offset bs)).2.shown) = x := by
  have hpacket := packets_process haccepted
  rw [hp, Option.map_some] at hpacket
  have hrest : (((d.run history).process offset bs).1.bind fun i =>
      (((d.run history).process offset bs).2.packets[i]?).bind fun p =>
        p.print.bind fun shown => some (i, shown)) = some x ↔
      (p.fill (.start offset bs)).2.Printable ∧
        (i, (p.fill (.start offset bs)).2.shown) = x := by
    rw [haccepted, Option.bind_some, hpacket, Option.bind_some, Option.bind_eq_some_iff]
    simp only [Packet.print_eq_some_iff, Option.some_inj]
    exact ⟨fun ⟨_, ⟨hprintable, hshown⟩, heq⟩ => ⟨hprintable, hshown ▸ heq⟩,
      fun ⟨hprintable, heq⟩ => ⟨_, ⟨hprintable, rfl⟩, heq⟩⟩
  rw [insideAll_concat, ← hrest, and_assoc]
  constructor
  · intro h
    obtain ⟨e, he, hdecoded⟩ := Option.bind_eq_some_iff.1 h
    obtain ⟨r, hr, hshown⟩ := Option.bind_eq_some_iff.1 hdecoded
    obtain ⟨hinside, rfl⟩ := decodeAll_eq_some_iff.1 he
    obtain ⟨hlast, rfl⟩ := decode_eq_some_iff.1 hr
    exact ⟨hinside, hlast, hshown⟩
  · rintro ⟨hinside, hlast, hshown⟩
    exact Option.bind_eq_some_iff.2 ⟨_, decodeAll_eq_some_iff.2 ⟨hinside, rfl⟩,
      Option.bind_eq_some_iff.2 ⟨_, decode_eq_some_iff.2 ⟨hlast, rfl⟩, hshown⟩⟩

/-- A payload is displayed the same after two histories exactly when the program stays inside of its
memory in both, the packet has no display count behind its array, and what the payload leaves of the
packet is the same in both. -/
theorem printed_iff (d : ProtocolDefinition) (history history' : List (UInt32 × List UInt8))
    (offset offset' : UInt32) (bs : List UInt8) {i : Nat} {p p' : Packet}
    (haccepted : ((d.run history).process offset bs).1 = some i)
    (hp : (d.run history).packets[i]? = some p) (hp' : (d.run history').packets[i]? = some p') :
    (∃ x, printed d history offset bs = some x ∧ printed d history' offset' bs = some x) ↔
      (d.InsideAll (history ++ [(offset, bs)]) ∧ d.InsideAll (history' ++ [(offset', bs)])) ∧
        p.Displayable (.start offset bs) ∧
          p.leftover (.start offset bs) = p'.leftover (.start offset' bs) := by
  have hlayouts : (d.run history).packets.map Packet.layout =
      (d.run history').packets.map Packet.layout := by
    rw [layout_run, layout_run]
  -- the payload is accepted after the other history too, as the same packet
  have haccepted' : ((d.run history').process offset' bs).1 = some i := by
    rw [← haccepted]
    exact (fst_process_congr hlayouts offset offset' bs).symm
  have hlayout : p.layout = p'.layout := by
    have hmap := congrArg (·[i]?) hlayouts
    simpa only [List.getElem?_map, hp, hp', Option.map_some, Option.some_inj] using hmap
  have hsame : (DecodeState.start offset bs).Same (.start offset' bs) := ⟨rfl, rfl⟩
  have hprintable := Packet.printable_fill_iff hsame hlayout
  simp only [printed_eq_some_iff haccepted hp, printed_eq_some_iff haccepted' hp',
    ← Packet.shown_fill_iff hsame hlayout, hprintable.1, hprintable.2]
  constructor
  · rintro ⟨_, ⟨hinside, hdisplay, rfl⟩, hinside', -, heq⟩
    exact ⟨⟨hinside, hinside'⟩, hdisplay, (Prod.ext_iff.1 heq).2.symm⟩
  · rintro ⟨⟨hinside, hinside'⟩, hdisplay, heq⟩
    exact ⟨_, ⟨hinside, hdisplay, rfl⟩, hinside', hdisplay, by rw [heq]⟩

/-- A packet of a type and an array of up to two bytes. -/
def arrayPacket : Packet where
  name := "array"
  actions := [
    .field "type" (.builtin ⟨.unsigned ⟨.one, 1, 1, -1, some 1, .hex, none⟩, [0], oneCell⟩) 0,
    .field "data" (.builtin ⟨.unsigned ⟨.one, 2, 0, -1, none, .hex, none⟩, [0, 0], twoCells⟩) 0]
  subpackets := []
  numPacketBytes := 0
  lastSubpacket := none
  isField := List.forall_mem_cons.2 ⟨trivial, List.forall_mem_cons.2 ⟨trivial, nofun⟩⟩
  numPacketBytes_eq := rfl
  numPacketBytes_ne h := absurd rfl h

/-- An array that the payload fills to the end is displayed the same after any history. -/
theorem printed_full_array :
    ∃ x, printed ⟨[arrayPacket]⟩ [(0, [1, 5, 6])] 0 [1, 7, 8] = some x ∧
      printed ⟨[arrayPacket]⟩ [(0, [1, 8, 9])] 0 [1, 7, 8] = some x := by
  have haccepted : ((run ⟨[arrayPacket]⟩ [(0, [1, 5, 6])]).process 0 [1, 7, 8]).1 = some 0 := by
    decide
  refine (printed_iff _ _ [(0, [1, 8, 9])] 0 0 _ haccepted rfl rfl).2
    ⟨by decide, ⟨⟨Nat.le_refl 1, Nat.le_refl 2, trivial⟩, ?_⟩, by decide⟩
  rintro k ⟨⟩

/-- Otherwise an element of the previous packet is displayed. -/
theorem stale_printed :
    ¬ ∀ (d : ProtocolDefinition) (history history' : List (UInt32 × List UInt8))
      (offset offset' : UInt32) (bs : List UInt8), (printed d history offset bs).isSome →
        (printed d history' offset' bs).isSome →
          printed d history offset bs = printed d history' offset' bs := by
  intro hall
  have hfirst : printed ⟨[arrayPacket]⟩ [(0, [1, 5, 6])] 0 [1, 7] =
    some (0, [[1], [7, 6]], none) := by decide
  have hsecond : printed ⟨[arrayPacket]⟩ [(0, [1, 8, 9])] 0 [1, 7] =
    some (0, [[1], [7, 9]], none) := by decide
  have hsame := hall ⟨[arrayPacket]⟩ [(0, [1, 5, 6])] [(0, [1, 8, 9])] 0 0 [1, 7]
    (by rw [hfirst]; rfl) (by rw [hsecond]; rfl)
  rw [hfirst, hsecond] at hsame
  exact absurd hsame (by decide)

end ProtocolDefinition

end OpenRom
