import OpenRom.Protocol.Leaves

/-!
# Names of objects

`ObjectIdStore`, the provider of the annotation `objectid`, over a sequence of payloads. Annotations
are applied while a candidate is tried, so also for candidates that are rejected, and `insert` keeps
the name that an id has. Where neither makes a difference, the names are those that the packets
accepted last have given (`names_current`).
-/

set_option autoImplicit false

namespace OpenRom

open ProtocolDefinition

/-- The characters of a string in memory. -/
abbrev Chars := List Nat

/-- An id and the name that goes with it. -/
structure Naming where
  id : UInt32
  name : Chars
  deriving DecidableEq, Repr

/-- The `std::map` of the store. -/
structure ObjectIdStore where
  ids : List (UInt32 × Chars)
  deriving DecidableEq, Repr

/-- What a call of `Apply` uses that is neither in the struct nor in the store:
`GetHumanReadableContent`, for fields whose annotation may have the store for its provider, and the
memory behind a string. It is not the same in every call, as other providers store names as well. -/
structure Surroundings where
  humanReadableContent : ObjectIdStore → FieldType → Chars
  behind : Builtin → Chars

namespace ObjectIdStore

def empty : ObjectIdStore := ⟨[]⟩

def find (st : ObjectIdStore) (id : UInt32) : Option Chars := st.ids.lookup id

/-- `ObjectIdStore::Lookup` -/
def lookup (st : ObjectIdStore) (value : UInt32) : Chars := (st.find value).getD [63] -- '?'

/-- `insert` does nothing when the id is there. -/
def insert (st : ObjectIdStore) (n : Naming) : ObjectIdStore :=
  match st.find n.id with
  | some _ => st
  | none => ⟨(n.id, n.name) :: st.ids⟩

end ObjectIdStore

/-! ## Applying the annotation -/

/-- The first field of the struct with the name. -/
def findFieldByName (name : String) : List Action → Option FieldType
  | [] => none
  | .field fieldName type _ :: as =>
      if fieldName = name then some type else findFieldByName name as
  | .transformationAction _ :: as => findFieldByName name as
  | .annotationAction _ :: as => findFieldByName name as

/-- The `dynamic_cast` to `unsignedType` and `GetValue(0)`. -/
def ProtocolDefinition.FieldType.unsignedValue : FieldType → Option UInt32
  | .builtin ⟨.unsigned _, cells, _⟩ => some (UInt32.ofNat (cells.headD 0))
  | .builtin ⟨.signed _, cells, _⟩ => some (UInt32.ofNat (cells.headD 0))
  | _ => none

/-- The `dynamic_cast` to `stringType`. -/
def ProtocolDefinition.FieldType.stringObject : FieldType → Option Builtin
  | .builtin ⟨.string n minLength, cells, h⟩ => some ⟨.string n minLength, cells, h⟩
  | _ => none

/-- The last `<` and what follows it is removed, with the spaces in front of it. -/
def cutId (value : Chars) : Chars :=
  match value.reverse.dropWhile (· ≠ 60) with
  | [] => value
  | _ :: front => (front.dropWhile (· = 32)).reverse

/-- The value that `ObjectIdStore::Apply` stores: the name, or the race when that is empty. -/
def nameOf (around : Surroundings) (st : ObjectIdStore) (name : Builtin) (race : FieldType) :
    Chars :=
  let chars := (name.cells ++ around.behind name).takeWhile (· ≠ 0)
  if chars ≠ [] then chars.take 255 else cutId (around.humanReadableContent st race)

/-- What `ObjectIdStore::Apply` has to store, for the struct that is decoded. -/
def naming (around : Surroundings) (st : ObjectIdStore) (current : List Action) :
    Option Naming := do
  let charIdField ← findFieldByName "objectid" current
  let raceIdField ← findFieldByName "race" current
  let nameIdField ← findFieldByName "name" current
  let charIdValue ← charIdField.unsignedValue
  let nameValue ← nameIdField.stringObject
  return ⟨charIdValue, nameOf around st nameValue raceIdField⟩

/-- `ObjectIdStore::Apply` -/
def ObjectIdStore.apply (around : Surroundings) (st : ObjectIdStore) (current : List Action) :
    ObjectIdStore :=
  match naming around st current with
  | none => st
  | some n => st.insert n

/-! ## The calls of `Apply` -/

mutual

/-- The structs that the annotation is applied to in a call of `Type::Fill`, as they are then. -/
def ProtocolDefinition.FieldType.applications (s : DecodeState) : FieldType → List (List Action)
  | .builtin _ => []
  | .struct _ actions => applicationsOf s [] actions

/-- In the loop of `Struct::Fill`, the actions in front have been processed, and the others have the
values of earlier calls. -/
def applicationsOf (s : DecodeState) (front : List Action) : List Action → List (List Action)
  | [] => []
  | .field name type _ :: as =>
      type.applications s ++
        if (type.fill s).1 ≤ 0 then []
        else applicationsOf (s.advance (type.fill s).1)
          (front ++ [.field name (type.fill s).2 s.dataOffset]) as
  | .transformationAction t :: as =>
      match t.process s with
      | none => []
      | some s' => applicationsOf s' (front ++ [.transformationAction t]) as
  | .annotationAction name :: as =>
      (if name = "objectid" then [front ++ .annotationAction name :: as] else []) ++
        applicationsOf s (front ++ [.annotationAction name]) as

end

/-- A call of `Apply`, and whether it is for the packet that `Process` returns and, in it, for the
packet itself or the subpacket that is selected. -/
structure Application where
  accepted : Bool
  current : List Action

/-- The calls for the subpackets of a packet, in a state behind its header. -/
def subpacketApplications (ok : Bool) (s : DecodeState) (sps : List Subpacket) :
    List Application :=
  (List.tried (Subpacket.attempt s) sps).flatMap fun sp =>
    (applicationsOf s [] sp.actions).map fun current => ⟨ok && (sp.attempt s).1, current⟩

/-- The calls in `Packet::Fill`. -/
def packetApplications (s : DecodeState) (p : ProtocolDefinition.Packet) : List Application :=
  (applicationsOf s [] p.actions).map (fun current => ⟨(p.attempt s).1, current⟩) ++
    if p.headerSize s < 0 ∨ p.subpackets ≠ [] ∧ p.headerSize s ≠ p.numPacketBytes then []
    else subpacketApplications (p.attempt s).1 (s.advance p.numPacketBytes) p.subpackets

/-- The calls in `ProtocolDefinition::Process`. -/
def applications (d : ProtocolDefinition) (offset : UInt32) (data : List UInt8) :
    List Application :=
  (List.tried (ProtocolDefinition.Packet.attempt (.start offset data)) d.packets).flatMap
    (packetApplications (.start offset data))

/-! ## Runs -/

/-- The store, the number of calls of `Apply`, and the names that were given by what was accepted,
the latest first. -/
structure Names where
  store : ObjectIdStore
  calls : Nat
  given : List Naming
  deriving DecidableEq, Repr

def Names.empty : Names := ⟨.empty, 0, []⟩

/-- What the next call of `Apply` has to store. -/
def Names.naming (around : Nat → Surroundings) (names : Names) (a : Application) : Option Naming :=
  OpenRom.naming (around names.calls) names.store a.current

/-- The store after the next call of `Apply`. -/
def Names.applied (around : Nat → Surroundings) (names : Names) (a : Application) :
    ObjectIdStore :=
  names.store.apply (around names.calls) a.current

/-- One call of `Apply`. -/
def Names.note (around : Nat → Surroundings) (names : Names) (a : Application) : Names where
  store := names.applied around a
  calls := names.calls + 1
  given := if a.accepted then (names.naming around a).toList ++ names.given else names.given

/-- The name that was given to the id most recently. -/
def Names.latest (names : Names) (id : UInt32) : Option Chars :=
  (names.given.find? fun n => n.id = id).map (·.name)

/-- `Lookup` returns the name given most recently, and `?` if there is none. -/
def Names.Current (names : Names) : Prop :=
  ∀ id, names.store.lookup id = (names.latest id).getD [63]

/-- What is asked of every call in a list of them, at the names that it finds. -/
def Along (around : Nat → Surroundings) (P : Names → Application → Prop) :
    Names → List Application → Prop
  | _, [] => True
  | names, a :: as => P names a ∧ Along around P (names.note around a) as

/-- A call for a rejected candidate leaves the store as it is. -/
def Unchanged (around : Nat → Surroundings) (names : Names) (a : Application) : Prop :=
  a.accepted = false → names.applied around a = names.store

/-- A call for a rejected candidate names an id that has a name. Any other call names an id that has
none, or the same one. -/
def Fresh (around : Nat → Surroundings) (names : Names) (a : Application) : Prop :=
  ∀ n ∈ names.naming around a,
    if a.accepted then
      names.store.find n.id = none ∨ names.store.find n.id = some n.name
    else names.store.find n.id ≠ none

instance (around : Nat → Surroundings) (names : Names) (a : Application) :
    Decidable (Fresh around names a) :=
  inferInstanceAs (Decidable (∀ n ∈ names.naming around a,
    if a.accepted then
      names.store.find n.id = none ∨ names.store.find n.id = some n.name
    else names.store.find n.id ≠ none))

instance (around : Nat → Surroundings) (names : Names) (a : Application) :
    Decidable (Unchanged around names a) :=
  inferInstanceAs (Decidable (a.accepted = false →
    names.applied around a = names.store))

instance Along.decidable {around : Nat → Surroundings} {P : Names → Application → Prop}
    [∀ names a, Decidable (P names a)] :
    ∀ (names : Names) (as : List Application), Decidable (Along around P names as)
  | _, [] => inferInstanceAs (Decidable True)
  | names, a :: as =>
      have : Decidable (Along around P (names.note around a) as) := Along.decidable _ as
      inferInstanceAs (Decidable (P names a ∧ Along around P (names.note around a) as))

/-- The decoder with its definition, and the names. -/
structure Decoder where
  definition : ProtocolDefinition
  names : Names

/-- One call of `Process`. -/
def Decoder.process (around : Nat → Surroundings) (dec : Decoder) (offset : UInt32)
    (data : List UInt8) : Decoder where
  definition := (dec.definition.process offset data).2
  names := (applications dec.definition offset data).foldl (Names.note around) dec.names

/-- The states that payloads lead to, when every one of them is as asked. -/
inductive Decoder.Runs (around : Nat → Surroundings)
    (P : Decoder → UInt32 → List UInt8 → Prop) (d : ProtocolDefinition) : Decoder → Prop
  | start : Runs around P d ⟨d, .empty⟩
  | step {dec : Decoder} (offset : UInt32) (data : List UInt8) : Runs around P d dec →
      P dec offset data → Runs around P d (dec.process around offset data)

/-! ## Names that are current -/

namespace ObjectIdStore

theorem find_insert_self (st : ObjectIdStore) (n : Naming) :
    (st.insert n).find n.id = some ((st.find n.id).getD n.name) := by
  unfold insert
  cases h : st.find n.id with
  | none => exact List.lookup_cons_self
  | some name => exact h

theorem find_insert_of_ne (st : ObjectIdStore) {n : Naming} {id : UInt32} (hne : id ≠ n.id) :
    (st.insert n).find id = st.find id := by
  unfold insert
  cases st.find n.id with
  | none =>
      show List.lookup id ((n.id, n.name) :: st.ids) = _
      rw [List.lookup_cons, beq_eq_false_iff_ne.2 hne]
      rfl
  | some name => rfl

/-- Nothing is stored exactly when the id is there. -/
theorem insert_eq_self_iff {st : ObjectIdStore} {n : Naming} :
    st.insert n = st ↔ st.find n.id ≠ none := by
  unfold insert
  cases st.find n.id with
  | none =>
      refine iff_of_false (fun h => ?_) fun h => h rfl
      have hlen := congrArg (fun st => st.ids.length) h
      exact absurd hlen (Nat.succ_ne_self _)
  | some name => exact iff_of_true rfl nofun

end ObjectIdStore

/-- The store has exactly the names that were given last. -/
def Names.Agree (names : Names) : Prop := ∀ id, names.store.find id = names.latest id

theorem Names.Agree.current {names : Names} (h : names.Agree) : names.Current := by
  intro id
  rw [ObjectIdStore.lookup, h id]

theorem Names.latest_cons (st : ObjectIdStore) (calls : Nat) (names : Names) (n : Naming)
    (id : UInt32) :
    (⟨st, calls, n :: names.given⟩ : Names).latest id =
      if n.id = id then some n.name else names.latest id := by
  unfold latest
  by_cases h : n.id = id
  · rw [List.find?_cons_of_pos (by simpa using h), if_pos h]
    rfl
  · rw [List.find?_cons_of_neg (by simpa using h), if_neg h]

section Call

variable {around : Nat → Surroundings} {names : Names} (hagree : names.Agree) (a : Application)

include hagree

/-- The names agree after a call, and the store was not changed for a rejected candidate, exactly
when the call is as `Fresh` says. -/
theorem fresh_iff :
    Fresh around names a ↔ (names.note around a).Agree ∧ Unchanged around names a := by
  have happlied : names.applied around a =
      match names.naming around a with
      | none => names.store
      | some n => names.store.insert n := rfl
  cases hn : names.naming around a with
  | none =>
      -- there is nothing to store
      rw [hn] at happlied
      refine iff_of_true (fun n hmem => ?_) ⟨?_, fun _ => happlied⟩
      · rw [hn] at hmem
        cases hmem
      · have hgiven : (names.note around a).given = names.given := by
          unfold Names.note
          cases a.accepted <;> simp [hn]
        intro id
        show (names.applied around a).find id = _
        rw [happlied, hagree id, Names.latest, Names.latest, hgiven]
  | some n =>
      rw [hn] at happlied
      dsimp only at happlied
      have hfresh : Fresh around names a ↔
          if a.accepted then names.store.find n.id = none ∨ names.store.find n.id = some n.name
          else names.store.find n.id ≠ none := by
        unfold Fresh
        simp only [hn, Option.mem_def, Option.some.injEq, forall_eq']
      rw [hfresh]
      cases haccepted : a.accepted with
      | false =>
          have hunchanged : Unchanged around names a ↔ names.store.insert n = names.store := by
            unfold Unchanged
            simp only [happlied, haccepted, forall_const]
          have hgiven : (names.note around a).given = names.given := by
            unfold Names.note
            simp [haccepted]
          rw [hunchanged, ObjectIdStore.insert_eq_self_iff]
          refine ⟨fun hsome => ⟨fun id => ?_, hsome⟩, fun h => h.2⟩
          show (names.applied around a).find id = _
          rw [happlied, ObjectIdStore.insert_eq_self_iff.2 hsome, hagree id, Names.latest,
            Names.latest, hgiven]
      | true =>
          have hnote : names.note around a =
              ⟨names.store.insert n, names.calls + 1, n :: names.given⟩ := by
            unfold Names.note
            simp [hn, happlied, haccepted]
          rw [hnote]
          rw [if_pos rfl]
          constructor
          · intro hname
            refine ⟨fun id => ?_, fun hrejected => ?_⟩
            · rw [Names.latest_cons]
              by_cases hid : n.id = id
              · subst hid
                rw [if_pos rfl, ObjectIdStore.find_insert_self]
                rcases hname with h | h <;> rw [h] <;> rfl
              · rw [if_neg hid, ObjectIdStore.find_insert_of_ne _ fun h => hid h.symm, hagree id]
            · rw [haccepted] at hrejected
              cases hrejected
          · -- the name that is found is the one that was there
            rintro ⟨hall, -⟩
            have hself := hall n.id
            rw [Names.latest_cons, if_pos rfl, ObjectIdStore.find_insert_self] at hself
            cases hfind : names.store.find n.id with
            | none => exact Or.inl rfl
            | some name =>
                rw [hfind] at hself
                exact Or.inr hself

end Call

/-- So it is for all of the calls in a list. -/
theorem along_fresh {around : Nat → Surroundings} {names : Names} (hagree : names.Agree)
    {as : List Application} (h : Along around (Fresh around) names as) :
    (as.foldl (Names.note around) names).Agree ∧ Along around (Unchanged around) names as := by
  induction as generalizing names with
  | nil => exact ⟨hagree, trivial⟩
  | cons a as ih =>
      obtain ⟨hnext, hunchanged⟩ := (fresh_iff hagree a).1 h.1
      obtain ⟨hend, hrest⟩ := ih hnext h.2
      exact ⟨hend, hunchanged, hrest⟩

/-- Every call in the payload is as `Fresh` says. -/
def Decoder.FreshPayload (around : Nat → Surroundings) (dec : Decoder) (offset : UInt32)
    (data : List UInt8) : Prop :=
  Along around (Fresh around) dec.names (applications dec.definition offset data)

/-- No call for a rejected candidate changes the store. -/
def Decoder.UnchangedByRejected (around : Nat → Surroundings) (dec : Decoder) (offset : UInt32)
    (data : List UInt8) : Prop :=
  Along around (Unchanged around) dec.names (applications dec.definition offset data)

theorem Decoder.Runs.agree {around : Nat → Surroundings} {d : ProtocolDefinition} {dec : Decoder}
    (h : Decoder.Runs around (Decoder.FreshPayload around) d dec) : dec.names.Agree := by
  induction h with
  | start => exact fun _ => rfl
  | step offset data _ hfresh ih => exact (along_fresh ih hfresh).1

/-- A packet that names an object in its subpacket. -/
def objectPacket : ProtocolDefinition.Packet where
  name := "object"
  actions := [.field "type" (u32 (some 1)) 0]
  subpackets := [⟨"create", [.field "objectid" (u32 none) 0, .field "race" (u32 none) 0,
    .field "name" (.builtin ⟨.string 4 4, [0, 0, 0, 0], fourCells⟩) 0,
    .annotationAction "objectid"]⟩]
  numPacketBytes := 4
  lastSubpacket := none
  isField := List.forall_mem_cons.2 ⟨trivial, nofun⟩
  numPacketBytes_eq := by decide
  numPacketBytes_ne _ := by decide

/-- A payload that names object 7. -/
def namesSeven (name : List UInt8) : List UInt8 := [1, 0, 0, 0, 7, 0, 0, 0, 0, 0, 0, 0] ++ name

/-- Nothing is around, in any call. -/
def noSurroundings : Nat → Surroundings := fun _ => ⟨fun _ _ => [], fun _ => []⟩

end OpenRom
