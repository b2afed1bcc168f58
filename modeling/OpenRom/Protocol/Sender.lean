import OpenRom.Protocol.Members

/-!
# The emitted classes

What `GenerateFunctions` emits for a subpacket without a transformation: `Reset`, `Send`, and the
constructor from a frame, together with the setters of `GenerateChangers`. The object is the memory
of its members, behind the `ROM::Packet` that it begins with. Where fixed values and lengths are
after `Reset`, they stay (`Packet.Holds`).
-/

set_option autoImplicit false

namespace OpenRom

namespace ProtocolDefinition

/-! ## The emitted functions -/

/-- The assignment of its initial value to a member. -/
def Member.initializer (m : Member) : Option (Nat × List UInt8) :=
  match m.type.generateCInitialize with
  | some [literal] => some (m.offset, LittleEndian.encode m.type.sizeof literal.value.toNat)
  | _ => none -- nothing to assign, or not a C++ expression

/-- `GenerateInitializers`, for members from an offset on. -/
def generateInitializers (offset : Nat) (actions : List Action) : List (Nat × List UInt8) :=
  (generateFields offset actions).filterMap Member.initializer

/-- `GenerateLength` fills any length field of the packet. -/
def Packet.generateLength (p : Packet) (sp : Subpacket) : List (Nat × List UInt8) :=
  ((generateFields 0 p.actions).filter fun m => m.type.isLength).map fun m =>
    (m.offset, LittleEndian.encode 4 (constantSizes sp.actions))

def hasTransformation : List Action → Bool
  | [] => false
  | .field _ _ _ :: as => hasTransformation as
  | .transformationAction _ :: _ => true
  | .annotationAction _ :: as => hasTransformation as

/-- The size of the members of the struct of a subpacket, with the space for the packer. -/
def Packet.sizeofWith (p : Packet) (sp : Subpacket) : Nat :=
  sizeofMembers p.actions + sizeofMembers sp.actions +
    if hasTransformation sp.actions then 1024 else 0

/-- `P_S::Reset` -/
def Packet.reset (p : Packet) (sp : Subpacket) : List UInt8 :=
  let memory := List.replicate (p.sizeofWith sp) 0
  let memory := List.storeAll (generateInitializers 0 p.actions) memory
  let memory := List.storeAll (generateInitializers (sizeofMembers p.actions) sp.actions) memory
  List.storeAll (p.generateLength sp) memory

/-- A call of a function that `GenerateChangers` emits, with the bytes of the value. An array is
changed through a pointer to its members. -/
structure SetterCall where
  member : Member
  value : List UInt8

def runSetters (calls : List SetterCall) (memory : List UInt8) : List UInt8 :=
  List.storeAll (calls.map fun call => (call.member.offset, call.value)) memory

/-- What a member holds. -/
def Member.get (m : Member) (memory : List UInt8) : List UInt8 :=
  List.load m.offset m.type.sizeof memory

/-- The value that a member has been given last, if any. -/
def Member.given (m : Member) (value : List UInt8) : List SetterCall → List UInt8
  | [] => value
  | call :: calls =>
      m.given (if call.member.offset = m.offset then call.value else value) calls

/-- `P_S::Send`. What `State::Send` transmits of a message and a size is not in the repository. -/
def Packet.send (p : Packet) (sp : Subpacket) (stateSend : List UInt8 → Nat → List UInt8)
    (header memory : List UInt8) (iDelta : Int) : List UInt8 :=
  let memory := match lengthOffset 0 p.actions with
    | none => memory
    | some offset =>
        let length := LittleEndian.decode (List.load offset 4 memory)
        List.store offset (LittleEndian.encode 4 (uint32 (length + iDelta))) memory
  stateSend (header ++ memory)
    (romPacketSize + constantSizes p.actions + constantSizes sp.actions + iDelta).toNat

/-- The constructor from a frame. Nothing, when the assertion fails or it reads behind the frame. -/
def Packet.construct (p : Packet) (sp : Subpacket) (frame : List UInt8) : Option (List UInt8) :=
  let size := romPacketSize + p.sizeofWith sp
  if frame.length ≤ size ∧ size ≤ frame.length then some ((frame.take size).drop romPacketSize)
  else none

/-- `Parser::Process` on a frame, whose length it has as an `int`. -/
def deliver (parser : List PacketBlock) (frame : List UInt8) : Option Dispatch :=
  if frame.length < 2 ^ 31 then parserProcess parser frame else none

/-! ## What the members hold -/

/-- A setter of a member that has neither a fixed value nor a length. -/
structure SetterCall.Valid (p : Packet) (sp : Subpacket) (call : SetterCall) : Prop where
  member : call.member ∈ p.membersWith sp
  unfixed : call.member.type.generateCInitialize = some []
  notLength : call.member.type.isLength = false
  value : call.value.length = call.member.type.sizeof

/-- The members with fixed values, and the lengths of the packet, hold what `Reset` stores. -/
structure Packet.Holds (p : Packet) (sp : Subpacket) (memory : List UInt8) : Prop where
  length_eq : memory.length = p.sizeofWith sp
  fixed : ∀ m ∈ p.membersWith sp, ∀ literal c, m.Compares literal c →
    m.get memory = LittleEndian.encode m.type.sizeof literal.value.toNat
  lengths : ∀ m ∈ generateFields 0 p.actions, m.type.isLength = true →
    m.get memory = LittleEndian.encode 4 (constantSizes sp.actions)

theorem FieldType.sizeof_of_isLength {type : FieldType} (h : type.isLength = true) :
    type.sizeof = 4 ∧ type.generateCInitialize = some [] := by
  cases type with
  | struct => cases h
  | builtin object =>
      obtain ⟨type, cells, hcells⟩ := object
      cases type with
      | length => exact ⟨rfl, rfl⟩
      | unsigned => cases h
      | signed => cases h
      | string => cases h
      | float => cases h
      | double => cases h
      | unixtime => cases h

theorem Member.initializer_eq_some {m : Member} {w : Nat × List UInt8}
    (h : m.initializer = some w) :
    ∃ literal, m.type.generateCInitialize = some [literal] ∧ w.1 = m.offset ∧
      w.2 = LittleEndian.encode m.type.sizeof literal.value.toNat := by
  unfold initializer at h
  split at h
  next literal hinit =>
    cases h
    exact ⟨literal, hinit, rfl, rfl⟩
  next => cases h

/-! ## Stores to members -/

/-- Each of the stores is to a member of a kind. -/
def Packet.StoresTo (p : Packet) (sp : Subpacket) (kind : Member → Prop)
    (writes : List (Nat × List UInt8)) : Prop :=
  ∀ w ∈ writes, ∃ m ∈ p.membersWith sp, kind m ∧ w.1 = m.offset ∧ w.2.length = m.type.sizeof

theorem generateInitializers_storesTo (offset : Nat) (as : List Action) :
    ∀ w ∈ generateInitializers offset as, ∃ m ∈ generateFields offset as,
      m.type.generateCInitialize ≠ some [] ∧ w.1 = m.offset ∧ w.2.length = m.type.sizeof := by
  intro w hw
  obtain ⟨m, hm, hinit⟩ := List.mem_filterMap.1 hw
  obtain ⟨literal, hliteral, hoffset, hvalue⟩ := Member.initializer_eq_some hinit
  refine ⟨m, hm, ?_, hoffset, by rw [hvalue, LittleEndian.length_encode]⟩
  rw [hliteral]
  exact nofun

section Memory

variable {p : Packet} {sp : Subpacket} {memory : List UInt8} {kind : Member → Prop}
  {writes : List (Nat × List UInt8)}

theorem Packet.room {m : Member} (hm : m ∈ p.membersWith sp)
    (hlen : memory.length = p.sizeofWith sp) : m.offset + m.type.sizeof ≤ memory.length := by
  have hbound := membersWith_bounds m hm
  rw [hlen, sizeofWith]
  omega

theorem Packet.StoresTo.room (h : p.StoresTo sp kind writes)
    (hlen : memory.length = p.sizeofWith sp) :
    ∀ w ∈ writes, w.1 + w.2.length ≤ memory.length := by
  intro w hw
  obtain ⟨m, hm, -, hoffset, hsize⟩ := h w hw
  rw [hoffset, hsize]
  exact Packet.room hm hlen

theorem Packet.StoresTo.length_storeAll (h : p.StoresTo sp kind writes)
    (hlen : memory.length = p.sizeofWith sp) :
    (List.storeAll writes memory).length = p.sizeofWith sp :=
  (List.length_storeAll (h.room hlen)).trans hlen

/-- Members of other kinds are left as they are. -/
theorem Packet.StoresTo.get_storeAll (h : p.StoresTo sp kind writes)
    (hlen : memory.length = p.sizeofWith sp) {m : Member} (hm : m ∈ p.membersWith sp)
    (hkind : ¬ kind m) : m.get (List.storeAll writes memory) = m.get memory := by
  refine List.load_storeAll_of_apart (h.room hlen) fun w hw => ?_
  obtain ⟨m', hm', hkind', hoffset, hsize⟩ := h w hw
  rw [hoffset, hsize]
  refine membersWith_apart hm hm' ?_
  rintro rfl
  exact hkind hkind'

theorem Packet.storesTo_initializers (p : Packet) (sp : Subpacket) :
    p.StoresTo sp (fun m => m.type.generateCInitialize ≠ some [])
      (generateInitializers 0 p.actions ++
        generateInitializers (sizeofMembers p.actions) sp.actions) := by
  intro w hw
  rcases List.mem_append.1 hw with hw | hw
  · obtain ⟨m, hm, hw⟩ := generateInitializers_storesTo _ _ w hw
    exact ⟨m, List.mem_append_left _ hm, hw⟩
  · obtain ⟨m, hm, hw⟩ := generateInitializers_storesTo _ _ w hw
    exact ⟨m, List.mem_append_right _ hm, hw⟩

theorem Packet.storesTo_generateLength (p : Packet) (sp : Subpacket) :
    p.StoresTo sp (fun m => m.type.isLength = true) (p.generateLength sp) := by
  intro w hw
  obtain ⟨m, hm, rfl⟩ := List.mem_map.1 hw
  obtain ⟨hm, hlength⟩ := List.mem_filter.1 hm
  refine ⟨m, List.mem_append_left _ hm, hlength, rfl, ?_⟩
  rw [LittleEndian.length_encode, (FieldType.sizeof_of_isLength hlength).1]

theorem Packet.storesTo_setters {calls : List SetterCall} (h : ∀ call ∈ calls, call.Valid p sp) :
    p.StoresTo sp (fun m => m.type.generateCInitialize = some [] ∧ m.type.isLength = false)
      (calls.map fun call => (call.member.offset, call.value)) := by
  intro w hw
  obtain ⟨call, hcall, rfl⟩ := List.mem_map.1 hw
  obtain ⟨hm, hunfixed, hlength, hvalue⟩ := h call hcall
  exact ⟨call.member, hm, ⟨hunfixed, hlength⟩, rfl, hvalue⟩

/-- The stores of the initial values, and those of the lengths, do not overlap. -/
theorem Packet.initializers_pairwise :
    (generateInitializers 0 p.actions ++
      generateInitializers (sizeofMembers p.actions) sp.actions).Pairwise
        fun w w' => List.Apart w.1 w.2.length w'.1 w'.2.length := by
  have hmembers : generateInitializers 0 p.actions ++
      generateInitializers (sizeofMembers p.actions) sp.actions =
      (p.membersWith sp).filterMap Member.initializer := List.filterMap_append.symm
  rw [hmembers, List.pairwise_filterMap]
  refine membersWith_pairwise.imp fun hle w hw w' hw' => ?_
  obtain ⟨literal, -, hoffset, hvalue⟩ := Member.initializer_eq_some hw
  obtain ⟨literal', -, hoffset', hvalue'⟩ := Member.initializer_eq_some hw'
  rw [hoffset, hoffset', hvalue, hvalue', LittleEndian.length_encode, LittleEndian.length_encode]
  exact Or.inl hle

theorem Packet.generateLength_pairwise :
    (p.generateLength sp).Pairwise fun w w' => List.Apart w.1 w.2.length w'.1 w'.2.length := by
  refine List.pairwise_map.2 ((generateFields_pairwise.filter _).imp_of_mem ?_)
  intro m m' hm _ hle
  rw [(FieldType.sizeof_of_isLength (List.mem_filter.1 hm).2).1] at hle
  rw [LittleEndian.length_encode]
  exact Or.inl hle

theorem Packet.reset_eq (p : Packet) (sp : Subpacket) :
    p.reset sp = List.storeAll (p.generateLength sp) (List.storeAll
    (generateInitializers 0 p.actions ++ generateInitializers (sizeofMembers p.actions) sp.actions)
    (List.replicate (p.sizeofWith sp) 0)) := by
  rw [List.storeAll_append]
  rfl

/-- `Reset` stores all fixed values, and the lengths of the packet. -/
theorem Packet.reset_holds : p.Holds sp (p.reset sp) := by
  have hzero : (List.replicate (p.sizeofWith sp) (0 : UInt8)).length = p.sizeofWith sp :=
    List.length_replicate
  have hreset := reset_eq p sp
  have hfixed := storesTo_initializers p sp
  have hinit := hfixed.length_storeAll hzero
  have hlengths := storesTo_generateLength p sp
  constructor
  case length_eq => exact hreset ▸ hlengths.length_storeAll hinit
  case fixed =>
    rintro m hm literal c ⟨hliteral, -⟩
    -- a member with a fixed value is no length, so the lengths are stored beside it
    have hnot : ¬ m.type.isLength = true := by
      intro hlength
      cases hliteral.symm.trans (FieldType.sizeof_of_isLength hlength).2
    rw [hreset, hlengths.get_storeAll hinit hm hnot]
    have hw : (m.offset, LittleEndian.encode m.type.sizeof literal.value.toNat) ∈
        generateInitializers 0 p.actions ++
          generateInitializers (sizeofMembers p.actions) sp.actions := by
      have hsome : m.initializer =
          some (m.offset, LittleEndian.encode m.type.sizeof literal.value.toNat) := by
        unfold Member.initializer
        rw [hliteral]
      rcases List.mem_append.1 hm with hm | hm
      · exact List.mem_append_left _ (List.mem_filterMap.2 ⟨m, hm, hsome⟩)
      · exact List.mem_append_right _ (List.mem_filterMap.2 ⟨m, hm, hsome⟩)
    have hload := List.load_storeAll (hfixed.room hzero) initializers_pairwise _ hw
    rwa [LittleEndian.length_encode] at hload
  case lengths =>
    intro m hm hlength
    have hw : (m.offset, LittleEndian.encode 4 (constantSizes sp.actions)) ∈ p.generateLength sp :=
      List.mem_map.2 ⟨m, List.mem_filter.2 ⟨hm, hlength⟩, rfl⟩
    have hload := List.load_storeAll (hlengths.room hinit) generateLength_pairwise _ hw
    rw [LittleEndian.length_encode] at hload
    rw [hreset, Member.get, (FieldType.sizeof_of_isLength hlength).1]
    exact hload

/-- Where nothing is initialized, `Reset` leaves zeros. -/
theorem Packet.load_reset {offset size : Nat} (hroom : offset + size ≤ p.sizeofWith sp)
    (hapart : ∀ m ∈ p.membersWith sp,
      m.type.generateCInitialize ≠ some [] ∨ m.type.isLength = true →
        List.Apart offset size m.offset m.type.sizeof) :
    List.load offset size (p.reset sp) = List.replicate size 0 := by
  have hzero : (List.replicate (p.sizeofWith sp) (0 : UInt8)).length = p.sizeofWith sp :=
    List.length_replicate
  have hfixed := storesTo_initializers p sp
  have hinit := hfixed.length_storeAll hzero
  have hlengths := storesTo_generateLength p sp
  rw [reset_eq, List.load_storeAll_of_apart (hlengths.room hinit) fun w hw => ?_,
    List.load_storeAll_of_apart (hfixed.room hzero) fun w hw => ?_]
  · rw [List.load, List.drop_replicate, List.take_replicate]
    exact congrArg (List.replicate · 0) (by omega)
  · obtain ⟨m, hm, hkind, hoffset, hsize⟩ := hfixed w hw
    rw [hoffset, hsize]
    exact hapart m hm (Or.inl hkind)
  · obtain ⟨m, hm, hkind, hoffset, hsize⟩ := hlengths w hw
    rw [hoffset, hsize]
    exact hapart m hm (Or.inr hkind)

/-- A member without a fixed value, that is not a length, is zero after `Reset`. -/
theorem Packet.get_reset {m : Member} (hm : m ∈ p.membersWith sp)
    (hinit : m.type.generateCInitialize = some []) (hnot : m.type.isLength = false) :
    m.get (p.reset sp) = List.replicate m.type.sizeof 0 := by
  have hroom : m.offset + m.type.sizeof ≤ p.sizeofWith sp := by
    have hbound := membersWith_bounds m hm
    rw [sizeofWith]
    omega
  refine load_reset hroom fun m' hm' hkind => membersWith_apart hm hm' ?_
  rintro rfl
  rcases hkind with hfixed | hlength
  · exact hfixed hinit
  · cases hnot.symm.trans hlength

/-- The setters keep it. -/
theorem Packet.Holds.runSetters (h : p.Holds sp memory) {calls : List SetterCall}
    (hcalls : ∀ call ∈ calls, call.Valid p sp) : p.Holds sp (runSetters calls memory) := by
  have hstores := storesTo_setters hcalls
  constructor
  case length_eq => exact hstores.length_storeAll h.length_eq
  case fixed =>
    intro m hm literal c hc
    have hnot : ¬ (m.type.generateCInitialize = some [] ∧ m.type.isLength = false) := by
      rintro ⟨hnil, -⟩
      cases hnil.symm.trans hc.1
    exact (hstores.get_storeAll h.length_eq hm hnot).trans (h.fixed m hm literal c hc)
  case lengths =>
    intro m hm hlength
    have hnot : ¬ (m.type.generateCInitialize = some [] ∧ m.type.isLength = false) := by
      rintro ⟨-, hfalse⟩
      cases hfalse.symm.trans hlength
    exact (hstores.get_storeAll h.length_eq (List.mem_append_left _ hm) hnot).trans
      (h.lengths m hm hlength)

/-- No two members of constant size begin at one offset. -/
theorem Packet.membersWith_ext (hp : Sized p.actions) (hsp : Sized sp.actions) {m m' : Member}
    (hm : m ∈ p.membersWith sp) (hm' : m' ∈ p.membersWith sp) (h : m.offset = m'.offset) :
    m = m' := by
  have hpos : ∀ m ∈ p.membersWith sp, 0 < m.type.sizeof := by
    intro m hm
    have hconst : 0 < m.type.constantSize := by
      rcases List.mem_append.1 hm with hm | hm
      · exact generateFields_sized hp m hm
      · exact generateFields_sized hsp m hm
    have hsize := FieldType.sizeof_of_constantSize hconst
    omega
  refine Classical.byContradiction fun hne => ?_
  have hsize := hpos m hm
  have hsize' := hpos m' hm'
  rcases membersWith_apart hm hm' hne with hapart | hapart
  · omega
  · omega

/-- The members hold what the setters have given them. -/
theorem Packet.get_runSetters (hp : Sized p.actions) (hsp : Sized sp.actions)
    {calls : List SetterCall} (hcalls : ∀ call ∈ calls, call.Valid p sp)
    (hlen : memory.length = p.sizeofWith sp) {m : Member} (hm : m ∈ p.membersWith sp) :
    m.get (runSetters calls memory) = m.given (m.get memory) calls := by
  induction calls generalizing memory with
  | nil => rfl
  | cons call calls ih =>
      obtain ⟨hcall, hcalls⟩ := List.forall_mem_cons.1 hcalls
      have hroom : call.member.offset + call.value.length ≤ memory.length := by
        rw [hcall.value]
        exact room hcall.member hlen
      have hget : m.get (List.store call.member.offset call.value memory) =
          if call.member.offset = m.offset then call.value else m.get memory := by
        by_cases hoffset : call.member.offset = m.offset
        · obtain rfl := membersWith_ext hp hsp hcall.member hm hoffset
          rw [if_pos rfl, Member.get, ← hcall.value]
          exact List.load_store_self hroom
        · rw [if_neg hoffset]
          refine List.load_store_of_apart ?_ hroom
          rw [hcall.value]
          refine membersWith_apart hm hcall.member ?_
          rintro rfl
          exact hoffset rfl
      rw [Member.given, ← hget]
      exact ih hcalls ((List.length_store hroom).trans hlen)

end Memory

end ProtocolDefinition

end OpenRom
