import OpenRom.Library.OrderedMap
import OpenRom.RomDump.Screen

/-!
# The map of flows

`main` keeps its flows in a map that is ordered by `operator<` of the connections, and walks over it
when the capture is at its end. The order tells all connections apart, so the map is as good as a
function from them (`tracks_dump`). Every byte of the capture is then accounted for: it was in a
frame that came to `AnalyzePacket`, or it is in what the walk warns about, once for each connection
(`dump_accounts`).
-/

set_option autoImplicit false

namespace OpenRom.RomDump

/-! ## The order -/

/-- `operator<` -/
def IPv4Address.lessThan (a b : IPv4Address) : Prop :=
  if a.address = b.address then a.port < b.port else a.address < b.address

instance : DecidableRel IPv4Address.lessThan := fun a b =>
  inferInstanceAs (Decidable (if a.address = b.address then _ else _))

/-- `operator<` -/
def Connection.lessThan (c d : Connection) : Prop :=
  if c.source = d.source then c.dest.lessThan d.dest else c.source.lessThan d.source

instance : DecidableRel Connection.lessThan := fun c d =>
  inferInstanceAs (Decidable (if c.source = d.source then _ else _))

theorem isStrictTotalOrder_uint32 : IsStrictTotalOrder UInt32 (· < ·) where
  irrefl := UInt32.lt_irrefl
  trans _ _ _ := UInt32.lt_trans
  trichotomous _ _ hab hba := UInt32.le_antisymm (UInt32.not_lt.1 hba) (UInt32.not_lt.1 hab)

theorem isStrictTotalOrder_uint16 : IsStrictTotalOrder UInt16 (· < ·) where
  irrefl := UInt16.lt_irrefl
  trans _ _ _ := UInt16.lt_trans
  trichotomous _ _ hab hba := UInt16.le_antisymm (UInt16.not_lt.1 hba) (UInt16.not_lt.1 hab)

instance : IsStrictTotalOrder IPv4Address IPv4Address.lessThan :=
  have := isStrictTotalOrder_uint32
  have := isStrictTotalOrder_uint16
  OrderedMap.isStrictTotalOrder_fields (f := IPv4Address.address) (g := IPv4Address.port)
    (fun a b haddress hport => by
      cases a
      cases b
      cases haddress
      cases hport
      rfl) (· < ·) (· < ·)

instance : IsStrictTotalOrder Connection Connection.lessThan :=
  OrderedMap.isStrictTotalOrder_fields (f := Connection.source) (g := Connection.dest)
    (fun c d hsource hdest => by
      cases c
      cases d
      cases hsource
      cases hdest
      rfl) IPv4Address.lessThan IPv4Address.lessThan

/-! ## The loop over the records -/

/-- `TConnectionFlowPtrMap` -/
abbrev FlowMap := OrderedMap Connection Flow Connection.lessThan

/-- Where the loop of `main` is. -/
structure Dumper where
  flows : FlowMap
  screen : Screen
  ended : Bool

/-- The loop of `main`, from where it has a record. -/
def Dumper.visit (o : Options) (u : Unset) (d : Dumper) (r : Record) : Dumper :=
  if d.ended then d
  else
    let flows := d.flows.insert r.connection .fresh
    match (flows.find r.connection).bind fun flow => flow.append r.data with
    | none => { d with flows := flows, ended := true }
    | some flow =>
        match (cutter (Screen.analyze o u r.connection)).drain d.screen flow.left with
        | .halted screen => ⟨flows, screen, true⟩
        | .idle screen rest => ⟨flows.set r.connection (flow.process rest), screen, false⟩

/-- The loop of `main` on the records that its parsers find. -/
def dump (u : Unset) (d : ProtocolDefinition) (o : Options) (records : List Record) : Dumper :=
  records.foldl (Dumper.visit o u) ⟨.empty, ⟨.zero, d, 1, []⟩, false⟩

/-- What `main` prints of a flow that is not at its end. -/
structure Leftover where
  connection : Connection
  iLeft : Nat
  firstLength : Option UInt32
  deriving DecidableEq, Repr

/-- The last loop of `main`, for one flow. -/
def leftover (x : Connection × Flow) : Option Leftover :=
  if x.2.currentDataOffset = x.2.dataBufferUsed then none
  else some ⟨x.1, x.2.left.length, (Packet.read x.2.left).map (·.pLength)⟩

/-- The last loop of `main`. -/
def Dumper.leftovers (d : Dumper) : List Leftover := d.flows.entries.filterMap leftover

/-! ## The map finds what has been put in -/

/-- The flows are those that a function from the connections would give. -/
structure Tracks (d : Dumper) (r : Reader Screen) : Prop where
  screen : d.screen = r.state
  ended : d.ended = r.ended
  flows : r.ended = false → ∀ c, d.flows.find c = r.flows c

theorem Tracks.visit {o : Options} {u : Unset} {d : Dumper} {reader : Reader Screen}
    (h : Tracks d reader) (r : Record) :
    Tracks (d.visit o u r) (reader.visit (Screen.analyze o u) r) := by
  rw [Dumper.visit, Reader.visit, h.ended]
  by_cases hended : reader.ended = true
  · rw [if_pos hended, if_pos hended]
    exact h
  rw [if_neg hended, if_neg hended]
  have hflows := h.flows (eq_false_of_ne_true hended)
  have hfind : (d.flows.insert r.connection .fresh).find r.connection =
      some (reader.flow r.connection) := by
    rw [OrderedMap.find_insert, if_pos rfl, hflows]
    rfl
  simp only [hfind, Option.bind_some]
  cases happend : (reader.flow r.connection).append r.data with
  | none => exact ⟨h.screen, rfl, fun hgoing => absurd hgoing.symm Bool.false_ne_true⟩
  | some flow =>
      dsimp only
      rw [h.screen]
      cases (cutter (Screen.analyze o u r.connection)).drain reader.state flow.left with
      | halted screen => exact ⟨rfl, rfl, fun hgoing => absurd hgoing.symm Bool.false_ne_true⟩
      | idle screen rest =>
          refine ⟨rfl, rfl, fun _ c => ?_⟩
          dsimp only
          rw [OrderedMap.find_set, hfind]
          by_cases hc : c = r.connection
          · rw [if_pos hc, if_pos hc]
            rfl
          · rw [if_neg hc, if_neg hc, OrderedMap.find_insert, if_neg hc, hflows]

theorem tracks_dump (u : Unset) (d : ProtocolDefinition) (o : Options) (records : List Record) :
    Tracks (dump u d o records) (view u d o records) := by
  have hrun : ∀ (records : List Record) (d : Dumper) (r : Reader Screen), Tracks d r →
      Tracks (records.foldl (Dumper.visit o u) d)
        (records.foldl (Reader.visit (Screen.analyze o u)) r) := by
    intro records
    induction records with
    | nil => exact fun d r h => h
    | cons record records ih => exact fun d r h => ih _ _ (h.visit record)
  exact hrun records _ _ ⟨rfl, rfl, fun _ c => rfl⟩

/-! ## Frames are bytes of the flow -/

/-- A frame at the front of a flow, and what is behind it. -/
theorem bytes_of_front {bs : List UInt8} {f : Packet} (hf : front bs = .frame f) :
    f.bytes ++ bs.drop f.pLength.toNat = bs := by
  obtain ⟨hmin, hmax⟩ := length_of_front hf
  unfold front at hf
  split at hf
  · cases hf
  next p hread =>
    split at hf
    · cases hf
    split at hf
    · cases hf
    cases hf
    have hbytes := Packet.bytes_of_read hread
    have hlen : p.frame.pLength = p.pLength := rfl
    rw [hlen] at hmin hmax ⊢
    have hheader : p.frame.header = p.header := rfl
    have hdrop : bs.drop p.pLength.toNat = p.pData.drop (p.pLength.toNat - sizeofPacket) := by
      rw [← hbytes, Packet.bytes, List.drop_append,
        List.drop_of_length_le (by rw [Packet.length_header]; exact hmin), Packet.length_header]
      rfl
    rw [Packet.bytes, hheader, hdrop, Packet.frame, List.append_assoc, List.take_append_drop]
    exact hbytes

/-- The frames and what is left are the bytes of the flow, and no frame is left whole. -/
theorem bytes_of_frames {bs : List UInt8} {fs : List Packet} {rest : List UInt8}
    (h : frames bs = (fs, some rest)) :
    bs = (fs.map Packet.bytes).flatten ++ rest ∧ front rest = .part := by
  induction hk : bs.length using Nat.strongRecOn generalizing bs fs with
  | ind k ih =>
      cases hf : front bs with
      | part =>
          rw [frames_of_part hf] at h
          cases h
          exact ⟨rfl, hf⟩
      | abort =>
          rw [frames_of_abort hf] at h
          cases h
      | frame f =>
          have hlen := length_of_front hf
          simp only [sizeofPacket] at hlen
          rw [frames_of_frame hf] at h
          obtain ⟨rfl, hrest⟩ := Prod.mk.inj h
          have hbehind := ih _ (by rw [List.length_drop]; omega) (Prod.ext rfl hrest) rfl
          refine ⟨?_, hbehind.2⟩
          rw [List.map_cons, List.flatten_cons, List.append_assoc, ← hbehind.1,
            bytes_of_front hf]

/-- When `AnalyzeFlow` comes to its end, it has handled the frames, and has left what is behind
them. -/
theorem frames_of_drain {σ : Type} {handle : σ → Packet → Option σ} {s s' : σ}
    {bs rest : List UInt8} (h : (cutter handle).drain s bs = .idle s' rest) :
    ∃ fs, frames bs = (fs, some rest) ∧ handleAll handle s fs = (s', true) := by
  rw [drain_cutter] at h
  rcases hframes : frames bs with ⟨fs, _ | rest'⟩
  · rw [hframes] at h
    split at h <;> cases h
    next heq => cases heq
  · rw [hframes] at h
    rcases hall : handleAll handle s fs with ⟨t, _ | _⟩
    · simp only [hall] at h
      cases h
    · simp only [hall] at h
      cases h
      exact ⟨fs, rfl, hall⟩

theorem left_append {f f' : Flow} {buffer : List UInt8} (h : f.append buffer = some f') :
    f'.left = f.left ++ buffer := by
  unfold Flow.append at h
  split at h <;> cases h
  rfl

/-! ## Accounts -/

/-- The bytes of a connection. -/
def received (c : Connection) (records : List Record) : List UInt8 :=
  ((records.filter fun r => r.connection = c).map (·.data)).flatten

theorem received_append (c : Connection) (records : List Record) (r : Record) :
    received c (records ++ [r]) =
      received c records ++ if r.connection = c then r.data else [] := by
  by_cases hc : r.connection = c <;> simp [received, hc]

/-- The bytes of the frames of a connection. -/
def analyzed (c : Connection) (calls : List (Connection × Packet)) : List UInt8 :=
  ((calls.filter fun x => x.1 = c).map fun x => x.2.bytes).flatten

theorem analyzed_append (c conn : Connection) (calls : List (Connection × Packet))
    (fs : List Packet) :
    analyzed c (calls ++ fs.map fun f => (conn, f)) =
      analyzed c calls ++ if conn = c then (fs.map Packet.bytes).flatten else [] := by
  by_cases hc : conn = c <;> simp [analyzed, hc, List.filter_map, Function.comp_def]

/-- The bytes of a connection that have not been processed. -/
def Dumper.left (d : Dumper) (c : Connection) : List UInt8 :=
  ((d.flows.find c).map (·.left)).getD []

/-- The flow of a connection, or the one that `main` will make for it. -/
def Dumper.flow (d : Dumper) (c : Connection) : Flow := (d.flows.find c).getD .fresh

/-- A call of `AnalyzePacket`, as what the loop of `main` comes to. -/
def called (x : Connection × Packet) : Step := (x.1, some x.2)

/-- A call of `AnalyzePacket`. -/
def callStep (o : Options) (u : Unset) (st : Screen) (x : Connection × Packet) : Option Screen :=
  st.analyze o u x.1 x.2

theorem handleAll_calls (o : Options) (u : Unset) (conn : Connection) (st : Screen)
    (fs : List Packet) :
    handleAll (callStep o u) st (fs.map fun f => (conn, f)) =
      handleAll (Screen.analyze o u conn) st fs := by
  induction fs generalizing st with
  | nil => rfl
  | cons f fs ih =>
      have hstep : callStep o u st (conn, f) = Screen.analyze o u conn st f := rfl
      rw [List.map_cons, handleAll, handleAll, hstep]
      cases Screen.analyze o u conn st f with
      | none => rfl
      | some st => exact ih st

/-- What a record does that does not end the program. -/
theorem Dumper.visit_going {o : Options} {u : Unset} {d : Dumper} {r : Record}
    (hgoing : (d.visit o u r).ended = false) :
    ∃ flow fs screen rest,
      (d.flow r.connection).append r.data = some flow ∧
        frames flow.left = (fs, some rest) ∧
          handleAll (Screen.analyze o u r.connection) d.screen fs = (screen, true) ∧
            d.visit o u r =
              ⟨(d.flows.insert r.connection .fresh).set r.connection (flow.process rest), screen,
                false⟩ := by
  rw [Dumper.visit] at hgoing ⊢
  split at hgoing
  next hended => exact absurd (hgoing.symm.trans hended) Bool.false_ne_true
  next hended =>
    rw [if_neg hended]
    simp only [OrderedMap.find_insert, if_pos, Option.bind_some] at hgoing ⊢
    rw [Dumper.flow]
    cases happend : ((d.flows.find r.connection).getD .fresh).append r.data with
    | none =>
        rw [happend] at hgoing
        exact absurd hgoing.symm Bool.false_ne_true
    | some flow =>
        simp only [happend] at hgoing ⊢
        cases hdrain : (cutter (Screen.analyze o u r.connection)).drain d.screen flow.left with
        | halted screen =>
            rw [hdrain] at hgoing
            exact absurd hgoing.symm Bool.false_ne_true
        | idle screen rest =>
            obtain ⟨fs, hframes, hall⟩ := frames_of_drain hdrain
            exact ⟨flow, fs, screen, rest, rfl, hframes, hall, rfl⟩

theorem Dumper.foldl_visit_of_ended (o : Options) (u : Unset) {d : Dumper} (h : d.ended = true)
    (records : List Record) : records.foldl (visit o u) d = d := by
  induction records with
  | nil => rfl
  | cons r records ih => rw [List.foldl_cons, visit, if_pos h, ih]

/-- The program has made these calls, and every byte is in one of them or left in its flow. -/
structure Accounts (o : Options) (u : Unset) (start : Screen) (records : List Record)
    (calls : List (Connection × Packet)) (d : Dumper) : Prop where
  steps : ∀ more, steps (fun _ => .fresh) (records ++ more) =
    calls.map called ++ RomDump.steps d.flow more
  screen : handleAll (callStep o u) start calls = (d.screen, true)
  received : ∀ c, received c records = analyzed c calls ++ d.left c
  part : ∀ c, front (d.left c) = .part

theorem Accounts.visit {o : Options} {u : Unset} {start : Screen} {records : List Record}
    {calls : List (Connection × Packet)} {d : Dumper} (h : Accounts o u start records calls d)
    {r : Record} (hgoing : (d.visit o u r).ended = false) :
    ∃ calls', Accounts o u start (records ++ [r]) calls' (d.visit o u r) := by
  obtain ⟨flow, fs, screen, rest, happend, hframes, hall, hvisit⟩ := Dumper.visit_going hgoing
  obtain ⟨hbytes, hpart⟩ := bytes_of_frames hframes
  have hold : (d.flow r.connection).left = d.left r.connection := by
    rw [Dumper.left, Dumper.flow]
    cases d.flows.find r.connection <;> rfl
  -- only the flow of the record's connection changes
  have hflow : (d.visit o u r).flow =
      Function.update d.flow r.connection (flow.process rest) := by
    funext c
    rw [hvisit, Dumper.flow, OrderedMap.find_set, OrderedMap.find_insert, OrderedMap.find_insert,
      if_pos rfl]
    by_cases hc : c = r.connection
    · rw [if_pos hc, hc, Function.update_self]
      rfl
    · rw [if_neg hc, if_neg hc, Function.update_of_ne hc]
      rfl
  have hleft : ∀ c, (d.visit o u r).left c = if c = r.connection then rest else d.left c := by
    intro c
    rw [hvisit, Dumper.left, OrderedMap.find_set, OrderedMap.find_insert, OrderedMap.find_insert,
      if_pos rfl]
    by_cases hc : c = r.connection
    · rw [if_pos hc, if_pos hc]
      rfl
    · rw [if_neg hc, if_neg hc, if_neg hc]
      rfl
  have hfeed : (d.flow r.connection).feed r.data = (flow.process rest, fs.map some) := by
    simp only [Flow.feed, happend, hframes]
  refine ⟨calls ++ fs.map fun f => (r.connection, f), fun more => ?_, ?_, fun c => ?_, fun c => ?_⟩
  · -- the new calls are the steps of this record
    have hcalled : (fs.map some).map (fun f => (r.connection, f)) =
        (fs.map fun f => (r.connection, f)).map called := by
      rw [List.map_map, List.map_map]
      rfl
    rw [List.append_assoc, List.singleton_append, h.steps, RomDump.steps, hfeed, hflow,
      List.map_append, List.append_assoc, ← hcalled]
  · rw [handleAll_append, h.screen]
    simp only [handleAll_calls, hall, hvisit]
  · rw [received_append, h.received, analyzed_append, hleft, List.append_assoc, List.append_assoc]
    by_cases hc : r.connection = c
    · rw [if_pos hc, if_pos hc, if_pos hc.symm, ← hbytes, left_append happend, hold, hc]
    · rw [if_neg hc, if_neg hc, if_neg (Ne.symm hc), List.append_nil, List.nil_append]
  · rw [hleft]
    split
    · exact hpart
    · exact h.part c

theorem Accounts.foldl_visit {o : Options} {u : Unset} {start : Screen} (records : List Record) :
    ∀ {past : List Record} {calls : List (Connection × Packet)} {d : Dumper},
      Accounts o u start past calls d → (records.foldl (Dumper.visit o u) d).ended = false →
        ∃ calls', Accounts o u start (past ++ records) calls'
          (records.foldl (Dumper.visit o u) d) := by
  induction records with
  | nil =>
      intro past calls d h _
      rw [List.append_nil]
      exact ⟨calls, h⟩
  | cons r records ih =>
      intro past calls d h hgoing
      rw [List.foldl_cons] at hgoing ⊢
      have hvisit : (d.visit o u r).ended = false := by
        refine eq_false_of_ne_true fun hended => ?_
        rw [Dumper.foldl_visit_of_ended o u hended, hended] at hgoing
        exact Bool.false_ne_true hgoing.symm
      obtain ⟨calls', h'⟩ := h.visit hvisit
      obtain ⟨calls'', h''⟩ := ih h' hgoing
      rw [List.append_assoc, List.singleton_append] at h''
      exact ⟨calls'', h''⟩

/-! ## What is left -/

theorem leftover_eq (c : Connection) (flow : Flow) :
    leftover (c, flow) =
      if flow.left = [] then none
      else some ⟨c, flow.left.length, (Packet.read flow.left).map (·.pLength)⟩ := by
  have hiff : flow.currentDataOffset = flow.dataBufferUsed ↔ flow.left = [] := by
    rw [Flow.dataBufferUsed, ← List.length_eq_zero_iff]
    omega
  rw [leftover]
  by_cases hleft : flow.left = []
  · rw [if_pos hleft, if_pos (hiff.2 hleft)]
  · rw [if_neg hleft, if_neg (mt hiff.1 hleft)]

theorem connection_leftover {x : Connection × Flow} {w : Leftover} (h : leftover x = some w) :
    w.connection = x.1 := by
  unfold leftover at h
  split at h <;> cases h
  rfl

/-- One warning for a connection, in the order of the connections. -/
theorem Dumper.leftovers_sorted (d : Dumper) :
    d.leftovers.Pairwise fun w w' => w.connection.lessThan w'.connection := by
  refine List.pairwise_filterMap.2 (d.flows.sorted.imp fun {x y} hlt w hw w' hw' => ?_)
  rwa [connection_leftover hw, connection_leftover hw']

/-- The warning for a connection is about what is left in its flow. -/
theorem Dumper.mem_leftovers_iff {d : Dumper} {w : Leftover} :
    w ∈ d.leftovers ↔ d.left w.connection ≠ [] ∧
      w = ⟨w.connection, (d.left w.connection).length,
        (Packet.read (d.left w.connection)).map (·.pLength)⟩ := by
  rw [leftovers, List.mem_filterMap]
  constructor
  · rintro ⟨⟨c, flow⟩, hmem, hw⟩
    obtain rfl : w.connection = c := connection_leftover hw
    have hleft : d.left w.connection = flow.left := by
      rw [left, OrderedMap.mem_entries_iff.1 hmem]
      rfl
    rw [leftover_eq] at hw
    split at hw
    · cases hw
    next hne =>
      rw [hleft]
      exact ⟨hne, (Option.some.inj hw).symm⟩
  · rintro ⟨hne, hw⟩
    cases hfind : d.flows.find w.connection with
    | none =>
        rw [left, hfind] at hne
        exact absurd rfl hne
    | some flow =>
        have hleft : d.left w.connection = flow.left := by
          rw [left, hfind]
          rfl
        rw [hleft] at hne hw
        refine ⟨(w.connection, flow), OrderedMap.mem_entries_iff.2 hfind, ?_⟩
        rw [leftover_eq, if_neg hne, ← hw]

/-- When the program gets to the end of the capture, the bytes of every connection are those of the
frames that came to `AnalyzePacket`, each once and in order, and behind them what is no whole frame:
if there are any, the connection is in one warning with their number, and with the length in their
header if this is there. -/
theorem dump_accounts (u : Unset) (d : ProtocolDefinition) (o : Options) (records : List Record)
    (h : (dump u d o records).ended = false) :
    (dump u d o records).screen = (view u d o records).state ∧
      ((dump u d o records).leftovers.Pairwise fun w w' =>
        w.connection.lessThan w'.connection) ∧
      ∃ calls : List (Connection × Packet),
        steps (fun _ => .fresh) records = calls.map called ∧
        handleAll (callStep o u) ⟨.zero, d, 1, []⟩ calls = ((dump u d o records).screen, true) ∧
          ∀ c, ∃ left, received c records = analyzed c calls ++ left ∧ front left = .part ∧
            ∀ w : Leftover, w ∈ (dump u d o records).leftovers ∧ w.connection = c ↔
              left ≠ [] ∧ w = ⟨c, left.length, (Packet.read left).map (·.pLength)⟩ := by
  have hstart : Accounts o u ⟨.zero, d, 1, []⟩ [] [] ⟨.empty, ⟨.zero, d, 1, []⟩, false⟩ :=
    ⟨fun more => rfl, rfl, fun c => rfl, fun c => rfl⟩
  obtain ⟨calls, haccounts⟩ := hstart.foldl_visit records h
  have hsteps := haccounts.steps []
  rw [List.append_nil, List.nil_append, steps, List.append_nil] at hsteps
  refine ⟨(tracks_dump u d o records).screen, Dumper.leftovers_sorted _, calls, hsteps,
    haccounts.screen,
    fun c => ⟨(dump u d o records).left c, haccounts.received c, haccounts.part c, fun w => ?_⟩⟩
  rw [Dumper.mem_leftovers_iff]
  constructor
  · rintro ⟨hw, rfl⟩
    exact hw
  · rintro ⟨hne, hw⟩
    obtain rfl : w.connection = c := congrArg Leftover.connection hw
    exact ⟨⟨hne, hw⟩, rfl⟩

/-- A capture of two connections, one of which has three bytes left. -/
theorem dump_accounts_capture :
    let o : Options := ⟨⟨false, false⟩, false, true, [], parseList [] "typed,move".toList⟩
    let u : Unset := ⟨fun _ => ⟨.replicate LINE_MAX 0, List.length_replicate⟩, fun _ => 0⟩
    let d : ProtocolDefinition := ⟨[ProtocolDefinition.typedPacket]⟩
    (dump u d o capture).screen = (view u d o capture).state ∧
      ((dump u d o capture).leftovers.Pairwise fun w w' =>
        w.connection.lessThan w'.connection) ∧
      ∃ calls : List (Connection × Packet),
        steps (fun _ => .fresh) capture = calls.map called ∧
        handleAll (callStep o u) ⟨.zero, d, 1, []⟩ calls = ((dump u d o capture).screen, true) ∧
          ∀ c, ∃ left, received c capture = analyzed c calls ++ left ∧ front left = .part ∧
            ∀ w : Leftover, w ∈ (dump u d o capture).leftovers ∧ w.connection = c ↔
              left ≠ [] ∧ w = ⟨c, left.length, (Packet.read left).map (·.pLength)⟩ := by
  intro o u d
  refine dump_accounts u d o capture ?_
  have hview := congrArg Prod.snd (view_eq u d o capture)
  have hall : (handleAll (handleStep (Screen.analyze o u)) ⟨.zero, d, 1, []⟩
      (steps (fun _ => .fresh) capture)).2 = true := by
    rw [steps_capture]
    decide +kernel
  rw [(tracks_dump u d o capture).ended, ← Bool.not_eq_true']
  exact hview.trans hall

end OpenRom.RomDump
