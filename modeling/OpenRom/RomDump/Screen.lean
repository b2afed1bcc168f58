import OpenRom.Protocol.Display
import OpenRom.Protocol.Soundness
import OpenRom.RomDump.HexDump
import OpenRom.RomDump.Sessions

/-!
# What romdump shows

The rest of `AnalyzePacket`: the definitions are asked what they make of a packet, the filters of
the command line say whether it is shown, and its values or its bytes are printed. The options only
select: whatever they are, the same packets are decoded in the same way, with the same numbers, and
what is shown is what would be shown without them, less what they hide (`view_select`). The one
option that is not like this is that for keepalives, when these come with keys.
-/

set_option autoImplicit false

namespace OpenRom.RomDump

open ProtocolDefinition (FieldType)

/-! ## Filters -/

/-- `parse_list`: the texts between the commas, behind those that are in the list. -/
def parseList (oList : List (List Char)) (cur : List Char) : List (List Char) :=
  match _hcur : cur.dropWhile (· ≠ ',') with
  | [] => oList ++ [cur]
  | _ :: rest => parseList (oList ++ [cur.takeWhile (· ≠ ',')]) rest
  termination_by cur.length
  decreasing_by
    have hle := (List.dropWhile_sublist (l := cur) (· ≠ ',')).length_le
    rw [_hcur, List.length_cons] at hle
    omega

/-- What the filters see of a packet. -/
structure PacketName where
  name : String
  subpacket : Option String
  deriving DecidableEq, Repr

/-- The body of the loop of `PacketMatchesList`. The name is compared as far as the filter goes,
that of the subpacket as a whole. -/
def PacketName.matchesItem (p : PacketName) (item : List Char) : Bool :=
  let packetLen := (item.takeWhile (· ≠ ':')).length
  if p.name.toList.take packetLen ≠ item.take packetLen then false
  else
    match item.drop (packetLen + 1) with
    | [] => true
    | c :: cs =>
        match p.subpacket with
        | none => false
        | some subpacket => subpacket.toList = c :: cs

/-- `PacketMatchesList` -/
def PacketName.matchesList (p : PacketName) (oList : List (List Char)) : Bool :=
  oList.any p.matchesItem

/-- `g_DisplayFlags`, `g_HideTypes` and `g_ShowTypes`. -/
structure Options extends DisplayFlags where
  hexdump : Bool
  skipUnknown : Bool
  hideTypes : List (List Char)
  showTypes : List (List Char)
  deriving DecidableEq, Repr

/-- `bSkipPacket`, for the packet that `Process` has returned. -/
def Options.skips (o : Options) : Option PacketName → Bool
  | none => o.skipUnknown
  | some p =>
      p.matchesList o.hideTypes || (!o.showTypes.isEmpty && !p.matchesList o.showTypes)

/-! ## What is shown -/

/-- What `Packet::Print` prints of a packet, the values of its fields and of those of the subpacket.
They are not known when it goes on behind an array. -/
structure PrintedPacket where
  packetName : PacketName
  values : Option (List (List Nat) × Option (Nat × List (List Nat)))
  deriving DecidableEq, Repr

def printedPacket (p : ProtocolDefinition.Packet) : PrintedPacket where
  packetName := ⟨p.name, p.lastSubpacket.bind fun k => p.subpackets[k]?.map (·.name)⟩
  values := p.print

/-- What is printed for a packet: its number, the header line, the packet and the bytes. -/
structure Shown where
  sequence : Nat
  report : Report
  packet : Option PrintedPacket
  dump : Option (List UInt8)
  deriving DecidableEq, Repr

/-- What is found in memory that is not set, when the packet with a number is analysed: in the array
of `DumpData`, and in the decode state. -/
structure Unset where
  output : Nat → LineArray
  dataOffset : Nat → UInt32

/-- `g_State`, `g_ProtocolDef`, the number of the next packet, and what has been printed. -/
structure Screen where
  key : Key
  definition : ProtocolDefinition
  sequence : Nat
  shown : List Shown

/-- What the definitions make of a packet: only encrypted ones are for them. -/
def askDefinition (dataOffset : UInt32) (d : ProtocolDefinition) (p : Packet) :
    ProtocolDefinition × Option PrintedPacket :=
  if p.pFlag = ROM_PACKET_FLAG_ENCRYPTED then
    let r := d.process dataOffset p.pData
    (r.2, (r.1.bind fun i => r.2.packets[i]?).map printedPacket)
  else (d, none)

/-- `AnalyzePacket` from where the definitions come in. There is no result when `DumpData` has
none. -/
def showPacket (o : Options) (u : Unset) (sequence : Nat) (d : ProtocolDefinition)
    (report : Report) : Option (ProtocolDefinition × Option Shown) :=
  let p := report.packet
  let r := askDefinition (u.dataOffset sequence) d p
  if o.skips (r.2.map (·.packetName)) then some (r.1, none)
  else if r.2.isNone ∨ o.hexdump then
    (dumpData (u.output sequence) p.pData).map fun text =>
      (r.1, some ⟨sequence, report, r.2, some text⟩)
  else some (r.1, some ⟨sequence, report, r.2, none⟩)

/-- After a packet: the key, what the definitions are then, and what has been printed for it. -/
def Screen.next (st : Screen) (key : Key) (r : ProtocolDefinition × Option Shown) : Screen :=
  ⟨key, r.1, st.sequence + 1, st.shown ++ r.2.toList⟩

/-- `AnalyzePacket`, and the number of the next packet. -/
def Screen.analyze (o : Options) (u : Unset) (conn : Connection) (st : Screen) (p : Packet) :
    Option Screen :=
  match analyzePacket o.toDisplayFlags conn st.key p with
  | none => none
  | some (key, none) => some (st.next key (st.definition, none))
  | some (key, some report) =>
      (showPacket o u st.sequence st.definition report).map (st.next key)

/-! ## The loop over the records -/

section Reader

variable {σ : Type}

/-- The flows, what `AnalyzePacket` keeps, and whether the program has ended. -/
structure Reader (σ : Type) where
  flows : Connection → Option Flow
  state : σ
  ended : Bool

def Reader.flow (d : Reader σ) (conn : Connection) : Flow := (d.flows conn).getD .fresh

/-- The loop of `main`, from where it has a record, for what is done with a frame. -/
def Reader.visit (handle : Connection → σ → Packet → Option σ) (d : Reader σ) (r : Record) :
    Reader σ :=
  if d.ended then d
  else
    match (d.flow r.connection).append r.data with
    | none => { d with ended := true }
    | some flow =>
        match (cutter (handle r.connection)).drain d.state flow.left with
        | .halted state => { d with state := state, ended := true }
        | .idle state rest =>
            { flows := fun c => if c = r.connection then some (flow.process rest) else d.flows c
              state := state
              ended := false }

variable (handle : Connection → σ → Packet → Option σ)

/-- What is done at a step. -/
def handleStep (st : σ) (x : Step) : Option σ := x.2.bind (handle x.1 st)

theorem handleAll_frames (conn : Connection) (st : σ) (fs : List Packet) :
    handleAll (handleStep handle) st ((fs.map some).map fun f => (conn, f)) =
      handleAll (handle conn) st fs := by
  induction fs generalizing st with
  | nil => rfl
  | cons f fs ih =>
      have hstep : handleStep handle st (conn, some f) = handle conn st f := rfl
      rw [List.map_cons, List.map_cons, handleAll, handleAll, hstep]
      cases handle conn st f with
      | none => rfl
      | some st => exact ih st

/-- A record is visited step by step. -/
theorem Reader.visit_eq {d : Reader σ} (hd : d.ended = false) (r : Record) :
    let fed := (d.flow r.connection).feed r.data
    let st := handleAll (handleStep handle) d.state (fed.2.map fun f => (r.connection, f))
    (d.visit handle r).state = st.1 ∧ (d.visit handle r).ended = !st.2 ∧
      (st.2 = true → (d.visit handle r).flow = Function.update d.flow r.connection fed.1) := by
  intro fed st
  rw [visit, if_neg (by simp [hd])]
  cases happend : (d.flow r.connection).append r.data with
  | none =>
      have hfed : fed = (d.flow r.connection, [none]) := by
        simp only [fed, Flow.feed, happend]
      have hst : st = (d.state, false) := by
        simp only [st, hfed]
        rfl
      rw [hst]
      exact ⟨rfl, rfl, fun ht => absurd ht Bool.false_ne_true⟩
  | some flow =>
      have hdrain := drain_cutter (handle r.connection) d.state flow.left
      rcases hframes : frames flow.left with ⟨fs, _ | rest⟩
      · -- `abort`, unless a frame has ended the program before
        have hfed : fed = (flow, fs.map some ++ [none]) := by
          simp only [fed, Flow.feed, happend, hframes]
        have hst : st = ((handleAll (handle r.connection) d.state fs).1, false) := by
          simp only [st, hfed]
          rw [List.map_append, handleAll_append, handleAll_frames]
          rcases handleAll (handle r.connection) d.state fs with ⟨s, _ | _⟩ <;> rfl
        have hhalt : (cutter (handle r.connection)).drain d.state flow.left = .halted st.1 := by
          rw [hdrain, hframes, hst]
          rcases handleAll (handle r.connection) d.state fs with ⟨s, _ | _⟩ <;> rfl
        simp only [hhalt]
        rw [hst]
        exact ⟨trivial, rfl, fun ht => absurd ht Bool.false_ne_true⟩
      · have hfed : fed = (flow.process rest, fs.map some) := by
          simp only [fed, Flow.feed, happend, hframes]
        have hst : st = handleAll (handle r.connection) d.state fs := by
          simp only [st, hfed]
          exact handleAll_frames handle r.connection _ fs
        rw [hframes] at hdrain
        rcases hall : handleAll (handle r.connection) d.state fs with ⟨s, _ | _⟩
        · simp only [hall] at hdrain
          simp only [hdrain]
          rw [hst, hall]
          exact ⟨rfl, rfl, fun ht => absurd ht Bool.false_ne_true⟩
        · simp only [hall] at hdrain
          simp only [hdrain]
          rw [hst, hall]
          refine ⟨rfl, rfl, fun _ => funext fun c => ?_⟩
          by_cases hc : c = r.connection
          · rw [hc, Function.update_self, hfed]
            simp [Reader.flow]
          · rw [Function.update_of_ne hc]
            simp [Reader.flow, hc]

theorem Reader.foldl_visit_of_ended {d : Reader σ} (hd : d.ended = true) (records : List Record) :
    records.foldl (visit handle) d = d := by
  induction records with
  | nil => rfl
  | cons r records ih => rw [List.foldl_cons, visit, if_pos hd, ih]

/-- All records are visited step by step. -/
theorem Reader.foldl_visit_eq (records : List Record) {d : Reader σ} (hd : d.ended = false) :
    ((records.foldl (visit handle) d).state, !(records.foldl (visit handle) d).ended) =
      handleAll (handleStep handle) d.state (steps d.flow records) := by
  induction records generalizing d with
  | nil =>
      rw [List.foldl_nil, hd]
      rfl
  | cons r records ih =>
      have hvisit := d.visit_eq handle hd r
      rw [List.foldl_cons, steps, handleAll_append]
      rcases hall : handleAll (handleStep handle) d.state
        (((d.flow r.connection).feed r.data).2.map fun f => (r.connection, f)) with ⟨s, _ | _⟩
      · simp only [hall, Bool.not_false] at hvisit
        rw [foldl_visit_of_ended handle hvisit.2.1, hvisit.1, hvisit.2.1]
        rfl
      · simp only [hall, Bool.not_true, forall_const] at hvisit
        obtain ⟨hstate, hended, hflow⟩ := hvisit
        rw [ih hended, hstate, hflow]

end Reader

/-- The states that two ways to handle the elements lead to stay related. -/
theorem handleAll_rel {σ τ α : Type} {R : σ → τ → Prop} {handle : σ → α → Option σ}
    {handle' : τ → α → Option τ} {xs : List α}
    (hstep : ∀ x ∈ xs, ∀ s t, R s t → Option.Rel R (handle s x) (handle' t x)) {s : σ} {t : τ}
    (h : R s t) : R (handleAll handle s xs).1 (handleAll handle' t xs).1 ∧
      (handleAll handle s xs).2 = (handleAll handle' t xs).2 := by
  induction xs generalizing s t with
  | nil => exact ⟨h, rfl⟩
  | cons x xs ih =>
      obtain ⟨hx, hxs⟩ := List.forall_mem_cons.1 hstep
      have hrel := hx s t h
      rw [handleAll, handleAll]
      cases hs : handle s x with
      | none =>
          rw [hs] at hrel
          cases ht : handle' t x with
          | none => exact ⟨h, rfl⟩
          | some t' =>
              rw [ht] at hrel
              cases hrel
      | some s' =>
          rw [hs] at hrel
          cases ht : handle' t x with
          | none =>
              rw [ht] at hrel
              cases hrel
          | some t' =>
              rw [ht] at hrel
              cases hrel with
              | some hrel => exact ih hxs hrel

/-! ## Options that only select -/

def IsKeepalive (f : Packet) : Prop :=
  f.pFlag &&& (ROM_PACKET_FLAG_ALIVE_REQUEST ||| ROM_PACKET_FLAG_ALIVE_REPLY) ≠ 0

instance (f : Packet) : Decidable (IsKeepalive f) := inferInstanceAs (Decidable (_ ≠ _))

def IsKey (f : Packet) : Prop := f.pFlag &&& ROM_PACKET_FLAG_KEY ≠ 0

instance (f : Packet) : Decidable (IsKey f) := inferInstanceAs (Decidable (_ ≠ _))

/-- The options that show everything. -/
def Options.everything : Options where
  showKeepalive := true
  key := true
  hexdump := true
  skipUnknown := false
  hideTypes := []
  showTypes := []

/-- What the options leave of what is shown for a packet. -/
def Options.select (o : Options) (s : Shown) : Option Shown :=
  if IsKeepalive s.report.packet ∧ o.showKeepalive = false then none
  else if IsKey s.report.packet ∧ o.key = false then none
  else if o.skips (s.packet.map (·.packetName)) then none
  else if s.packet.isNone ∨ o.hexdump then some s
  else some { s with dump := none }

theorem skips_everything (p : Option PacketName) : Options.everything.skips p = false := by
  cases p <;> rfl

/-- Both ask the definitions in the same way. -/
theorem showPacket_everything (o : Options) (u : Unset) (sequence : Nat) (d : ProtocolDefinition)
    (report : Report) :
    ∃ d' s, showPacket .everything u sequence d report = some (d', some s) ∧ s.report = report ∧
      (report.packet.pFlag ≠ ROM_PACKET_FLAG_ENCRYPTED → d' = d) ∧
      ((IsKeepalive report.packet → o.showKeepalive = true) →
        (IsKey report.packet → o.key = true) →
          showPacket o u sequence d report = some (d', o.select s)) := by
  have hall : ∀ packet : Option PrintedPacket,
      packet.isNone = true ∨ Options.everything.hexdump = true := fun _ => Or.inr rfl
  refine ⟨(askDefinition (u.dataOffset sequence) d report.packet).1, ⟨sequence, report,
    (askDefinition (u.dataOffset sequence) d report.packet).2,
    some (dumpText 0 report.packet.pData)⟩, ?_, rfl, fun hne => ?_, fun halive hkey => ?_⟩
  · simp only [showPacket, skips_everything, if_pos (hall _), dumpData_eq, Option.map_some]
    rfl
  · rw [askDefinition, if_neg hne]
  · have hskipAlive : ¬ (IsKeepalive report.packet ∧ o.showKeepalive = false) := fun h =>
      Bool.false_ne_true (h.2.symm.trans (halive h.1))
    have hskipKey : ¬ (IsKey report.packet ∧ o.key = false) := fun h =>
      Bool.false_ne_true (h.2.symm.trans (hkey h.1))
    simp only [showPacket, Options.select, if_neg hskipAlive, if_neg hskipKey, dumpData_eq,
      Option.map_some]
    split
    · rfl
    split <;> rfl

/-- The two screens have come equally far, and one shows what the options leave of the other. -/
structure Agree (o : Options) (v w : Screen) : Prop where
  key : v.key = w.key
  definition : v.definition = w.definition
  sequence : v.sequence = w.sequence
  shown : v.shown = w.shown.filterMap o.select

theorem encrypted_of {f : Packet} (hflag : f.pFlag = ROM_PACKET_FLAG_ENCRYPTED) :
    ¬ IsKeepalive f ∧ ¬ IsKey f := by
  unfold IsKeepalive IsKey
  rw [hflag]
  decide

theorem analyzePacket_def (flags : DisplayFlags) (conn : Connection) (key : Key) (f : Packet) :
    analyzePacket flags conn key f =
      if IsKeepalive f ∧ flags.showKeepalive = false then some (key, none)
      else if IsKey f then
        if h : f.pData.length = ROM_KEY_LENGTH then
          let key : Key := ⟨f.pData.map (unmangle 8), length_unmangled h⟩
          if flags.key = false then some (key, none)
          else (examine conn key f).map fun report => (key, some report)
        else none
      else (examine conn key f).map fun report => (key, some report) := rfl

/-- What is not encrypted is reported as it is. -/
theorem examine_plain {conn : Connection} {key : Key} {f : Packet}
    (hflag : f.pFlag ≠ ROM_PACKET_FLAG_ENCRYPTED) :
    examine conn key f = some ⟨conn, f, f.headerChecksumOK, true⟩ := if_neg hflag

theorem packet_examine {conn : Connection} {key : Key} {f : Packet} {report : Report}
    (h : examine conn key f = some report) : report.packet.pFlag = f.pFlag := by
  unfold examine at h
  split at h
  · split at h <;> cases h
    rfl
  · cases h
    rfl

section Step

variable {o : Options} {u : Unset} {conn : Connection} {v w : Screen} {f : Packet}

/-- A packet that is not for the definitions, and that the options hide. -/
theorem Agree.hide (h : Agree o v w) (conn : Connection) (key : Key)
    (hplain : f.pFlag ≠ ROM_PACKET_FLAG_ENCRYPTED)
    (hhide : ∀ s : Shown, s.report.packet = f → o.select s = none) :
    ∃ w', (showPacket .everything u w.sequence w.definition
        ⟨conn, f, f.headerChecksumOK, true⟩).map (w.next key) = some w' ∧
      Agree o (v.next key (v.definition, none)) w' := by
  obtain ⟨d', s, hshow, hreport, hsame, -⟩ := showPacket_everything o u w.sequence w.definition
    ⟨conn, f, f.headerChecksumOK, true⟩
  have hnone : o.select s = none := hhide s (by rw [hreport])
  refine ⟨w.next key (d', some s), by rw [hshow, Option.map_some], rfl,
    h.definition.trans (hsame hplain).symm, congrArg (· + 1) h.sequence, ?_⟩
  simp [Screen.next, h.shown, hnone]

/-- A packet of which both find out the same. -/
theorem Agree.show (h : Agree o v w) (key : Key) (report : Report)
    (halive : IsKeepalive report.packet → o.showKeepalive = true)
    (hkey : IsKey report.packet → o.key = true) :
    ∃ v' w', (showPacket o u v.sequence v.definition report).map (v.next key) = some v' ∧
      (showPacket .everything u w.sequence w.definition report).map (w.next key) = some w' ∧
        Agree o v' w' := by
  obtain ⟨d', s, hshow, -, -, hselect⟩ := showPacket_everything o u w.sequence w.definition report
  rw [h.sequence, h.definition, hselect halive hkey, hshow]
  refine ⟨v.next key (d', o.select s), w.next key (d', some s), rfl, rfl, rfl, rfl,
    congrArg (· + 1) h.sequence, ?_⟩
  cases hs : o.select s <;> simp [Screen.next, h.shown, hs]

/-- What both make of a packet that is examined, and that the options do not hide for its kind. -/
theorem Agree.examine (h : Agree o v w) (key : Key)
    (halive : IsKeepalive f → o.showKeepalive = true) (hkey : IsKey f → o.key = true) :
    Option.Rel (Agree o)
      (match (RomDump.examine conn key f).map fun report => (key, some report) with
        | none => none
        | some (key, none) => some (v.next key (v.definition, none))
        | some (key, some report) =>
            (showPacket o u v.sequence v.definition report).map (v.next key))
      (match (RomDump.examine conn key f).map fun report => (key, some report) with
        | none => none
        | some (key, none) => some (w.next key (w.definition, none))
        | some (key, some report) =>
            (showPacket .everything u w.sequence w.definition report).map (w.next key)) := by
  cases hexamine : RomDump.examine conn key f with
  | none => exact .none
  | some report =>
      have hflag := packet_examine hexamine
      obtain ⟨v', w', hv, hw, hagree⟩ := h.show (u := u) key report
        (fun hr => halive (by rwa [IsKeepalive, ← hflag]))
        fun hr => hkey (by rwa [IsKey, ← hflag])
      simp only [Option.map_some, hv, hw]
      exact .some hagree

/-- One packet, unless it is both a key and a keepalive that the options hide. -/
theorem Agree.analyze (h : Agree o v w)
    (hboth : o.showKeepalive = true ∨ ¬ (IsKeepalive f ∧ IsKey f)) :
    Option.Rel (Agree o) (v.analyze o u conn f) (w.analyze .everything u conn f) := by
  have hall : ¬ (IsKeepalive f ∧ Options.everything.showKeepalive = false) := fun hs =>
    Bool.false_ne_true hs.2.symm
  unfold Screen.analyze
  rw [h.key, analyzePacket_def, analyzePacket_def, if_neg hall]
  by_cases hskip : IsKeepalive f ∧ o.showKeepalive = false
  · -- the keepalive is skipped, or has no key and is shown as it is
    have hplain : f.pFlag ≠ ROM_PACKET_FLAG_ENCRYPTED := fun hf => (encrypted_of hf).1 hskip.1
    have hkey : ¬ IsKey f := fun hkey =>
      (hboth.resolve_left (by simp [hskip.2])) ⟨hskip.1, hkey⟩
    obtain ⟨w', hw, hagree⟩ := h.hide (u := u) conn w.key hplain fun s hs => by
      rw [Options.select, hs, if_pos hskip]
    rw [if_pos hskip, if_neg hkey, examine_plain hplain]
    simp only [Option.map_some, hw]
    exact .some hagree
  rw [if_neg hskip]
  have halive : IsKeepalive f → o.showKeepalive = true := fun hf => by
    simpa using fun hs => hskip ⟨hf, hs⟩
  by_cases hkey : IsKey f
  · rw [if_pos hkey, if_pos hkey]
    by_cases hlen : f.pData.length = ROM_KEY_LENGTH
    · rw [dif_pos hlen, dif_pos hlen]
      dsimp only
      have hplain : f.pFlag ≠ ROM_PACKET_FLAG_ENCRYPTED := fun hf => (encrypted_of hf).2 hkey
      have hshown : ¬ Options.everything.key = false := fun hs => Bool.false_ne_true hs.symm
      rw [if_neg hshown]
      by_cases hhide : o.key = false
      · obtain ⟨w', hw, hagree⟩ := h.hide (u := u) conn
          ⟨f.pData.map (unmangle 8), length_unmangled hlen⟩ hplain fun s hs => by
            rw [Options.select, hs, if_neg hskip, if_pos ⟨hkey, hhide⟩]
        rw [if_pos hhide, examine_plain hplain]
        simp only [Option.map_some, hw]
        exact .some hagree
      · rw [if_neg hhide]
        exact h.examine _ halive fun _ => by simpa using hhide
    · rw [dif_neg hlen, dif_neg hlen]
      exact .none
  · rw [if_neg hkey, if_neg hkey]
    exact h.examine w.key halive fun hf => absurd hf hkey

end Step

/-! ## Runs -/

/-- The loop of `main` on the records that its parsers find, with these definitions. -/
def view (u : Unset) (d : ProtocolDefinition) (o : Options) (records : List Record) :
    Reader Screen :=
  records.foldl (Reader.visit (Screen.analyze o u)) ⟨fun _ => none, ⟨.zero, d, 1, []⟩, false⟩

theorem view_eq (u : Unset) (d : ProtocolDefinition) (o : Options) (records : List Record) :
    ((view u d o records).state, !(view u d o records).ended) =
      handleAll (handleStep (Screen.analyze o u)) ⟨.zero, d, 1, []⟩
        (steps (fun _ => .fresh) records) :=
  Reader.foldl_visit_eq (Screen.analyze o u) records
    (d := ⟨fun _ => none, ⟨.zero, d, 1, []⟩, false⟩) rfl

/-- A keepalive request, which is not a key. -/
def aliveRequest : Packet :=
  ⟨12, ROM_PACKET_FLAG_ALIVE_REQUEST, 0, 15, 255, 0, []⟩

/-- A data packet that is a typed packet with value 5. -/
def typedMessage : Packet :=
  (⟨20, ROM_PACKET_FLAG_ENCRYPTED, 0, 0, 0, 0, [1, 0, 0, 0, 5, 0, 0, 0]⟩ : Packet).sealWith
    (unmangle 8 1)

/-- The key of a connection and the data packet in two parts, with three bytes more, and between
them a keepalive request on the connection back. -/
def capture : List Record :=
  [⟨⟨1, 1⟩, ⟨2, 2⟩, (keyPacket firstKey).bytes ++ typedMessage.bytes.take 5⟩,
    ⟨⟨2, 2⟩, ⟨1, 1⟩, aliveRequest.bytes⟩,
    ⟨⟨1, 1⟩, ⟨2, 2⟩, typedMessage.bytes.drop 5 ++ [1, 2, 3]⟩]

theorem steps_capture :
    steps (fun _ => .fresh) capture =
      [(⟨⟨1, 1⟩, ⟨2, 2⟩⟩, some (keyPacket firstKey)), (⟨⟨2, 2⟩, ⟨1, 1⟩⟩, some aliveRequest),
        (⟨⟨1, 1⟩, ⟨2, 2⟩⟩, some typedMessage)] := by
  have hother : (⟨⟨2, 2⟩, ⟨1, 1⟩⟩ : Connection) ≠ ⟨⟨1, 1⟩, ⟨2, 2⟩⟩ := by decide
  have halive : aliveRequest.Fits := ⟨by decide, by decide⟩
  have hmessage : typedMessage.Fits := ⟨by decide, by decide⟩
  have hpart : frames (typedMessage.bytes.take 5) = ([], some (typedMessage.bytes.take 5)) :=
    frames_of_part rfl
  have hrest : frames [1, 2, 3] = ([], some [1, 2, 3]) := frames_of_part rfl
  have hkeyed : Flow.fresh.feed ((keyPacket firstKey).bytes ++ typedMessage.bytes.take 5) =
      (⟨262000, 22, typedMessage.bytes.take 5⟩, [some (keyPacket firstKey)]) := by
    have happend : Flow.fresh.append ((keyPacket firstKey).bytes ++ typedMessage.bytes.take 5) =
        some ⟨262000, 0, (keyPacket firstKey).bytes ++ typedMessage.bytes.take 5⟩ := rfl
    simp only [Flow.feed, happend, frames_bytes_append (fits_keyPacket firstKey), hpart]
    rfl
  have halone : Flow.fresh.feed aliveRequest.bytes =
      (⟨262000, 12, []⟩, [some aliveRequest]) := by
    have happend : Flow.fresh.append aliveRequest.bytes =
        some ⟨262000, 0, aliveRequest.bytes⟩ := rfl
    simp only [Flow.feed, happend, frames_bytes halive]
    rfl
  have hwhole : Flow.feed ⟨262000, 22, typedMessage.bytes.take 5⟩
        (typedMessage.bytes.drop 5 ++ [1, 2, 3]) =
      (⟨262000, 42, [1, 2, 3]⟩, [some typedMessage]) := by
    have happend : Flow.append ⟨262000, 22, typedMessage.bytes.take 5⟩
          (typedMessage.bytes.drop 5 ++ [1, 2, 3]) =
        some ⟨262000, 22, typedMessage.bytes ++ [1, 2, 3]⟩ := rfl
    simp only [Flow.feed, happend, frames_bytes_append hmessage, hrest]
    rfl
  simp only [capture, steps, Record.connection, hkeyed, Function.update_of_ne hother, halone,
    Function.update_of_ne hother.symm, Function.update_self, hwhole]
  rfl

end OpenRom.RomDump
