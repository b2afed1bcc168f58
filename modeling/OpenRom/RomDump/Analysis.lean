import OpenRom.Connection.Reassemble
import OpenRom.RomDump.Flow

/-!
# What romdump computes

`AnalyzePacket` up to where the packet definitions come in, `AnalyzeFlow`, and the part of the loop
of `main` that has a record. The key is one for the whole program (`g_State`). What is printed, and
the definitions, whose decoding only reads the packet, are left out.

The loop of `AnalyzeFlow` cuts frames off the front of a flow. It is one consumer for every way to
handle a frame (`cutter`), and handling the frames as they are cut is the same as cutting them all
first (`drain_cutter`).
-/

set_option autoImplicit false

namespace OpenRom.RomDump

open Reassembly

/-! ## Packets -/

/-- The bits of `g_DisplayFlags` that matter before the packet definitions. -/
structure DisplayFlags where
  showKeepalive : Bool
  key : Bool
  deriving DecidableEq, Repr

/-- What `AnalyzePacket` has found out when it comes to the packet definitions. -/
structure Report where
  connection : Connection
  packet : Packet
  headerChecksumOK : Bool
  dataChecksumOK : Bool
  deriving DecidableEq, Repr

/-- The checks of `AnalyzePacket`; there is no result when the key is read behind its end. -/
def examine (conn : Connection) (key : Key) (p : Packet) : Option Report :=
  if p.pFlag = ROM_PACKET_FLAG_ENCRYPTED then
    match key.byteFor p.pKeynum with
    | none => none
    | some k =>
        some ⟨conn, p.decrypt k, p.headerChecksumOK, (p.decrypt k).dataChecksumOK k⟩
  -- nothing but encrypted packets is checked
  else some ⟨conn, p, p.headerChecksumOK, true⟩

theorem length_unmangled {p : Packet} (h : p.pData.length = ROM_KEY_LENGTH) :
    (p.pData.map (unmangle 8)).length = ROM_KEY_LENGTH := by
  rw [List.length_map, h]

/-- `AnalyzePacket`, with the key in `g_State`; there is no result when it ends the program. -/
def analyzePacket (flags : DisplayFlags) (conn : Connection) (key : Key) (p : Packet) :
    Option (Key × Option Report) :=
  if p.pFlag &&& (ROM_PACKET_FLAG_ALIVE_REQUEST ||| ROM_PACKET_FLAG_ALIVE_REPLY) ≠ 0 ∧
      flags.showKeepalive = false then some (key, none)
  else if p.pFlag &&& ROM_PACKET_FLAG_KEY ≠ 0 then
    if h : p.pData.length = ROM_KEY_LENGTH then
      let key : Key := ⟨p.pData.map (unmangle 8), length_unmangled h⟩
      if flags.key = false then some (key, none)
      else (examine conn key p).map fun report => (key, some report)
    -- `errx`
    else none
  else (examine conn key p).map fun report => (key, some report)

/-! ## Frames of a flow -/

/-- What the loop of `AnalyzeFlow` finds at the current offset: a part of a frame, a length that
makes it `abort`, or a frame. -/
inductive Front
  | part
  | abort
  | frame (f : Packet)

def front (bs : List UInt8) : Front :=
  match Packet.read bs with
  | none => .part
  | some p =>
      if p.pLength.toNat > 131072 then .abort
      else if p.pLength.toNat < sizeofPacket ∨ p.pLength.toNat > bs.length then .part
      else .frame p.frame

theorem front_append {bs : List UInt8} (more : List UInt8) (hpart : front bs ≠ .part) :
    front (bs ++ more) = front bs := by
  unfold front at *
  cases hr : Packet.read bs with
  | none => simp [hr] at hpart
  | some p =>
      have hlen := congrArg List.length (Packet.bytes_of_read hr)
      rw [Packet.length_bytes] at hlen
      rw [Packet.read_append hr]
      simp only [hr] at hpart ⊢
      by_cases habort : p.pLength.toNat > 131072
      · rw [if_pos habort, if_pos habort]
      rw [if_neg habort] at hpart
      by_cases hshort : p.pLength.toNat < sizeofPacket ∨ p.pLength.toNat > bs.length
      · rw [if_pos hshort] at hpart
        exact absurd rfl hpart
      · -- a frame that is there whole is cut out of the longer flow as well
        have hlong : ¬ (p.pLength.toNat < sizeofPacket ∨
            p.pLength.toNat > (bs ++ more).length) := by
          rw [List.length_append]
          omega
        rw [if_neg habort, if_neg habort, if_neg hshort, if_neg hlong,
          Packet.frame_append (by omega)]

/-- The frame is there whole. -/
theorem length_of_front {bs : List UInt8} {f : Packet} (hf : front bs = .frame f) :
    sizeofPacket ≤ f.pLength.toNat ∧ f.pLength.toNat ≤ bs.length := by
  unfold front at hf
  split at hf
  · cases hf
  split at hf
  · cases hf
  split at hf
  · cases hf
  next hbound =>
    cases hf
    have hlen : ∀ p : Packet, p.frame.pLength = p.pLength := fun _ => rfl
    rw [hlen]
    omega

/-- The frames at the front of a flow and what is left behind them, unless the program ends
there. -/
def frames (bs : List UInt8) : List Packet × Option (List UInt8) :=
  match _hf : front bs with
  | .part => ([], some bs)
  | .abort => ([], none)
  | .frame f => (f :: (frames (bs.drop f.pLength.toNat)).1, (frames (bs.drop f.pLength.toNat)).2)
  termination_by bs.length
  decreasing_by
    all_goals
      have hlen := length_of_front _hf
      rw [List.length_drop]
      simp only [sizeofPacket] at hlen
      omega

theorem frames_of_part {bs : List UInt8} (hf : front bs = .part) : frames bs = ([], some bs) := by
  unfold frames
  split <;> simp_all

theorem frames_of_abort {bs : List UInt8} (hf : front bs = .abort) : frames bs = ([], none) := by
  unfold frames
  split <;> simp_all

theorem frames_of_frame {bs : List UInt8} {f : Packet} (hf : front bs = .frame f) :
    frames bs =
      (f :: (frames (bs.drop f.pLength.toNat)).1, (frames (bs.drop f.pLength.toNat)).2) := by
  rw [frames]
  split <;> simp_all

section Cut

variable {σ α : Type}

/-- Handle the elements in turn, until one ends the program (`false`). -/
def handleAll (handle : σ → α → Option σ) (s : σ) : List α → σ × Bool
  | [] => (s, true)
  | f :: fs =>
      match handle s f with
      | none => (s, false)
      | some s => handleAll handle s fs

variable (handle : σ → Packet → Option σ)

/-- The loop of `AnalyzeFlow` as a consumer of the bytes of a flow, for what it makes of a frame. -/
def cutter : Consumer σ UInt8 σ where
  look s bs :=
    match front bs with
    | .part => .wait
    | .abort => .halt s
    | .frame f =>
        match handle s f with
        | none => .halt s
        | some s => .take f.pLength.toNat s
  look_nil _ := rfl
  take_pos := by
    intro s s' bs n hl
    split at hl
    · cases hl
    · cases hl
    next f hf =>
      have hlen := length_of_front hf
      simp only [sizeofPacket] at hlen
      split at hl <;> cases hl
      omega
  take_append := by
    intro s s' bs n more hl
    have hpart : front bs ≠ .part := by
      intro hpart
      simp [hpart] at hl
    rw [front_append more hpart, hl]
  halt_append := by
    intro s bs r more hl
    have hpart : front bs ≠ .part := by
      intro hpart
      simp [hpart] at hl
    rw [front_append more hpart, hl]

/-- Handling the frames as they are cut is cutting them first. -/
theorem drain_cutter (s : σ) (bs : List UInt8) :
    (cutter handle).drain s bs =
      match handleAll handle s (frames bs).1, (frames bs).2 with
      | (s, true), some rest => .idle s rest
      | (s, _), _ => .halted s := by
  induction hk : bs.length using Nat.strongRecOn generalizing s bs with
  | ind k ih =>
      cases hf : front bs with
      | part =>
          have hl : (cutter handle).look s bs = .wait := by simp only [cutter, hf]
          rw [Consumer.drain_of_wait hl, frames_of_part hf]
          rfl
      | abort =>
          have hl : (cutter handle).look s bs = .halt s := by simp only [cutter, hf]
          rw [Consumer.drain_of_halt hl, frames_of_abort hf]
          rfl
      | frame f =>
          have hlen := length_of_front hf
          simp only [sizeofPacket] at hlen
          rw [frames_of_frame hf]
          cases hh : handle s f with
          | none =>
              have hl : (cutter handle).look s bs = .halt s := by simp only [cutter, hf, hh]
              rw [Consumer.drain_of_halt hl]
              simp only [handleAll, hh]
          | some s' =>
              have hl : (cutter handle).look s bs = .take f.pLength.toNat s' := by
                simp only [cutter, hf, hh]
              rw [Consumer.drain_of_take hl,
                ih _ (by rw [List.length_drop]; omega) s' (bs.drop f.pLength.toNat) rfl]
              simp only [handleAll, hh]

end Cut

/-! ## Records -/

/-- What a record of a capture says: some bytes went from the source to the destination. -/
structure Record where
  source : IPv4Address
  dest : IPv4Address
  data : List UInt8
  deriving DecidableEq, Repr

def Record.connection (r : Record) : Connection := ⟨r.source, r.dest⟩

/-- Where the loop of `main` is: the flows, the key in `g_State`, the calls of `Flow::Append` and
the results of `AnalyzePacket` so far, and whether the program has ended. -/
structure Dump where
  flows : Connection → Option Flow
  key : Key
  appended : List Record
  reports : List Report
  ended : Bool

namespace Dump

/-- The key is zero until there is one: `g_State` is a global. -/
def start : Dump := ⟨fun _ => none, .zero, [], [], false⟩

/-- The flow of a connection, which is made when there is none. -/
def flow (d : Dump) (conn : Connection) : Flow := (d.flows conn).getD .fresh

def setFlow (d : Dump) (conn : Connection) (f : Flow) : Dump :=
  { d with flows := fun c => if c = conn then some f else d.flows c }

@[simp] theorem flow_setFlow_self (d : Dump) (conn : Connection) (f : Flow) :
    (d.setFlow conn f).flow conn = f := by simp [flow, setFlow]

theorem flow_setFlow_of_ne (d : Dump) {conn c : Connection} (f : Flow) (h : c ≠ conn) :
    (d.setFlow conn f).flow c = d.flow c := by simp [flow, setFlow, h]

end Dump

/-- What `AnalyzeFlow` makes of a frame. -/
def analyzeFrame (flags : DisplayFlags) (conn : Connection) (st : Key × List Report) (f : Packet) :
    Option (Key × List Report) :=
  (analyzePacket flags conn st.1 f).map fun r => (r.1, st.2 ++ r.2.toList)

/-- The loop of `main`, from where it has a record. -/
def visit (flags : DisplayFlags) (d : Dump) (r : Record) : Dump :=
  if d.ended then d
  else
    let conn := r.connection
    let d := { d with appended := d.appended ++ [r] }
    match (d.flow conn).append r.data with
    | none => { d with ended := true }
    | some flow =>
        match (cutter (analyzeFrame flags conn)).drain (d.key, d.reports) flow.left with
        | .halted (key, reports) => { d with key := key, reports := reports, ended := true }
        | .idle (key, reports) rest =>
            { d with key := key, reports := reports }.setFlow conn (flow.process rest)

/-- The loop of `main` on the records that its parsers find. -/
def process (flags : DisplayFlags) (records : List Record) : Dump :=
  records.foldl (visit flags) .start

theorem visit_of_ended {flags : DisplayFlags} {d : Dump} (h : d.ended = true) (r : Record) :
    visit flags d r = d := if_pos h

/-- After the end no record is visited. -/
theorem foldl_visit_of_ended {flags : DisplayFlags} {d : Dump} (h : d.ended = true)
    (records : List Record) : records.foldl (visit flags) d = d := by
  induction records with
  | nil => rfl
  | cons r records ih => rw [List.foldl_cons, visit_of_ended h, ih]

@[simp] theorem appended_visit (flags : DisplayFlags) {d : Dump} (h : d.ended = false)
    (r : Record) :
    (visit flags d r).appended = d.appended ++ [r] := by
  rw [visit, if_neg (by simp [h])]
  dsimp only
  split
  · rfl
  split <;> rfl

end OpenRom.RomDump
