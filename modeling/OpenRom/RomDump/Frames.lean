import OpenRom.Connection.Course
import OpenRom.Connection.Frames
import OpenRom.RomDump.Analysis

/-!
# Records that are frames

A log of the proxy has one frame in every record. Then a flow holds nothing between records, and
`romdump` analyses the frame of a record when it comes to it (`visit_frame`), unless the flow has
become too large.
-/

set_option autoImplicit false

namespace OpenRom.RomDump

/-! ## Packets that end the program -/

/-- Keepalives are skipped unless they are to be displayed. -/
def Skipped (flags : DisplayFlags) (f : Packet) : Prop :=
  f.pFlag &&& (ROM_PACKET_FLAG_ALIVE_REQUEST ||| ROM_PACKET_FLAG_ALIVE_REPLY) ≠ 0 ∧
    flags.showKeepalive = false

instance (flags : DisplayFlags) (f : Packet) : Decidable (Skipped flags f) :=
  inferInstanceAs (Decidable (_ ∧ _))

/-- A key packet of the wrong length makes `romdump` exit, and a key number that is none makes it
read behind the key. -/
def EndsProgram (flags : DisplayFlags) (f : Packet) : Prop :=
  ¬ Skipped flags f ∧
    (f.pFlag &&& ROM_PACKET_FLAG_KEY ≠ 0 ∧ f.pData.length ≠ ROM_KEY_LENGTH ∨
      f.pFlag = ROM_PACKET_FLAG_ENCRYPTED ∧ ¬ f.Numbered)

theorem examine_eq_none_iff {conn : Connection} {key : Key} {f : Packet} :
    examine conn key f = none ↔ f.pFlag = ROM_PACKET_FLAG_ENCRYPTED ∧ ¬ f.Numbered := by
  unfold examine
  by_cases hflag : f.pFlag = ROM_PACKET_FLAG_ENCRYPTED
  · rw [if_pos hflag, ← Key.byteFor_eq_none_iff (k := key)]
    cases key.byteFor f.pKeynum with
    | none => simp [hflag]
    | some k => simp
  · rw [if_neg hflag]
    exact iff_of_false nofun fun h => hflag h.1

/-- What an encrypted packet is has no key bit. -/
theorem key_of_encrypted {f : Packet} (hflag : f.pFlag = ROM_PACKET_FLAG_ENCRYPTED) :
    ¬ (f.pFlag &&& ROM_PACKET_FLAG_KEY ≠ 0) := by
  rw [hflag]
  decide

theorem analyzePacket_eq_none_iff {flags : DisplayFlags} {conn : Connection} {key : Key}
    {f : Packet} : analyzePacket flags conn key f = none ↔ EndsProgram flags f := by
  unfold analyzePacket EndsProgram Skipped
  by_cases hskip : f.pFlag &&& (ROM_PACKET_FLAG_ALIVE_REQUEST ||| ROM_PACKET_FLAG_ALIVE_REPLY) ≠ 0 ∧
      flags.showKeepalive = false
  · rw [if_pos hskip]
    exact iff_of_false nofun fun h => h.1 hskip
  rw [if_neg hskip]
  by_cases hkey : f.pFlag &&& ROM_PACKET_FLAG_KEY ≠ 0
  · have hflag : f.pFlag ≠ ROM_PACKET_FLAG_ENCRYPTED := fun h => key_of_encrypted h hkey
    rw [if_pos hkey]
    by_cases hlen : f.pData.length = ROM_KEY_LENGTH
    · rw [dif_pos hlen]
      refine iff_of_false ?_ fun h => h.2.elim (fun h => h.2 hlen) (fun h => hflag h.1)
      dsimp only
      split
      · nofun
      · rw [Option.map_eq_none_iff, examine_eq_none_iff]
        exact fun h => hflag h.1
    · rw [dif_neg hlen]
      exact iff_of_true rfl ⟨hskip, Or.inl ⟨hkey, hlen⟩⟩
  · rw [if_neg hkey, Option.map_eq_none_iff, examine_eq_none_iff]
    exact ⟨fun h => ⟨hskip, Or.inr h⟩, fun h => h.2.resolve_left fun h => hkey h.1⟩

/-! ## One frame -/

theorem front_bytes {f : Packet} (hf : f.Fits) : front f.bytes = .frame f := by
  have hread := Packet.read_bytes f []
  rw [List.append_nil, List.append_nil] at hread
  have hlen := hf.length_bytes
  have hlt := hf.length_lt
  have heq := hf.length_eq
  have habort : ¬ f.pLength.toNat > 131072 := by
    unfold s_MaxPacketSize at hlt
    omega
  have hwhole : ¬ (f.pLength.toNat < sizeofPacket ∨ f.pLength.toNat > f.bytes.length) := by omega
  simp only [front, hread]
  rw [if_neg habort, if_neg hwhole, hf.frame]

theorem frames_bytes_append {f : Packet} (hf : f.Fits) (bs : List UInt8) :
    frames (f.bytes ++ bs) = (f :: (frames bs).1, (frames bs).2) := by
  have hfront := front_bytes hf
  rw [← front_append bs (by rw [hfront]; nofun)] at hfront
  rw [frames_of_frame hfront, ← hf.length_bytes, List.drop_left]

theorem frames_bytes {f : Packet} (hf : f.Fits) : frames f.bytes = ([f], some []) := by
  have hframes := frames_bytes_append hf []
  rwa [List.append_nil, frames_of_part (show front [] = .part from rfl)] at hframes

/-- The bytes of a connection. -/
def total (c : Connection) (records : List Record) : Nat :=
  ((records.filter fun r => r.connection = c).map fun r => r.data.length).sum

@[simp] theorem total_nil (c : Connection) : total c [] = 0 := rfl

theorem total_append (c : Connection) (rs rs' : List Record) :
    total c (rs ++ rs') = total c rs + total c rs' := by
  rw [total, List.filter_append, List.map_append, List.sum_append]
  rfl

theorem total_singleton (c : Connection) (r : Record) :
    total c [r] = if r.connection = c then r.data.length else 0 := by
  by_cases hc : r.connection = c
  · simp [total, hc]
  · simp [total, hc]

/-- The program goes on, and there is nothing left in any flow. -/
structure Dump.Idle (d : Dump) : Prop where
  on : d.ended = false
  sound : ∀ c, (d.flow c).Sound
  left : ∀ c, (d.flow c).left = []
  used : ∀ c, (d.flow c).dataBufferUsed = total c d.appended

theorem Dump.idle_start : Dump.start.Idle :=
  ⟨rfl, fun _ => Flow.sound_fresh, fun _ => rfl, fun _ => rfl⟩

/-- A record with one frame, when there is space for it in the flow: the frame is analysed. -/
theorem visit_frame (flags : DisplayFlags) {d : Dump} (hd : d.Idle) {r : Record} {f : Packet}
    (hf : f.Fits) (hdata : r.data = f.bytes)
    (hroom : total r.connection d.appended + r.data.length ≤ Flow.capacity) :
    match analyzePacket flags r.connection d.key f with
    | none => (visit flags d r).ended = true ∧ (visit flags d r).reports = d.reports
    | some (key, report) => (visit flags d r).Idle ∧ (visit flags d r).key = key ∧
        (visit flags d r).reports = d.reports ++ report.toList := by
  have hshort : r.data.length ≤ 131072 := by
    have hlt := hf.length_lt
    unfold s_MaxPacketSize at hlt
    rw [hdata, hf.length_bytes]
    omega
  have happend := Flow.append_eq (hd.sound r.connection) hshort
  rw [hd.used r.connection, if_pos hroom] at happend
  obtain ⟨flow, hflow, hsound, hleft, hoffset⟩ := happend
  rw [hd.left r.connection, List.nil_append, hdata] at hleft
  have hflow' : ({ d with appended := d.appended ++ [r] }.flow r.connection).append r.data =
      some flow := hflow
  -- the flow had nothing left, so it now has this frame and no more
  have hdrain := drain_cutter (analyzeFrame flags r.connection) (d.key, d.reports) flow.left
  rw [hleft, frames_bytes hf] at hdrain
  simp only [handleAll, analyzeFrame] at hdrain
  cases ha : analyzePacket flags r.connection d.key f with
  | none =>
      simp only [ha, Option.map_none] at hdrain
      rw [visit, if_neg (by simp [hd.on])]
      simp only [hflow', hleft, hdrain, and_self]
  | some res =>
      obtain ⟨key, report⟩ := res
      simp only [ha, Option.map_some] at hdrain
      have hvisit : visit flags d r =
          { d with
            appended := d.appended ++ [r]
            key := key
            reports := d.reports ++ report.toList }.setFlow r.connection (flow.process []) := by
        rw [visit, if_neg (by simp [hd.on])]
        simp only [hflow', hleft, hdrain]
      rw [hvisit]
      have hempty : ([] : List UInt8).length ≤ flow.left.length := Nat.zero_le _
      refine ⟨⟨hd.on, fun c => ?_, fun c => ?_, fun c => ?_⟩, rfl, rfl⟩
      · by_cases hc : c = r.connection
        · rw [hc, Dump.flow_setFlow_self]
          exact hsound.process hempty
        · rw [Dump.flow_setFlow_of_ne _ _ hc]
          exact hd.sound c
      · by_cases hc : c = r.connection
        · rw [hc, Dump.flow_setFlow_self]
          rfl
        · rw [Dump.flow_setFlow_of_ne _ _ hc]
          exact hd.left c
      · show _ = total c (d.appended ++ [r])
        rw [total_append, total_singleton]
        by_cases hc : c = r.connection
        · have hused := hd.used r.connection
          rw [Flow.dataBufferUsed, hd.left r.connection] at hused
          rw [hc, Dump.flow_setFlow_self, Flow.dataBufferUsed_process hempty, if_pos rfl,
            Flow.dataBufferUsed, hoffset, hleft, hdata, ← hused]
          rfl
        · rw [Dump.flow_setFlow_of_ne _ _ hc, if_neg (fun h => hc h.symm), Nat.add_zero]
          exact hd.used c

/-- A record with one frame that does not end the program. -/
theorem visit_of_analyzePacket (flags : DisplayFlags) {d : Dump} (hd : d.Idle) {r : Record}
    {f : Packet} (hf : f.Fits) (hdata : r.data = f.bytes)
    (hroom : total r.connection d.appended + r.data.length ≤ Flow.capacity) {key : Key}
    {report : Option Report} (ha : analyzePacket flags r.connection d.key f = some (key, report)) :
    (visit flags d r).Idle ∧ (visit flags d r).appended = d.appended ++ [r] ∧
      (visit flags d r).key = key ∧ (visit flags d r).reports = d.reports ++ report.toList := by
  have hvisit := visit_frame flags hd hf hdata hroom
  rw [ha] at hvisit
  exact ⟨hvisit.1, appended_visit flags hd.on r, hvisit.2⟩

/-- When there is no space, the program ends before it looks at the frame. -/
theorem visit_full (flags : DisplayFlags) {d : Dump} (hd : d.Idle) {r : Record}
    (hshort : r.data.length ≤ 131072)
    (hfull : Flow.capacity < total r.connection d.appended + r.data.length) :
    (visit flags d r).ended = true ∧ (visit flags d r).reports = d.reports := by
  have happend := Flow.append_eq (hd.sound r.connection) hshort
  rw [hd.used r.connection, if_neg (Nat.not_le.2 hfull)] at happend
  have happend' : ({ d with appended := d.appended ++ [r] }.flow r.connection).append r.data =
      none := happend
  rw [visit, if_neg (by simp [hd.on])]
  simp only [happend', and_self]

end OpenRom.RomDump
