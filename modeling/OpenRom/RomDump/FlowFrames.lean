import Mathlib.Data.List.Induction
import OpenRom.RomDump.FlowBuffer

/-!
# The frames of a flow

However a stream comes in records, the calls of `AnalyzePacket` are for the frames of its greedy
split, each once and in order (`receiveAll_greedySplit`). The loop of `AnalyzeFlow` is compared with
the consumer that cuts frames off the bytes (`cutter`), for which records do not matter.
-/

set_option autoImplicit false

namespace OpenRom.RomDump

open List (load store)
open Reassembly

/-- The greedy split of a stream by the lengths in it: frames one behind the other, up to where no
whole header, a length below that of a header, or no whole frame follows. No length is above
131072. -/
inductive GreedySplit : List UInt8 → List Packet → Prop
  | noHeader {bs : List UInt8} : bs.length < sizeofPacket → GreedySplit bs []
  | noFrame {p : Packet} : p.pLength.toNat ≤ 131072 →
      p.pLength.toNat < sizeofPacket ∨ p.bytes.length < p.pLength.toNat → GreedySplit p.bytes []
  | frame {f : Packet} {bs : List UInt8} {fs : List Packet} : f.pLength.toNat = f.bytes.length →
      f.pLength.toNat ≤ 131072 → GreedySplit bs fs → GreedySplit (f.bytes ++ bs) (f :: fs)

/-- It is the split that the loop of `AnalyzeFlow` computes. -/
theorem frames_of_greedySplit {bs : List UInt8} {fs : List Packet} (h : GreedySplit bs fs) :
    ∃ rest, frames bs = (fs, some rest) := by
  induction h with
  | @noHeader bs hlen =>
      refine ⟨bs, frames_of_part ?_⟩
      rw [front, Packet.read_eq_none_iff.2 hlen]
  | @noFrame p hmax hpart =>
      have hread := Packet.read_bytes p []
      rw [List.append_nil, List.append_nil] at hread
      refine ⟨p.bytes, frames_of_part ?_⟩
      simp only [front, hread]
      rw [if_neg (by omega), if_pos hpart]
  | @frame f bs fs hlen hmax _ ih =>
      obtain ⟨rest, hrest⟩ := ih
      have hdata : f.pLength.toNat = sizeofPacket + f.pData.length := by
        rw [hlen, Packet.length_bytes]
      have hframe : ({ f with pData := f.pData ++ bs } : Packet).frame = f := by
        rw [Packet.frame_append (Nat.le_of_eq hdata), Packet.frame,
          List.take_of_length_le (by omega)]
      have hfront : front (f.bytes ++ bs) = .frame f := by
        simp only [front, Packet.read_bytes, hframe]
        rw [if_neg (by omega), if_neg (by rw [List.length_append]; omega)]
      refine ⟨rest, ?_⟩
      rw [frames_of_frame hfront, hlen, List.drop_left, hrest]

/-! ## One turn -/

/-- The loop is somewhere in a flow that has seen these bytes. -/
structure FlowLoop.Holds (st : FlowLoop) (received : List UInt8) : Prop where
  flow : st.flow.Holds received
  pData_eq : st.pData = st.flow.currentDataOffset.toNat
  dataLeft_eq : st.dataLeft.toNat =
    st.flow.dataBufferUsed.toNat - st.flow.currentDataOffset.toNat

/-- What has not been consumed. -/
def FlowLoop.left (st : FlowLoop) (received : List UInt8) : List UInt8 :=
  received.drop st.flow.currentDataOffset.toNat

theorem FlowBuffer.Holds.enter {f : FlowBuffer} {received : List UInt8} (hf : f.Holds received)
    (key : Key) (passed : List Packet) : (f.enter key passed).Holds received where
  flow := hf
  pData_eq := rfl
  dataLeft_eq := by
    rw [FlowBuffer.enter, UInt32.toNat_sub_of_le _ _ (UInt32.le_iff_toNat_le.2 hf.offset_le)]

variable {memory : Memory} {flags : DisplayFlags}

/-- What is decrypted in place takes the same space. -/
theorem analyzeInPlace_keeps {key key' : Key} {p p' : Packet}
    (h : analyzeInPlace memory flags key p = some (key', p')) :
    p'.pLength = p.pLength ∧ p'.pData.length = p.pData.length := by
  have hdecrypted : ∀ k, (decrypted memory k p).pLength = p.pLength ∧
      (decrypted memory k p).pData.length = p.pData.length := by
    intro k
    unfold decrypted
    split
    · exact ⟨rfl, by rw [Packet.decrypt, List.length_map]⟩
    · exact ⟨rfl, rfl⟩
  unfold analyzeInPlace at h
  split at h
  · cases h
    exact ⟨rfl, rfl⟩
  split at h
  · split at h
    · simp only at h
      split at h <;> cases h
      · exact ⟨rfl, rfl⟩
      · exact hdecrypted _
    · cases h
  · cases h
    exact hdecrypted _

/-- What is handled beside the buffer: the key, and the packets so far. -/
def passFrame (memory : Memory) (flags : DisplayFlags) (st : Key × List Packet) (f : Packet) :
    Option (Key × List Packet) :=
  (analyzeInPlace memory flags st.1 f).map fun r => (r.1, st.2 ++ [f])

namespace FlowLoop

/-- A packet in the array is changed in place, and the loop goes on behind it. -/
theorem Holds.next {st : FlowLoop} {received : List UInt8} (h : st.Holds received) {n : UInt32}
    {bs : List UInt8} (hbs : bs.length = n.toNat) (hle : n.toNat ≤ st.dataLeft.toNat) (key : Key)
    (passed : List Packet) :
    FlowLoop.Holds {
      flow := { st.flow with
        data := store st.pData bs st.flow.data
        currentDataOffset := st.flow.currentDataOffset + n }
      pData := st.pData + n.toNat
      dataLeft := st.dataLeft - n
      key := key
      passed := passed } received := by
  have hoffset := h.flow.offset_le
  have hused := h.flow.used_le
  have hleft := h.dataLeft_eq
  have hlt := st.flow.dataBufferUsed.toNat_lt
  have hsum : (st.flow.currentDataOffset + n).toNat =
      st.flow.currentDataOffset.toNat + n.toNat := by
    rw [UInt32.toNat_add, Nat.mod_eq_of_lt (by omega)]
  have hroom : st.pData + bs.length ≤ st.flow.data.length := by
    rw [h.flow.length_data, h.pData_eq, hbs]
    omega
  refine ⟨⟨?_, h.flow.size_eq, h.flow.used_eq, hused, ?_, ?_⟩, ?_, ?_⟩
  · exact (List.length_store hroom).trans h.flow.length_data
  · show (st.flow.currentDataOffset + n).toNat ≤ st.flow.dataBufferUsed.toNat
    omega
  · -- behind the packet nothing has changed
    show load (st.flow.currentDataOffset + n).toNat
      (st.flow.dataBufferUsed.toNat - (st.flow.currentDataOffset + n).toNat) (store st.pData bs
        st.flow.data) = received.drop (st.flow.currentDataOffset + n).toNat
    have hwhole := h.flow.load_eq
    have hparts : st.flow.dataBufferUsed.toNat - st.flow.currentDataOffset.toNat =
        n.toNat + (st.flow.dataBufferUsed.toNat -
          (st.flow.currentDataOffset.toNat + n.toNat)) := by
      omega
    rw [hparts, List.load_add] at hwhole
    have hfront : (load st.flow.currentDataOffset.toNat n.toNat st.flow.data).length = n.toNat := by
      rw [load, List.length_take, List.length_drop, h.flow.length_data]
      omega
    have hbehind : st.pData + bs.length ≤ st.flow.currentDataOffset.toNat + n.toNat :=
      Nat.le_of_eq (by rw [h.pData_eq, hbs])
    rw [hsum, List.load_store_of_apart (Or.inr hbehind) hroom, ← List.drop_drop, ← hwhole,
      List.drop_left' hfront]
  · show st.pData + n.toNat = (st.flow.currentDataOffset + n).toNat
    rw [h.pData_eq, hsum]
  · show (st.dataLeft - n).toNat =
      st.flow.dataBufferUsed.toNat - (st.flow.currentDataOffset + n).toNat
    rw [UInt32.toNat_sub_of_le _ _ (UInt32.le_iff_toNat_le.2 hle)]
    omega

/-- A turn does what the consumer does, with the bytes that are left in the array. -/
theorem turn_holds (memory : Memory) (flags : DisplayFlags) {st : FlowLoop}
    {received : List UInt8} (h : st.Holds received) :
    match (cutter (passFrame memory flags)).look (st.key, st.passed) (st.left received) with
    | .wait => turn memory flags st = .leave (some st)
    | .halt _ => turn memory flags st = .leave none
    | .take n s => ∃ st', turn memory flags st = .again st' ∧ st'.Holds received ∧
        st'.left received = (st.left received).drop n ∧ (st'.key, st'.passed) = s := by
  have hlen : (st.left received).length = st.dataLeft.toNat := by
    rw [left, List.length_drop, ← h.flow.used_eq, h.dataLeft_eq]
  -- the array goes on with what has not been consumed, and something behind it
  obtain ⟨junk, hjunk⟩ : ∃ junk, st.flow.data.drop st.pData = st.left received ++ junk := by
    refine ⟨(st.flow.data.drop st.pData).drop st.dataLeft.toNat, ?_⟩
    have hload := h.flow.load_eq
    rw [load, ← h.dataLeft_eq, ← h.pData_eq] at hload
    rw [left, ← h.pData_eq, ← hload, List.take_append_drop]
  simp only [cutter]
  unfold front turn
  cases hread : Packet.read (st.left received) with
  | none =>
      have hshort := Packet.read_eq_none_iff.1 hread
      simp only
      rw [if_neg (by omega)]
  | some p =>
      have hbytes := congrArg List.length (Packet.bytes_of_read hread)
      rw [Packet.length_bytes] at hbytes
      simp only [hjunk, Packet.read_append hread junk]
      rw [if_pos (show st.dataLeft.toNat ≥ sizeofPacket by omega)]
      by_cases habort : p.pLength.toNat > 131072
      · simp only [if_pos habort]
      have hgt : (p.pLength > st.dataLeft) = (p.pLength.toNat > (st.left received).length) := by
        rw [gt_iff_lt, UInt32.lt_iff_toNat_lt, hlen]
      by_cases hpart : p.pLength.toNat < sizeofPacket ∨ p.pLength.toNat > (st.left received).length
      · simp only [if_neg habort, hgt, if_pos hpart]
      simp only [if_neg habort, hgt, if_neg hpart]
      rw [Packet.frame_append (by omega)]
      simp only [passFrame]
      cases hanalyze : analyzeInPlace memory flags st.key p.frame with
      | none => rfl
      | some r =>
          obtain ⟨key, p'⟩ := r
          obtain ⟨hsame, hsize⟩ := analyzeInPlace_keeps hanalyze
          have hframe : p'.bytes.length = p.pLength.toNat := by
            rw [Packet.length_bytes, hsize, Packet.frame, List.length_take]
            omega
          refine ⟨_, rfl, h.next hframe (by omega) key (st.passed ++ [p.frame]), ?_, rfl⟩
          have hoffset := h.flow.offset_le
          have hused := st.flow.dataBufferUsed.toNat_lt
          have hleft := h.dataLeft_eq
          show received.drop (st.flow.currentDataOffset + p.pLength).toNat = _
          rw [UInt32.toNat_add, Nat.mod_eq_of_lt (by omega), left, List.drop_drop]
          rfl

/-- The loop ends, as the consumer does. -/
theorem ends_drain (memory : Memory) (flags : DisplayFlags) {st : FlowLoop}
    {received : List UInt8} (h : st.Holds received) :
    match (cutter (passFrame memory flags)).drain (st.key, st.passed) (st.left received) with
    | .halted _ => Loop.Ends (turn memory flags) st none
    | .idle s rest => ∃ st', Loop.Ends (turn memory flags) st (some st') ∧ st'.Holds received ∧
        st'.left received = rest ∧ (st'.key, st'.passed) = s := by
  -- on the bytes that are left, as every frame takes some
  induction hk : (st.left received).length using Nat.strongRecOn generalizing st with
  | ind k ih =>
      have hturn := turn_holds memory flags h
      cases hl : (cutter (passFrame memory flags)).look (st.key, st.passed) (st.left received) with
      | wait =>
          rw [hl] at hturn
          rw [Consumer.drain_of_wait hl]
          exact ⟨st, .leave hturn, h, rfl, rfl⟩
      | halt r =>
          rw [hl] at hturn
          rw [Consumer.drain_of_halt hl]
          exact .leave hturn
      | take n s =>
          rw [hl] at hturn
          obtain ⟨st', hturn, hst', hleft, rfl⟩ := hturn
          have hn := (cutter (passFrame memory flags)).take_pos hl
          have hless : (st'.left received).length < k := by
            rw [hleft, List.length_drop]
            omega
          have hrest := ih _ hless hst' rfl
          rw [Consumer.drain_of_take hl, ← hleft]
          cases hd : (cutter (passFrame memory flags)).drain (st'.key, st'.passed)
              (st'.left received) with
          | halted r =>
              rw [hd] at hrest
              exact .again hturn hrest
          | idle s rest =>
              rw [hd] at hrest
              obtain ⟨st'', hends, hst'', hleft'', hs⟩ := hrest
              exact ⟨st'', .again hturn hends, hst'', hleft'', hs⟩

/-- Wherever the loop comes, the rest of what was received is in the array. -/
theorem holds_of_reaches {st st' : FlowLoop} {received : List UInt8} (h : st.Holds received)
    (hr : Loop.Reaches (turn memory flags) st st') : st'.Holds received := by
  induction hr with
  | refl => exact h
  | @again st st' st'' ht _ ih =>
      have hturn := turn_holds memory flags h
      cases hl : (cutter (passFrame memory flags)).look (st.key, st.passed) (st.left received) with
      | wait | halt =>
          rw [hl] at hturn
          rw [hturn] at ht
          cases ht
      | take n s =>
          rw [hl] at hturn
          obtain ⟨st₁, hturn, hst₁, -⟩ := hturn
          rw [hturn] at ht
          cases ht
          exact ih hst₁

/-- The bytes that are left go down with every turn. -/
theorem dataLeft_turn {st st' : FlowLoop} (ht : turn memory flags st = .again st') :
    st'.dataLeft.toNat < st.dataLeft.toNat := by
  unfold turn at ht
  split at ht
  · split at ht
    · cases ht
    next p hp =>
      split at ht
      · cases ht
      split at ht
      · cases ht
      next hpart =>
        split at ht
        · cases ht
        · cases ht
          have hle : p.pLength ≤ st.dataLeft := UInt32.not_lt.1 fun hlt => hpart (Or.inr hlt)
          have hpos : 0 < p.pLength.toNat := by
            unfold sizeofPacket at hpart
            omega
          have hle' := UInt32.le_iff_toNat_le.1 hle
          show (st.dataLeft - p.pLength).toNat < st.dataLeft.toNat
          rw [UInt32.toNat_sub_of_le _ _ hle]
          omega
  · cases ht

end FlowLoop

namespace FlowBuffer

/-- The fuel of `analyze` is enough. -/
theorem analyze_of_ends {f : FlowBuffer} {received : List UInt8} (hf : f.Holds received)
    {key : Key} {passed : List Packet} {r : Option FlowLoop}
    (hends : Loop.Ends (FlowLoop.turn memory flags) (f.enter key passed) r) :
    f.analyze memory flags key passed = r := by
  have hleft := (hf.enter key passed).dataLeft_eq
  have hused := hf.used_le
  have hlen := hf.length_data
  have hfuel : (f.enter key passed).dataLeft.toNat < f.data.length + 1 := by
    rw [hleft]
    show f.dataBufferUsed.toNat - f.currentDataOffset.toNat < f.data.length + 1
    omega
  rw [analyze, Loop.run_of_ends (μ := fun st => st.dataLeft.toNat)
    (fun _ _ => FlowLoop.dataLeft_turn) hends _ hfuel]
  rfl

/-- One record: the flow takes it, and the loop does with it what the consumer does. -/
theorem receive_holds (memory : Memory) (flags : DisplayFlags) {st : FlowLoop}
    {received record : List UInt8} (h : st.flow.Holds received)
    (hrecord : record.length ≤ 131072)
    (hroom : received.length + record.length ≤ Flow.capacity) :
    ∃ flow, st.flow.append memory record = some flow ∧ flow.Holds (received ++ record) ∧
      match (cutter (passFrame memory flags)).drain (st.key, st.passed)
          (st.left received ++ record) with
      | .halted _ => receive memory flags st record = none
      | .idle s rest => ∃ st', receive memory flags st record = some st' ∧
          st'.flow.Holds (received ++ record) ∧ st'.left (received ++ record) = rest ∧
            (st'.key, st'.passed) = s := by
  obtain ⟨flow, hflow, hholds, hoffset⟩ := append_holds memory h hrecord hroom
  -- the new bytes come behind those that are left, whatever the array did to hold them
  have hleft : (flow.enter st.key st.passed).left (received ++ record) =
      st.left received ++ record := by
    have hle := h.offset_le
    show (received ++ record).drop flow.currentDataOffset.toNat = _
    rw [hoffset, List.drop_append_of_le_length (by rw [← h.used_eq]; exact hle)]
    rfl
  have hreceive : receive memory flags st record = flow.analyze memory flags st.key st.passed := by
    rw [receive, hflow]
    rfl
  have hends := FlowLoop.ends_drain memory flags (hholds.enter st.key st.passed)
  rw [hleft, show (flow.enter st.key st.passed).key = st.key from rfl,
    show (flow.enter st.key st.passed).passed = st.passed from rfl] at hends
  refine ⟨flow, hflow, hholds, ?_⟩
  rw [hreceive]
  cases hd : (cutter (passFrame memory flags)).drain (st.key, st.passed)
      (st.left received ++ record) with
  | halted r =>
      rw [hd] at hends
      exact analyze_of_ends hholds hends
  | idle s rest =>
      rw [hd] at hends
      obtain ⟨st', hends, hst', hrest, hs⟩ := hends
      exact ⟨st', analyze_of_ends hholds hends, hst'.flow, hrest, hs⟩

/-- Records of a stream of which the consumer makes `s`, with `rest` left. -/
theorem receiveAll_holds (key : Key) {records : List (List UInt8)}
    (hrecords : ∀ r ∈ records, r.length ≤ 131072)
    (hroom : records.flatten.length ≤ Flow.capacity) {s : Key × List Packet} {rest : List UInt8}
    (hdrain : (cutter (passFrame memory flags)).drain (key, []) records.flatten = .idle s rest) :
    ∃ st, receiveAll memory flags key records = some st ∧ st.flow.Holds records.flatten ∧
      st.left records.flatten = rest ∧ (st.key, st.passed) = s := by
  -- the induction takes the last record off, which the others are before
  induction records using List.reverseRecOn generalizing s rest with
  | nil =>
      rw [List.flatten_nil, Consumer.drain_of_wait ((cutter (passFrame memory flags)).look_nil _)]
        at hdrain
      cases hdrain
      exact ⟨_, rfl, holds_fresh, rfl, rfl⟩
  | append_singleton records record ih =>
      obtain ⟨hrecords, hrecord⟩ := List.forall_mem_append.1 hrecords
      have hrecord := hrecord record (List.mem_singleton_self _)
      have hflat : (records ++ [record]).flatten = records.flatten ++ record := by simp
      rw [hflat, Consumer.drain_append] at hdrain
      rw [hflat] at hroom ⊢
      rw [List.length_append] at hroom
      cases hd : (cutter (passFrame memory flags)).drain (key, []) records.flatten with
      | halted r =>
          rw [hd] at hdrain
          cases hdrain
      | idle s₁ rest₁ =>
          rw [hd] at hdrain
          obtain ⟨st, hst, hholds, hleft, rfl⟩ := ih hrecords (by omega) hd
          obtain ⟨flow, -, -, hreceive⟩ :=
            receive_holds memory flags hholds hrecord hroom
          rw [hleft] at hreceive
          have hdrain' : (cutter (passFrame memory flags)).drain (st.key, st.passed)
              (rest₁ ++ record) = .idle s rest := hdrain
          rw [hdrain'] at hreceive
          obtain ⟨st', hst', hholds', hleft', hs⟩ := hreceive
          refine ⟨st', ?_, hholds', hleft', hs⟩
          rw [receiveAll, List.foldlM_append] at *
          rw [hst]
          simpa [List.foldlM_cons] using hst'

/-! ## The whole stream -/

/-- The current offset is not behind the data, and what has not been consumed is in the array as it
was received. -/
structure Intact (f : FlowBuffer) (received : List UInt8) : Prop where
  offset_le : f.currentDataOffset.toNat ≤ f.dataBufferUsed.toNat
  used_eq : f.dataBufferUsed.toNat = received.length
  load_eq : load f.currentDataOffset.toNat
    (f.dataBufferUsed.toNat - f.currentDataOffset.toNat) f.data =
      received.drop f.currentDataOffset.toNat

theorem Holds.intact {f : FlowBuffer} {received : List UInt8} (hf : f.Holds received) :
    f.Intact received := ⟨hf.offset_le, hf.used_eq, hf.load_eq⟩

/-- Frames that do not make the program exit are all passed. -/
theorem handleAll_passFrame (memory : Memory) (flags : DisplayFlags) {fs : List Packet}
    (hkeys : ∀ f ∈ fs, f.pFlag &&& ROM_PACKET_FLAG_KEY ≠ 0 → f.pData.length = ROM_KEY_LENGTH)
    (st : Key × List Packet) :
    ∃ key, handleAll (passFrame memory flags) st fs = ((key, st.2 ++ fs), true) := by
  induction fs generalizing st with
  | nil => exact ⟨st.1, by rw [List.append_nil]; rfl⟩
  | cons f fs ih =>
      obtain ⟨hkey, hkeys⟩ := List.forall_mem_cons.1 hkeys
      have hanalyze : ∃ r, analyzeInPlace memory flags st.1 f = some r := by
        unfold analyzeInPlace
        split
        · exact ⟨_, rfl⟩
        split
        next hflag =>
          rw [dif_pos (hkey hflag)]
          simp only
          split <;> exact ⟨_, rfl⟩
        · exact ⟨_, rfl⟩
      obtain ⟨r, hr⟩ := hanalyze
      obtain ⟨key, hrest⟩ := ih hkeys (r.1, st.2 ++ [f])
      refine ⟨key, ?_⟩
      simp only [handleAll, passFrame, hr, Option.map_some]
      exact hrest.trans (by rw [List.append_assoc, List.singleton_append])

/-- However the stream comes in records, the frames of its greedy split are passed to
`AnalyzePacket`, and what has not been consumed is never altered. -/
theorem receiveAll_greedySplit (memory : Memory) (flags : DisplayFlags) (key : Key)
    {records : List (List UInt8)} {fs : List Packet}
    (hrecords : ∀ r ∈ records, 1 ≤ r.length ∧ r.length ≤ 131072)
    (hshort : records.flatten.length < 2 ^ 31) (hsplit : GreedySplit records.flatten fs)
    (hkeys : ∀ f ∈ fs, f.pFlag &&& ROM_PACKET_FLAG_KEY ≠ 0 → f.pData.length = ROM_KEY_LENGTH) :
    (∃ st, receiveAll memory flags key records = some st ∧ st.passed = fs) ∧
      ∀ before record after, records = before ++ record :: after →
        ∃ st flow, receiveAll memory flags key before = some st ∧
          st.flow.append memory record = some flow ∧ st.flow.Intact before.flatten ∧
            ∀ st', Loop.Reaches (FlowLoop.turn memory flags) (flow.enter st.key st.passed) st' →
              st'.flow.Intact (before.flatten ++ record) := by
  obtain ⟨rest, hframes⟩ := frames_of_greedySplit hsplit
  obtain ⟨key', hall⟩ := handleAll_passFrame memory flags hkeys (key, [])
  have hcapacity : records.flatten.length ≤ Flow.capacity := by
    unfold Flow.capacity
    omega
  have hdrain : (cutter (passFrame memory flags)).drain (key, []) records.flatten =
      .idle (key', fs) rest := by
    rw [drain_cutter, hframes, hall]
    rfl
  refine ⟨?_, fun before record after heq => ?_⟩
  · obtain ⟨st, hst, -, -, hs⟩ :=
      receiveAll_holds key (fun r hr => (hrecords r hr).2) hcapacity hdrain
    exact ⟨st, hst, congrArg Prod.snd hs⟩
  · subst heq
    have hflat : (before ++ record :: after).flatten =
        before.flatten ++ (record ++ after.flatten) := by simp
    rw [hflat] at hdrain hcapacity
    rw [List.length_append, List.length_append] at hcapacity
    -- the records before are a front of the stream, of which the consumer has made something
    cases hd : (cutter (passFrame memory flags)).drain (key, []) before.flatten with
    | halted r =>
        rw [Consumer.drain_append, hd] at hdrain
        cases hdrain
    | idle s rest₁ =>
        have hbefore : ∀ r ∈ before, r.length ≤ 131072 := fun r hr =>
          (hrecords r (List.mem_append_left _ hr)).2
        obtain ⟨st, hst, hholds, -, -⟩ := receiveAll_holds key hbefore (by omega) hd
        have hrecord : record.length ≤ 131072 :=
          (hrecords record (List.mem_append_right _ List.mem_cons_self)).2
        obtain ⟨flow, hflow, hholds', -⟩ :=
          append_holds memory hholds hrecord (by omega)
        refine ⟨st, flow, hst, hflow, hholds.intact, fun st' hr => ?_⟩
        exact (FlowLoop.holds_of_reaches (hholds'.enter st.key st.passed) hr).flow.intact

/-- Memory that is zero where it is not set. -/
def zeroMemory : Memory where
  new _ size := List.replicate size.toNat 0
  length_new _ _ := List.length_replicate
  behindKey _ _ := 0

/-- A key frame in two records, and a part of a header. -/
def cutRecords : List (List UInt8) :=
  [[22, 0, 0], [0, 3, 0, 0, 255, 0, 0, 0, 0, 1, 2, 3, 4, 5, 6, 7, 8, 9, 10, 12, 0]]

theorem greedySplit_cutRecords :
    GreedySplit cutRecords.flatten [⟨22, 3, 0, 0, 255, 0, [1, 2, 3, 4, 5, 6, 7, 8, 9, 10]⟩] := by
  have hbytes : cutRecords.flatten =
      Packet.bytes ⟨22, 3, 0, 0, 255, 0, [1, 2, 3, 4, 5, 6, 7, 8, 9, 10]⟩ ++ [12, 0] := rfl
  rw [hbytes]
  exact .frame rfl (by decide) (.noHeader (by decide))

theorem receiveAll_cutRecords :
    (∃ st, receiveAll zeroMemory ⟨false, false⟩ .zero cutRecords = some st ∧
      st.passed = [⟨22, 3, 0, 0, 255, 0, [1, 2, 3, 4, 5, 6, 7, 8, 9, 10]⟩]) ∧
      ∀ before record after, cutRecords = before ++ record :: after →
        ∃ st flow, receiveAll zeroMemory ⟨false, false⟩ .zero before = some st ∧
          st.flow.append zeroMemory record = some flow ∧ st.flow.Intact before.flatten ∧
            ∀ st', Loop.Reaches (FlowLoop.turn zeroMemory ⟨false, false⟩)
              (flow.enter st.key st.passed) st' → st'.flow.Intact (before.flatten ++ record) :=
  receiveAll_greedySplit zeroMemory ⟨false, false⟩ .zero (by decide) (by decide)
    greedySplit_cutRecords (by decide)

/-! ## The other model of a flow -/

/-- The flow without what has been consumed. -/
def toFlow (f : FlowBuffer) : Flow where
  dataBufferSize := f.dataBufferSize
  currentDataOffset := f.currentDataOffset.toNat
  left := load f.currentDataOffset.toNat
    (f.dataBufferUsed.toNat - f.currentDataOffset.toNat) f.data

theorem Holds.toFlow_left {f : FlowBuffer} {received : List UInt8} (hf : f.Holds received) :
    f.toFlow.left = received.drop f.currentDataOffset.toNat := hf.load_eq

theorem Holds.dataBufferUsed_toFlow {f : FlowBuffer} {received : List UInt8}
    (hf : f.Holds received) : f.toFlow.dataBufferUsed = f.dataBufferUsed.toNat := by
  have hle := hf.offset_le
  rw [Flow.dataBufferUsed, hf.toFlow_left, List.length_drop, ← hf.used_eq]
  show f.currentDataOffset.toNat + _ = _
  omega

/-- With and without the array, `Append` is the same. -/
theorem append_toFlow {f : FlowBuffer} {received : List UInt8} (hf : f.Holds received)
    {buffer : List UInt8} (hlen : buffer.length ≤ 131072)
    (hroom : received.length + buffer.length ≤ Flow.capacity) :
    f.toFlow.append buffer = (f.append memory buffer).map toFlow := by
  obtain ⟨f', hf', hholds, hoffset⟩ := append_holds memory hf hlen hroom
  have hleft : f'.toFlow.left = f.toFlow.left ++ buffer := by
    rw [hholds.toFlow_left, hf.toFlow_left, hoffset, List.drop_append_of_le_length]
    exact hf.used_eq ▸ hf.offset_le
  rw [hf', Option.map_some, Flow.append, hf.dataBufferUsed_toFlow, UInt32.ofNat_toNat,
    show f.toFlow.dataBufferSize = (f.dataBufferSize, f.data).1 from rfl,
    run_grow memory]
  unfold append at hf'
  simp only at hf'
  cases hr : Loop.run (grow memory f.dataBufferUsed (.ofNat buffer.length)) 33
      (f.dataBufferSize, f.data) with
  | none =>
      rw [hr] at hf'
      cases hf'
  | some r =>
      rw [hr] at hf'
      cases r with
      | none => cases hf'
      | some r =>
          cases hf'
          simp only [Option.map_some, ← hleft]
          rfl

end FlowBuffer

/-- What `AnalyzePacket` reports is what it leaves in the buffer. -/
theorem analyzeInPlace_of_analyzePacket {conn : Connection} {key key' : Key} {p : Packet}
    {report : Option Report} (h : analyzePacket flags conn key p = some (key', report)) :
    ∃ p', analyzeInPlace memory flags key p = some (key', p') ∧ ∀ r ∈ report, r.packet = p' := by
  -- a report has the packet as it has been decrypted, in the same place
  have hexamine : ∀ {k r}, examine conn k p = some r → r.packet = decrypted memory k p := by
    intro k r hr
    unfold examine at hr
    unfold decrypted
    split at hr
    next hflag =>
      rw [if_pos hflag]
      cases hbyte : k.byteFor p.pKeynum with
      | none =>
          rw [hbyte] at hr
          cases hr
      | some byte =>
          rw [hbyte] at hr
          cases hr
          have hkeyByte : keyByte memory k p.pKeynum = byte := by
            unfold Key.byteFor at hbyte
            unfold keyByte
            split at hbyte
            next hne => rw [if_pos hne, hbyte]; rfl
            next hne => rw [if_neg hne]; exact Option.some.inj hbyte
          rw [hkeyByte]
    next hflag =>
      rw [if_neg hflag]
      cases hr
      rfl
  unfold analyzePacket at h
  unfold analyzeInPlace
  split at h
  next hskip =>
    cases h
    rw [if_pos hskip]
    exact ⟨p, rfl, nofun⟩
  next hskip =>
    rw [if_neg hskip]
    split at h
    next hflag =>
      rw [if_pos hflag]
      split at h
      next hlen =>
        rw [dif_pos hlen]
        simp only at h ⊢
        split at h
        next hshow =>
          cases h
          rw [if_pos hshow]
          exact ⟨p, rfl, nofun⟩
        next hshow =>
          obtain ⟨r, hr, heq⟩ := Option.map_eq_some_iff.1 h
          cases heq
          rw [if_neg hshow]
          refine ⟨_, rfl, ?_⟩
          rintro r' ⟨⟩
          exact hexamine hr
      · cases h
    next hflag =>
      obtain ⟨r, hr, heq⟩ := Option.map_eq_some_iff.1 h
      cases heq
      rw [if_neg hflag]
      refine ⟨_, rfl, ?_⟩
      rintro r' ⟨⟩
      exact hexamine hr

end OpenRom.RomDump
