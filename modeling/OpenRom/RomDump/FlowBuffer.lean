import OpenRom.Library.Region
import OpenRom.RomDump.Analysis

/-!
# The buffer of a flow

`Flow` with its array: `Append` copies into a larger array when there is no space, `AnalyzeFlow`
goes through the array with a pointer, and `AnalyzePacket` decrypts packets in place. What a new
array holds, and what lies behind the key, can be anything. `FlowBuffer.Holds` relates the array to
the stream of which it has seen a part: the bytes from the current offset on are those of the
stream, which every step keeps.
-/

set_option autoImplicit false

namespace OpenRom.RomDump

open List (load store)

/-- What is found in memory that is not set: in a new array, and behind the key. -/
structure Memory where
  new : List UInt8 → UInt32 → List UInt8
  length_new : ∀ old size, (new old size).length = size.toNat
  behindKey : Key → UInt8 → UInt8

/-- A flow, with all the bytes of `m_Data`. -/
structure FlowBuffer where
  data : List UInt8
  dataBufferSize : UInt32
  dataBufferUsed : UInt32
  currentDataOffset : UInt32
  deriving DecidableEq, Repr

namespace FlowBuffer

variable (memory : Memory)

/-- A flow as `main` makes it. -/
def fresh : FlowBuffer := ⟨memory.new [] 262000, 262000, 0, 0⟩

/-- The loop of `Append`, on the size and the array. There is no result when `memcpy` runs behind
the end of the new array. -/
def grow (used length : UInt32) (st : UInt32 × List UInt8) :
    Loop.Turn (UInt32 × List UInt8) (Option (UInt32 × List UInt8)) :=
  let (size, data) := st
  if used + length > size then
    if used > size * 2 then .leave none
    else .again (size * 2, store 0 (data.take used.toNat) (memory.new data (size * 2)))
  else .leave (some (size, data))

/-- `Flow::Append` -/
def append (f : FlowBuffer) (buffer : List UInt8) : Option FlowBuffer :=
  let length := .ofNat buffer.length
  match Loop.run (grow memory f.dataBufferUsed length) 33 (f.dataBufferSize, f.data) with
  | some (some (size, data)) =>
      some { f with
        data := store f.dataBufferUsed.toNat buffer data
        dataBufferSize := size
        dataBufferUsed := f.dataBufferUsed + length }
  | _ => none

end FlowBuffer

/-! ## Analysis in place -/

/-- `keynum != 0xff ? m_Key[keynum] : 8`, in the memory of `g_State`. -/
def keyByte (memory : Memory) (key : Key) (keynum : UInt8) : UInt8 :=
  if keynum ≠ 0xff then key.bytes[keynum.toNat]?.getD (memory.behindKey key keynum) else 8

/-- Encrypted packets are decrypted where they are. -/
def decrypted (memory : Memory) (key : Key) (p : Packet) : Packet :=
  if p.pFlag = ROM_PACKET_FLAG_ENCRYPTED then p.decrypt (keyByte memory key p.pKeynum) else p

/-- What `AnalyzePacket` does to the key and to the packet in the buffer; there is no result when it
exits. -/
def analyzeInPlace (memory : Memory) (flags : DisplayFlags) (key : Key) (p : Packet) :
    Option (Key × Packet) :=
  if p.pFlag &&& (ROM_PACKET_FLAG_ALIVE_REQUEST ||| ROM_PACKET_FLAG_ALIVE_REPLY) ≠ 0 ∧
      flags.showKeepalive = false then some (key, p)
  else if p.pFlag &&& ROM_PACKET_FLAG_KEY ≠ 0 then
    if h : p.pData.length = ROM_KEY_LENGTH then
      let key : Key := ⟨p.pData.map (unmangle 8), length_unmangled h⟩
      if flags.key = false then some (key, p) else some (key, decrypted memory key p)
    -- `errx`
    else none
  else some (key, decrypted memory key p)

/-- The loop of `AnalyzeFlow`: the pointer, the bytes that are left, and beside them the packets
that `AnalyzePacket` was called with. -/
structure FlowLoop where
  flow : FlowBuffer
  pData : Nat
  dataLeft : UInt32
  key : Key
  passed : List Packet
  deriving DecidableEq, Repr

/-- One turn; there is no result when the program ends, or the header is not in the array. -/
def FlowLoop.turn (memory : Memory) (flags : DisplayFlags) (st : FlowLoop) :
    Loop.Turn FlowLoop (Option FlowLoop) :=
  if st.dataLeft.toNat ≥ sizeofPacket then
    match Packet.read (st.flow.data.drop st.pData) with
    | none => .leave none
    | some p =>
        if p.pLength.toNat > 131072 then .leave none
        else if p.pLength.toNat < sizeofPacket ∨ p.pLength > st.dataLeft then .leave (some st)
        else
          match analyzeInPlace memory flags st.key p.frame with
          | none => .leave none
          | some (key, p') => .again {
              flow := { st.flow with
                data := store st.pData p'.bytes st.flow.data
                currentDataOffset := st.flow.currentDataOffset + p.pLength }
              pData := st.pData + p.pLength.toNat
              dataLeft := st.dataLeft - p.pLength
              key := key
              passed := st.passed ++ [p.frame] }
  else .leave (some st)

/-- Where `AnalyzeFlow` starts. -/
def FlowBuffer.enter (f : FlowBuffer) (key : Key) (passed : List Packet) : FlowLoop :=
  ⟨f, f.currentDataOffset.toNat, f.dataBufferUsed - f.currentDataOffset, key, passed⟩

/-- `AnalyzeFlow`. Every turn goes on by a packet, which the fuel is enough for. -/
def FlowBuffer.analyze (memory : Memory) (flags : DisplayFlags) (f : FlowBuffer) (key : Key)
    (passed : List Packet) : Option FlowLoop :=
  (Loop.run (FlowLoop.turn memory flags) (f.data.length + 1) (f.enter key passed)).getD none

/-- The loop of `main` on the records of a connection. -/
def FlowBuffer.receive (memory : Memory) (flags : DisplayFlags) (st : FlowLoop)
    (record : List UInt8) : Option FlowLoop := do
  let flow ← st.flow.append memory record
  flow.analyze memory flags st.key st.passed

def FlowBuffer.receiveAll (memory : Memory) (flags : DisplayFlags) (key : Key)
    (records : List (List UInt8)) : Option FlowLoop :=
  records.foldlM (receive memory flags) ((fresh memory).enter key [])

/-! ## Growing -/

/-- The flow has seen the bytes `received`: those from the current offset on are in the array. -/
structure FlowBuffer.Holds (f : FlowBuffer) (received : List UInt8) : Prop where
  length_data : f.data.length = f.dataBufferSize.toNat
  size_eq : ∃ k ≤ 14, f.dataBufferSize.toNat = 262000 * 2 ^ k
  used_eq : f.dataBufferUsed.toNat = received.length
  used_le : f.dataBufferUsed.toNat ≤ f.dataBufferSize.toNat
  offset_le : f.currentDataOffset.toNat ≤ f.dataBufferUsed.toNat
  load_eq : load f.currentDataOffset.toNat
    (f.dataBufferUsed.toNat - f.currentDataOffset.toNat) f.data =
      received.drop f.currentDataOffset.toNat

namespace FlowBuffer

variable {memory : Memory}

theorem holds_fresh : (fresh memory).Holds [] where
  length_data := memory.length_new [] 262000
  size_eq := ⟨0, by decide, rfl⟩
  used_eq := rfl
  used_le := by simp [fresh]
  offset_le := Nat.le_refl _
  load_eq := by simp [fresh, load]

/-- The array plays no role in how far it grows. -/
theorem run_grow (memory : Memory) (used length : UInt32) (n : Nat) (st : UInt32 × List UInt8) :
    Loop.run (Flow.resize used length) n st.1 =
      (Loop.run (grow memory used length) n st).map (Option.map Prod.fst) := by
  have hturn : ∀ st, Flow.resize used length (Prod.fst st) =
      (grow memory used length st).map Prod.fst (Option.map Prod.fst) := ?_
  · exact Loop.run_map hturn n st
  rintro ⟨size, data⟩
  simp only [grow, Flow.resize]
  by_cases hfull : used + length > size
  · by_cases hcopy : used > size * 2
    · simp only [if_pos hfull, if_pos hcopy, Loop.Turn.map, Option.map_none]
    · simp only [if_pos hfull, if_neg hcopy, Loop.Turn.map]
  · simp only [if_neg hfull, Loop.Turn.map, Option.map_some]

/-- Growing copies what is used, and the new array has the new size. -/
theorem grow_keeps {used length : UInt32} {st : UInt32 × List UInt8}
    {r : Option (UInt32 × List UInt8)} (hends : Loop.Ends (grow memory used length) st r)
    (hlen : st.2.length = st.1.toNat) (hused : used.toNat ≤ st.1.toNat)
    {size : UInt32} {data : List UInt8} (hr : r = some (size, data)) :
    data.length = size.toNat ∧ data.take used.toNat = st.2.take used.toNat := by
  refine hends.preserves
    (P := fun st' => st'.2.length = st'.1.toNat ∧ used.toNat ≤ st'.1.toNat ∧
      st'.2.take used.toNat = st.2.take used.toNat)
    (Q := fun r => ∀ size data, r = some (size, data) →
      data.length = size.toNat ∧ data.take used.toNat = st.2.take used.toNat)
    ⟨hlen, hused, rfl⟩ ?_ ?_ size data hr
  · rintro ⟨size', data'⟩ st'' - ⟨hlen', hused', htake'⟩ ht
    unfold grow at ht
    simp only at ht hlen' hused' htake'
    split at ht
    · split at ht
      · cases ht
      next hcopy =>
        cases ht
        rw [gt_iff_lt, UInt32.lt_iff_toNat_lt, Nat.not_lt] at hcopy
        -- the bytes that are used go to the start of the new array, which has space for them
        have hcopied : (data'.take used.toNat).length = used.toNat := by
          rw [List.length_take]
          omega
        have hroom : 0 + (data'.take used.toNat).length ≤
            (memory.new data' (size' * 2)).length := by
          rw [memory.length_new, hcopied]
          omega
        refine ⟨?_, hcopy, ?_⟩
        · rw [List.length_store hroom, memory.length_new]
        · have hload := List.load_store_self hroom
          rw [hcopied, load, List.drop_zero] at hload
          exact hload.trans htake'
    · cases ht
  · rintro ⟨size', data'⟩ r' - ⟨hlen', -, htake'⟩ ht size'' data'' rfl
    unfold grow at ht
    simp only at ht
    split at ht
    · split at ht <;> cases ht
    · cases ht
      exact ⟨hlen', htake'⟩

/-- `Append` puts the bytes behind those that are there, which it leaves as they are. -/
theorem append_holds (memory : Memory) {f : FlowBuffer} {received : List UInt8}
    (hf : f.Holds received) {buffer : List UInt8} (hlen : buffer.length ≤ 131072)
    (hroom : received.length + buffer.length ≤ Flow.capacity) :
    ∃ f', f.append memory buffer = some f' ∧ f'.Holds (received ++ buffer) ∧
      f'.currentDataOffset = f.currentDataOffset := by
  obtain ⟨k, hk, hsize⟩ := hf.size_eq
  have hused := hf.used_eq
  have hword : UInt32.size = 2 ^ 32 := rfl
  have hlength : (UInt32.ofNat buffer.length).toNat = buffer.length :=
    UInt32.toNat_ofNat_of_lt' (by omega)
  have hrun := Flow.run_resize f.dataBufferUsed (.ofNat buffer.length)
    (by rw [hlength]; exact hlen) (n := 14 - k) (show 14 - k < 33 by omega) (by omega) hsize
    hf.used_le
  rw [hlength, hused, if_pos hroom] at hrun
  obtain ⟨size, k', hk', hsize', henough, hrun⟩ := hrun
  rw [run_grow memory f.dataBufferUsed (.ofNat buffer.length) 33
    (f.dataBufferSize, f.data)] at hrun
  obtain ⟨r, hr, hmap⟩ := Option.map_eq_some_iff.1 hrun
  obtain ⟨⟨size', data⟩, rfl, hsize''⟩ := Option.map_eq_some_iff.1 hmap
  cases hsize''
  obtain ⟨hdata, htake⟩ := grow_keeps (.of_run hr) hf.length_data hf.used_le rfl
  have hstore : f.dataBufferUsed.toNat + buffer.length ≤ data.length := by
    rw [hdata, hused]
    exact henough
  have hsum : (f.dataBufferUsed + UInt32.ofNat buffer.length).toNat =
      received.length + buffer.length := by
    unfold Flow.capacity at hroom
    rw [UInt32.toNat_add, hlength, hused, Nat.mod_eq_of_lt (by omega)]
  have hoffset := hf.offset_le
  have hfresh : f.append memory buffer = some ⟨store f.dataBufferUsed.toNat buffer data, size',
      f.dataBufferUsed + .ofNat buffer.length, f.currentDataOffset⟩ := by
    simp only [append, hr]
  refine ⟨_, hfresh, ⟨?_, ⟨k', hk', hsize'⟩, ?_, ?_, ?_, ?_⟩, rfl⟩
  · show (store f.dataBufferUsed.toNat buffer data).length = size'.toNat
    rw [List.length_store hstore, hdata]
  · rw [List.length_append]
    exact hsum
  · exact Nat.le_trans (Nat.le_of_eq hsum) henough
  · rw [hsum, ← hused]
    exact Nat.le_trans hoffset (Nat.le_add_right _ _)
  · -- what was to be consumed is where it was, and the new bytes follow
    have hsplit : (f.dataBufferUsed + UInt32.ofNat buffer.length).toNat -
        f.currentDataOffset.toNat =
          (f.dataBufferUsed.toNat - f.currentDataOffset.toNat) + buffer.length := by
      rw [hsum]
      omega
    have hold : load f.currentDataOffset.toNat
        (f.dataBufferUsed.toNat - f.currentDataOffset.toNat) data =
          received.drop f.currentDataOffset.toNat := by
      have hinside : f.currentDataOffset.toNat +
          (f.dataBufferUsed.toNat - f.currentDataOffset.toNat) ≤ f.dataBufferUsed.toNat := by
        omega
      rw [← List.load_take hinside, htake, List.load_take hinside]
      exact hf.load_eq
    have hend : f.currentDataOffset.toNat +
        (f.dataBufferUsed.toNat - f.currentDataOffset.toNat) = f.dataBufferUsed.toNat := by
      omega
    have hseen : f.currentDataOffset.toNat ≤ received.length := hused ▸ hoffset
    show load _ _ (store f.dataBufferUsed.toNat buffer data) = _
    rw [hsplit, List.load_add, hend, List.load_store_self hstore,
      List.load_store_of_apart (Or.inl (Nat.le_of_eq hend)) hstore, hold]
    exact (List.drop_append_of_le_length hseen).symm

end FlowBuffer

end OpenRom.RomDump
