import OpenRom.Library.LittleEndian

/-!
# Packets

`struct ROM::Packet` and the code that checksums and mangles it. A packet in memory is its twelve
header bytes and the bytes from `p_data` on; `Packet.bytes` lists them and `Packet.read` is the cast
the other way. `Packet.sealWith` is what `ChecksumAndSend` does to a packet; `headerChecksumOK`,
`decrypt` and `dataChecksumOK` are the checks of `OnEvent`, which a sealed packet passes.
-/

set_option autoImplicit false

namespace OpenRom

/-- The flags of a packet. -/
def ROM_PACKET_FLAG_KEY : UInt8 := 0x01
def ROM_PACKET_FLAG_ENCRYPTED : UInt8 := 0x02
def ROM_PACKET_FLAG_ALIVE_REQUEST : UInt8 := 0x04
def ROM_PACKET_FLAG_ALIVE_REPLY : UInt8 := 0x08

/-- The number of bytes of a key. -/
def ROM_KEY_LENGTH : Nat := 10

/-- `sizeof(struct ROM::Packet)` -/
def sizeofPacket : Nat := 12

/-- The bytes of an `uint32_t` in memory. -/
def le32 (n : UInt32) : List UInt8 := LittleEndian.encode 4 n.toNat

/-- The `uint32_t` that these bytes are. -/
def ofLe32 (bs : List UInt8) : UInt32 := UInt32.ofNat (LittleEndian.decode bs)

@[simp] theorem length_le32 (n : UInt32) : (le32 n).length = 4 := LittleEndian.length_encode 4 _

@[simp] theorem ofLe32_le32 (n : UInt32) : ofLe32 (le32 n) = n := by
  rw [ofLe32, le32, LittleEndian.decode_encode n.toNat_lt, UInt32.ofNat_toNat]

theorem le32_ofLe32 {bs : List UInt8} (h : bs.length = 4) : le32 (ofLe32 bs) = bs := by
  have hlt := LittleEndian.decode_lt bs
  rw [h] at hlt
  rw [le32, ofLe32, UInt32.toNat_ofNat_of_lt' hlt, ← h, LittleEndian.encode_decode]

theorem exists_of_length_four {bs : List UInt8} (h : bs.length = 4) :
    ∃ a b c d, bs = [a, b, c, d] := by
  match bs, h with
  | [a, b, c, d], _ => exact ⟨a, b, c, d, rfl⟩

/-- `struct ROM::Packet`, and the memory behind its header. -/
structure Packet where
  pLength : UInt32
  pFlag : UInt8
  pDataChecksum : UInt8
  pHeaderChecksum : UInt8
  pKeynum : UInt8
  pSeq : UInt32
  pData : List UInt8
  deriving DecidableEq, Repr

namespace Packet

/-- The twelve bytes of the header in memory. -/
def header (p : Packet) : List UInt8 :=
  le32 p.pLength ++ [p.pFlag, p.pDataChecksum, p.pHeaderChecksum, p.pKeynum] ++ le32 p.pSeq

/-- The packet in memory. -/
def bytes (p : Packet) : List UInt8 := p.header ++ p.pData

/-- The packet that starts a piece of memory, with all that follows as its data; there is none when
the header does not fit. -/
def read : List UInt8 → Option Packet
  | l₀ :: l₁ :: l₂ :: l₃ :: flag :: dck :: hck :: keynum :: s₀ :: s₁ :: s₂ :: s₃ :: data =>
      some ⟨ofLe32 [l₀, l₁, l₂, l₃], flag, dck, hck, keynum, ofLe32 [s₀, s₁, s₂, s₃], data⟩
  | _ => none

/-- The packet with no more data than its length says. -/
def frame (p : Packet) : Packet := { p with pData := p.pData.take (p.pLength.toNat - sizeofPacket) }

@[simp] theorem length_header (p : Packet) : p.header.length = 12 := by simp [header]

@[simp] theorem length_bytes (p : Packet) : p.bytes.length = sizeofPacket + p.pData.length := by
  simp [bytes, sizeofPacket]

theorem read_bytes (p : Packet) (rest : List UInt8) :
    read (p.bytes ++ rest) = some { p with pData := p.pData ++ rest } := by
  have hlen := ofLe32_le32 p.pLength
  have hseq := ofLe32_le32 p.pSeq
  obtain ⟨l₀, l₁, l₂, l₃, hl⟩ := exists_of_length_four (length_le32 p.pLength)
  obtain ⟨s₀, s₁, s₂, s₃, hs⟩ := exists_of_length_four (length_le32 p.pSeq)
  rw [hl] at hlen
  rw [hs] at hseq
  simp [bytes, header, hl, hs, read, hlen, hseq]

theorem bytes_of_read {bs : List UInt8} {p : Packet} (h : read bs = some p) : p.bytes = bs := by
  unfold read at h
  split at h
  · cases h
    simp [bytes, header, le32_ofLe32]
  · cases h

theorem read_eq_none_iff {bs : List UInt8} : read bs = none ↔ bs.length < sizeofPacket := by
  constructor
  · intro h
    -- with twelve bytes there is a header
    refine Nat.lt_of_not_le fun hle => ?_
    match bs, hle with
    | _ :: _ :: _ :: _ :: _ :: _ :: _ :: _ :: _ :: _ :: _ :: _ :: _, _ => simp [read] at h
  · intro h
    cases hr : read bs with
    | none => rfl
    | some p =>
        have hlen := congrArg List.length (bytes_of_read hr)
        rw [length_bytes] at hlen
        omega

/-- What is appended to a memory that holds a packet goes behind its data. -/
theorem read_append {bs : List UInt8} {p : Packet} (h : read bs = some p) (more : List UInt8) :
    read (bs ++ more) = some { p with pData := p.pData ++ more } := by
  rw [← bytes_of_read h, read_bytes]

end Packet

/-! ## Checksums and mangling -/

/-- The loops that add bytes to a checksum. -/
def sumBytes (bs : List UInt8) : UInt8 := bs.foldl (· + ·) 0

/-- Encryption of a byte. -/
def mangle (key b : UInt8) : UInt8 := (b ^^^ key) - key

/-- Decryption of a byte. -/
def unmangle (key b : UInt8) : UInt8 := (b + key) ^^^ key

@[simp] theorem unmangle_mangle (key b : UInt8) : unmangle key (mangle key b) = b := by
  rw [unmangle, mangle, UInt8.sub_add_cancel, UInt8.xor_assoc, UInt8.xor_self, UInt8.xor_zero]

theorem foldl_add (bs : List UInt8) (acc : UInt8) : bs.foldl (· + ·) acc = acc + sumBytes bs := by
  induction bs generalizing acc with
  | nil => simp [sumBytes]
  | cons b bs ih =>
      have hcons : sumBytes (b :: bs) = b + sumBytes bs := by
        rw [sumBytes, List.foldl_cons, ih, UInt8.zero_add]
      rw [List.foldl_cons, ih, hcons, UInt8.add_assoc]

@[simp] theorem sumBytes_nil : sumBytes [] = 0 := rfl

@[simp] theorem sumBytes_cons (b : UInt8) (bs : List UInt8) :
    sumBytes (b :: bs) = b + sumBytes bs := by
  rw [sumBytes, List.foldl_cons, foldl_add, UInt8.zero_add]

@[simp] theorem sumBytes_append (bs cs : List UInt8) :
    sumBytes (bs ++ cs) = sumBytes bs + sumBytes cs := by
  rw [sumBytes, List.foldl_append, foldl_add]
  rfl

namespace Packet

/-- The check of the header checksum, over the first eleven bytes. -/
def headerChecksumOK (p : Packet) : Bool :=
  sumBytes (p.bytes.take 11) - p.pHeaderChecksum == p.pHeaderChecksum

/-- The data is decrypted in place. -/
def decrypt (key : UInt8) (p : Packet) : Packet := { p with pData := p.pData.map (unmangle key) }

/-- The check of the data checksum, over the `p_length` bytes of the decrypted packet. -/
def dataChecksumOK (key : UInt8) (p : Packet) : Bool :=
  sumBytes (p.bytes.take p.pLength.toNat) + key - p.pHeaderChecksum - p.pDataChecksum ==
    p.pDataChecksum

/-- Checksum and encrypt a packet. Bytes behind the `p_length` bytes of the packet are left as they
are. -/
def sealWith (key : UInt8) (p : Packet) : Packet :=
  let n := p.pLength.toNat - sizeofPacket
  let p := { p with pHeaderChecksum := 0, pDataChecksum := 0 }
  let hdrCksum := sumBytes (p.bytes.take 11)
  let dataCksum := sumBytes (p.bytes.take p.pLength.toNat) + key
  { p with
    pHeaderChecksum := hdrCksum + dataCksum
    pDataChecksum := dataCksum
    pData := (p.pData.take n).map (mangle key) ++ p.pData.drop n }

/-- The first eleven bytes are the header without the last byte of the sequence number. -/
theorem sum_take_eleven (p : Packet) :
    sumBytes (p.bytes.take 11) =
      sumBytes (le32 p.pLength) + p.pFlag + p.pDataChecksum + p.pHeaderChecksum + p.pKeynum +
        sumBytes ((le32 p.pSeq).take 3) := by
  obtain ⟨l₀, l₁, l₂, l₃, hl⟩ := exists_of_length_four (length_le32 p.pLength)
  obtain ⟨s₀, s₁, s₂, s₃, hs⟩ := exists_of_length_four (length_le32 p.pSeq)
  simp only [bytes, header, hl, hs, List.cons_append, List.nil_append, List.take_succ_cons,
    List.take_zero, sumBytes_cons, sumBytes_nil]
  grind

theorem sum_bytes (p : Packet) :
    sumBytes p.bytes =
      sumBytes (le32 p.pLength) + p.pFlag + p.pDataChecksum + p.pHeaderChecksum + p.pKeynum +
        sumBytes (le32 p.pSeq) + sumBytes p.pData := by
  simp only [bytes, header, sumBytes_append, sumBytes_cons, sumBytes_nil]
  grind

section Seal

variable (key : UInt8) {p : Packet} (h : p.pLength.toNat = sizeofPacket + p.pData.length)

@[simp] theorem pLength_sealWith : (p.sealWith key).pLength = p.pLength := rfl
@[simp] theorem pFlag_sealWith : (p.sealWith key).pFlag = p.pFlag := rfl
@[simp] theorem pKeynum_sealWith : (p.sealWith key).pKeynum = p.pKeynum := rfl
@[simp] theorem pSeq_sealWith : (p.sealWith key).pSeq = p.pSeq := rfl

@[simp] theorem length_sealWith : (p.sealWith key).pData.length = p.pData.length := by
  simp only [sealWith, List.length_append, List.length_map, List.length_take, List.length_drop]
  omega

theorem headerChecksumOK_sealWith : (p.sealWith key).headerChecksumOK = true := by
  simp only [headerChecksumOK, sum_take_eleven, sealWith, beq_iff_eq]
  grind

include h

theorem pData_sealWith : (p.sealWith key).pData = p.pData.map (mangle key) := by
  simp [sealWith, h, List.take_of_length_le]

/-- What was sealed with a key is decrypted with it. -/
theorem pData_decrypt_sealWith : ((p.sealWith key).decrypt key).pData = p.pData := by
  have hid : unmangle key ∘ mangle key = id := funext (unmangle_mangle key)
  rw [decrypt, pData_sealWith key h, List.map_map, hid, List.map_id]

theorem dataChecksumOK_sealWith : ((p.sealWith key).decrypt key).dataChecksumOK key = true := by
  -- both sums are over the whole packet, whose data are the original ones again
  have hdata := pData_decrypt_sealWith key h
  have hlen : ((p.sealWith key).decrypt key).bytes.length = p.pLength.toNat := by
    rw [length_bytes, hdata, h]
  -- the sum of `ChecksumAndSend` was taken while both checksums were zero
  have hzero : ({ p with pHeaderChecksum := 0, pDataChecksum := 0 } : Packet).bytes.length =
      p.pLength.toNat := by
    rw [length_bytes, h]
  rw [dataChecksumOK, show ((p.sealWith key).decrypt key).pLength = p.pLength from rfl,
    List.take_of_length_le (Nat.le_of_eq hlen), sum_bytes, hdata]
  simp only [decrypt, sealWith, beq_iff_eq]
  rw [List.take_of_length_le (Nat.le_of_eq hzero), sum_bytes]
  grind

end Seal

end Packet

end OpenRom
