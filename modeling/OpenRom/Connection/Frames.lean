import OpenRom.Connection.Reassemble

/-!
# Frames between two connections

What `SendPacket` and `SendKey` write, and what `OnEvent` makes of it. A data frame carries its
payload under a key (`Carries`): a connection with that key decrypts it to the payload. A key frame
makes any connection take over its key.
-/

set_option autoImplicit false

namespace OpenRom

open Reassembly

variable {ω : Type}

/-- The length of a packet is that of its header and data, and one that `OnEvent` accepts. -/
structure Packet.Fits (p : Packet) : Prop where
  length_eq : p.pLength.toNat = sizeofPacket + p.pData.length
  length_lt : p.pLength.toNat < s_MaxPacketSize

theorem Packet.Fits.length_bytes {p : Packet} (hp : p.Fits) : p.bytes.length = p.pLength.toNat := by
  rw [Packet.length_bytes, hp.length_eq]

theorem Packet.Fits.frame {p : Packet} (hp : p.Fits) : p.frame = p := by
  have hlen := hp.length_eq
  simp only [Packet.frame]
  rw [List.take_of_length_le (by omega)]

theorem Packet.Fits.seal {p : Packet} (hp : p.Fits) (key : UInt8) : (p.sealWith key).Fits :=
  ⟨by rw [Packet.pLength_sealWith, Packet.length_sealWith, hp.length_eq], hp.length_lt⟩

/-- A whole frame at the front of the buffer is handled. -/
theorem look_of_fits {h : Host ω} {s : Session} {w : ω} {p : Packet} (hp : p.Fits) :
    look h (s, w) p.bytes =
      match s.handlePacket h p w with
      | .fault w => .halt (.fault w)
      | .stop s _ w => .halt (.closed s w)
      | .flush s _ w => .take p.bytes.length (s, w) := by
  have hread := Packet.read_bytes p []
  rw [List.append_nil, List.append_nil] at hread
  have hbound : ¬ (p.pLength.toNat < sizeofPacket ∨ p.pLength.toNat ≥ s_MaxPacketSize) := by
    have h₁ := hp.length_eq
    have h₂ := hp.length_lt
    omega
  have hlong : ¬ (p.bytes.length < p.pLength.toNat) := by
    rw [hp.length_bytes]
    omega
  simp only [look, hread]
  rw [if_neg hbound, if_neg hlong, hp.frame]
  cases s.handlePacket h p w with
  | fault | stop => rfl
  | flush s' p' w' => simp only [hp.length_bytes]

theorem look_bytes {h : Host ω} {s s' : Session} {w w' : ω} {p p' : Packet} (hp : p.Fits)
    (hh : s.handlePacket h p w = .flush s' p' w') :
    look h (s, w) p.bytes = .take p.bytes.length (s', w') := by
  rw [look_of_fits hp, hh]

/-- A frame longer than `OnEvent` accepts makes it give up, once the header has arrived. -/
theorem look_header {h : Host ω} {st : Session × ω} {f : Packet}
    (hlen : f.pLength.toNat ≥ s_MaxPacketSize) :
    look h st f.header = .halt (.closed st.1 st.2) := by
  -- the header alone is a packet without data
  have hread := Packet.read_bytes { f with pData := [] } []
  rw [List.append_nil, Packet.bytes, List.append_nil, List.append_nil] at hread
  have hheader : ({ f with pData := [] } : Packet).header = f.header := rfl
  rw [hheader] at hread
  simp only [look, hread]
  exact if_pos (Or.inr hlen)

/-! ## Data frames -/

/-- The frame is one that a connection with the key decrypts to the payload. -/
structure Carries (k : Key) (f : Packet) (payload : List UInt8) : Prop where
  fits : f.Fits
  length_payload : payload.length = f.pData.length
  flag : f.pFlag = ROM_PACKET_FLAG_ENCRYPTED
  headerChecksum : f.headerChecksumOK = true
  decrypts : ∃ key, k.byteFor f.pKeynum = some key ∧ (f.decrypt key).pData = payload ∧
    (f.decrypt key).dataChecksumOK key = true

/-- The key bytes that `SendPacket` uses are inside the key. -/
theorem Key.byteFor_sequence (k : Key) (n : UInt32) :
    ∃ key, k.byteFor ((n % 10).toUInt8) = some key := by
  have hlt : (n % 10).toNat < 10 := by
    rw [UInt32.toNat_mod]
    exact Nat.mod_lt _ (by decide)
  have hbyte : ((n % 10).toUInt8).toNat = (n % 10).toNat := by
    rw [UInt32.toNat_toUInt8]
    omega
  -- below ten, so it is never the number of the fixed key byte
  have hne : (n % 10).toUInt8 ≠ 0xff := by
    rw [ne_eq, ← UInt8.toNat_inj, hbyte]
    simp only [UInt8.reduceToNat]
    omega
  have hin : ((n % 10).toUInt8).toNat < k.bytes.length := by
    rw [k.length_bytes, hbyte]
    exact hlt
  exact ⟨_, by rw [Key.byteFor, if_pos hne, List.getElem?_eq_getElem hin]⟩

/-- `SendPacket` seals the packet and writes it whole. -/
theorem Session.sendPacket_sealWith (write : List UInt8 → ω → Int × ω) (s : Session) {p : Packet}
    (hp : p.pLength.toNat = sizeofPacket + p.pData.length) (w : ω) :
    ∃ key, ∃ q : Packet, q.pLength = p.pLength ∧ q.pData = p.pData ∧
      q.pFlag = ROM_PACKET_FLAG_ENCRYPTED ∧ s.key.byteFor q.pKeynum = some key ∧
      s.sendPacket write p w =
        some ((write (q.sealWith key).bytes w).1 == (q.sealWith key).bytes.length,
          { s with sequence := s.sequence + 1 }, q.sealWith key,
          (write (q.sealWith key).bytes w).2) := by
  obtain ⟨key, hkey⟩ := s.key.byteFor_sequence (s.sequence - 1)
  let q : Packet := { p with
    pFlag := ROM_PACKET_FLAG_ENCRYPTED
    pSeq := s.sequence
    pKeynum := ((s.sequence - 1) % 10).toUInt8 }
  have hlen : (q.sealWith key).bytes.length = (q.sealWith key).pLength.toNat := by
    rw [Packet.length_bytes, Packet.length_sealWith, Packet.pLength_sealWith, hp]
  have hguard : p.pLength.toNat ≥ sizeofPacket := by
    rw [hp]
    exact Nat.le_add_right _ _
  -- the packet is written whole
  have hbytes : (q.sealWith key).bytes.take (q.sealWith key).pLength.toNat =
      (q.sealWith key).bytes :=
    List.take_of_length_le (Nat.le_of_eq hlen)
  refine ⟨key, q, rfl, rfl, rfl, hkey, ?_⟩
  simp only [sendPacket, checksumAndSend, guard, if_pos hguard, Option.pure_def,
    Option.bind_eq_bind, Option.bind_some, hkey]
  rw [hbytes, hlen]

/-- When the packet fits, the frame that is written carries its data. -/
theorem Session.sendPacket_eq (write : List UInt8 → ω → Int × ω) (s : Session) {p : Packet}
    (hp : p.Fits) (w : ω) :
    ∃ f, Carries s.key f p.pData ∧ f.pLength = p.pLength ∧
      s.sendPacket write p w =
        some ((write f.bytes w).1 == f.bytes.length, { s with sequence := s.sequence + 1 }, f,
          (write f.bytes w).2) := by
  obtain ⟨key, q, hlen, hdata, hflag, hkey, hsend⟩ := s.sendPacket_sealWith write hp.length_eq w
  have hq : q.Fits := ⟨by rw [hlen, hdata, hp.length_eq], by rw [hlen]; exact hp.length_lt⟩
  refine ⟨q.sealWith key, ⟨hq.seal key, ?_, hflag, Packet.headerChecksumOK_sealWith key, key, hkey,
    ?_, Packet.dataChecksumOK_sealWith key hq.length_eq⟩, hlen, hsend⟩
  · rw [Packet.length_sealWith, hdata]
  · rw [Packet.pData_decrypt_sealWith key hq.length_eq, hdata]

/-- A connection with the key hands the payload on. -/
theorem Session.handlePacket_carries {h : Host ω} {s : Session} {f : Packet}
    {payload : List UInt8} (hf : Carries s.key f payload) (hhave : s.haveKey = true) (w : ω) :
    ∃ q : Packet, q.pLength = f.pLength ∧ q.pData = payload ∧
      s.handlePacket h f w =
        match h.onPacket q (h.onRawPacketReceived f w) with
        | none => .fault (h.onRawPacketReceived f w)
        | some (p, w) => .flush s p w := by
  obtain ⟨key, hkey, hdata, hck⟩ := hf.decrypts
  refine ⟨f.decrypt key, rfl, hdata, ?_⟩
  -- none of the checks that come first concerns the frame
  have hnotKey : ¬ (f.pFlag &&& ROM_PACKET_FLAG_KEY ≠ 0) := by rw [hf.flag]; decide
  have hnotAlive : ¬ (f.pFlag &&& ROM_PACKET_FLAG_ALIVE_REQUEST ≠ 0) := by rw [hf.flag]; decide
  simp only [handlePacket]
  rw [if_neg hnotKey, if_neg (by simp [hf.headerChecksum]), if_neg hnotAlive,
    if_neg (by simp [hf.flag]), if_neg (by simp [hhave]), hkey]
  exact if_neg (by simp [hck])

/-! ## Key frames -/

/-- The frame is one that makes a connection take over the key. -/
structure CarriesKey (k : Key) (f : Packet) : Prop where
  fits : f.Fits
  flag : f.pFlag &&& ROM_PACKET_FLAG_KEY ≠ 0
  data : f.pData.map (unmangle 8) = k.bytes

/-- `SendKey` writes one frame that carries the key, whatever else the memory of the packet
holds. -/
theorem Session.sendKey_eq (write : List UInt8 → ω → Int × ω) (s : Session) {p : Packet}
    (hp : ROM_KEY_LENGTH ≤ p.pData.length) (w : ω) :
    ∃ p', CarriesKey s.key p'.frame ∧ p'.pFlag = ROM_PACKET_FLAG_KEY ||| ROM_PACKET_FLAG_ENCRYPTED ∧
      s.sendKey write p w =
        some ((write p'.frame.bytes w).1 == p'.frame.bytes.length, p',
          (write p'.frame.bytes w).2) := by
  let q : Packet := { p with
    pLength := 22
    pFlag := ROM_PACKET_FLAG_KEY ||| ROM_PACKET_FLAG_ENCRYPTED
    pSeq := 0
    pKeynum := 0xff
    pData := s.key.bytes ++ p.pData.drop ROM_KEY_LENGTH }
  have hkey := s.key.length_bytes
  -- the frame ends with the key, whatever the memory holds behind it
  have hdata : (q.sealWith 8).frame.pData = s.key.bytes.map (mangle 8) := by
    simp [q, Packet.frame, Packet.sealWith, sizeofPacket, hkey, ROM_KEY_LENGTH]
  have hlen : (q.sealWith 8).frame.pData.length = 10 := by
    rw [hdata, List.length_map, hkey, ROM_KEY_LENGTH]
  have hid : unmangle 8 ∘ mangle 8 = id := funext (unmangle_mangle 8)
  have hfits : (q.sealWith 8).frame.Fits := ⟨by rw [hlen]; rfl,
    show (22 : UInt32).toNat < s_MaxPacketSize by decide⟩
  have hbytes : (q.sealWith 8).bytes.take 22 = (q.sealWith 8).frame.bytes := by
    simp only [Packet.bytes, List.take_append, Packet.length_header]
    rw [List.take_of_length_le (by rw [Packet.length_header]; omega)]
    rfl
  refine ⟨q.sealWith 8, ⟨hfits, ?_, ?_⟩, rfl, ?_⟩
  · show (ROM_PACKET_FLAG_KEY ||| ROM_PACKET_FLAG_ENCRYPTED) &&& ROM_PACKET_FLAG_KEY ≠ 0
    decide
  · rw [hdata, List.map_map, hid, List.map_id]
  · have hguard : sizeofPacket + ROM_KEY_LENGTH ≤ sizeofPacket + p.pData.length := by omega
    rw [hfits.length_bytes, ← hbytes]
    simp only [sendKey, checksumAndSend, guard, if_pos hguard, Option.pure_def,
      Option.bind_eq_bind, Option.bind_some]
    rfl

/-- `SendKey` asserts that there is room for the key. -/
theorem Session.room_of_sendKey {write : List UInt8 → ω → Int × ω} {s : Session} {p p' : Packet}
    {w w' : ω} {ok : Bool} (h : s.sendKey write p w = some (ok, p', w')) :
    ROM_KEY_LENGTH ≤ p.pData.length := by
  refine Nat.le_of_not_lt ?_
  intro hlt
  have hguard : ¬ (sizeofPacket + ROM_KEY_LENGTH ≤ sizeofPacket + p.pData.length) := by omega
  rw [sendKey, guard, if_neg hguard] at h
  cases h

/-- Any connection takes the key over. -/
theorem Session.handlePacket_carriesKey {h : Host ω} {k : Key} {f : Packet}
    (hf : CarriesKey k f) (s : Session) (w : ω) :
    s.handlePacket h f w =
      match h.onNewKey { s with key := k, haveKey := true } (h.onRawPacketReceived f w) with
      | none => .fault (h.onRawPacketReceived f w)
      | some w => .flush { s with key := k, haveKey := true } f w := by
  have hlen : f.pData.length = ROM_KEY_LENGTH := by
    rw [← k.length_bytes, ← hf.data, List.length_map]
  -- decrypting the data gives the key back
  have hinstall : s.installKey f.pData hlen = { s with key := k, haveKey := true } := by
    obtain ⟨bytes, hbytes⟩ := k
    have hdata := hf.data
    simp only at hdata
    subst hdata
    rfl
  have hhandle : s.handlePacket h f w =
      match h.onNewKey (s.installKey f.pData hlen) (h.onRawPacketReceived f w) with
      | none => .fault (h.onRawPacketReceived f w)
      | some w => .flush (s.installKey f.pData hlen) f w :=
    (if_pos hf.flag).trans (dif_pos hlen)
  rw [hhandle, hinstall]

/-! ## Lines of frames -/

/-- A frame under a key: one that carries the key, or one that carries a payload. -/
inductive Frame (k : Key)
  | key (f : Packet) (h : CarriesKey k f)
  | data (f : Packet) (payload : List UInt8) (h : Carries k f payload)

namespace Frame

variable {k : Key}

def packet : Frame k → Packet
  | key f _ => f
  | data f _ _ => f

def bytes (f : Frame k) : List UInt8 := f.packet.bytes

/-- The length and the data that `OnPacket` is called with for the frame. -/
def payload? : Frame k → Option (UInt32 × List UInt8)
  | key _ _ => none
  | data f payload _ => some (f.pLength, payload)

def IsData : Frame k → Prop
  | key _ _ => False
  | data _ _ _ => True

theorem fits (f : Frame k) : f.packet.Fits := by
  cases f with
  | key f h => exact h.fits
  | data f payload h => exact h.fits

end Frame

/-- The connection has the key. -/
def Session.Holds (k : Key) (s : Session) : Prop := s.haveKey = true ∧ s.key = k

/-- The frames on their way to a connection, when the other side has sent the key (`true`) or not.
The key comes first; only what was sent after it can be data. -/
inductive Line (k : Key) (s : Session) : Bool → List (Frame k) → Prop
  | closed : s.haveKey = false → Line k s false []
  | key {f : Packet} {h : CarriesKey k f} {fs : List (Frame k)} : s.haveKey = false →
      (∀ f ∈ fs, f.IsData) → Line k s true (.key f h :: fs)
  | data {fs : List (Frame k)} : s.Holds k → (∀ f ∈ fs, f.IsData) → Line k s true fs

theorem Line.push {k : Key} {s : Session} {fs : List (Frame k)} (hline : Line k s true fs)
    {f : Frame k} (hf : f.IsData) : Line k s true (fs ++ [f]) := by
  have hpush : ∀ {fs : List (Frame k)}, (∀ f ∈ fs, f.IsData) → ∀ f' ∈ fs ++ [f], f'.IsData := by
    intro fs hfs f' hmem
    rcases List.mem_append.1 hmem with h | h
    · exact hfs f' h
    · obtain rfl := List.mem_singleton.1 h
      exact hf
  cases hline with
  | key hno hfs => exact .key hno (hpush hfs)
  | data hk hfs => exact .data hk (hpush hfs)

/-- A connection on an open line that has a key has the right one. -/
theorem Line.holds {k : Key} {s : Session} {opened : Bool} {fs : List (Frame k)}
    (hline : Line k s opened fs) (hhave : s.haveKey = true) : s.Holds k := by
  cases hline with
  | closed hno => exact absurd (hno.symm.trans hhave) nofun
  | key hno _ => exact absurd (hno.symm.trans hhave) nofun
  | data hk _ => exact hk

/-- A connection whose line is not open has no key. -/
theorem Line.opened {k : Key} {s : Session} {opened : Bool} {fs : List (Frame k)}
    (hline : Line k s opened fs) (hhave : s.haveKey = true) : opened = true := by
  cases hline with
  | closed hno => exact absurd (hno.symm.trans hhave) nofun
  | key _ _ => rfl
  | data _ _ => rfl

/-- Only the key of the connection matters. -/
theorem Line.of_sameKey {k : Key} {s s' : Session} {opened : Bool} {fs : List (Frame k)}
    (hline : Line k s opened fs) (hsame : s'.key = s.key ∧ s'.haveKey = s.haveKey) :
    Line k s' opened fs := by
  cases hline with
  | closed hno => exact .closed (hsame.2.trans hno)
  | key hno hfs => exact .key (hsame.2.trans hno) hfs
  | data hk hfs => exact .data ⟨hsame.2.trans hk.1, hsame.1.trans hk.2⟩ hfs

/-- The front of a line that is not empty, and the rest of it. -/
theorem Line.cases_cons {k : Key} {s : Session} {opened : Bool} {f : Frame k} {fs : List (Frame k)}
    (hline : Line k s opened (f :: fs)) :
    opened = true ∧ (∀ f ∈ fs, f.IsData) ∧
      ((s.haveKey = false ∧ ∃ p h, f = .key p h) ∨
        (s.Holds k ∧ ∃ p payload h, f = .data p payload h)) := by
  cases hline with
  | key hno hfs => exact ⟨rfl, hfs, Or.inl ⟨hno, _, _, rfl⟩⟩
  | data hk hfs =>
      refine ⟨rfl, fun f hf => hfs f (List.mem_cons_of_mem _ hf), Or.inr ⟨hk, ?_⟩⟩
      -- behind the key all frames are data
      cases f with
      | key p h => exact absurd (hfs _ List.mem_cons_self) id
      | data p payload h => exact ⟨p, payload, h, rfl⟩

end OpenRom
