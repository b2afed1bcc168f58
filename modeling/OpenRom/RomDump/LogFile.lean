import OpenRom.RomDump.Frames
import OpenRom.RomDump.Capture

/-!
# Log files

What `ROMPacketLogger` writes, and what `romdump` makes of it. Both versions of the log are read as
the records that they hold (`main_logBytes`), until the analysis of one ends the program
(`main_logFile`).
-/

set_option autoImplicit false

namespace OpenRom.RomDump

/-! ## Writing -/

/-- `ROMPacketLogger::Open` on an empty file. -/
def ROMPacketLogger.openFile : List UInt8 := le32 ROM_LOGGER_HEADER_MAGIC_2

/-- `ROMPacketLogger::Write`, when both writes are complete. -/
def ROMPacketLogger.write (source dest : IPv4Address) (p : Packet) : List UInt8 :=
  LoggerPacket.bytes {
    lpSourceIp := source.address
    lpSourcePort := source.port
    lpDestIp := dest.address
    lpDestPort := dest.port
    lpLen1 := (p.pLength &&& 0xffff).toUInt16
    lpLen2 := (p.pLength >>> 16).toUInt16 } ++ p.bytes.take p.pLength.toNat

/-- What `Write` is called with. -/
structure Entry where
  source : IPv4Address
  dest : IPv4Address
  packet : Packet
  deriving DecidableEq, Repr

namespace Entry

/-- The packet has a length that the proxy relays, and is there as a whole. -/
structure Sendable (e : Entry) : Prop where
  header_le : sizeofPacket ≤ e.packet.pLength.toNat
  length_lt : e.packet.pLength.toNat < s_MaxPacketSize
  data_le : e.packet.pLength.toNat ≤ sizeofPacket + e.packet.pData.length

/-- The addresses and the frame. -/
def record (e : Entry) : Record := ⟨e.source, e.dest, e.packet.bytes.take e.packet.pLength.toNat⟩

theorem Sendable.length_record {e : Entry} (he : e.Sendable) :
    e.record.data.length = e.packet.pLength.toNat := by
  rw [record, List.length_take, Packet.length_bytes]
  exact Nat.min_eq_left he.data_le

end Entry

/-- The log of the proxy: a call of `Open`, then one of `Write` for every entry. -/
def logFile (es : List Entry) : List UInt8 :=
  ROMPacketLogger.openFile ++ es.flatMap fun e => ROMPacketLogger.write e.source e.dest e.packet

/-! ## The layouts -/

/-- The record header for some bytes. -/
def Record.loggerPacket (r : Record) : LoggerPacket where
  lpSourceIp := r.source.address
  lpSourcePort := r.source.port
  lpDestIp := r.dest.address
  lpDestPort := r.dest.port
  lpLen1 := .ofNat r.data.length
  lpLen2 := .ofNat (r.data.length / 65536)

/-- The two versions of the log. -/
inductive Version
  | one
  | two
  deriving DecidableEq, Repr

namespace Version

def magic : Version → UInt32
  | one => ROM_LOGGER_HEADER_MAGIC_1
  | two => ROM_LOGGER_HEADER_MAGIC_2

def header (v : Version) (r : Record) : List UInt8 :=
  match v with
  | one => r.loggerPacket.head
  | two => r.loggerPacket.bytes

/-- The records that a version can hold. Two bytes of a record of version 1 are read with its
header. -/
def Holds (v : Version) (r : Record) : Prop :=
  match v with
  | one => 2 ≤ r.data.length ∧ r.data.length < 65536
  | two => 1 ≤ r.data.length ∧ r.data.length ≤ sizeofBuffer

/-- What `g_IsROMLogFile` is set to. -/
def number : Version → Nat
  | one => 1
  | two => 2

theorem logVersion_magic (v : Version) : logVersion v.magic = v.number := by cases v <;> rfl

end Version

/-- A log of some version. -/
def logBytes (v : Version) (records : List Record) : List UInt8 :=
  le32 v.magic ++ records.flatMap fun r => v.header r ++ r.data

/-- No length of a packet that fits the buffer is negative as an `int`. -/
theorem bmod_of_le {n : Nat} (hn : n ≤ sizeofBuffer) : Int.bmod (n : Int) 4294967296 = n := by
  simp only [sizeofBuffer] at hn
  rw [Int.bmod_def]
  omega

theorem LoggerPacket.length_eq {lp : LoggerPacket} {n : Nat} (hn : n ≤ sizeofBuffer)
    (hlen : lp.lpLen1.toNat + lp.lpLen2.toNat * 65536 = n) : lp.length = n := by
  subst hlen
  have hcast : ((lp.lpLen1.toNat : Int) + lp.lpLen2.toNat * 65536) =
      ((lp.lpLen1.toNat + lp.lpLen2.toNat * 65536 : Nat) : Int) := by omega
  unfold LoggerPacket.length
  rw [hcast]
  exact bmod_of_le hn

theorem Record.length_loggerPacket {r : Record} (hr : r.data.length ≤ sizeofBuffer) :
    r.loggerPacket.length = r.data.length := by
  refine LoggerPacket.length_eq hr ?_
  simp only [sizeofBuffer] at hr
  simp only [loggerPacket, UInt16.toNat_ofNat']
  omega

/-- `Write` writes a record of version 2. -/
theorem Entry.Sendable.write_eq {e : Entry} (he : e.Sendable) :
    ROMPacketLogger.write e.source e.dest e.packet =
      Version.two.header e.record ++ e.record.data := by
  have hlen := he.length_record
  have hlt := he.length_lt
  simp only [s_MaxPacketSize] at hlt
  have hlow : (e.packet.pLength &&& 0xffff).toUInt16 = .ofNat e.packet.pLength.toNat := by
    have hmask := Nat.and_two_pow_sub_one_eq_mod e.packet.pLength.toNat 16
    rw [← UInt16.toNat_inj, UInt32.toNat_toUInt16, UInt32.toNat_and, UInt16.toNat_ofNat',
      show (0xffff : UInt32).toNat = 2 ^ 16 - 1 from rfl, hmask, Nat.mod_mod]
  have hhigh : (e.packet.pLength >>> 16).toUInt16 = .ofNat (e.packet.pLength.toNat / 65536) := by
    rw [← UInt16.toNat_inj]
    simp [Nat.shiftRight_eq_div_pow]
  rw [ROMPacketLogger.write, hlow, hhigh, Version.header, Record.loggerPacket, hlen]
  rfl

theorem logFile_eq {es : List Entry} (hes : ∀ e ∈ es, e.Sendable) :
    logFile es = logBytes .two (es.map Entry.record) := by
  rw [logFile, logBytes, List.flatMap_map, List.flatMap_def, List.flatMap_def,
    List.map_congr_left fun e he => (hes e he).write_eq]
  rfl

/-! ## Reading -/

theorem File.fread_append {f : File} {bs more : List UInt8} (hrest : f.rest = bs ++ more) :
    f.fread bs.length = some (bs, f.advance bs.length) ∧ (f.advance bs.length).rest = more := by
  have hle : bs.length ≤ f.rest.length := by
    rw [hrest, List.length_append]
    exact Nat.le_add_right _ _
  rw [fread, if_pos hle, rest_advance, hrest, List.take_left, List.drop_left]
  exact ⟨rfl, rfl⟩

/-- The header of a record is read, and what follows it is next. -/
theorem parseHeader_header {v : Version} {r : Record} (hr : v.Holds r) {f : File}
    {more : List UInt8} (hrest : f.rest = v.header r ++ (r.data ++ more)) :
    ∃ f', ROMLogParser.parseHeader f (v.number ≥ 2) =
        some (r.source, r.dest, (r.data.length : Int), f') ∧ f'.rest = r.data ++ more := by
  cases v with
  | two =>
      have hread := File.fread_append hrest
      have hlen : (Version.two.header r).length = 16 := LoggerPacket.length_bytes _
      rw [hlen] at hread
      refine ⟨f.advance 16, ?_, hread.2⟩
      simp only [ROMLogParser.parseHeader, hread.1, Option.bind_eq_bind, Option.bind_some]
      rw [Version.header, LoggerPacket.read_bytes, Record.length_loggerPacket hr.2]
      rfl
  | one =>
      obtain ⟨a, b, data, hdata⟩ : ∃ a b data, r.data = a :: b :: data := by
        have hlen : 2 ≤ r.data.length := hr.1
        rcases hd : r.data with _ | ⟨a, _ | ⟨b, data⟩⟩
        · simp [hd] at hlen
        · simp [hd] at hlen
        · exact ⟨a, b, data, rfl⟩
      -- the two bytes that are put back stand where version 2 has the second half of the length
      let lp : LoggerPacket := { r.loggerPacket with lpLen2 := ofLe16 [a, b] }
      have hbytes : lp.bytes = r.loggerPacket.head ++ [a, b] := by
        rw [LoggerPacket.bytes, show lp.lpLen2 = ofLe16 [a, b] from rfl, le16_ofLe16 rfl]
        rfl
      have hfront : f.rest = lp.bytes ++ (data ++ more) := by
        rw [hrest, hbytes, hdata]
        simp [Version.header]
      have hread := File.fread_append hfront
      rw [LoggerPacket.length_bytes] at hread
      refine ⟨f.advance 14, ?_, ?_⟩
      · simp only [ROMLogParser.parseHeader, hread.1, Option.bind_eq_bind, Option.bind_some]
        rw [LoggerPacket.read_bytes]
        have hlt : r.data.length < 65536 := hr.2
        have hle : r.data.length ≤ sizeofBuffer := by
          unfold sizeofBuffer
          omega
        have hlength : ({ lp with lpLen2 := 0 } : LoggerPacket).length = r.data.length := by
          refine LoggerPacket.length_eq hle ?_
          have hlow : lp.lpLen1.toNat = r.data.length % 65536 := UInt16.toNat_ofNat'
          have hhigh : (0 : UInt16).toNat = 0 := rfl
          rw [hlow, Nat.mod_eq_of_lt hlt, hhigh, Nat.zero_mul, Nat.add_zero]
        rw [hlength]
        rfl
      · have hhead : (Version.one.header r).length = 14 := LoggerPacket.length_head _
        rw [File.rest_advance, hrest, ← hhead, List.drop_left]

/-- The loop of `main` visits the record that the file is at. -/
theorem turn_record (flags : DisplayFlags) {v : Version} {r : Record} (hr : v.Holds r) {f : File}
    {more : List UInt8} (hrest : f.rest = v.header r ++ (r.data ++ more)) (d : Dump) :
    ∃ f', f'.rest = more ∧ turn flags v.number (f, d) =
      if (visit flags d r).ended then .leave (visit flags d r)
      else .again (f', visit flags d r) := by
  obtain ⟨f₁, hheader, hrest₁⟩ := parseHeader_header hr hrest
  obtain ⟨hread, hrest₂⟩ := File.fread_append hrest₁
  have hlen : 1 ≤ r.data.length ∧ r.data.length ≤ sizeofBuffer := by
    cases v with
    | one =>
        have h₁ := hr.1
        have h₂ := hr.2
        unfold sizeofBuffer
        omega
    | two => exact hr
  have hnumber : v.number ≠ 0 := by cases v <;> decide
  have hpos : ¬ ((r.data.length : Int) ≤ 0 ∨ (r.data.length : Int) > sizeofBuffer) := by omega
  refine ⟨_, hrest₂, ?_⟩
  unfold turn
  simp only [hheader]
  rw [if_pos hnumber, if_neg hpos]
  simp only [ROMLogParser.readPacket, Int.toNat_natCast, hread]

/-- The loop of `main` on a log is the visits of its records. -/
theorem ends_records (flags : DisplayFlags) {v : Version} {records : List Record}
    (hrecords : ∀ r ∈ records, v.Holds r) {f : File}
    (hrest : f.rest = records.flatMap fun r => v.header r ++ r.data) {d : Dump}
    (hd : d.ended = false) :
    Loop.Ends (turn flags v.number) (f, d) (records.foldl (visit flags) d) := by
  induction records generalizing f d with
  | nil =>
      -- there is nothing to read
      refine .leave ?_
      have hnumber : v.number ≠ 0 := by cases v <;> decide
      have hread : f.fread 16 = none := if_neg (by rw [hrest, List.flatMap_nil]; decide)
      unfold turn
      simp only [ROMLogParser.parseHeader, hread]
      rw [if_pos hnumber]
      rfl
  | cons r records ih =>
      rw [List.flatMap_cons, List.append_assoc] at hrest
      obtain ⟨f', hrest', hturn⟩ := turn_record flags (hrecords r List.mem_cons_self) hrest d
      rw [List.foldl_cons]
      cases hended : (visit flags d r).ended with
      | true =>
          rw [if_pos hended] at hturn
          rw [foldl_visit_of_ended hended]
          exact .leave hturn
      | false =>
          rw [if_neg (by simp [hended])] at hturn
          exact .again hturn (ih (fun r hr => hrecords r (List.mem_cons_of_mem _ hr)) hrest' hended)

/-- A log of either version is read as its records. -/
theorem main_logBytes (flags : DisplayFlags) {v : Version} {records : List Record}
    (hrecords : ∀ r ∈ records, v.Holds r) :
    main flags (logBytes v records) = process flags records := by
  let f : File := ⟨logBytes v records, 0⟩
  have hrest : f.rest = le32 v.magic ++ records.flatMap fun r => v.header r ++ r.data := rfl
  obtain ⟨hread, hrest'⟩ := File.fread_append hrest
  rw [length_le32] at hread hrest'
  have hrun := run_turn flags v.number (f := f.advance 4) (n := (logBytes v records).length + 1) ?_
    .start
  · rw [main]
    simp only [hread, ofLe32_le32, Version.logVersion_magic, f]
    exact hrun.unique (ends_records flags hrecords hrest' rfl)
  · rw [File.unread, File.rest_advance, List.length_drop]
    exact Nat.lt_succ_of_le (Nat.sub_le _ _)

/-! ## The log of the proxy -/

/-- The loop visits the records in turn, and none behind one at which the program ends. -/
theorem appended_foldl (flags : DisplayFlags) (records : List Record) {d : Dump}
    (hd : d.ended = false) :
    (records.foldl (visit flags) d).appended <+: d.appended ++ records ∧
      ((records.foldl (visit flags) d).ended = false →
        (records.foldl (visit flags) d).appended = d.appended ++ records) := by
  induction records generalizing d with
  | nil => simp
  | cons r records ih =>
      rw [List.foldl_cons]
      have hvisit := appended_visit flags hd r
      cases hended : (visit flags d r).ended with
      | true =>
          rw [foldl_visit_of_ended hended, hvisit]
          refine ⟨⟨records, by simp⟩, fun hon => ?_⟩
          rw [hended] at hon
          cases hon
      | false =>
          have hrest := ih hended
          rw [hvisit, List.append_assoc] at hrest
          exact hrest

theorem prefix_appended_foldl (flags : DisplayFlags) (records : List Record) (d : Dump) :
    d.appended <+: (records.foldl (visit flags) d).appended := by
  induction records generalizing d with
  | nil => exact List.prefix_rfl
  | cons r records ih =>
      refine List.IsPrefix.trans ?_ (ih (visit flags d r))
      cases hended : d.ended with
      | true =>
          have hsame : visit flags d r = d := visit_of_ended hended r
          exact hsame.symm ▸ List.prefix_rfl
      | false =>
          rw [appended_visit flags hended]
          exact List.prefix_append _ _

theorem Entry.Sendable.fits {e : Entry} (he : e.Sendable) : e.packet.frame.Fits := by
  have hdata := he.data_le
  have hheader := he.header_le
  refine ⟨?_, he.length_lt⟩
  rw [Packet.frame, List.length_take]
  show e.packet.pLength.toNat = _
  omega

theorem Entry.Sendable.data_record {e : Entry} (he : e.Sendable) :
    e.record.data = e.packet.frame.bytes := by
  have hheader := he.header_le
  unfold sizeofPacket at hheader
  rw [record, Packet.bytes, Packet.bytes, List.take_append, Packet.length_header,
    List.take_of_length_le (by rw [Packet.length_header]; exact hheader)]
  rfl

/-- Without a packet that ends the program, and with space in every flow, the loop goes on. -/
theorem idle_foldl {flags : DisplayFlags} {es : List Entry} (hes : ∀ e ∈ es, e.Sendable)
    (hends : ∀ e ∈ es, ¬ EndsProgram flags e.packet.frame) {d : Dump} (hd : d.Idle)
    (htotal : ∀ c, total c (d.appended ++ es.map Entry.record) ≤ Flow.capacity) :
    ((es.map Entry.record).foldl (visit flags) d).Idle := by
  induction es generalizing d with
  | nil => exact hd
  | cons e es ih =>
      have he := hes e List.mem_cons_self
      have happended := appended_visit flags hd.on e.record
      have hroom : total e.record.connection d.appended + e.record.data.length ≤ Flow.capacity := by
        have hle := htotal e.record.connection
        rw [List.map_cons, ← List.singleton_append, ← List.append_assoc, total_append,
          total_append, total_singleton, if_pos rfl] at hle
        omega
      have hvisit := visit_frame flags hd he.fits he.data_record hroom
      cases ha : analyzePacket flags e.record.connection d.key e.packet.frame with
      | none => exact absurd (analyzePacket_eq_none_iff.1 ha) (hends e List.mem_cons_self)
      | some res =>
          rw [ha] at hvisit
          rw [List.map_cons, List.foldl_cons]
          refine ih (fun e he => hes e (List.mem_cons_of_mem _ he))
            (fun e he => hends e (List.mem_cons_of_mem _ he)) hvisit.1 fun c => ?_
          rw [happended, List.append_assoc]
          exact htotal c

/-- The records that a file is read as: their addresses and bytes are those that `Flow::Append` is
called for, up to the first that ends the program. -/
def ReadAs (flags : DisplayFlags) (bytes : List UInt8) (records : List Record) : Prop :=
  main flags bytes = process flags records ∧ (main flags bytes).appended <+: records ∧
    ((main flags bytes).ended = false → (main flags bytes).appended = records)

theorem readAs_logBytes (flags : DisplayFlags) {v : Version} {records : List Record}
    (hrecords : ∀ r ∈ records, v.Holds r) : ReadAs flags (logBytes v records) records := by
  unfold ReadAs
  rw [main_logBytes flags hrecords]
  have happended := appended_foldl flags records (d := .start) rfl
  exact ⟨rfl, happended⟩

theorem Entry.Sendable.holds_two {e : Entry} (he : e.Sendable) : Version.two.Holds e.record := by
  have hlen := he.length_record
  have h₁ := he.header_le
  have h₂ := he.length_lt
  unfold sizeofPacket at h₁
  unfold s_MaxPacketSize at h₂
  exact ⟨by omega, by unfold sizeofBuffer; omega⟩

/-- The log of the proxy is read as its records. -/
theorem main_logFile_eq (flags : DisplayFlags) {es : List Entry} (hes : ∀ e ∈ es, e.Sendable) :
    main flags (logFile es) = process flags (es.map Entry.record) := by
  rw [logFile_eq hes]
  refine main_logBytes flags fun r hr => ?_
  obtain ⟨e, he, rfl⟩ := List.mem_map.1 hr
  exact (hes e he).holds_two

/-- A log is read back as the calls of `Write` that made it, and in the layout of version 1 as well.
When no packet ends the program and every flow stays within its largest size, all of it is. -/
theorem main_logFile (flags : DisplayFlags) {es : List Entry} (hes : ∀ e ∈ es, e.Sendable) :
    ReadAs flags (logFile es) (es.map Entry.record) ∧
      ((∀ e ∈ es, e.packet.pLength.toNat < 65536) →
        ReadAs flags (logBytes .one (es.map Entry.record)) (es.map Entry.record)) ∧
      ((∀ e ∈ es, ¬ EndsProgram flags e.packet.frame) →
        (∀ c, total c (es.map Entry.record) ≤ Flow.capacity) →
          (main flags (logFile es)).appended = es.map Entry.record) := by
  have htwo : ∀ r ∈ es.map Entry.record, Version.two.Holds r := by
    intro r hr
    obtain ⟨e, he, rfl⟩ := List.mem_map.1 hr
    exact (hes e he).holds_two
  have hread := readAs_logBytes flags htwo
  rw [← logFile_eq hes] at hread
  refine ⟨hread, fun hshort => readAs_logBytes flags ?_, fun hends htotal => hread.2.2 ?_⟩
  · intro r hr
    obtain ⟨e, he, rfl⟩ := List.mem_map.1 hr
    have hlen := (hes e he).length_record
    have h₁ := (hes e he).header_le
    have h₂ := hshort e he
    unfold sizeofPacket at h₁
    exact ⟨by omega, by omega⟩
  · rw [hread.1]
    exact (idle_foldl hes hends Dump.idle_start htotal).on

/-- A key of ten zeros. -/
def keyEntry : Entry :=
  ⟨⟨1, 1⟩, ⟨2, 2⟩, ⟨22, ROM_PACKET_FLAG_KEY, 0, 0, 0, 0, List.replicate 10 0⟩⟩

/-- Three bytes of data in the other direction, with one byte more in the packet's memory. -/
def dataEntry : Entry :=
  ⟨⟨2, 2⟩, ⟨1, 1⟩, ⟨15, ROM_PACKET_FLAG_ENCRYPTED, 0, 0, 9, 0, [1, 2, 3, 4]⟩⟩

theorem sendable_keyEntry : keyEntry.Sendable := ⟨by decide, by decide, by decide⟩

theorem sendable_dataEntry : dataEntry.Sendable := ⟨by decide, by decide, by decide⟩

/-- A log with packets in both directions. -/
theorem main_logFile_exchange :
    ReadAs ⟨false, false⟩ (logFile [keyEntry, dataEntry]) [keyEntry.record, dataEntry.record] ∧
      ReadAs ⟨false, false⟩ (logBytes .one [keyEntry.record, dataEntry.record])
        [keyEntry.record, dataEntry.record] ∧
      (main ⟨false, false⟩ (logFile [keyEntry, dataEntry])).appended =
        [keyEntry.record, dataEntry.record] := by
  have hes : ∀ e ∈ [keyEntry, dataEntry], e.Sendable :=
    List.forall_mem_cons.2 ⟨sendable_keyEntry, List.forall_mem_singleton.2 sendable_dataEntry⟩
  obtain ⟨htwo, hone, hwhole⟩ := main_logFile ⟨false, false⟩ hes
  refine ⟨htwo, hone (by decide), hwhole ?_ fun c => ?_⟩
  · refine List.forall_mem_cons.2 ⟨?_, List.forall_mem_singleton.2 ?_⟩
    · rintro ⟨-, ⟨-, hlength⟩ | ⟨hflag, -⟩⟩
      · exact hlength rfl
      · cases hflag
    · rintro ⟨-, ⟨hflag, -⟩ | ⟨-, hnumber⟩⟩
      · exact hflag rfl
      · exact hnumber (Or.inr (by decide))
  · rw [List.map_cons, List.map_singleton, ← List.singleton_append, total_append, total_singleton,
      total_singleton]
    have hkey : keyEntry.record.data.length = 22 := rfl
    have hdata : dataEntry.record.data.length = 15 := rfl
    unfold Flow.capacity
    split <;> split <;> omega

/-- A key packet without a key. -/
def shortKey : Entry := ⟨⟨1, 1⟩, ⟨2, 2⟩, ⟨12, 1, 0, 0, 0, 0, []⟩⟩

theorem sendable_shortKey : shortKey.Sendable := ⟨by decide, by decide, by decide⟩

/-- What comes after it is not read. -/
theorem main_logFile_shortKey_twice :
    ¬ ∀ (flags : DisplayFlags) (es : List Entry), (∀ e ∈ es, e.Sendable) →
      (main flags (logFile es)).appended = es.map Entry.record := by
  intro hall
  have hes : ∀ e ∈ [shortKey, shortKey], e.Sendable := by
    intro e he
    rcases List.mem_cons.1 he with rfl | he
    · exact sendable_shortKey
    · obtain rfl := List.mem_singleton.1 he
      exact sendable_shortKey
  have happended := hall ⟨false, false⟩ _ hes
  have hholds : ∀ r ∈ [shortKey.record, shortKey.record], Version.two.Holds r := by
    intro r hr
    have hr' : r = shortKey.record := by simpa using hr
    rw [hr']
    exact ⟨by decide, by decide⟩
  rw [logFile_eq hes, List.map_cons, List.map_cons, List.map_nil, main_logBytes _ hholds]
    at happended
  -- the first record ends the program
  have hvisit := visit_frame ⟨false, false⟩ Dump.idle_start sendable_shortKey.fits
    sendable_shortKey.data_record (by decide)
  have hended : (visit ⟨false, false⟩ .start shortKey.record).ended = true := hvisit.1
  rw [process, List.foldl_cons, foldl_visit_of_ended hended, appended_visit _ rfl] at happended
  simp [Dump.start] at happended

end OpenRom.RomDump
