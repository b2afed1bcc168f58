import OpenRom.RomDump.LogFile

/-!
# A log on a full disk

`ROMPacketLogger` on a disk with little space. A `write` takes as much as there is space for, and
`Write` leaves out the packet when the record header was not written whole; nothing looks at what
`Write` returns, so the proxy goes on after a failure. Still the log is never misread: `romdump`
finds the records for which `Write` has returned `true`, and stops at the piece of a record behind
them (`main_fullDisk`). A log that is cut off anywhere is read in the same way (`main_cutLog`).
-/

set_option autoImplicit false

namespace OpenRom.RomDump

/-! ## Writing -/

/-- An open file, and how many more bytes its disk has space for. -/
structure Disk where
  bytes : List UInt8
  space : Nat
  deriving DecidableEq, Repr

/-- `write`: what it returns is negative when there is no space at all. -/
def Disk.write (d : Disk) (bs : List UInt8) : Int × Disk :=
  (if d.space = 0 ∧ bs ≠ [] then -1 else (bs.take d.space).length,
    ⟨d.bytes ++ bs.take d.space, d.space - bs.length⟩)

namespace ROMPacketLogger

/-- `Open`, of a file that is empty then. -/
def openOn (space : Nat) : Bool × Disk :=
  let (n, d) := Disk.write ⟨[], space⟩ (le32 ROM_LOGGER_HEADER_MAGIC_2)
  (n == 4, d)

/-- `Write` -/
def writeOn (d : Disk) (e : Entry) : Bool × Disk :=
  let lp : LoggerPacket := {
    lpSourceIp := e.source.address
    lpSourcePort := e.source.port
    lpDestIp := e.dest.address
    lpDestPort := e.dest.port
    lpLen1 := (e.packet.pLength &&& 0xffff).toUInt16
    lpLen2 := (e.packet.pLength >>> 16).toUInt16 }
  let (n, d) := d.write lp.bytes
  if n = 16 then
    let (n, d) := d.write (e.packet.bytes.take e.packet.pLength.toNat)
    (n == e.packet.pLength.toNat, d)
  else (false, d)

/-- A call of `Write` for each entry, with what the calls return. -/
def writesOn (d : Disk) : List Entry → List Bool × Disk
  | [] => ([], d)
  | e :: es => ((writeOn d e).1 :: (writesOn (writeOn d e).2 es).1, (writesOn (writeOn d e).2 es).2)

/-- The log of the proxy, which does not start when `Open` fails. -/
def logOn (space : Nat) (es : List Entry) : List Bool × Disk :=
  let (ok, d) := openOn space
  if ok then writesOn d es else ([], d)

end ROMPacketLogger

/-- How many of the entries are in the first bytes of a log, behind its magic number. -/
def entriesWithin : Nat → List Entry → Nat
  | _, [] => 0
  | n, e :: es =>
      let size := 16 + e.packet.pLength.toNat
      if size ≤ n then entriesWithin (n - size) es + 1 else 0

theorem entriesWithin_le (n : Nat) (es : List Entry) : entriesWithin n es ≤ es.length := by
  induction es generalizing n with
  | nil => exact Nat.le_refl 0
  | cons e es ih =>
      rw [entriesWithin]
      split
      · exact Nat.succ_le_succ (ih _)
      · exact Nat.zero_le _

theorem entriesWithin_zero (es : List Entry) : entriesWithin 0 es = 0 := by
  cases es with
  | nil => rfl
  | cons e es => exact if_neg (by omega)

/-- What is written is the front of what there is to write. It is taken whole when there is space
for it. -/
theorem Disk.write_eq (d : Disk) (bs : List UInt8) (hne : bs ≠ []) :
    (d.write bs).2 = ⟨d.bytes ++ bs.take d.space, d.space - bs.length⟩ ∧
      ((d.write bs).1 = bs.length ↔ bs.length ≤ d.space) := by
  refine ⟨rfl, ?_⟩
  have hpos := List.length_pos_iff.2 hne
  show (if d.space = 0 ∧ bs ≠ [] then (-1 : Int) else (bs.take d.space).length) = bs.length ↔ _
  split
  next hfull => omega
  next hspace =>
    rw [List.length_take]
    omega

/-- The record of one call: the front of it that there is space for. -/
theorem ROMPacketLogger.writeOn_eq (d : Disk) {e : Entry} (he : e.Sendable) :
    writeOn d e = (decide (16 + e.packet.pLength.toNat ≤ d.space),
      ⟨d.bytes ++ (ROMPacketLogger.write e.source e.dest e.packet).take d.space,
        d.space - (16 + e.packet.pLength.toNat)⟩) := by
  have hrecord := he.write_eq
  have hlen : e.record.data.length = e.packet.pLength.toNat := he.length_record
  have hheader : (Version.two.header e.record).length = 16 := LoggerPacket.length_bytes _
  have hpos : sizeofPacket ≤ e.packet.pLength.toNat := he.header_le
  unfold sizeofPacket at hpos
  have hhead := d.write_eq (Version.two.header e.record)
    (List.ne_nil_of_length_pos (by omega))
  -- the header and the packet are what the complete record consists of
  have hsplit : writeOn d e =
      if (d.write (Version.two.header e.record)).1 = 16 then
        (((d.write (Version.two.header e.record)).2.write e.record.data).1 ==
            (e.packet.pLength.toNat : Int),
          ((d.write (Version.two.header e.record)).2.write e.record.data).2)
      else (false, (d.write (Version.two.header e.record)).2) := by
    have hlp := List.append_inj_left (hrecord.symm.trans rfl) (by
      rw [hheader]
      exact (LoggerPacket.length_bytes _).symm)
    rw [hlp]
    rfl
  have hwhole : (d.write (Version.two.header e.record)).1 = 16 ↔ 16 ≤ d.space := by
    rw [hheader] at hhead
    exact hhead.2
  rw [hsplit, hrecord, hhead.1]
  by_cases hfits : 16 ≤ d.space
  · -- the header is there, and as much of the packet as there is still space for
    have hdata := Disk.write_eq ⟨d.bytes ++ (Version.two.header e.record).take d.space,
      d.space - 16⟩ e.record.data (List.ne_nil_of_length_pos (by omega))
    rw [if_pos (hwhole.2 hfits), hheader, hdata.1]
    rw [hlen] at hdata ⊢
    refine Prod.ext ?_ ?_
    · refine Bool.eq_iff_iff.2 ?_
      rw [beq_iff_eq, hdata.2, decide_eq_true_iff]
      show _ ≤ d.space - 16 ↔ _
      omega
    · rw [List.take_append, hheader, List.append_assoc, Nat.sub_sub]
  · rw [if_neg (mt hwhole.1 hfits), hheader]
    refine Prod.ext ?_ ?_
    · exact (decide_eq_false (by omega)).symm
    · have hnone : d.space - 16 = 0 := by omega
      have hnone' : d.space - (16 + e.packet.pLength.toNat) = 0 := by omega
      rw [List.take_append, hheader, hnone, hnone', List.take_zero, List.append_nil]

/-- The records of a sequence of calls: the front of them that there is space for, and success for
those that are there whole. -/
theorem ROMPacketLogger.writesOn_eq (d : Disk) {es : List Entry} (hes : ∀ e ∈ es, e.Sendable) :
    (writesOn d es).2.bytes = d.bytes ++
        (es.flatMap fun e => ROMPacketLogger.write e.source e.dest e.packet).take d.space ∧
      (writesOn d es).1 = List.replicate (entriesWithin d.space es) true ++
        List.replicate (es.length - entriesWithin d.space es) false := by
  induction es generalizing d with
  | nil => simp [writesOn, entriesWithin]
  | cons e es ih =>
      have he := hes e List.mem_cons_self
      obtain ⟨hbytes, hoks⟩ := ih (writeOn d e).2 fun e he => hes e (List.mem_cons_of_mem _ he)
      have hrecord : (ROMPacketLogger.write e.source e.dest e.packet).length =
          16 + e.packet.pLength.toNat := by
        rw [he.write_eq, List.length_append, he.length_record]
        exact congrArg (· + _) (LoggerPacket.length_bytes _)
      rw [writeOn_eq d he] at hbytes hoks
      rw [writesOn, writeOn_eq d he]
      constructor
      · rw [hbytes, List.flatMap_cons, List.take_append, hrecord, List.append_assoc]
      · rw [hoks, entriesWithin]
        by_cases hfits : 16 + e.packet.pLength.toNat ≤ d.space
        · simp [hfits, List.replicate_succ]
        · -- no space is left for the others
          have hnone : d.space - (16 + e.packet.pLength.toNat) = 0 := by omega
          simp [hfits, hnone, entriesWithin_zero, List.replicate_succ]

/-! ## Reading -/

theorem File.fread_eq_none {f : File} {size : Nat} (h : f.rest.length < size) :
    f.fread size = none := if_neg (Nat.not_le.2 h)

/-- A record that is not there whole is not read. -/
theorem turn_cut (flags : DisplayFlags) {e : Entry} (he : e.Sendable) {n : Nat}
    (hn : n < 16 + e.packet.pLength.toNat) {f : File}
    (hrest : f.rest = (ROMPacketLogger.write e.source e.dest e.packet).take n) (d : Dump) :
    turn flags 2 (f, d) = .leave d := by
  have hlen := he.length_record
  have hholds := he.holds_two
  have hheader : (Version.two.header e.record).length = 16 := LoggerPacket.length_bytes _
  rw [he.write_eq, List.take_append, hheader] at hrest
  unfold turn
  by_cases hcut : n < 16
  · -- a part of the header
    have hread : f.fread 16 = none := File.fread_eq_none (by
      rw [hrest, List.length_append, List.length_take, List.length_take]
      omega)
    simp only [ROMLogParser.parseHeader, hread]
    rfl
  · -- the header, and a part of the packet
    rw [List.take_of_length_le (Nat.le_of_not_lt (hheader ▸ hcut))] at hrest
    have hread := File.fread_append hrest
    rw [hheader] at hread
    have hpacket : (f.advance 16).fread e.record.data.length = none := File.fread_eq_none (by
      rw [hread.2, List.length_take]
      omega)
    have hparse : ROMLogParser.parseHeader f (decide (2 ≥ 2)) =
        some (e.record.source, e.record.dest, (e.record.data.length : Int), f.advance 16) := by
      simp only [ROMLogParser.parseHeader, hread.1, Option.bind_eq_bind, Option.bind_some]
      rw [Version.header, LoggerPacket.read_bytes, Record.length_loggerPacket hholds.2]
      rfl
    have hsize : ¬ ((e.record.data.length : Int) ≤ 0 ∨ (e.record.data.length : Int) >
        sizeofBuffer) := by
      have h₁ := hholds.1
      have h₂ := hholds.2
      omega
    simp only [hparse]
    rw [if_pos (by decide), if_neg hsize]
    simp only [Int.toNat_natCast, ROMLogParser.readPacket, hpacket]

/-- The loop of `main` on a log that is cut off is the visits of the records that are there whole.
-/
theorem ends_cut (flags : DisplayFlags) {es : List Entry} (hes : ∀ e ∈ es, e.Sendable) {n : Nat}
    {f : File} (hrest : f.rest =
      (es.flatMap fun e => ROMPacketLogger.write e.source e.dest e.packet).take n)
    {d : Dump} (hd : d.ended = false) :
    Loop.Ends (turn flags 2) (f, d)
      (((es.take (entriesWithin n es)).map Entry.record).foldl (visit flags) d) := by
  induction es generalizing n f d with
  | nil =>
      rw [List.flatMap_nil, List.take_nil] at hrest
      have hnone : f.rest = ([] : List Record).flatMap fun r => Version.two.header r ++ r.data :=
        hrest
      exact ends_records flags (List.forall_mem_nil _) hnone hd
  | cons e es ih =>
      have he := hes e List.mem_cons_self
      have hrecord : (ROMPacketLogger.write e.source e.dest e.packet).length =
          16 + e.packet.pLength.toNat := by
        rw [he.write_eq, List.length_append, he.length_record]
        exact congrArg (· + _) (LoggerPacket.length_bytes _)
      rw [List.flatMap_cons, List.take_append, hrecord] at hrest
      rw [entriesWithin]
      by_cases hfits : 16 + e.packet.pLength.toNat ≤ n
      · -- the first record is there, and the rest of the log is cut off behind it
        rw [List.take_of_length_le (hrecord ▸ hfits), he.write_eq, List.append_assoc] at hrest
        obtain ⟨f', hrest', hturn⟩ := turn_record flags (v := .two) he.holds_two hrest d
        rw [if_pos hfits, List.take_succ_cons, List.map_cons, List.foldl_cons]
        cases hended : (visit flags d e.record).ended with
        | true =>
            rw [if_pos hended] at hturn
            rw [foldl_visit_of_ended hended]
            exact .leave hturn
        | false =>
            rw [if_neg (by simp [hended])] at hturn
            exact .again hturn (ih (fun e he => hes e (List.mem_cons_of_mem _ he)) hrest' hended)
      · have hnone : n - (16 + e.packet.pLength.toNat) = 0 := by omega
        rw [hnone, List.take_zero, List.append_nil] at hrest
        rw [if_neg hfits]
        exact .leave (turn_cut flags he (Nat.lt_of_not_le hfits) hrest d)

/-- A magic number that is cut off is taken for a text, in which nothing is found. -/
theorem main_cutMagic (flags : DisplayFlags) {n : Nat} (hn : n < 4) :
    main flags (ROMPacketLogger.openFile.take n) = .start := by
  obtain rfl | rfl | rfl | rfl : n = 0 ∨ n = 1 ∨ n = 2 ∨ n = 3 := by omega
  all_goals rfl

/-- A log that is cut off anywhere is read as the entries that are there whole. -/
theorem main_cutLog (flags : DisplayFlags) {es : List Entry} (hes : ∀ e ∈ es, e.Sendable)
    (n : Nat) :
    main flags ((logFile es).take n) =
      process flags ((es.take (entriesWithin (n - 4) es)).map Entry.record) := by
  have hlen : ROMPacketLogger.openFile.length = 4 := length_le32 _
  rw [logFile, List.take_append, hlen]
  by_cases hn : n < 4
  · -- not even the magic number
    have hnone : n - 4 = 0 := by omega
    rw [hnone, List.take_zero, List.append_nil, main_cutMagic flags hn, entriesWithin_zero]
    rfl
  · rw [List.take_of_length_le (hlen ▸ Nat.le_of_not_lt hn)]
    let f : File := ⟨ROMPacketLogger.openFile ++
      (es.flatMap fun e => ROMPacketLogger.write e.source e.dest e.packet).take (n - 4), 0⟩
    obtain ⟨hread, hrest⟩ := File.fread_append (f := f) rfl
    rw [hlen] at hread hrest
    have hmagic : logVersion (ofLe32 ROMPacketLogger.openFile) = 2 := by decide
    have hrun := run_turn flags 2 (f := f.advance 4) (n := f.bytes.length + 1) ?_ .start
    · rw [main]
      simp only [f] at hread
      simp only [hread, hmagic]
      exact hrun.unique (ends_cut flags hes hrest rfl)
    · rw [File.unread, File.rest_advance, List.length_drop]
      exact Nat.lt_succ_of_le (Nat.sub_le _ _)

/-- The entries for which `Write` has returned `true`. -/
def ROMPacketLogger.written (es : List Entry) (oks : List Bool) : List Entry :=
  ((es.zip oks).filter Prod.snd).map Prod.fst

/-- Successes that come before all failures are a front of the entries. -/
theorem ROMPacketLogger.written_eq (es : List Entry) {k : Nat} (hk : k ≤ es.length) :
    written es (List.replicate k true ++ List.replicate (es.length - k) false) = es.take k := by
  induction es generalizing k with
  | nil => rw [Nat.le_zero.1 hk]; rfl
  | cons e es ih =>
      cases k with
      | zero =>
          have hnone : ∀ a, (a, true) ∉ es.zip (List.replicate es.length false) := by
            intro a ha
            simpa using List.eq_of_mem_replicate (List.of_mem_zip ha).2
          simpa [written, List.filter_eq_nil_iff, List.replicate_succ] using hnone
      | succ k =>
          have hrest := ih (Nat.le_of_succ_le_succ hk)
          simpa [written, List.replicate_succ] using hrest

/-- On a disk that is full at some point, `romdump` reads the entries for which `Write` has returned
`true`, and they are a front of all: no piece of a record is taken for one, and nothing is written
behind it. -/
theorem main_fullDisk (flags : DisplayFlags) {es : List Entry} (hes : ∀ e ∈ es, e.Sendable)
    (space : Nat) :
    main flags (ROMPacketLogger.logOn space es).2.bytes =
        process flags
          ((ROMPacketLogger.written es (ROMPacketLogger.logOn space es).1).map Entry.record) ∧
      ROMPacketLogger.written es (ROMPacketLogger.logOn space es).1 <+: es ∧
        (ROMPacketLogger.logOn space es).2.bytes = (logFile es).take space := by
  have hlen : (le32 ROM_LOGGER_HEADER_MAGIC_2).length = 4 := length_le32 _
  have hopen := Disk.write_eq ⟨[], space⟩ (le32 ROM_LOGGER_HEADER_MAGIC_2)
    (List.ne_nil_of_length_pos (by rw [hlen]; decide))
  rw [hlen] at hopen
  have hfile : (ROMPacketLogger.openOn space).2 =
      ⟨(le32 ROM_LOGGER_HEADER_MAGIC_2).take space, space - 4⟩ := hopen.1
  have hok : (ROMPacketLogger.openOn space).1 = decide (4 ≤ space) := by
    refine Bool.eq_iff_iff.2 ?_
    rw [decide_eq_true_iff, ← hopen.2]
    exact beq_iff_eq
  have hlog : (logFile es).take space = (le32 ROM_LOGGER_HEADER_MAGIC_2).take space ++
      (es.flatMap fun e => ROMPacketLogger.write e.source e.dest e.packet).take (space - 4) := by
    rw [logFile, List.take_append, ROMPacketLogger.openFile, hlen]
  have hread := main_cutLog flags hes space
  -- what is written is the front of the log, and what has succeeded is in it
  have hcalls : ((ROMPacketLogger.logOn space es).2.bytes = (logFile es).take space) ∧
      ROMPacketLogger.written es (ROMPacketLogger.logOn space es).1 =
        es.take (entriesWithin (space - 4) es) := by
    unfold ROMPacketLogger.logOn
    simp only [hok, hfile]
    by_cases hspace : 4 ≤ space
    · obtain ⟨hbytes, hoks⟩ := ROMPacketLogger.writesOn_eq
        ⟨(le32 ROM_LOGGER_HEADER_MAGIC_2).take space, space - 4⟩ hes
      rw [if_pos (decide_eq_true hspace), hbytes, hoks, hlog]
      exact ⟨rfl, ROMPacketLogger.written_eq es (entriesWithin_le _ es)⟩
    · have hnone : space - 4 = 0 := by omega
      rw [if_neg (by simpa using hspace), hlog, hnone, entriesWithin_zero]
      exact ⟨(List.append_nil _).symm, by simp [ROMPacketLogger.written]⟩
  rw [hcalls.1, hcalls.2, hread]
  exact ⟨rfl, List.take_prefix _ _, rfl⟩

/-- Two records, on a disk with space for one of them and a part of the other. -/
theorem main_fullDisk_shortKey :
    let es := [shortKey, shortKey]
    main ⟨false, false⟩ (ROMPacketLogger.logOn 46 es).2.bytes =
        process ⟨false, false⟩
          ((ROMPacketLogger.written es (ROMPacketLogger.logOn 46 es).1).map Entry.record) ∧
      ROMPacketLogger.written es (ROMPacketLogger.logOn 46 es).1 <+: es ∧
        (ROMPacketLogger.logOn 46 es).2.bytes = (logFile es).take 46 := by
  refine main_fullDisk ⟨false, false⟩ (fun e he => ?_) 46
  have heq : e = shortKey := by simpa using he
  exact heq ▸ sendable_shortKey

end OpenRom.RomDump
