import OpenRom.Library.Numeral
import OpenRom.RomDump.Analysis

/-!
# Capture files

`romdump` reads a log of the proxy, in either version, or the text that `tcpflow` prints. `main`
tells them apart by the first four bytes, and puts them back only when there are fewer.

A string in memory is the characters before its first NUL. Where the code would read what has not
been set, or an assertion fails, the program has ended as far as the model is concerned.
-/

set_option autoImplicit false

namespace OpenRom.RomDump

/-! ## Files -/

/-- A text is cut at the first of these characters: what is before it, and what starts with it. -/
theorem takeWhile_ne_append {α : Type} [DecidableEq α] {stop : α} {front : List α} (back : List α)
    (hfront : ∀ c ∈ front, c ≠ stop) :
    (front ++ stop :: back).takeWhile (· ≠ stop) = front ∧
      (front ++ stop :: back).dropWhile (· ≠ stop) = stop :: back := by
  have hall : ∀ c ∈ front, decide (c ≠ stop) = true := fun c hc => decide_eq_true (hfront c hc)
  rw [List.takeWhile_append_of_pos hall, List.dropWhile_append_of_pos hall]
  simp

/-- The bytes of an `uint16_t` in memory. -/
def le16 (n : UInt16) : List UInt8 := LittleEndian.encode 2 n.toNat

/-- The `uint16_t` that these bytes are. -/
def ofLe16 (bs : List UInt8) : UInt16 := UInt16.ofNat (LittleEndian.decode bs)

@[simp] theorem length_le16 (n : UInt16) : (le16 n).length = 2 := LittleEndian.length_encode 2 _

@[simp] theorem ofLe16_le16 (n : UInt16) : ofLe16 (le16 n) = n := by
  rw [ofLe16, le16, LittleEndian.decode_encode n.toNat_lt, UInt16.ofNat_toNat]

theorem le16_ofLe16 {bs : List UInt8} (h : bs.length = 2) : le16 (ofLe16 bs) = bs := by
  have hlt := LittleEndian.decode_lt bs
  rw [h] at hlt
  rw [le16, ofLe16, UInt16.toNat_ofNat_of_lt' hlt, ← h, LittleEndian.encode_decode]

/-- An open file. -/
structure File where
  bytes : List UInt8
  pos : Nat
  deriving Repr

namespace File

/-- What has not been read. -/
def rest (f : File) : List UInt8 := f.bytes.drop f.pos

def advance (f : File) (n : Nat) : File := { f with pos := f.pos + n }

@[simp] theorem rest_advance (f : File) (n : Nat) : (f.advance n).rest = f.rest.drop n := by
  rw [rest, rest, List.drop_drop]
  rfl

/-- `fread` of one item of that size. -/
def fread (f : File) (size : Nat) : Option (List UInt8 × File) :=
  if size ≤ f.rest.length then some (f.rest.take size, f.advance size) else none

/-- The characters of a line with its end, but no more than `n`. -/
def lineOf : Nat → List UInt8 → List UInt8
  | 0, _ => []
  | _, [] => []
  | n + 1, c :: cs => if c = 0x0a then [c] else c :: lineOf n cs

/-- `fgets` into an array of that size. -/
def fgets (f : File) (size : Nat) : Option (List UInt8 × File) :=
  if f.rest = [] then none
  else some (lineOf (size - 1) f.rest, f.advance (lineOf (size - 1) f.rest).length)

/-- The string that an array with these characters and a NUL behind them holds. -/
def cString (cs : List UInt8) : List UInt8 := cs.takeWhile (· ≠ 0)

/-- The string at the start of memory with these characters, unless none of them ends it. -/
def cString? (cs : List UInt8) : Option (List UInt8) := if 0 ∈ cs then some (cString cs) else none

theorem cString_append {s : List UInt8} (hs : ∀ c ∈ s, c ≠ 0) (behind : List UInt8) :
    cString (s ++ 0 :: behind) = s :=
  (takeWhile_ne_append behind hs).1

theorem cString?_append {s : List UInt8} (hs : ∀ c ∈ s, c ≠ 0) (behind : List UInt8) :
    cString? (s ++ 0 :: behind) = some s := by
  rw [cString?, if_pos (List.mem_append_right _ List.mem_cons_self), cString_append hs]

end File

/-! ## Logs -/

/-- `struct ROM::LoggerPacket` -/
structure LoggerPacket where
  lpSourceIp : UInt32
  lpSourcePort : UInt16
  lpDestIp : UInt32
  lpDestPort : UInt16
  lpLen1 : UInt16
  lpLen2 : UInt16
  deriving DecidableEq, Repr

namespace LoggerPacket

/-- The header without the second half of the length. -/
def head (lp : LoggerPacket) : List UInt8 :=
  le32 lp.lpSourceIp ++ le16 lp.lpSourcePort ++ le32 lp.lpDestIp ++ le16 lp.lpDestPort ++
    le16 lp.lpLen1

def bytes (lp : LoggerPacket) : List UInt8 := lp.head ++ le16 lp.lpLen2

/-- The header in sixteen bytes of memory. -/
def read (bs : List UInt8) : LoggerPacket where
  lpSourceIp := ofLe32 (bs.take 4)
  lpSourcePort := ofLe16 ((bs.drop 4).take 2)
  lpDestIp := ofLe32 ((bs.drop 6).take 4)
  lpDestPort := ofLe16 ((bs.drop 10).take 2)
  lpLen1 := ofLe16 ((bs.drop 12).take 2)
  lpLen2 := ofLe16 ((bs.drop 14).take 2)

@[simp] theorem length_head (lp : LoggerPacket) : lp.head.length = 14 := by simp [head]

@[simp] theorem length_bytes (lp : LoggerPacket) : lp.bytes.length = 16 := by simp [bytes]

/-- The header that is read is the one that was written, whatever follows it. -/
theorem read_bytes (lp : LoggerPacket) : read lp.bytes = lp := by
  -- the offsets are those of the fields
  have hip := length_le32 lp.lpSourceIp
  have hport := length_le16 lp.lpSourcePort
  have hdestIp := length_le32 lp.lpDestIp
  have hdestPort := length_le16 lp.lpDestPort
  have hlen1 := length_le16 lp.lpLen1
  have hlen2 := length_le16 lp.lpLen2
  simp [read, bytes, head, List.drop_append, List.drop_eq_nil_of_le, List.take_of_length_le, hip,
    hport, hdestIp, hdestPort, hlen1, hlen2]

/-- `lp_len1 + (lp_len2 << 16)`, an `int`. -/
def length (lp : LoggerPacket) : Int :=
  Int.bmod (lp.lpLen1.toNat + lp.lpLen2.toNat * 65536) 4294967296

end LoggerPacket

/-- `ROMLogParser::ParseHeader`. The header of version 1 has no second half of the length, so two of
its bytes are put back. -/
def ROMLogParser.parseHeader (f : File) (v2 : Bool) :
    Option (IPv4Address × IPv4Address × Int × File) := do
  let (bs, f) ← f.fread 16
  let lp := LoggerPacket.read bs
  let source := ⟨lp.lpSourceIp, lp.lpSourcePort⟩
  let dest := ⟨lp.lpDestIp, lp.lpDestPort⟩
  if v2 then return (source, dest, lp.length, f)
  else return (source, dest, { lp with lpLen2 := 0 }.length, { f with pos := f.pos - 2 })

/-- `ROMLogParser::ReadPacket` -/
def ROMLogParser.readPacket (f : File) (length : Nat) : Option (List UInt8 × File) := f.fread length

/-! ## Text -/

/-- The value of a digit, below the base. -/
abbrev digit (base : Nat) (c : UInt8) : Option Nat := Numeral.digit base c.toNat

/-- `strtoul`, whose result is cast to an `unsigned int`, and the rest of the string. Without a
digit nothing is read. -/
def strtoul (base : Nat) (s : List UInt8) : UInt32 × List UInt8 :=
  match Numeral.scan UInt8.toNat base s with
  | none => (0, s)
  | some (negative, v, rest) =>
      -- what is out of range becomes `ULONG_MAX`
      let v := if v ≥ 2 ^ 64 then 2 ^ 64 - 1 else if negative then (2 ^ 64 - v) % 2 ^ 64 else v
      (.ofNat v, rest)

namespace TCPFlowParser

/-- `TCPFlowParser::ParseIPv4Address` -/
def parseIPv4Address (line : List UInt8) : Option (IPv4Address × List UInt8) := do
  let (a, ptr) := strtoul 10 line
  guard (ptr.head? = some 0x2e)
  let (b, ptr) := strtoul 10 ptr.tail
  guard (ptr.head? = some 0x2e)
  let (c, ptr) := strtoul 10 ptr.tail
  guard (ptr.head? = some 0x2e)
  let (d, ptr) := strtoul 10 ptr.tail
  guard (ptr.head? = some 0x2e)
  let (e, ptr) := strtoul 10 ptr.tail
  return (⟨a <<< 24 ||| b <<< 16 ||| c <<< 8 ||| d, e.toUInt16⟩, ptr)

/-- How a parser of text comes out: `failed` is a result that is not positive, at which `main`
leaves its loop, `ended` the end of the program. -/
inductive Parsed (α : Type)
  | failed
  | ended
  | ok (a : α)

/-- What is set behind the characters from `fgets`: the NUL that it stores, and the last character
of the array, which is set before, when it is the next one. -/
def behindLine (cs : List UInt8) : List UInt8 := if cs.length = 254 then [0, 0] else [0]

/-- `TCPFlowParser::ParseHeader`. The line may have NULs of its own. -/
def parseHeader (f : File) : Parsed (IPv4Address × IPv4Address × File) :=
  match f.fgets 255 with
  | none => .failed
  | some (line, f) =>
      match parseIPv4Address (line ++ behindLine line) with
      | none => .failed
      | some (source, ptr) =>
          -- the next character is behind what has been stored
          if ptr.length ≤ 1 then .ended
          else
            match parseIPv4Address ptr.tail with
            | none => .failed
            | some (dest, ptr) => if ptr.head? = some 0x3a then .ok (source, dest, f) else .failed

/-- The bytes of one line, behind what there is already: `iMaxLength` is the space that is left.
Each turn but the last reads a digit, which the fuel is for. -/
def parseGroups : Nat → List UInt8 → List UInt8 → Nat → Option (List UInt8 × Nat)
  | 0, _, data, iMaxLength => some (data, iMaxLength)
  | fuel + 1, ptr, data, iMaxLength =>
      if ptr.head? = some 0x20 then some (data, iMaxLength)
      else
        let (v, next) := strtoul 16 ptr
        let numDigits := (ptr.length - next.length) / 2
        if numDigits = 0 then some (data, iMaxLength)
        -- both assertions
        else if numDigits > 2 ∨ numDigits > iMaxLength then none
        else
          let next := if next.head? = some 0x20 then next.tail else next
          let high := if numDigits > 1 then [(v >>> 8).toUInt8] else []
          parseGroups fuel next (data ++ high ++ [v.toUInt8]) (iMaxLength - numDigits)

/-- What is stored of a line: the characters from `fgets` and a NUL, and a NUL for the newline that
`strchr` finds. Nothing is read behind the first NUL from the groups on. -/
def storedLine (cs : List UInt8) : List UInt8 :=
  match (File.cString cs).idxOf? 0x0a with
  | some i => cs.set i 0 ++ [0]
  | none => cs ++ [0]

/-- One turn of the loop of `ParsePacket`. -/
def packetTurn (st : File × List UInt8 × Nat) :
    Loop.Turn (File × List UInt8 × Nat) (Parsed (List UInt8 × File)) :=
  let (f, data, iMaxLength) := st
  match f.fgets 255 with
  | none => .leave (.ok (data, f))
  | some (cs, f) =>
      let line := storedLine cs
      if line.head? = some 0 then .leave (.ok (data, f))
      else if (File.cString line).length > 4 ∧ (line)[4]? = some 0x3a then
        -- `line + 6` may be behind what has been stored
        if line.length ≤ 6 then .leave .ended
        else
          match parseGroups line.length (line.drop 6) data iMaxLength with
          | none => .leave .ended
          | some (data, iMaxLength) => .again (f, data, iMaxLength)
      else .leave .failed

/-- `TCPFlowParser::ParsePacket`. Every turn reads a line. -/
def parsePacket (f : File) (iMaxLength : Nat) : Parsed (List UInt8 × File) :=
  (Loop.run packetTurn (f.rest.length + 1) (f, [], iMaxLength)).getD .ended

end TCPFlowParser

/-! ## The program -/

def ROM_LOGGER_HEADER_MAGIC_1 : UInt32 := 0x214d6f52
def ROM_LOGGER_HEADER_MAGIC_2 : UInt32 := 0x2b4d6f52

/-- The size of `pBuffer`. -/
def sizeofBuffer : Nat := 131072

/-- The loop of `main`. `g_IsROMLogFile` is the version of the log, or zero. -/
def turn (flags : DisplayFlags) (isROMLogFile : Nat) (st : File × Dump) :
    Loop.Turn (File × Dump) Dump :=
  let (f, d) := st
  let visited (f : File) (r : Record) : Loop.Turn (File × Dump) Dump :=
    if (visit flags d r).ended then .leave (visit flags d r) else .again (f, visit flags d r)
  if isROMLogFile ≠ 0 then
    match ROMLogParser.parseHeader f (isROMLogFile ≥ 2) with
    | none => .leave d
    | some (source, dest, iResult, f) =>
        if iResult ≤ 0 ∨ iResult > sizeofBuffer then .leave d
        else
          match ROMLogParser.readPacket f iResult.toNat with
          | none => .leave d
          | some (data, f) => visited f ⟨source, dest, data⟩
  else
    match TCPFlowParser.parseHeader f with
    | .failed => .leave d
    | .ended => .leave { d with ended := true }
    | .ok (source, dest, f) =>
        match TCPFlowParser.parsePacket f sizeofBuffer with
        | .failed => .leave d
        | .ended => .leave { d with ended := true }
        | .ok (data, f) => if data = [] then .leave d else visited f ⟨source, dest, data⟩

/-- The version of a log, by its magic number. -/
def logVersion (lhMagic : UInt32) : Nat :=
  if lhMagic = ROM_LOGGER_HEADER_MAGIC_1 then 1
  else if lhMagic = ROM_LOGGER_HEADER_MAGIC_2 then 2
  else 0

/-- `main`, on the bytes of the file. Only a file that is shorter than a magic number is read from
its start again. Every turn of the loop reads something. -/
def main (flags : DisplayFlags) (bytes : List UInt8) : Dump :=
  let f : File := ⟨bytes, 0⟩
  match f.fread 4 with
  | some (lh, f) =>
      (Loop.run (turn flags (logVersion (ofLe32 lh))) (bytes.length + 1) (f, .start)).getD .start
  | none => (Loop.run (turn flags 0) (bytes.length + 1) (f, .start)).getD .start

/-! ## The loops end -/

/-- What has not been read, in bytes. -/
def File.unread (f : File) : Nat := f.rest.length

theorem File.unread_of_fread {f f' : File} {size : Nat} {bs : List UInt8}
    (h : f.fread size = some (bs, f')) : f'.unread + size = f.unread ∧ bs.length = size := by
  unfold fread at h
  split at h
  next hle =>
    cases h
    simp only [unread, rest_advance, List.length_drop, List.length_take]
    omega
  · cases h

theorem File.length_lineOf_pos {n : Nat} {cs : List UInt8} (hn : n ≠ 0) (hcs : cs ≠ []) :
    0 < (lineOf n cs).length := by
  obtain ⟨n, rfl⟩ := Nat.exists_eq_succ_of_ne_zero hn
  cases cs with
  | nil => exact absurd rfl hcs
  | cons c cs =>
      rw [lineOf]
      split <;> exact Nat.succ_pos _

theorem File.unread_of_fgets {f f' : File} {size : Nat} {line : List UInt8} (hsize : 1 < size)
    (h : f.fgets size = some (line, f')) : f'.unread < f.unread := by
  unfold fgets at h
  split at h
  · cases h
  next hne =>
    cases h
    have hpos := length_lineOf_pos (n := size - 1) (by omega) hne
    have hrest : 0 < f.rest.length := List.length_pos_iff.2 hne
    simp only [unread, rest_advance, List.length_drop]
    omega

theorem ROMLogParser.unread_of_parseHeader {f f' : File} {v2 : Bool} {source dest : IPv4Address}
    {length : Int} (h : parseHeader f v2 = some (source, dest, length, f')) :
    f'.unread < f.unread := by
  simp only [parseHeader, Option.bind_eq_bind, Option.bind_eq_some_iff] at h
  obtain ⟨⟨bs, f₁⟩, hread, h⟩ := h
  have hlen := File.unread_of_fread hread
  cases v2 with
  | true =>
      simp only [if_true, Option.pure_def, Option.some.injEq, Prod.mk.injEq] at h
      obtain ⟨-, -, -, rfl⟩ := h
      omega
  | false =>
      -- two of the sixteen bytes are put back
      simp only [Bool.false_eq_true, if_false, Option.pure_def, Option.some.injEq,
        Prod.mk.injEq] at h
      obtain ⟨-, -, -, rfl⟩ := h
      unfold File.fread at hread
      split at hread
      · cases hread
        simp only [File.unread, File.rest, File.advance, List.length_drop] at *
        omega
      · cases hread

theorem TCPFlowParser.unread_of_parseHeader {f f' : File} {source dest : IPv4Address}
    (h : parseHeader f = .ok (source, dest, f')) : f'.unread < f.unread := by
  unfold parseHeader at h
  split at h
  · cases h
  next line f₁ hline =>
    have hlt := File.unread_of_fgets (by decide) hline
    split at h
    · cases h
    split at h
    · cases h
    split at h
    · cases h
    split at h
    · cases h
      exact hlt
    · cases h

namespace TCPFlowParser

theorem unread_packetTurn (st st' : File × List UInt8 × Nat) (h : packetTurn st = .again st') :
    st'.1.unread < st.1.unread := by
  obtain ⟨f, data, iMaxLength⟩ := st
  unfold packetTurn at h
  simp only at h
  split at h
  · cases h
  next line f₁ hline =>
    have hlt := File.unread_of_fgets (by decide) hline
    split at h
    · cases h
    split at h
    · split at h
      · cases h
      split at h
      · cases h
      · cases h
        exact hlt
    · cases h

/-- The fuel of `parsePacket` is enough. -/
theorem parsePacket_ends (f : File) (iMaxLength : Nat) :
    Loop.Ends packetTurn (f, [], iMaxLength) (parsePacket f iMaxLength) := by
  obtain ⟨r, hr⟩ := Loop.exists_ends unread_packetTurn (f, ([] : List UInt8), iMaxLength)
  have hrun := Loop.run_of_ends unread_packetTurn hr (f.rest.length + 1) (Nat.lt_succ_self _)
  rw [parsePacket, hrun]
  exact hr

theorem unread_of_parsePacket {f f' : File} {iMaxLength : Nat} {data : List UInt8}
    (h : parsePacket f iMaxLength = .ok (data, f')) : f'.unread ≤ f.unread := by
  have hends := parsePacket_ends f iMaxLength
  rw [h] at hends
  -- every turn reads on, the last one too
  refine hends.preserves (P := fun st => st.1.unread ≤ f.unread)
    (Q := fun r => ∀ p, r = .ok p → p.2.unread ≤ f.unread) (Nat.le_refl _) ?_ ?_ _ rfl
  · intro st st' _ hle ht
    exact Nat.le_trans (Nat.le_of_lt (unread_packetTurn st st' ht)) hle
  · rintro ⟨f₁, data₁, iMaxLength₁⟩ r _ hle ht p rfl
    unfold packetTurn at ht
    simp only at ht
    split at ht
    · cases ht
      exact hle
    next line f₂ hline =>
      have hlt := File.unread_of_fgets (by decide) hline
      split at ht
      · cases ht
        exact Nat.le_trans (Nat.le_of_lt hlt) hle
      split at ht
      · split at ht
        · cases ht
        split at ht <;> cases ht
      · cases ht

end TCPFlowParser

theorem unread_turn {flags : DisplayFlags} {isROMLogFile : Nat} (st st' : File × Dump)
    (h : turn flags isROMLogFile st = .again st') : st'.1.unread < st.1.unread := by
  obtain ⟨f, d⟩ := st
  unfold turn at h
  simp only at h
  split at h
  · split at h
    · cases h
    next source dest iResult f₁ hheader =>
      have hlt := ROMLogParser.unread_of_parseHeader hheader
      split at h
      · cases h
      split at h
      · cases h
      next data f₂ hdata =>
        have hlen := File.unread_of_fread hdata
        split at h <;> cases h
        show f₂.unread < f.unread
        omega
  · split at h
    · cases h
    · cases h
    next source dest f₁ hheader =>
      have hlt := TCPFlowParser.unread_of_parseHeader hheader
      split at h
      · cases h
      · cases h
      next data f₂ hdata =>
        have hle := TCPFlowParser.unread_of_parsePacket hdata
        split at h
        · cases h
        split at h <;> cases h
        exact Nat.lt_of_le_of_lt hle hlt

/-- The loop of `main` as it is run: the fuel is enough. -/
theorem run_turn (flags : DisplayFlags) (isROMLogFile : Nat) {f : File} {n : Nat}
    (hn : f.unread < n) (d : Dump) :
    Loop.Ends (turn flags isROMLogFile) (f, d)
      ((Loop.run (turn flags isROMLogFile) n (f, d)).getD .start) := by
  obtain ⟨r, hr⟩ := Loop.exists_ends unread_turn (f, d)
  rw [Loop.run_of_ends unread_turn hr n hn]
  exact hr

end OpenRom.RomDump
