import Mathlib.Data.List.TakeWhile
import OpenRom.RomDump.LogFile
import OpenRom.RomDump.Numbers

/-!
# Text files

The text that `tcpflow` prints for some records, and what `romdump` makes of it: as the four bytes
that `main` has looked at are not put back, the first header line has lost one of its numbers, and
no record is found (`main_text`).
-/

set_option autoImplicit false

namespace OpenRom.RomDump

/-! ## The text of some records -/

/-- A number below sixteen as a hexadecimal digit. -/
def hexDigit (n : Nat) : UInt8 := if n < 10 then decimalDigit n else 0x61 + .ofNat (n - 10)

/-- The two digits of a byte. -/
def hexByte (b : UInt8) : List UInt8 := [hexDigit (b.toNat / 16), hexDigit (b.toNat % 16)]

/-- Groups of two bytes, the last one of one or two. -/
def hexGroups : List UInt8 → List UInt8
  | [] => []
  | [a] => hexByte a
  | [a, b] => hexByte a ++ hexByte b
  | a :: b :: c :: bs => hexByte a ++ hexByte b ++ [space] ++ hexGroups (c :: bs)

/-- An address and port, `a.b.c.d.port`. -/
def dotted (a : IPv4Address) : List UInt8 :=
  decimal (a.address >>> 24).toNat ++ [dot] ++ decimal (a.address >>> 16 &&& 0xff).toNat ++ [dot] ++
    decimal (a.address >>> 8 &&& 0xff).toNat ++ [dot] ++ decimal (a.address &&& 0xff).toNat ++
    [dot] ++ decimal a.port.toNat

/-- The line with the addresses of a record. -/
def headerLine (r : Record) : List UInt8 :=
  dotted r.source ++ [dash] ++ dotted r.dest ++ [colon, newline]

/-- A line of data: what stands before and behind the hexadecimal groups can be any characters that
stay on the line. -/
structure DataLine where
  offset : List UInt8
  data : List UInt8
  text : List UInt8
  length_offset : offset.length = 4
  data_ne_nil : data ≠ []
  offset_line : ∀ c ∈ offset, c ≠ newline ∧ c ≠ 0
  text_line : ∀ c ∈ text, c ≠ newline ∧ c ≠ 0

/-- The line as it stands in the text. -/
def DataLine.render (l : DataLine) : List UInt8 :=
  l.offset ++ [colon, space] ++ hexGroups l.data ++ [space, space] ++ l.text ++ [newline]

/-- The bytes are a text of the records: for each its header line, lines with its data, and a blank
line. -/
inductive Renders : List Record → List UInt8 → Prop
  | nil : Renders [] []
  | cons {r : Record} {records : List Record} {lines : List DataLine} {more : List UInt8} :
      r.data = lines.flatMap DataLine.data → Renders records more →
        Renders (r :: records)
          (headerLine r ++ lines.flatMap DataLine.render ++ [newline] ++ more)

/-! ## The first header line -/

/-- Where the numbers of an address end. -/
theorem stops_dot (rest : List UInt8) : Stops 10 (dot :: rest) :=
  Numeral.stops_cons (by decide) rest

theorem stops_dash (rest : List UInt8) : Stops 10 (dash :: rest) :=
  Numeral.stops_cons (by decide) rest

/-- Decimal digits are read, and without one nothing is. -/
theorem exists_strtoul {ds : List UInt8} (hds : AllDigits 10 ds) (rest : List UInt8) :
    ∃ v, strtoul 10 (ds ++ dot :: rest) = (v, dot :: rest) := by
  cases ds with
  | nil =>
      have hnone : Numeral.scan UInt8.toNat 10 (dot :: rest) = none :=
        Numeral.scan_none (by decide) (by decide) (by decide) (by decide) (by decide) (by decide)
          rest
      exact ⟨0, by rw [List.nil_append, strtoul, hnone]⟩
  | cons d ds =>
      have hbase : ¬ 10 = 16 := by decide
      exact ⟨_, strtoul_digits (by decide) hds (List.cons_ne_nil d ds) (stops_dot rest)
        fun h => absurd h hbase⟩

/-- What is left of the four numbers and the port when a part is missing from the front: the numbers
run out before the dots do. -/
inductive Cut : List UInt8 → Prop
  | three {b c d p rest : List UInt8} : AllDigits 10 b → AllDigits 10 c → AllDigits 10 d →
      AllDigits 10 p → p ≠ [] → Cut (b ++ dot :: (c ++ dot :: (d ++ dot :: (p ++ dash :: rest))))
  | two {c d p rest : List UInt8} : AllDigits 10 c → AllDigits 10 d → AllDigits 10 p → p ≠ [] →
      Cut (c ++ dot :: (d ++ dot :: (p ++ dash :: rest)))

/-- The fourth number is asked for a dot, and there is a dash. -/
theorem parseIPv4Address_cut {s : List UInt8} (hs : Cut s) :
    TCPFlowParser.parseIPv4Address s = none := by
  have hdot : some dot = some (0x2e : UInt8) := rfl
  have hdash : some dash ≠ some (0x2e : UInt8) := by decide
  cases hs with
  | @three b c d p rest hb hc hd hp hne =>
      obtain ⟨v₁, h₁⟩ := exists_strtoul hb (c ++ dot :: (d ++ dot :: (p ++ dash :: rest)))
      obtain ⟨v₂, h₂⟩ := exists_strtoul hc (d ++ dot :: (p ++ dash :: rest))
      obtain ⟨v₃, h₃⟩ := exists_strtoul hd (p ++ dash :: rest)
      have h₄ := strtoul_digits (by decide) hp hne (stops_dash rest) nofun
      simp only [TCPFlowParser.parseIPv4Address, h₁, h₂, h₃, h₄, List.head?_cons, List.tail_cons,
        guard, if_pos hdot, if_neg hdash]
      rfl
  | @two c d p rest hc hd hp hne =>
      obtain ⟨v₁, h₁⟩ := exists_strtoul hc (d ++ dot :: (p ++ dash :: rest))
      obtain ⟨v₂, h₂⟩ := exists_strtoul hd (p ++ dash :: rest)
      have h₃ := strtoul_digits (by decide) hp hne (stops_dash rest) nofun
      simp only [TCPFlowParser.parseIPv4Address, h₁, h₂, h₃, List.head?_cons, List.tail_cons,
        guard, if_pos hdot, if_neg hdash]
      rfl

/-- The four bytes hold the first dot at least. -/
theorem cut_drop {a b c d p : List UInt8} (ha : 1 ≤ a.length ∧ a.length ≤ 3) (hb : 1 ≤ b.length)
    (hbdigit : AllDigits 10 b) (hcdigit : AllDigits 10 c) (hddigit : AllDigits 10 d)
    (hpdigit : AllDigits 10 p) (hp : p ≠ []) (rest : List UInt8) :
    Cut ((a ++ dot :: (b ++ dot :: (c ++ dot :: (d ++ dot :: (p ++ dash :: rest))))).drop 4) := by
  match a, ha with
  | [_, _, _], _ => exact .three hbdigit hcdigit hddigit hpdigit hp
  | [_, _], _ =>
      match b, hb with
      | _ :: b, _ => exact .three (List.forall_mem_cons.1 hbdigit).2 hcdigit hddigit hpdigit hp
  | [_], _ =>
      match b, hb with
      | [_], _ => exact .two hcdigit hddigit hpdigit hp
      | _ :: _ :: b, _ =>
          have htail := (List.forall_mem_cons.1 (List.forall_mem_cons.1 hbdigit).2).2
          exact .three htail hcdigit hddigit hpdigit hp

theorem length_decimal_byte {n : UInt32} (hn : n.toNat < 256) : (decimal n.toNat).length ≤ 3 :=
  length_decimal_le (by decide) (Nat.lt_of_lt_of_le hn (by decide))

theorem cut_headerLine (r : Record) (more : List UInt8) : Cut ((headerLine r ++ more).drop 4) := by
  have hbyte : (r.source.address >>> 24).toNat < 256 := by
    rw [UInt32.toNat_shiftRight, Nat.shiftRight_eq_div_pow]
    have hlt := r.source.address.toNat_lt
    simp only [UInt32.reduceToNat, Nat.reduceMod, Nat.reducePow]
    omega
  have hcut := cut_drop (a := decimal (r.source.address >>> 24).toNat)
    (b := decimal (r.source.address >>> 16 &&& 0xff).toNat)
    (c := decimal (r.source.address >>> 8 &&& 0xff).toNat)
    (d := decimal (r.source.address &&& 0xff).toNat) (p := decimal r.source.port.toNat)
    ⟨length_decimal_pos _, length_decimal_byte hbyte⟩ (length_decimal_pos _) (allDigits_decimal _)
    (allDigits_decimal _) (allDigits_decimal _) (allDigits_decimal _)
    (List.length_pos_iff.1 (length_decimal_pos _)) (dotted r.dest ++ [colon, newline] ++ more)
  simpa [headerLine, dotted] using hcut

/-- The characters of an address, and how many there are at most. -/
theorem dotted_line (a : IPv4Address) :
    (∀ c ∈ dotted a, c ≠ newline ∧ c ≠ 0) ∧ (dotted a).length ≤ 49 := by
  have hdigit : ∀ n, ∀ c ∈ decimal n, c ≠ newline ∧ c ≠ 0 := by
    intro n c hc
    obtain ⟨d, hd⟩ := allDigits_decimal n c hc
    exact ⟨(ne_of_digit hd).1, (ne_of_digit hd).2.1⟩
  have hdot : dot ≠ newline ∧ dot ≠ 0 := by decide
  have hlen : ∀ n : UInt32, (decimal n.toNat).length ≤ 10 := fun n =>
    length_decimal_le (by decide) (Nat.lt_trans n.toNat_lt (by decide))
  have hport : (decimal a.port.toNat).length ≤ 5 :=
    length_decimal_le (by decide) (Nat.lt_of_lt_of_le a.port.toNat_lt (by decide))
  refine ⟨fun c hc => ?_, ?_⟩
  · simp only [dotted, List.mem_append, List.mem_singleton] at hc
    rcases hc with (((((((hc | rfl) | hc) | rfl) | hc) | rfl) | hc) | rfl) | hc
    all_goals first | exact hdot | exact hdigit _ c hc
  · have h₁ := hlen (a.address >>> 24)
    have h₂ := hlen (a.address >>> 16 &&& 0xff)
    have h₃ := hlen (a.address >>> 8 &&& 0xff)
    have h₄ := hlen (a.address &&& 0xff)
    simp only [dotted, List.length_append, List.length_singleton]
    omega

theorem lineOf_append {cs : List UInt8} (hcs : ∀ c ∈ cs, c ≠ newline) {n : Nat}
    (hn : cs.length < n) (more : List UInt8) :
    File.lineOf n (cs ++ newline :: more) = cs ++ [newline] := by
  induction cs generalizing n with
  | nil =>
      obtain ⟨m, rfl⟩ := Nat.exists_eq_succ_of_ne_zero (Nat.ne_of_gt hn)
      exact if_pos rfl
  | cons c cs ih =>
      obtain ⟨m, rfl⟩ : ∃ m, n = m + 1 := ⟨n - 1, by rw [List.length_cons] at hn; omega⟩
      have hc : ¬ c = 0x0a := hcs c List.mem_cons_self
      rw [List.cons_append, File.lineOf, if_neg hc,
        ih (fun c hc => hcs c (List.mem_cons_of_mem _ hc)) (Nat.lt_of_succ_lt_succ hn)]
      rfl

/-- A string without a NUL is all of what is in the array. -/
theorem cString_eq {cs : List UInt8} (hcs : ∀ c ∈ cs, c ≠ 0) : File.cString cs = cs :=
  List.takeWhile_eq_self_iff.2 fun c hc => decide_eq_true (hcs c hc)

/-- The header line without its end, at the place where `main` has left the file. -/
theorem headerLine_drop (r : Record) :
    ∃ cs, (headerLine r).drop 4 = cs ++ [newline] ∧ cs.length < 254 ∧
      ∀ c ∈ cs, c ≠ newline ∧ c ≠ 0 := by
  have hsource := dotted_line r.source
  have hdest := dotted_line r.dest
  have hline :
      headerLine r = dotted r.source ++ [dash] ++ dotted r.dest ++ [colon] ++ [newline] := by
    simp [headerLine]
  have hpos : 4 ≤ (dotted r.source ++ [dash] ++ dotted r.dest ++ [colon]).length := by
    have hlen : ∀ n, 0 < (decimal n).length := length_decimal_pos
    simp only [dotted, List.length_append, List.length_singleton]
    omega
  refine ⟨(dotted r.source ++ [dash] ++ dotted r.dest ++ [colon]).drop 4, ?_, ?_, fun c hc => ?_⟩
  · rw [hline, List.drop_append_of_le_length hpos]
  · simp only [List.length_drop, List.length_append, List.length_singleton]
    omega
  · have hmem := List.mem_of_mem_drop hc
    simp only [List.mem_append, List.mem_singleton] at hmem
    rcases hmem with ((hmem | rfl) | hmem) | rfl
    · exact hsource.1 c hmem
    · decide
    · exact hdest.1 c hmem
    · decide

/-- A text does not start with a magic number. -/
theorem logVersion_headerLine (r : Record) (more : List UInt8) :
    logVersion (ofLe32 ((headerLine r ++ more).take 4)) = 0 := by
  obtain ⟨c, cs, hcs⟩ := List.exists_cons_of_ne_nil
    (List.length_pos_iff.1 (length_decimal_pos (r.source.address >>> 24).toNat))
  obtain ⟨d, hd⟩ := allDigits_decimal (r.source.address >>> 24).toNat c
    (by rw [hcs]; exact List.mem_cons_self)
  have hletter : c.toNat ≠ 0x52 := by
    intro heq
    rw [heq] at hd
    cases hd
  obtain ⟨rest, hrest⟩ : ∃ rest, headerLine r ++ more = c :: rest := by
    rw [headerLine, dotted, hcs]
    exact ⟨_, rfl⟩
  -- the lowest byte of either number is an `R`, and not a digit
  have hlow : ∀ bs : List UInt8, (ofLe32 (c :: bs)).toNat % 256 = c.toNat := by
    intro bs
    have hlt := c.toNat_lt
    rw [ofLe32, UInt32.toNat_ofNat', LittleEndian.decode]
    omega
  have hne : ∀ n : UInt32, n.toNat % 256 = 0x52 → ofLe32 (c :: rest.take 3) ≠ n := by
    rintro n hn rfl
    rw [hlow] at hn
    exact hletter hn
  rw [hrest, List.take_succ_cons, logVersion, if_neg (hne _ (by decide)),
    if_neg (hne _ (by decide))]

/-! ## The two formats -/

/-- `romdump` finds no record in a text. -/
theorem main_text (flags : DisplayFlags) {records : List Record} {text : List UInt8}
    (htext : Renders records text) : (main flags text).appended = [] := by
  cases htext with
  | nil =>
      -- not even a magic number
      rfl
  | @cons r records lines more hdata hmore =>
      rw [List.append_assoc, List.append_assoc]
      generalize lines.flatMap DataLine.render ++ ([newline] ++ more) = after
      obtain ⟨cs, hcs, hshort, hchars⟩ := headerLine_drop r
      have hlong : 4 ≤ (headerLine r).length := by
        have hlen := congrArg List.length hcs
        rw [List.length_drop, List.length_append, List.length_singleton] at hlen
        omega
      let f : File := ⟨headerLine r ++ after, 0⟩
      have hrest : (f.advance 4).rest = cs ++ newline :: after := by
        rw [File.rest_advance]
        show (headerLine r ++ after).drop 4 = _
        rw [List.drop_append_of_le_length hlong, hcs, List.append_assoc]
        rfl
      have hread : f.fread 4 = some ((headerLine r ++ after).take 4, f.advance 4) := by
        refine if_pos ?_
        show 4 ≤ (headerLine r ++ after).length
        rw [List.length_append]
        omega
      -- the line is the end of the header line
      have hline : (f.advance 4).fgets 255 =
          some (cs ++ [newline], (f.advance 4).advance (cs ++ [newline]).length) := by
        have hne : (f.advance 4).rest ≠ [] := by
          rw [hrest]
          simp
        rw [File.fgets, if_neg hne, hrest, lineOf_append (fun c hc => (hchars c hc).1) hshort]
      have hstored (behind : List UInt8) :
          cs ++ [newline] ++ behind = (headerLine r ++ behind).drop 4 := by
        rw [List.drop_append_of_le_length hlong, hcs]
      have hheader : TCPFlowParser.parseHeader (f.advance 4) = .failed := by
        rw [TCPFlowParser.parseHeader, hline]
        simp only [hstored, parseIPv4Address_cut (cut_headerLine r _)]
      have hturn : turn flags 0 (f.advance 4, .start) = .leave .start := by
        unfold turn
        simp only [hheader]
        rfl
      rw [main]
      simp only [f] at hread hturn
      simp only [hread, logVersion_headerLine, Loop.run, hturn]
      rfl

/-- The first record of a log is found. -/
theorem appended_logBytes_cons (flags : DisplayFlags) {records : List Record} (r : Record)
    (hrecords : ∀ r' ∈ r :: records, Version.two.Holds r') :
    (main flags (logBytes .two (r :: records))).appended ≠ [] := by
  have happended := appended_visit flags (d := .start) rfl r
  rw [main_logBytes flags hrecords, process, List.foldl_cons]
  cases hended : (visit flags .start r).ended with
  | true =>
      rw [foldl_visit_of_ended hended, happended]
      simp
  | false =>
      obtain ⟨more, hmore⟩ := prefix_appended_foldl flags records (visit flags .start r)
      rw [← hmore, happended]
      simp

/-- The calls of `Flow::Append` are the same for a text and a log only when there is nothing in
them. -/
theorem text_agrees_iff (flags : DisplayFlags) {records : List Record} {text : List UInt8}
    (htext : Renders records text) (hrecords : ∀ r ∈ records, r.data ≠ [] ∧ r.data.length < 65536) :
    (main flags text).appended = (main flags (logBytes .two records)).appended ↔ records = [] := by
  have hholds : ∀ r ∈ records, Version.two.Holds r := by
    intro r hr
    obtain ⟨hne, hlt⟩ := hrecords r hr
    exact ⟨List.length_pos_iff.2 hne, by unfold sizeofBuffer; omega⟩
  rw [main_text flags htext]
  cases records with
  | nil => exact iff_of_true rfl rfl
  | cons r records =>
      refine iff_of_false (fun heq => ?_) nofun
      exact appended_logBytes_cons flags r hholds heq.symm

/-- One byte from 0.0.0.1.1 to 0.0.0.2.2. -/
def oneByte : Record := ⟨⟨1, 1⟩, ⟨2, 2⟩, [0]⟩

/-- A line of data whose offset has one digit that is not zero. -/
def digitLine (c : UInt8) (hc : c ≠ newline ∧ c ≠ 0) (data : List UInt8) (hdata : data ≠ []) :
    DataLine where
  offset := [0x30, 0x30, c, 0x30]
  data := data
  text := [dot]
  length_offset := rfl
  data_ne_nil := hdata
  offset_line := List.forall_mem_cons.2 ⟨by decide, List.forall_mem_cons.2 ⟨by decide,
    List.forall_mem_cons.2 ⟨hc, List.forall_mem_singleton.2 (by decide)⟩⟩⟩
  text_line := List.forall_mem_singleton.2 (by decide)

/-- Its line of data. -/
def oneByteLine : DataLine := digitLine 0x30 (by decide) [0] (List.cons_ne_nil _ _)

/-- The text of the record. -/
def oneByteText : List UInt8 :=
  headerLine oneByte ++ [oneByteLine].flatMap DataLine.render ++ [newline] ++ []

theorem renders_oneByte : Renders [oneByte] oneByteText := .cons rfl .nil

/-- Nineteen bytes back, on two lines. -/
def longRecord : Record := ⟨⟨2, 2⟩, ⟨1, 1⟩, (List.range 19).map UInt8.ofNat⟩

/-- Sixteen of them on the first line, and the rest on the second. -/
def longRecordLines : List DataLine :=
  [digitLine 0x30 (by decide) ((List.range 16).map UInt8.ofNat) (by decide),
    digitLine 0x31 (by decide) [16, 17, 18] (List.cons_ne_nil _ _)]

/-- The text of both records. -/
def twoRecordsText : List UInt8 :=
  headerLine oneByte ++ [oneByteLine].flatMap DataLine.render ++ [newline] ++
    (headerLine longRecord ++ longRecordLines.flatMap DataLine.render ++ [newline] ++ [])

theorem renders_twoRecords : Renders [oneByte, longRecord] twoRecordsText :=
  .cons rfl (.cons (by decide) .nil)

theorem text_agrees_iff_twoRecords :
    (main ⟨false, false⟩ twoRecordsText).appended =
        (main ⟨false, false⟩ (logBytes .two [oneByte, longRecord])).appended ↔
      [oneByte, longRecord] = [] :=
  text_agrees_iff ⟨false, false⟩ renders_twoRecords
    (List.forall_mem_cons.2 ⟨by decide, List.forall_mem_singleton.2 (by decide)⟩)

/-- The byte is found in a log, but not in a text. -/
theorem text_disagrees_oneByte :
    ¬ ∀ (flags : DisplayFlags) (records : List Record) (text : List UInt8),
      Renders records text → (∀ r ∈ records, r.data ≠ [] ∧ r.data.length < 65536) →
        (main flags text).appended = (main flags (logBytes .two records)).appended := by
  intro hall
  have hrecord : oneByte.data ≠ [] ∧ oneByte.data.length < 65536 := ⟨nofun, by decide⟩
  have heq := hall ⟨false, false⟩ _ _ renders_oneByte fun _ hr => List.mem_singleton.1 hr ▸ hrecord
  rw [main_text _ renders_oneByte] at heq
  refine appended_logBytes_cons ⟨false, false⟩ oneByte (fun r hr => ?_) heq.symm
  rw [List.mem_singleton.1 hr]
  exact ⟨by decide, by decide⟩

end OpenRom.RomDump
