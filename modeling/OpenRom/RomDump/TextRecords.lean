import OpenRom.RomDump.TextFile

/-!
# Records in a text

The text that `tcpflow` prints, in all the forms that it can have: zeros before the numbers of an
address, hexadecimal digits in either case, and behind the groups of a line nothing, or two blanks
and any characters. `ParseHeader` and `ParsePacket` find the records again (`yields_of_prints`).
-/

set_option autoImplicit false

namespace OpenRom.RomDump

/-! ## The forms of a text -/

/-- A byte in two hexadecimal digits. -/
def HexPair (b : UInt8) (cs : List UInt8) : Prop :=
  ∃ h l, cs = [h, l] ∧ digit 16 h = some (b.toNat / 16) ∧ digit 16 l = some (b.toNat % 16)

/-- Groups of four digits with a blank between them, of which the last can have two. -/
inductive Groups : List UInt8 → List UInt8 → Prop
  | one {a : UInt8} {as : List UInt8} : HexPair a as → Groups [a] as
  | two {a b : UInt8} {as bs : List UInt8} : HexPair a as → HexPair b bs →
      Groups [a, b] (as ++ bs)
  | more {a b : UInt8} {as bs data cs : List UInt8} : HexPair a as → HexPair b bs →
      Groups data cs → Groups (a :: b :: data) (as ++ bs ++ space :: cs)

/-- Behind the groups the line ends, or there are two blanks. -/
def IsTail (cs : List UInt8) : Prop := cs = [] ∨ ∃ text, cs = space :: space :: text

/-- A line of data, without its end. -/
inductive PrintsRow : List UInt8 → List UInt8 → Prop
  | row {offset data groups tail : List UInt8} : offset.length = 4 →
      (∀ c ∈ offset, c ≠ newline ∧ c ≠ 0) → Groups data groups → IsTail tail →
        (∀ c ∈ tail, c ≠ newline) →
          PrintsRow data (offset ++ [colon, space] ++ groups ++ tail)

/-- Some lines of data, each shorter than 254 characters. -/
inductive PrintsRows : List UInt8 → List UInt8 → Prop
  | nil : PrintsRows [] []
  | cons {data line datas lines : List UInt8} : PrintsRow data line → line.length < 254 →
      PrintsRows datas lines → PrintsRows (data ++ datas) (line ++ newline :: lines)

/-- The number at a place of an address. -/
def octet (a : UInt32) (place : Nat) : Nat := a.toNat / 256 ^ place % 256

/-- An address and port, `a.b.c.d.port`, with any zeros. -/
inductive PrintsAddress (address : IPv4Address) : List UInt8 → Prop
  | mk {a b c d e : List UInt8} : Padded (octet address.address 3) a →
      Padded (octet address.address 2) b → Padded (octet address.address 1) c →
        Padded (octet address.address 0) d → Padded address.port.toNat e →
          PrintsAddress address (a ++ dot :: (b ++ dot :: (c ++ dot :: (d ++ dot :: e))))

/-- A header line, without its end. -/
inductive PrintsHeader (r : Record) : List UInt8 → Prop
  | mk {source dest : List UInt8} : PrintsAddress r.source source → PrintsAddress r.dest dest →
      PrintsHeader r (source ++ dash :: (dest ++ [colon]))

/-- The bytes are a text of the records: for each its header line, lines with its data, and a blank
line. -/
inductive Prints : List Record → List UInt8 → Prop
  | nil : Prints [] []
  | cons {r : Record} {records : List Record} {line rows more : List UInt8} :
      PrintsHeader r line → line.length < 254 → PrintsRows r.data rows → Prints records more →
        Prints (r :: records) (line ++ newline :: (rows ++ newline :: more))

/-! ## What is found in it -/

/-- What `ParseHeader` returns: nothing is read at the end of the file. -/
def headerResult (f : File) : Option Int :=
  match f.fgets 255 with
  | none => some 0
  | some _ =>
      match TCPFlowParser.parseHeader f with
      | .failed => some (-1)
      | .ended => none
      | .ok _ => some 1

/-- Calls of `ParseHeader` and `ParsePacket` in turn return the records, and then `ParseHeader` the
end of the file. -/
def Yields (iMaxLength : Nat) : List Record → File → Prop
  | [], f => headerResult f = some 0
  | r :: records, f => ∃ f₁ f₂,
      headerResult f = some 1 ∧ TCPFlowParser.parseHeader f = .ok (r.source, r.dest, f₁) ∧
        TCPFlowParser.parsePacket f₁ iMaxLength = .ok (r.data, f₂) ∧ Yields iMaxLength records f₂

/-! ## The groups of a line -/

theorem HexPair.allDigits {b : UInt8} {cs : List UInt8} (h : HexPair b cs) : AllDigits 16 cs := by
  obtain ⟨x, y, rfl, hx, hy⟩ := h
  intro c hc
  simp only [List.mem_cons, List.not_mem_nil, or_false] at hc
  rcases hc with rfl | rfl
  · exact ⟨_, hx⟩
  · exact ⟨_, hy⟩

theorem HexPair.length_eq {b : UInt8} {cs : List UInt8} (h : HexPair b cs) : cs.length = 2 := by
  obtain ⟨x, y, rfl, -, -⟩ := h
  rfl

theorem HexPair.numberFrom_eq {b : UInt8} {cs : List UInt8} (h : HexPair b cs) (v : Nat) :
    numberFrom 16 v cs = v * 256 + b.toNat := by
  obtain ⟨x, y, rfl, hx, hy⟩ := h
  simp only [numberFrom, Numeral.numberFrom, List.foldl_cons, List.foldl_nil, hx, hy,
    Option.getD_some]
  omega

/-- Two or four digits are read as their number. -/
theorem strtoul_hex {a : UInt8} {as ds rest : List UInt8} (ha : HexPair a as)
    (hds : AllDigits 16 ds) (hstop : Stops 16 rest) :
    strtoul 16 (as ++ ds ++ rest) = (saturated (numberFrom 16 a.toNat ds), rest) := by
  have hnumber : numberFrom 16 0 (as ++ ds) = numberFrom 16 a.toNat ds := by
    rw [numberFrom_append, ha.numberFrom_eq, Nat.zero_mul, Nat.zero_add]
  have hall : AllDigits 16 (as ++ ds) := fun c hc =>
    (List.mem_append.1 hc).elim (ha.allDigits c) (hds c)
  rw [← hnumber]
  obtain ⟨x, y, rfl, -, hy⟩ := ha
  exact strtoul_digits (by decide) hall nofun hstop fun _ =>
    Numeral.skipPrefix_digits (Nat.le_refl 16) hy _

/-- What is stored behind the groups: a NUL, or two blanks. -/
def EndsGroups (rest : List UInt8) : Prop :=
  (∃ more, rest = 0 :: more) ∨ ∃ more, rest = space :: space :: more

/-- Neither is a digit. -/
theorem EndsGroups.stops {rest : List UInt8} (h : EndsGroups rest) : Stops 16 rest := by
  rcases h with ⟨more, rfl⟩ | ⟨more, rfl⟩
  · exact Numeral.stops_cons (by decide) more
  · exact Numeral.stops_cons (by decide) (space :: more)

theorem HexPair.head?_ne {b : UInt8} {cs : List UInt8} (h : HexPair b cs) (rest : List UInt8) :
    (cs ++ rest).head? ≠ some 0x20 := by
  obtain ⟨x, y, rfl, hx, -⟩ := h
  intro heq
  cases Option.some.inj heq
  cases hx

namespace TCPFlowParser

/-- A group of one byte. -/
theorem parseGroups_one {a : UInt8} {as : List UInt8} (ha : HexPair a as) {rest : List UInt8}
    (hstop : Stops 16 rest) (fuel : Nat) (data : List UInt8) {iMaxLength : Nat}
    (hmax : 1 ≤ iMaxLength) :
    parseGroups (fuel + 1) (as ++ rest) data iMaxLength =
      parseGroups fuel (if rest.head? = some 0x20 then rest.tail else rest) (data ++ [a])
        (iMaxLength - 1) := by
  have hnone : AllDigits 16 [] := nofun
  have hread := strtoul_hex ha hnone hstop
  rw [List.append_nil] at hread
  have hcount : ((as ++ rest).length - rest.length) / 2 = 1 := by
    rw [List.length_append, ha.length_eq]
    omega
  have hvalue : (saturated a.toNat).toUInt8 = a := by
    rw [← UInt8.toNat_inj, UInt32.toNat_toUInt8,
      saturated_of_lt (Nat.lt_trans a.toNat_lt (by decide))]
    exact Nat.mod_eq_of_lt a.toNat_lt
  rw [parseGroups, if_neg (ha.head?_ne rest)]
  simp only [hread, hcount]
  rw [if_neg (by decide), if_neg (by omega), if_neg (show ¬ (1 : Nat) > 1 by decide)]
  simp [numberFrom, Numeral.numberFrom, hvalue]

/-- A group of two. -/
theorem parseGroups_two {a b : UInt8} {as bs : List UInt8} (ha : HexPair a as) (hb : HexPair b bs)
    {rest : List UInt8} (hstop : Stops 16 rest) (fuel : Nat) (data : List UInt8) {iMaxLength : Nat}
    (hmax : 2 ≤ iMaxLength) :
    parseGroups (fuel + 1) (as ++ bs ++ rest) data iMaxLength =
      parseGroups fuel (if rest.head? = some 0x20 then rest.tail else rest) (data ++ [a, b])
        (iMaxLength - 2) := by
  have hread := strtoul_hex ha hb.allDigits hstop
  have hcount : ((as ++ bs ++ rest).length - rest.length) / 2 = 2 := by
    rw [List.length_append, List.length_append, ha.length_eq, hb.length_eq]
    omega
  have hlta := a.toNat_lt
  have hltb := b.toNat_lt
  have hnat : (saturated (a.toNat * 256 + b.toNat)).toNat = a.toNat * 256 + b.toNat :=
    saturated_of_lt (by omega)
  have hhigh : (saturated (a.toNat * 256 + b.toNat) >>> 8).toUInt8 = a := by
    rw [← UInt8.toNat_inj, UInt32.toNat_toUInt8, UInt32.toNat_shiftRight, hnat,
      Nat.shiftRight_eq_div_pow]
    show (a.toNat * 256 + b.toNat) / 2 ^ 8 % 2 ^ 8 = a.toNat
    omega
  have hlow : (saturated (a.toNat * 256 + b.toNat)).toUInt8 = b := by
    rw [← UInt8.toNat_inj, UInt32.toNat_toUInt8, hnat]
    omega
  rw [parseGroups, if_neg (by rw [List.append_assoc]; exact ha.head?_ne _)]
  simp only [hread, hcount, hb.numberFrom_eq]
  rw [if_neg (by decide), if_neg (by omega), if_pos (show (2 : Nat) > 1 by decide)]
  simp [hhigh, hlow]

/-- Behind the last group of a line the loop is left. -/
theorem parseGroups_rest {rest : List UInt8} (hrest : EndsGroups rest) (fuel : Nat)
    (data : List UInt8) (iMaxLength : Nat) :
    parseGroups (fuel + 1) (if rest.head? = some 0x20 then rest.tail else rest) data iMaxLength =
      some (data, iMaxLength) := by
  rcases hrest with ⟨more, rfl⟩ | ⟨more, rfl⟩
  · -- at the NUL no number is read
    have hnone : Numeral.scan UInt8.toNat 16 ((0 : UInt8) :: more) = none :=
      Numeral.scan_none (by decide) (by decide) (by decide) (by decide) (by decide) (by decide) more
    have hread : strtoul 16 ((0 : UInt8) :: more) = (0, 0 :: more) := by rw [strtoul, hnone]
    rw [List.head?_cons, if_neg (by decide), parseGroups, List.head?_cons, if_neg (by decide)]
    simp [hread]
  · rfl

/-- All groups of a line are read. -/
theorem parseGroups_groups {bs cs tail : List UInt8} (h : Groups bs cs) (htail : EndsGroups tail)
    {fuel : Nat} (hfuel : bs.length < fuel) (data : List UInt8) {iMaxLength : Nat}
    (hmax : bs.length ≤ iMaxLength) :
    parseGroups fuel (cs ++ tail) data iMaxLength = some (data ++ bs, iMaxLength - bs.length) := by
  induction h generalizing fuel data iMaxLength with
  | one ha =>
      obtain ⟨fuel, rfl⟩ : ∃ n, fuel = n + 2 := ⟨fuel - 2, by simp at hfuel; omega⟩
      rw [parseGroups_one ha htail.stops (fuel + 1) data hmax, parseGroups_rest htail]
      rfl
  | two ha hb =>
      obtain ⟨fuel, rfl⟩ : ∃ n, fuel = n + 2 := ⟨fuel - 2, by simp at hfuel; omega⟩
      rw [parseGroups_two ha hb htail.stops (fuel + 1) data hmax, parseGroups_rest htail]
      rfl
  | @more a b as bs rest cs ha hb _ ih =>
      obtain ⟨fuel, rfl⟩ : ∃ n, fuel = n + 1 := ⟨fuel - 1, by simp at hfuel; omega⟩
      have hstop : Stops 16 (space :: (cs ++ tail)) := Numeral.stops_cons (by decide) _
      simp only [List.length_cons] at hfuel hmax
      rw [List.append_assoc (as ++ bs), List.cons_append,
        parseGroups_two ha hb hstop fuel data (by omega)]
      rw [show (space :: (cs ++ tail)).head? = some 0x20 from rfl, if_pos rfl, List.tail_cons,
        ih (by omega) _ (by omega)]
      have hleft : iMaxLength - 2 - rest.length = iMaxLength - (rest.length + 1 + 1) := by omega
      simp [hleft]

end TCPFlowParser

/-! ## Lines -/

/-- A line that is short enough is read with its end. -/
theorem File.fgets_line (size : Nat) {f : File} {line more : List UInt8}
    (hrest : f.rest = line ++ newline :: more) (hline : ∀ c ∈ line, c ≠ newline)
    (hshort : line.length + 1 < size) :
    ∃ f', f.fgets size = some (line ++ [newline], f') ∧ f'.rest = more := by
  have hne : f.rest ≠ [] := by
    rw [hrest]
    simp
  refine ⟨f.advance (line ++ [newline]).length, ?_, ?_⟩
  · rw [fgets, if_neg hne, hrest, lineOf_append hline (by omega)]
  · have hsplit : line ++ newline :: more = (line ++ [newline]) ++ more := by simp
    rw [rest_advance, hrest, hsplit, List.drop_left]

theorem HexPair.chars {b : UInt8} {cs : List UInt8} (h : HexPair b cs) :
    ∀ c ∈ cs, c ≠ newline ∧ c ≠ 0 := by
  intro c hc
  obtain ⟨d, hd⟩ := h.allDigits c hc
  exact ⟨(ne_of_digit hd).1, (ne_of_digit hd).2.1⟩

theorem Groups.chars {bs cs : List UInt8} (h : Groups bs cs) : ∀ c ∈ cs, c ≠ newline ∧ c ≠ 0 := by
  induction h with
  | one ha => exact ha.chars
  | two ha hb => exact List.forall_mem_append.2 ⟨ha.chars, hb.chars⟩
  | more ha hb _ ih =>
      refine List.forall_mem_append.2 ⟨List.forall_mem_append.2 ⟨ha.chars, hb.chars⟩, ?_⟩
      exact List.forall_mem_cons.2 ⟨by decide, ih⟩

theorem Groups.length_le {bs cs : List UInt8} (h : Groups bs cs) : bs.length ≤ cs.length := by
  induction h with
  | one ha =>
      rw [ha.length_eq]
      exact Nat.le_succ 1
  | two ha hb =>
      rw [List.length_append, ha.length_eq, hb.length_eq]
      exact Nat.le_add_left 2 2
  | more ha hb _ ih =>
      simp only [List.length_append, List.length_cons, ha.length_eq, hb.length_eq]
      omega

namespace TCPFlowParser

theorem storedLine_cons {c : UInt8} (hc : c ≠ newline ∧ c ≠ 0) (cs : List UInt8) :
    storedLine (c :: cs) = c :: storedLine cs := by
  have hstring : File.cString (c :: cs) = c :: File.cString cs := by
    rw [File.cString, List.takeWhile_cons, if_pos (decide_eq_true hc.2)]
    rfl
  have hne : (c == 0x0a) = false := beq_eq_false_iff_ne.2 hc.1
  rw [storedLine, storedLine, hstring, List.idxOf?_cons, hne]
  cases (File.cString cs).idxOf? 0x0a <;> rfl

theorem storedLine_append {front : List UInt8} (hfront : ∀ c ∈ front, c ≠ newline ∧ c ≠ 0)
    (cs : List UInt8) : storedLine (front ++ cs) = front ++ storedLine cs := by
  induction front with
  | nil => rfl
  | cons c front ih =>
      obtain ⟨hc, hfront⟩ := List.forall_mem_cons.1 hfront
      rw [List.cons_append, storedLine_cons hc, ih hfront, List.cons_append]

end TCPFlowParser

/-- What is stored of the end of a line. -/
theorem IsTail.endsGroups {tail : List UInt8} (h : IsTail tail) :
    EndsGroups (TCPFlowParser.storedLine (tail ++ [newline])) := by
  rcases h with rfl | ⟨text, rfl⟩
  · exact Or.inl ⟨[0], rfl⟩
  · have hspace : space ≠ newline ∧ space ≠ 0 := by decide
    rw [List.cons_append, List.cons_append, TCPFlowParser.storedLine_cons hspace,
      TCPFlowParser.storedLine_cons hspace]
    exact Or.inr ⟨_, rfl⟩

/-- What is between the offset and the data ends neither a line nor a string. -/
theorem separator_chars : ∀ c ∈ [colon, space], c ≠ newline ∧ c ≠ 0 := by
  simp [colon, space, newline]

/-- What is stored of a line of data. -/
theorem PrintsRow.stored {bs line : List UInt8} (h : PrintsRow bs line) :
    ∃ offset groups rest, offset.length = 4 ∧ (∀ c ∈ offset, c ≠ newline ∧ c ≠ 0) ∧
      Groups bs groups ∧ EndsGroups rest ∧
        TCPFlowParser.storedLine (line ++ [newline]) =
          offset ++ colon :: space :: (groups ++ rest) := by
  cases h with
  | @row offset _ groups tail hlen hoffset hgroups htail _ =>
      have hfront : ∀ c ∈ offset ++ [colon, space] ++ groups, c ≠ newline ∧ c ≠ 0 :=
        List.forall_mem_append.2
          ⟨List.forall_mem_append.2 ⟨hoffset, separator_chars⟩, hgroups.chars⟩
      refine ⟨offset, groups, _, hlen, hoffset, hgroups, htail.endsGroups, ?_⟩
      rw [List.append_assoc, TCPFlowParser.storedLine_append hfront]
      simp

theorem PrintsRow.chars {bs line : List UInt8} (h : PrintsRow bs line) :
    ∀ c ∈ line, c ≠ newline := by
  cases h with
  | row _ hoffset hgroups _ htail =>
      have hfront := List.forall_mem_append.2
        ⟨List.forall_mem_append.2 ⟨hoffset, separator_chars⟩, hgroups.chars⟩
      exact List.forall_mem_append.2 ⟨fun c hc => (hfront c hc).1, htail⟩

namespace TCPFlowParser

/-- A line of data adds its bytes. -/
theorem packetTurn_row {f : File} {bs line more : List UInt8}
    (hrest : f.rest = line ++ newline :: more) (hrow : PrintsRow bs line)
    (hshort : line.length < 254) (data : List UInt8) {iMaxLength : Nat}
    (hmax : bs.length ≤ iMaxLength) :
    ∃ f', f'.rest = more ∧
      packetTurn (f, data, iMaxLength) = .again (f', data ++ bs, iMaxLength - bs.length) := by
  obtain ⟨f', hfgets, hmore⟩ := File.fgets_line 255 hrest hrow.chars (by omega)
  obtain ⟨offset, groups, rest, hlen, hoffset, hgroups, hends, hstored⟩ := hrow.stored
  obtain ⟨o₀, o₁, o₂, o₃, rfl⟩ := exists_of_length_four hlen
  simp only [List.forall_mem_cons] at hoffset
  obtain ⟨⟨-, h₀⟩, ⟨-, h₁⟩, ⟨-, h₂⟩, ⟨-, h₃⟩, -⟩ := hoffset
  have hlong : 0 < (groups ++ rest).length := by
    rw [List.length_append]
    rcases hends with ⟨more, rfl⟩ | ⟨more, rfl⟩ <;> exact Nat.succ_pos _
  have hstring :
      (File.cString ([o₀, o₁, o₂, o₃] ++ colon :: space :: (groups ++ rest))).length > 4 := by
    simp [File.cString, h₀, h₁, h₂, h₃, colon, space]
  have hfuel : bs.length < (groups ++ rest).length + 6 := by
    have hle := hgroups.length_le
    rw [List.length_append]
    omega
  refine ⟨f', hmore, ?_⟩
  unfold packetTurn
  simp only [hfgets, hstored]
  rw [if_neg (by simpa using h₀), if_pos ⟨hstring, rfl⟩,
    if_neg (by simp only [List.length_append, List.length_cons] at hlong ⊢; omega)]
  have hparse := parseGroups_groups hgroups hends hfuel data hmax
  simp only [List.cons_append, List.nil_append, List.length_cons, List.drop_succ_cons,
    List.drop_zero]
  rw [hparse]

/-- A blank line ends the packet. -/
theorem packetTurn_blank {f : File} {more : List UInt8} (hrest : f.rest = newline :: more)
    (data : List UInt8) (iMaxLength : Nat) :
    ∃ f', f'.rest = more ∧ packetTurn (f, data, iMaxLength) = .leave (.ok (data, f')) := by
  obtain ⟨f', hfgets, hmore⟩ := @File.fgets_line 255 _ [] _ hrest nofun (by decide)
  refine ⟨f', hmore, ?_⟩
  unfold packetTurn
  simp only [hfgets]
  rfl

/-- The lines of a record are read up to the blank line. -/
theorem ends_rows {bs rows : List UInt8} (hrows : PrintsRows bs rows) {f : File}
    {more : List UInt8} (hrest : f.rest = rows ++ newline :: more) (data : List UInt8)
    {iMaxLength : Nat} (hmax : bs.length ≤ iMaxLength) :
    ∃ f', f'.rest = more ∧
      Loop.Ends packetTurn (f, data, iMaxLength) (.ok (data ++ bs, f')) := by
  induction hrows generalizing f data iMaxLength with
  | nil =>
      obtain ⟨f', hmore, hturn⟩ := packetTurn_blank hrest data iMaxLength
      exact ⟨f', hmore, .leave (by rw [hturn, List.append_nil])⟩
  | @cons bs line bss lines hrow hshort _ ih =>
      rw [List.append_assoc, List.cons_append] at hrest
      rw [List.length_append] at hmax
      have hfirst : bs.length ≤ iMaxLength := by omega
      have hothers : bss.length ≤ iMaxLength - bs.length := by omega
      obtain ⟨f₁, hrest₁, hturn⟩ := packetTurn_row hrest hrow hshort data hfirst
      obtain ⟨f', hmore, hends⟩ := ih hrest₁ (data ++ bs) hothers
      exact ⟨f', hmore, .again hturn (by rw [← List.append_assoc]; exact hends)⟩

theorem parsePacket_rows {bs rows : List UInt8} (hrows : PrintsRows bs rows) {f : File}
    {more : List UInt8} (hrest : f.rest = rows ++ newline :: more) {iMaxLength : Nat}
    (hmax : bs.length ≤ iMaxLength) :
    ∃ f', f'.rest = more ∧ parsePacket f iMaxLength = .ok (bs, f') := by
  obtain ⟨f', hmore, hends⟩ := ends_rows hrows hrest [] hmax
  exact ⟨f', hmore, (parsePacket_ends f iMaxLength).unique hends⟩

end TCPFlowParser

/-! ## Header lines -/

theorem octet_lt (a : UInt32) (place : Nat) : octet a place < 256 := Nat.mod_lt _ (by decide)

/-- The four numbers put together again. -/
theorem or_octets (a : UInt32) :
    UInt32.ofNat (octet a 3) <<< 24 ||| UInt32.ofNat (octet a 2) <<< 16 |||
      UInt32.ofNat (octet a 1) <<< 8 ||| UInt32.ofNat (octet a 0) = a := by
  have hlt := a.toNat_lt
  have hnat : ∀ place, (UInt32.ofNat (octet a place)).toNat = octet a place := fun place =>
    UInt32.toNat_ofNat_of_lt' (Nat.lt_trans (octet_lt a place) (by decide))
  have hshift : ∀ place k : Nat, k ≤ 24 → octet a place <<< k % 2 ^ 32 = 2 ^ k * octet a place := by
    intro place k hk
    have hle : 2 ^ k ≤ 2 ^ 24 := Nat.pow_le_pow_right (by decide) hk
    have hbound : octet a place * 2 ^ k < 256 * 2 ^ 24 := by
      have hoctet := octet_lt a place
      exact Nat.mul_lt_mul_of_lt_of_le hoctet hle (Nat.two_pow_pos 24)
    rw [Nat.shiftLeft_eq, Nat.mod_eq_of_lt (by omega), Nat.mul_comm]
  have h₀ := octet_lt a 0
  have h₁ := octet_lt a 1
  have h₂ := octet_lt a 2
  rw [← UInt32.toNat_inj]
  simp only [UInt32.toNat_or, UInt32.toNat_shiftLeft, hnat]
  rw [show (24 : UInt32).toNat % 32 = 24 from rfl, show (16 : UInt32).toNat % 32 = 16 from rfl,
    show (8 : UInt32).toNat % 32 = 8 from rfl, hshift 3 24 (by decide), hshift 2 16 (by decide),
    hshift 1 8 (by decide)]
  -- the shifted numbers do not overlap, so that they are added
  rw [Nat.or_assoc, Nat.or_assoc, ← Nat.two_pow_add_eq_or_of_lt (i := 8) (by omega),
    ← Nat.two_pow_add_eq_or_of_lt (i := 16) (by omega),
    ← Nat.two_pow_add_eq_or_of_lt (i := 24) (by omega)]
  simp only [octet]
  omega

/-- An address is read up to what is no digit. -/
theorem parseIPv4Address_prints {address : IPv4Address} {cs rest : List UInt8}
    (h : PrintsAddress address cs) (hstop : Stops 10 rest) :
    TCPFlowParser.parseIPv4Address (cs ++ rest) = some (address, rest) := by
  cases h with
  | @mk a b c d e ha hb hc hd he =>
      have hlt : ∀ place, octet address.address place < 2 ^ 32 := fun place =>
        Nat.lt_trans (octet_lt _ place) (by decide)
      have hport : address.port.toNat < 2 ^ 32 :=
        Nat.lt_trans address.port.toNat_lt (by decide)
      have hportEq : (UInt32.ofNat address.port.toNat).toUInt16 = address.port := by
        rw [← UInt16.toNat_inj, UInt32.toNat_toUInt16, UInt32.toNat_ofNat_of_lt' hport]
        exact Nat.mod_eq_of_lt address.port.toNat_lt
      simp only [List.append_assoc, List.cons_append, TCPFlowParser.parseIPv4Address,
        ha.strtoul_eq (hlt 3) (stops_dot _), hb.strtoul_eq (hlt 2) (stops_dot _),
        hc.strtoul_eq (hlt 1) (stops_dot _), hd.strtoul_eq (hlt 0) (stops_dot _),
        he.strtoul_eq hport hstop, List.head?_cons, List.tail_cons]
      rw [or_octets, hportEq]
      rfl

theorem PrintsAddress.chars {address : IPv4Address} {cs : List UInt8}
    (h : PrintsAddress address cs) : ∀ c ∈ cs, c ≠ newline ∧ c ≠ 0 := by
  have hpadded : ∀ {n : Nat} {ds : List UInt8}, Padded n ds → ∀ c ∈ ds, c ≠ newline ∧ c ≠ 0 := by
    intro n ds hds c hc
    obtain ⟨d, hd⟩ := hds.allDigits c hc
    exact ⟨(ne_of_digit hd).1, (ne_of_digit hd).2.1⟩
  cases h with
  | mk ha hb hc hd he =>
      simp only [List.forall_mem_append, List.forall_mem_cons]
      have hdot : dot ≠ newline ∧ dot ≠ 0 := by decide
      exact ⟨hpadded ha, hdot, hpadded hb, hdot, hpadded hc, hdot, hpadded hd, hdot, hpadded he⟩

/-- The header line is read, and both addresses are found. -/
theorem parseHeader_prints {f : File} {r : Record} {line more : List UInt8}
    (hrest : f.rest = line ++ newline :: more) (hline : PrintsHeader r line)
    (hshort : line.length < 254) :
    ∃ f', f'.rest = more ∧ headerResult f = some 1 ∧
      TCPFlowParser.parseHeader f = .ok (r.source, r.dest, f') := by
  cases hline with
  | @mk source dest hsource hdest =>
      have hchars : ∀ c ∈ source ++ dash :: (dest ++ [colon]), c ≠ newline ∧ c ≠ 0 := by
        simp only [List.forall_mem_append, List.forall_mem_cons]
        exact ⟨hsource.chars, by decide, hdest.chars, by simp [colon, newline]⟩
      obtain ⟨f', hfgets, hmore⟩ := File.fgets_line 255 hrest (fun c hc => (hchars c hc).1)
        (by omega)
      have hstored (behind : List UInt8) : source ++ dash :: (dest ++ [colon]) ++ [newline] ++
          behind = source ++ dash :: (dest ++ colon :: newline :: behind) := by simp
      have hparse : TCPFlowParser.parseHeader f = .ok (r.source, r.dest, f') := by
        have hcolon (cs : List UInt8) : (colon :: cs).head? = some 0x3a := rfl
        have hend (cs : List UInt8) : Stops 10 (colon :: cs) := Numeral.stops_cons (by decide) cs
        simp only [TCPFlowParser.parseHeader, hfgets, hstored,
          parseIPv4Address_prints hsource (stops_dash _), List.tail_cons,
          parseIPv4Address_prints hdest (hend _), if_pos (hcolon _)]
        exact if_neg (by simp)
      refine ⟨f', hmore, ?_, hparse⟩
      simp only [headerResult, hfgets, hparse]

/-! ## Texts -/

/-- From the first line of a text on, the parser returns its records. -/
theorem yields_of_prints {iMaxLength : Nat} {records : List Record} {text : List UInt8}
    (htext : Prints records text) (hmax : ∀ r ∈ records, r.data.length ≤ iMaxLength) {f : File}
    (hrest : f.rest = text) : Yields iMaxLength records f := by
  induction htext generalizing f with
  | nil =>
      unfold Yields headerResult File.fgets
      rw [if_pos hrest]
  | cons hline hshort hrows _ ih =>
      obtain ⟨hlength, hlengths⟩ := List.forall_mem_cons.1 hmax
      obtain ⟨f₁, hrest₁, hresult, hheader⟩ := parseHeader_prints hrest hline hshort
      obtain ⟨f₂, hrest₂, hpacket⟩ := TCPFlowParser.parsePacket_rows hrows hrest₁ hlength
      exact ⟨f₁, f₂, hresult, hheader, hpacket, ih hlengths hrest₂⟩

/-- Three bytes from 1.2.3.4.5 to 6.7.8.9.1. -/
def threeBytesRecord : Record := ⟨⟨0x01020304, 5⟩, ⟨0x06070809, 1⟩, [0x0a, 0xff, 0x42]⟩

/-- Its header line, `01.2.3.4.0005-6.7.8.9.1:`. -/
def threeBytesHeader : List UInt8 :=
  ([0x30, 0x31] ++ dot :: ([0x32] ++ dot :: ([0x33] ++ dot :: ([0x34] ++ dot ::
    [0x30, 0x30, 0x30, 0x35])))) ++ dash ::
    (([0x36] ++ dot :: ([0x37] ++ dot :: ([0x38] ++ dot :: ([0x39] ++ dot :: [0x31])))) ++ [colon])

/-- Its line of data, `0000: 0aFF 42  42 ` with a NUL in the text. -/
def threeBytesRow : List UInt8 :=
  [0x30, 0x30, 0x30, 0x30] ++ [colon, space] ++
    ([0x30, 0x61] ++ [0x46, 0x46] ++ space :: [0x34, 0x32]) ++
      [space, space, 0x34, 0x32, space, 0]

theorem padded_digit {n : Nat} (hn : n < 10) (k : Nat) :
    Padded n (List.replicate k 0x30 ++ [decimalDigit n]) :=
  ⟨k, by rw [decimal, if_pos hn]⟩

theorem printsHeader_threeBytes : PrintsHeader threeBytesRecord threeBytesHeader :=
  .mk
    (.mk (padded_digit (n := 1) (by decide) 1) (padded_digit (n := 2) (by decide) 0)
      (padded_digit (n := 3) (by decide) 0) (padded_digit (n := 4) (by decide) 0)
      (padded_digit (n := 5) (by decide) 3))
    (.mk (padded_digit (n := 6) (by decide) 0) (padded_digit (n := 7) (by decide) 0)
      (padded_digit (n := 8) (by decide) 0) (padded_digit (n := 9) (by decide) 0)
      (padded_digit (n := 1) (by decide) 0))

theorem printsRow_threeBytes : PrintsRow threeBytesRecord.data threeBytesRow :=
  .row rfl (by simp [newline])
    (.more ⟨_, _, rfl, by decide, by decide⟩ ⟨_, _, rfl, by decide, by decide⟩
      (.one ⟨_, _, rfl, by decide, by decide⟩))
    (Or.inr ⟨_, rfl⟩) (by simp [space, newline])

theorem yields_threeBytes :
    Yields 3 [threeBytesRecord]
      ⟨threeBytesHeader ++ newline :: ((threeBytesRow ++ newline :: []) ++ newline :: []), 0⟩ :=
  yields_of_prints
    (.cons printsHeader_threeBytes (by decide)
      (.cons printsRow_threeBytes (by decide) .nil) .nil)
    (fun _ hr => List.mem_singleton.1 hr ▸ (by decide : threeBytesRecord.data.length ≤ 3)) rfl

end OpenRom.RomDump
