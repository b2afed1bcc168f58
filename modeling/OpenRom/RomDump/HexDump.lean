import OpenRom.Library.Region
import OpenRom.RomDump.TextRecords

/-!
# The hexadecimal dump

`DumpData`: the loop that fills a line in an array that is never cleared, and prints it when it is
full. What is left in the array of earlier lines, or of whatever was in its memory before, is never
printed: the text is that of the data alone (`dumpData_eq`), and the data can be read in it again
(`dumpData_readDump`).
-/

set_option autoImplicit false

namespace OpenRom.RomDump

/-! ## The code -/

def LINE_MAX : Nat := 256

/-- The array of a line. -/
abbrev LineArray := { cs : List UInt8 // cs.length = LINE_MAX }

def BYTES_PER_LINE : Nat := 16

def HEX_ASCII_SPACER : Nat := 4

def hextab : List UInt8 :=
  [0x30, 0x31, 0x32, 0x33, 0x34, 0x35, 0x36, 0x37, 0x38, 0x39, 0x61, 0x62, 0x63, 0x64, 0x65, 0x66]

/-- `isprint` in the C locale. -/
def isPrint (b : UInt8) : Bool := 0x20 ≤ b ∧ b ≤ 0x7e

/-- `output[n] = c`; there is no result when that is outside of the array. -/
def putChar (n : Nat) (c : UInt8) (output : List UInt8) : Option (List UInt8) :=
  if n < output.length then some (output.set n c) else none

/-- The digits of a number in base sixteen. -/
def hexNumber (n : Nat) : List UInt8 :=
  if n < 16 then [hexDigit n] else hexNumber (n / 16) ++ [hexDigit (n % 16)]

/-- `%04x` -/
def hex4 (n : UInt32) : List UInt8 :=
  List.replicate (4 - (hexNumber n.toNat).length) 0x30 ++ hexNumber n.toNat

/-- `printf("%04x: %s\n", offset, output)`; there is no result when no character in the array ends
the string. -/
def printLine (offset : UInt32) (output : List UInt8) : Option (List UInt8) :=
  (File.cString? output).map fun s => hex4 offset ++ [colon, space] ++ s ++ [newline]

/-- The array, the place in the line, and what has been printed. -/
structure DumpLine where
  output : List UInt8
  m : Nat
  text : List UInt8

/-- The body of the loop of `DumpData`. -/
def dumpByte (n : UInt32) (b : UInt8) (st : DumpLine) : Option DumpLine := do
  let m := st.m
  let output ← putChar (m * 3 + 0) (hextab.getD (b >>> 4).toNat 0) st.output
  let output ← putChar (m * 3 + 1) (hextab.getD (b &&& 0xf).toNat 0) output
  let output ← putChar (BYTES_PER_LINE * 3 + HEX_ASCII_SPACER + m)
    (if isPrint b then b else dot) output
  let output ← putChar (BYTES_PER_LINE * 3 + HEX_ASCII_SPACER + m + 1) 0 output
  let m := m + 1
  if m = BYTES_PER_LINE then do
    let line ← printLine (n - .ofNat m + 1) output
    return ⟨output, 0, st.text ++ line⟩
  else return ⟨output, m, st.text⟩

/-- The loop of `DumpData`. -/
def dumpBytes (n : UInt32) : List UInt8 → DumpLine → Option DumpLine
  | [], st => some st
  | b :: bs, st => do
      let st ← dumpByte n b st
      dumpBytes (n + 1) bs st

/-- `DumpData`, with what is in the memory of its array, and what it prints. -/
def dumpData (memory : LineArray) (buf : List UInt8) : Option (List UInt8) := do
  let output ← putChar 255 0 memory.val
  let output := List.store 0 (List.replicate (BYTES_PER_LINE * 3) space) output
  let output := List.store (BYTES_PER_LINE * 3) (List.replicate HEX_ASCII_SPACER space) output
  let st ← dumpBytes 0 buf ⟨output, 0, []⟩
  if st.m > 0 then do
    let output := List.store (st.m * 3) (List.replicate (BYTES_PER_LINE * 3 - st.m * 3) space)
      st.output
    let line ← printLine (.ofNat buf.length - .ofNat st.m) output
    return st.text ++ line
  else return st.text

/-! ## The text -/

/-- A byte as `DumpData` shows it behind the digits. -/
def shown (b : UInt8) : UInt8 := if isPrint b then b else dot

/-- A byte in two digits, with a blank behind them. -/
def hexCell (b : UInt8) : List UInt8 := [hexDigit (b.toNat / 16), hexDigit (b.toNat % 16), space]

/-- The line for up to sixteen bytes, without its offset. -/
def dumpRow (chunk : List UInt8) : List UInt8 :=
  chunk.flatMap hexCell ++ List.replicate (48 - 3 * chunk.length) space ++
    List.replicate 4 space ++ chunk.map shown

/-- The lines for the data from an offset on. -/
def dumpText (offset : Nat) (data : List UInt8) : List UInt8 :=
  if data = [] then []
  else hex4 (.ofNat offset) ++ [colon, space] ++ dumpRow (data.take 16) ++ [newline] ++
    dumpText (offset + 16) (data.drop 16)
  termination_by data.length
  decreasing_by
    rename_i hne
    have hpos := List.length_pos_iff.2 hne
    rw [List.length_drop]
    omega

/-! ## The array -/

theorem hextab_high (b : UInt8) : hextab.getD (b >>> 4).toNat 0 = hexDigit (b.toNat / 16) := by
  have hall : ∀ n < 256, hextab.getD (UInt8.ofNat n >>> 4).toNat 0 = hexDigit (n / 16) := by
    decide +kernel
  simpa using hall b.toNat b.toNat_lt

theorem hextab_low (b : UInt8) : hextab.getD (b &&& 0xf).toNat 0 = hexDigit (b.toNat % 16) := by
  have hall : ∀ n < 256, hextab.getD (UInt8.ofNat n &&& 0xf).toNat 0 = hexDigit (n % 16) := by
    decide +kernel
  simpa using hall b.toNat b.toNat_lt

/-- What is in the array of other lines: two characters for each byte that the line has no digits
of yet. -/
def stale (pairs : List (UInt8 × UInt8)) : List UInt8 := pairs.flatMap fun p => [p.1, p.2, space]

/-- The array while a line with these bytes is filled. -/
structure LineHolds (output chunk : List UInt8) (pairs : List (UInt8 × UInt8))
    (rest : List UInt8) : Prop where
  output_eq : output = chunk.flatMap hexCell ++ stale pairs ++ List.replicate 4 space ++
    chunk.map shown ++ rest
  length_pairs : chunk.length + pairs.length = 16
  length_rest : chunk.length + rest.length = 204
  ends : chunk ≠ [] → rest.head? = some 0

theorem length_hexCells (chunk : List UInt8) :
    (chunk.flatMap hexCell).length = 3 * chunk.length := by
  induction chunk with
  | nil => rfl
  | cons b chunk ih =>
      rw [List.flatMap_cons, List.length_append, ih, List.length_cons]
      exact Nat.add_comm 3 _

theorem length_stale (pairs : List (UInt8 × UInt8)) :
    (stale pairs).length = 3 * pairs.length := by
  induction pairs with
  | nil => rfl
  | cons p pairs ih =>
      rw [stale, List.flatMap_cons, List.length_append, List.length_cons]
      exact (congrArg (3 + ·) ih).trans (Nat.add_comm 3 _)

/-- A character behind a part of the array. -/
theorem putChar_append {front back : List UInt8} {x c : UInt8} {n : Nat} (hn : n = front.length) :
    putChar n c (front ++ x :: back) = some (front ++ c :: back) := by
  subst hn
  rw [putChar, if_pos (by simp), List.set_append_right _ _ (Nat.le_refl _), Nat.sub_self]
  rfl

theorem putChar_append_of_eq {n : Nat} {output output' : List UInt8} (front back : List UInt8)
    (x c : UInt8) (houtput : output = front ++ x :: back) (houtput' : output' = front ++ c :: back)
    (hn : n = front.length) : putChar n c output = some output' := by
  rw [houtput, houtput', putChar_append hn]

/-- The four characters that are stored for a byte. -/
theorem putChars_holds {output chunk rest : List UInt8} {x : UInt8 × UInt8}
    {pairs : List (UInt8 × UInt8)} (h : LineHolds output chunk (x :: pairs) rest) (b : UInt8) :
    ∃ output₁ output₂ output₃ output₄ rest',
      putChar (chunk.length * 3 + 0) (hextab.getD (b >>> 4).toNat 0) output = some output₁ ∧
      putChar (chunk.length * 3 + 1) (hextab.getD (b &&& 0xf).toNat 0) output₁ = some output₂ ∧
      putChar (BYTES_PER_LINE * 3 + HEX_ASCII_SPACER + chunk.length)
        (if isPrint b then b else dot) output₂ = some output₃ ∧
      putChar (BYTES_PER_LINE * 3 + HEX_ASCII_SPACER + chunk.length + 1) 0 output₃ =
        some output₄ ∧ LineHolds output₄ (chunk ++ [b]) pairs rest' := by
  have hpairs : chunk.length + (pairs.length + 1) = 16 := h.length_pairs
  obtain ⟨r₀, r₁, rest, rfl⟩ : ∃ r₀ r₁ rest', rest = r₀ :: r₁ :: rest' := by
    have hlen := h.length_rest
    rcases rest with _ | ⟨r₀, _ | ⟨r₁, rest⟩⟩
    · simp at hlen
      omega
    · simp at hlen
      omega
    · exact ⟨r₀, r₁, rest, rfl⟩
  -- the digits, what comes behind them in the line, and what comes behind the line
  let digits := chunk.flatMap hexCell
  let back := stale pairs ++ List.replicate 4 space ++ chunk.map shown
  have hdigits : digits.length = 3 * chunk.length := length_hexCells chunk
  have hback : back.length = 3 * pairs.length + 4 + chunk.length := by
    rw [List.length_append, List.length_append, length_stale, List.length_replicate,
      List.length_map]
  have houtput : output = digits ++ x.1 :: x.2 :: space :: (back ++ r₀ :: r₁ :: rest) := by
    rw [h.output_eq]
    simp [digits, back, stale]
  let high := hexDigit (b.toNat / 16)
  let low := hexDigit (b.toNat % 16)
  refine ⟨digits ++ high :: x.2 :: space :: (back ++ r₀ :: r₁ :: rest),
    digits ++ high :: low :: space :: (back ++ r₀ :: r₁ :: rest),
    digits ++ high :: low :: space :: (back ++ shown b :: r₁ :: rest),
    digits ++ high :: low :: space :: (back ++ shown b :: 0 :: rest), 0 :: rest, ?_, ?_, ?_, ?_, ?_⟩
  · rw [hextab_high, houtput]
    exact putChar_append (by rw [hdigits]; omega)
  · rw [hextab_low]
    refine putChar_append_of_eq (digits ++ [high]) (space :: (back ++ r₀ :: r₁ :: rest)) x.2 low
      (List.append_cons _ _ _) (List.append_cons _ _ _) ?_
    rw [List.length_append, hdigits, List.length_singleton]
    omega
  · refine putChar_append_of_eq (digits ++ high :: low :: space :: back) (r₁ :: rest) r₀ (shown b)
      (by simp) (by simp) ?_
    rw [List.length_append, hdigits, List.length_cons, List.length_cons, List.length_cons, hback]
    unfold BYTES_PER_LINE HEX_ASCII_SPACER
    omega
  · refine putChar_append_of_eq (digits ++ high :: low :: space :: (back ++ [shown b])) rest r₁ 0
      (by simp) (by simp) ?_
    rw [List.length_append, hdigits, List.length_cons, List.length_cons, List.length_cons,
      List.length_append, hback, List.length_singleton]
    unfold BYTES_PER_LINE HEX_ASCII_SPACER
    omega
  · refine ⟨?_, ?_, ?_, fun _ => rfl⟩
    · simp [digits, back, high, low, hexCell]
    · rw [List.length_append, List.length_singleton]
      omega
    · have hlen := h.length_rest
      simp only [List.length_cons, List.length_append, List.length_nil] at hlen ⊢
      omega

/-! ## What is printed -/

theorem hexDigit_ne {n : Nat} (hn : n < 16) : hexDigit n ≠ 0 ∧ hexDigit n ≠ newline := by
  have hall : ∀ n < 16, hexDigit n ≠ 0 ∧ hexDigit n ≠ newline := by decide
  exact hall n hn

theorem shown_ne (b : UInt8) : shown b ≠ 0 ∧ shown b ≠ newline := by
  have hall : ∀ n < 256, shown (UInt8.ofNat n) ≠ 0 ∧ shown (UInt8.ofNat n) ≠ newline := by
    decide +kernel
  simpa using hall b.toNat b.toNat_lt

/-- No character of a row ends the string, or the line. -/
theorem dumpRow_ne (chunk : List UInt8) : ∀ c ∈ dumpRow chunk, c ≠ 0 ∧ c ≠ newline := by
  have hspace : space ≠ 0 ∧ space ≠ newline := by decide
  have hcell : ∀ b : UInt8, ∀ c ∈ hexCell b, c ≠ 0 ∧ c ≠ newline := fun b =>
    List.forall_mem_cons.2 ⟨hexDigit_ne (Nat.div_lt_of_lt_mul b.toNat_lt),
      List.forall_mem_cons.2 ⟨hexDigit_ne (Nat.mod_lt _ (by decide)),
        List.forall_mem_singleton.2 hspace⟩⟩
  intro c hc
  rcases List.mem_append.1 hc with hc | hc
  · rcases List.mem_append.1 hc with hc | hc
    · rcases List.mem_append.1 hc with hc | hc
      · obtain ⟨b, -, hc⟩ := List.mem_flatMap.1 hc
        exact hcell b c hc
      · rwa [List.eq_of_mem_replicate hc]
    · rwa [List.eq_of_mem_replicate hc]
  · obtain ⟨b, -, rfl⟩ := List.mem_map.1 hc
    exact shown_ne b

theorem printLine_row {output chunk rest : List UInt8} (hrow : output = dumpRow chunk ++ rest)
    (hends : rest.head? = some 0) (offset : UInt32) :
    printLine offset output =
      some (hex4 offset ++ [colon, space] ++ dumpRow chunk ++ [newline]) := by
  obtain ⟨rest, rfl⟩ : ∃ rest', rest = 0 :: rest' := by
    cases rest with
    | nil => cases hends
    | cons c rest => exact ⟨rest, by rw [Option.some.inj hends]⟩
  rw [printLine, hrow, File.cString?_append fun c hc => (dumpRow_ne chunk c hc).1]
  rfl

/-- A line that is full. -/
theorem LineHolds.printLine_full {output chunk rest : List UInt8}
    (h : LineHolds output chunk [] rest) (offset : UInt32) :
    printLine offset output =
      some (hex4 offset ++ [colon, space] ++ dumpRow chunk ++ [newline]) := by
  have hlen : chunk.length = 16 := h.length_pairs
  refine printLine_row ?_ (h.ends fun hnil => by simp [hnil] at hlen) offset
  rw [h.output_eq, dumpRow, hlen]
  simp [stale]

/-- A line that is not, when the digits that are not there have been cleared. -/
theorem LineHolds.printLine_part {output chunk rest : List UInt8} {pairs : List (UInt8 × UInt8)}
    (h : LineHolds output chunk pairs rest) (hne : chunk ≠ []) (offset : UInt32) :
    printLine offset (List.store (chunk.length * 3)
        (List.replicate (BYTES_PER_LINE * 3 - chunk.length * 3) space) output) =
      some (hex4 offset ++ [colon, space] ++ dumpRow chunk ++ [newline]) := by
  have hpairs := h.length_pairs
  have hsize : BYTES_PER_LINE * 3 - chunk.length * 3 = (stale pairs).length := by
    rw [length_stale]
    unfold BYTES_PER_LINE
    omega
  have hsize' : 48 - 3 * chunk.length = (stale pairs).length := by
    rw [length_stale]
    omega
  refine printLine_row ?_ (h.ends hne) offset
  rw [h.output_eq, dumpRow, hsize, hsize', List.store, List.append_assoc, List.append_assoc,
    List.append_assoc, List.take_left' (by rw [length_hexCells, Nat.mul_comm]),
    List.drop_left' (by rw [length_hexCells, Nat.mul_comm]), List.overwrite,
    List.length_replicate, List.drop_left' rfl]
  simp

/-- What is in the array when a line is full is stale for the next one. -/
theorem LineHolds.next {output chunk rest : List UInt8} (h : LineHolds output chunk [] rest) :
    LineHolds output [] (chunk.map fun b => (hexDigit (b.toNat / 16), hexDigit (b.toNat % 16)))
      (chunk.map shown ++ rest) := by
  have hstale : stale (chunk.map fun b => (hexDigit (b.toNat / 16), hexDigit (b.toNat % 16))) =
      chunk.flatMap hexCell := by
    rw [stale, List.flatMap_map]
    rfl
  have hlen := h.length_pairs
  have hrest := h.length_rest
  simp only [List.length_nil] at hlen
  refine ⟨?_, ?_, ?_, fun hne => absurd rfl hne⟩
  · rw [h.output_eq, hstale]
    simp [stale]
  · rw [List.length_map, List.length_nil]
    omega
  · rw [List.length_append, List.length_map, List.length_nil]
    omega

/-! ## The loop -/

theorem dumpText_nil (offset : Nat) : dumpText offset [] = [] := by
  rw [dumpText, if_pos rfl]

/-- A line at the front. -/
theorem dumpText_append {chunk : List UInt8} (hlen : chunk.length = 16) (offset : Nat)
    (data : List UInt8) :
    dumpText offset (chunk ++ data) =
      hex4 (.ofNat offset) ++ [colon, space] ++ dumpRow chunk ++ [newline] ++
        dumpText (offset + 16) data := by
  have hne : chunk ++ data ≠ [] := by
    intro hnil
    rw [(List.append_eq_nil_iff.1 hnil).1] at hlen
    cases hlen
  rw [dumpText, if_neg hne, List.take_left' hlen, List.drop_left' hlen]

theorem dumpText_part {chunk : List UInt8} (hne : chunk ≠ []) (hlen : chunk.length < 16)
    (offset : Nat) :
    dumpText offset chunk =
      hex4 (.ofNat offset) ++ [colon, space] ++ dumpRow chunk ++ [newline] := by
  rw [dumpText, if_neg hne, List.take_of_length_le (Nat.le_of_lt hlen),
    List.drop_eq_nil_of_le (Nat.le_of_lt hlen), dumpText_nil, List.append_nil]

/-- Where the loop is: the bytes of the line, which starts at an offset, and the text before it. -/
structure DumpHolds (st : DumpLine) (offset : Nat) (chunk text : List UInt8) : Prop where
  line : ∃ pairs rest, LineHolds st.output chunk pairs rest
  m_eq : st.m = chunk.length
  length_lt : chunk.length < 16
  text_eq : st.text = text

theorem ofNat_sub (offset m : Nat) :
    UInt32.ofNat (offset + m) - UInt32.ofNat m = UInt32.ofNat offset := by
  rw [UInt32.ofNat_add, UInt32.add_sub_cancel]

/-- A byte that does not fill the line, and one that does. -/
theorem dumpByte_holds {st : DumpLine} {offset : Nat} {chunk text : List UInt8}
    (h : DumpHolds st offset chunk text) (b : UInt8) :
    ∃ st', dumpByte (.ofNat (offset + chunk.length)) b st = some st' ∧
      ((chunk.length + 1 < 16 ∧ DumpHolds st' offset (chunk ++ [b]) text) ∨
        (chunk ++ [b]).length = 16 ∧ DumpHolds st' (offset + 16) [] (text ++
          (hex4 (.ofNat offset) ++ [colon, space] ++ dumpRow (chunk ++ [b]) ++ [newline]))) := by
  obtain ⟨pairs, rest, hline⟩ := h.line
  have hpairs := hline.length_pairs
  have hlt := h.length_lt
  obtain ⟨x, pairs, rfl⟩ : ∃ x pairs', pairs = x :: pairs' := by
    cases pairs with
    | nil =>
        rw [List.length_nil] at hpairs
        omega
    | cons x pairs => exact ⟨x, pairs, rfl⟩
  obtain ⟨output₁, output₂, output₃, output₄, rest', h₁, h₂, h₃, h₄, hnext⟩ :=
    putChars_holds hline b
  have hlength : (chunk ++ [b]).length = chunk.length + 1 := by simp
  unfold dumpByte
  simp only [h.m_eq, h₁, h₂, h₃, h₄, Option.bind_eq_bind, Option.bind_some]
  by_cases hfull : chunk.length + 1 = BYTES_PER_LINE
  · -- the line is printed, and the next one starts
    have hsixteen : chunk.length + 1 = 16 := hfull
    have hnil : pairs = [] := by
      have hlen := hnext.length_pairs
      rw [hlength, hsixteen] at hlen
      exact List.length_eq_zero_iff.1 (by omega)
    subst hnil
    have hoffset : UInt32.ofNat (offset + chunk.length) - UInt32.ofNat (chunk.length + 1) + 1 =
        UInt32.ofNat offset := by
      rw [UInt32.ofNat_add chunk.length 1, UInt32.ofNat_add offset]
      grind
    rw [if_pos hfull, hoffset, hnext.printLine_full]
    exact ⟨_, rfl, Or.inr ⟨hlength.trans hfull, ⟨_, _, hnext.next⟩, rfl, by decide,
      congrArg (· ++ _) h.text_eq⟩⟩
  · have hne : chunk.length + 1 ≠ 16 := hfull
    rw [if_neg hfull]
    exact ⟨_, rfl, Or.inl ⟨by omega, ⟨pairs, rest', hnext⟩, hlength.symm, by omega, h.text_eq⟩⟩

/-- The loop prints the lines that are full and leaves the rest in the array. -/
theorem dumpBytes_holds {st : DumpLine} {offset : Nat} {chunk text : List UInt8}
    (h : DumpHolds st offset chunk text) (buf : List UInt8) :
    ∃ st' offset' chunk' text', dumpBytes (.ofNat (offset + chunk.length)) buf st = some st' ∧
      DumpHolds st' offset' chunk' text' ∧
      offset' + chunk'.length = offset + chunk.length + buf.length ∧
      text' ++ dumpText offset' chunk' = text ++ dumpText offset (chunk ++ buf) := by
  induction buf generalizing st offset chunk text with
  | nil => exact ⟨st, offset, chunk, text, rfl, h, rfl, by rw [List.append_nil]⟩
  | cons b buf ih =>
      obtain ⟨st', hbyte, ⟨hlt, hnext⟩ | ⟨hlen, hnext⟩⟩ := dumpByte_holds h b
      · obtain ⟨st'', offset', chunk', text', hloop, hholds, hoffset, htext⟩ := ih hnext
        have hn : UInt32.ofNat (offset + chunk.length) + 1 =
            UInt32.ofNat (offset + (chunk ++ [b]).length) := by
          rw [List.length_append, ← Nat.add_assoc, UInt32.ofNat_add _ [b].length]
          rfl
        refine ⟨st'', offset', chunk', text', ?_, hholds, ?_, ?_⟩
        · simp only [dumpBytes, hbyte, Option.bind_eq_bind, Option.bind_some, hn, hloop]
        · rw [hoffset, List.length_append, List.length_singleton, List.length_cons]
          omega
        · rw [htext, List.append_assoc]
          rfl
      · obtain ⟨st'', offset', chunk', text', hloop, hholds, hoffset, htext⟩ := ih hnext
        rw [List.length_append, List.length_singleton] at hlen
        have hn : UInt32.ofNat (offset + chunk.length) + 1 = UInt32.ofNat (offset + 16 + 0) := by
          rw [Nat.add_zero, ← hlen, ← Nat.add_assoc, UInt32.ofNat_add _ 1]
          rfl
        refine ⟨st'', offset', chunk', text', ?_, hholds, ?_, ?_⟩
        · simp only [dumpBytes, hbyte, Option.bind_eq_bind, Option.bind_some, hn]
          exact hloop
        · rw [hoffset, List.length_nil, List.length_cons]
          omega
        · rw [htext, List.nil_append, List.append_cons chunk b buf,
            dumpText_append (by rw [List.length_append, List.length_singleton, hlen]),
            List.append_assoc]

/-- The array before the first byte. -/
theorem dumpHolds_start (output : List UInt8) (hlen : output.length = LINE_MAX) :
    DumpHolds ⟨List.store (BYTES_PER_LINE * 3) (List.replicate HEX_ASCII_SPACER space)
      (List.store 0 (List.replicate (BYTES_PER_LINE * 3) space) output), 0, []⟩ 0 [] [] := by
  refine ⟨⟨List.replicate 16 (space, space), output.drop 52, ?_, rfl, ?_, fun h => absurd rfl h⟩,
    rfl, by decide, rfl⟩
  · show List.store 48 (List.replicate 4 space) (List.store 0 (List.replicate 48 space) output) = _
    rw [List.store, List.store, List.take_zero, List.nil_append, List.drop_zero, List.overwrite,
      List.take_left' List.length_replicate, List.drop_left' List.length_replicate, List.overwrite,
      List.length_replicate, List.length_replicate, List.drop_drop]
    rfl
  · rw [List.length_drop, hlen]
    rfl

/-- `DumpData` never stores or reads outside of its array, and what it prints is the text of the
data, whatever is in the memory of the array. -/
theorem dumpData_eq (memory : LineArray) (buf : List UInt8) :
    dumpData memory buf = some (dumpText 0 buf) := by
  have hput : putChar 255 0 memory.val = some (memory.val.set 255 0) := by
    rw [putChar, if_pos (by rw [memory.property]; decide)]
  have hstart := dumpHolds_start (memory.val.set 255 0) (by
    rw [List.length_set, memory.property])
  obtain ⟨st, offset, chunk, text, hloop, hholds, hoffset, htext⟩ := dumpBytes_holds hstart buf
  rw [List.nil_append, List.nil_append] at htext
  have hloop' : dumpBytes 0 buf _ = some st := hloop
  simp only [dumpData, hput, Option.bind_eq_bind, Option.bind_some, hloop', hholds.m_eq,
    hholds.text_eq]
  by_cases hpart : chunk.length > 0
  · obtain ⟨pairs, rest, hline⟩ := hholds.line
    have hne : chunk ≠ [] := List.length_pos_iff.1 hpart
    have hlength : buf.length = offset + chunk.length := by
      rw [hoffset, List.length_nil, Nat.zero_add]
    rw [if_pos hpart, hlength, ofNat_sub, hline.printLine_part hne, Option.bind_some, ← htext,
      dumpText_part hne hholds.length_lt]
    rfl
  · have hnil : chunk = [] := List.length_eq_zero_iff.1 (Nat.eq_zero_of_not_pos hpart)
    rw [if_neg hpart, ← htext, hnil, dumpText_nil, List.append_nil]
    rfl

/-! ## Reading a dump -/

/-- The bytes of the digits in a row, as far as there are digits. -/
def readCells : List UInt8 → List UInt8
  | h :: l :: _ :: cs =>
      match digit 16 h, digit 16 l with
      | some high, some low => .ofNat (high * 16 + low) :: readCells cs
      | _, _ => []
  | _ => []

/-- The bytes of a line: of what comes behind its offset, the part with the digits. -/
def readLine (line : List UInt8) : List UInt8 :=
  readCells (((line.dropWhile (· ≠ colon)).drop 2).take 48)

/-- The bytes of a dump. -/
def readDump (text : List UInt8) : List UInt8 :=
  if text = [] then []
  else readLine (text.takeWhile (· ≠ newline)) ++ readDump ((text.dropWhile (· ≠ newline)).drop 1)
  termination_by text.length
  decreasing_by
    rename_i hne
    have hpos := List.length_pos_iff.2 hne
    have hle := (List.dropWhile_sublist (l := text) (· ≠ newline)).length_le
    rw [List.length_drop]
    omega

theorem digit_hexDigit {n : Nat} (hn : n < 16) : digit 16 (hexDigit n) = some n := by
  have hall : ∀ n < 16, digit 16 (hexDigit n) = some n := by decide
  exact hall n hn

/-- The digits of a row are followed by none. -/
theorem readCells_row (chunk : List UInt8) (n : Nat) :
    readCells (chunk.flatMap hexCell ++ List.replicate n space) = chunk := by
  induction chunk with
  | nil =>
      have hblank : digit 16 space = none := by decide
      rcases n with _ | _ | _ | n
      · rfl
      · rfl
      · rfl
      · simp [List.replicate_succ, readCells, hblank]
  | cons b chunk ih =>
      have hhigh := digit_hexDigit (Nat.div_lt_of_lt_mul b.toNat_lt : b.toNat / 16 < 16)
      have hlow := digit_hexDigit (Nat.mod_lt b.toNat (by decide : 0 < 16))
      have hbyte : UInt8.ofNat (b.toNat / 16 * 16 + b.toNat % 16) = b := by
        rw [Nat.mul_comm, Nat.div_add_mod, UInt8.ofNat_toNat]
      simp [hexCell, readCells, hhigh, hlow, hbyte, ih]

theorem hexNumber_ne (n : Nat) : ∀ c ∈ hexNumber n, c ≠ colon ∧ c ≠ newline := by
  have hdigit : ∀ n < 16, hexDigit n ≠ colon ∧ hexDigit n ≠ newline := by decide
  induction n using Nat.strongRecOn with
  | ind n ih =>
      rw [hexNumber]
      by_cases hn : n < 16
      · rw [if_pos hn]
        exact List.forall_mem_singleton.2 (hdigit n hn)
      · rw [if_neg hn]
        exact List.forall_mem_append.2 ⟨ih (n / 16) (by omega),
          List.forall_mem_singleton.2 (hdigit _ (Nat.mod_lt n (by decide)))⟩

theorem hex4_ne (n : UInt32) : ∀ c ∈ hex4 n, c ≠ colon ∧ c ≠ newline := by
  have hzero : (0x30 : UInt8) ≠ colon ∧ (0x30 : UInt8) ≠ newline := by decide
  refine List.forall_mem_append.2 ⟨fun c hc => ?_, hexNumber_ne n.toNat⟩
  rwa [List.eq_of_mem_replicate hc]

theorem readLine_row {chunk : List UInt8} (hlen : chunk.length ≤ 16) (n : UInt32) :
    readLine (hex4 n ++ [colon, space] ++ dumpRow chunk) = chunk := by
  have hdigits : (chunk.flatMap hexCell ++ List.replicate (48 - 3 * chunk.length) space).length =
      48 := by
    rw [List.length_append, length_hexCells, List.length_replicate]
    omega
  have hoffset := (takeWhile_ne_append (space :: dumpRow chunk)
    fun c hc => (hex4_ne n c hc).1).2
  rw [List.append_assoc]
  simp only [readLine, List.cons_append, List.nil_append, hoffset, List.drop_succ_cons,
    List.drop_zero]
  rw [dumpRow, List.append_assoc, List.take_left' hdigits, readCells_row]

theorem readDump_dumpText (offset : Nat) (data : List UInt8) :
    readDump (dumpText offset data) = data := by
  induction hk : data.length using Nat.strongRecOn generalizing offset data with
  | ind k ih =>
      rw [dumpText]
      by_cases hne : data = []
      · rw [if_pos hne, readDump, if_pos rfl, hne]
      · have hpos := List.length_pos_iff.2 hne
        have hline : ∀ c ∈ hex4 (.ofNat offset) ++ [colon, space] ++ dumpRow (data.take 16),
            c ≠ newline := by
          have hsep : ∀ c ∈ [colon, space], c ≠ newline :=
            List.forall_mem_cons.2 ⟨by decide, List.forall_mem_singleton.2 (by decide)⟩
          exact List.forall_mem_append.2 ⟨List.forall_mem_append.2
            ⟨fun c hc => (hex4_ne _ c hc).2, hsep⟩, fun c hc => (dumpRow_ne _ c hc).2⟩
        have hrest := ih (data.drop 16).length (by rw [List.length_drop]; omega) (offset + 16)
          (data.drop 16) rfl
        obtain ⟨htake, hdrop⟩ := takeWhile_ne_append
          (dumpText (offset + 16) (data.drop 16)) hline
        rw [if_neg hne, List.append_assoc _ [newline], readDump, if_neg (by simp)]
        simp only [List.cons_append, List.nil_append, htake, hdrop, List.drop_succ_cons,
          List.drop_zero, hrest]
        rw [readLine_row (by rw [List.length_take]; omega), List.take_append_drop]

/-- Whatever is in the memory of its array, `DumpData` prints the same text for the same data, and
the data is what is read in it. -/
theorem dumpData_readDump (memory : LineArray) (buf : List UInt8) :
    ∃ text, dumpData memory buf = some text ∧
      (∀ memory', dumpData memory' buf = some text) ∧ readDump text = buf :=
  ⟨dumpText 0 buf, dumpData_eq memory buf, fun memory' => dumpData_eq memory' buf,
    readDump_dumpText 0 buf⟩

end OpenRom.RomDump
