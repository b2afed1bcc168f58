import OpenRom.RomDump.TextRecords

/-!
# Names in a CSV file

`CSVSysParser` reads lines of the form `identifier,string` and keeps the strings of identifiers like
`Sys42_name`. It recognises an identifier by its first three characters, its last five, and an
underscore behind the number in it, which more identifiers pass than those of this form (`IsEntry`).
`lookup_finds_iff` says when the lookups are nevertheless those of the right lines.
-/

set_option autoImplicit false

namespace OpenRom.RomDump

def comma : UInt8 := 0x2c
def underscore : UInt8 := 0x5f

/-- `Sys` -/
def sysPrefix : List UInt8 := [0x53, 0x79, 0x73]

/-- `_name` -/
def nameSuffix : List UInt8 := [0x5f, 0x6e, 0x61, 0x6d, 0x65]

/-- `CSVSysParser`: `m_Strings` -/
structure CSVSysParser where
  strings : List (Int × List UInt8)
  deriving DecidableEq, Repr

namespace CSVSysParser

/-- `m_Default` -/
def default : List UInt8 := [0x3f]

def start : CSVSysParser := ⟨[]⟩

/-- `CSVSysParser::Lookup` -/
def lookup (p : CSVSysParser) (n : Int) : List UInt8 := (p.strings.lookup n).getD default

/-- `m_Strings.insert`, which does nothing when the number is there. -/
def insert (p : CSVSysParser) (id : Int) (string : List UInt8) : CSVSysParser :=
  match p.strings.lookup id with
  | some _ => p
  | none => ⟨(id, string) :: p.strings⟩

/-- What `Load` makes of the array that a line is read into: a number and a string to be stored.
The number is an `unsigned int` that becomes an `int`. -/
def parseLine (array : List UInt8) : Option (Int × List UInt8) :=
  let line := (File.cString array).takeWhile (· ≠ newline)
  let identifier := line.takeWhile (· ≠ comma)
  match line.dropWhile (· ≠ comma) with
  | [] => none -- corrupt line
  | _ :: stringContent =>
      if identifier.take 3 ≠ sysPrefix then none
      else if identifier.length < 5 ∨ identifier.drop (identifier.length - 5) ≠ nameSuffix then none
      else
        let (id, ptr) := strtoul 10 (identifier.drop 3)
        if ptr.head? ≠ some underscore then none
        else some (Int.bmod id.toNat (2 ^ 32), stringContent)

/-- The rest of a turn of the loop of `Load`, once the line is read. -/
def store (p : CSVSysParser) (array : List UInt8) : CSVSysParser :=
  match parseLine array with
  | none => p
  | some (id, string) => p.insert id string

/-- One turn of the loop of `Load`. -/
def turn (st : File × CSVSysParser) : Loop.Turn (File × CSVSysParser) CSVSysParser :=
  let (f, p) := st
  match f.fgets 1023 with
  | none => .leave p
  | some (array, f) => .again (f, p.store array)

/-- `CSVSysParser::Load`, on the bytes of the file. -/
def load (p : CSVSysParser) (bytes : List UInt8) : CSVSysParser :=
  (Loop.run turn (bytes.length + 1) (⟨bytes, 0⟩, p)).getD p

/-! ## The lines of a file -/

theorem measure_turn {st st' : File × CSVSysParser} (h : turn st = .again st') :
    st'.1.unread < st.1.unread := by
  obtain ⟨f, p⟩ := st
  unfold turn at h
  dsimp only at h
  cases hline : f.fgets 1023 with
  | none =>
      rw [hline] at h
      cases h
  | some r =>
      rw [hline] at h
      cases h
      exact File.unread_of_fgets (by decide) hline

/-- The end of the line is no part of what is stored. -/
theorem parseLine_newline (line : List UInt8) :
    parseLine (line ++ [newline]) = parseLine line := by
  have hstring : (File.cString (line ++ [newline])).takeWhile (· ≠ newline) =
      (File.cString line).takeWhile (· ≠ newline) := by
    induction line with
    | nil => rfl
    | cons c cs ih =>
        simp only [File.cString, List.cons_append, List.takeWhile_cons] at ih ⊢
        by_cases hc : c = 0
        · simp [hc]
        · by_cases hn : c = newline
          · subst hn
            simp [hc]
          · simpa [hc, hn] using ih
  rw [parseLine, hstring, ← parseLine]

theorem lineOf_eq {n : Nat} {cs : List UInt8} (hcs : newline ∉ cs) (hn : cs.length ≤ n) :
    File.lineOf n cs = cs := by
  induction cs generalizing n with
  | nil => cases n <;> rfl
  | cons c cs ih =>
      obtain ⟨m, rfl⟩ : ∃ m, n = m + 1 := ⟨n - 1, by rw [List.length_cons] at hn; omega⟩
      have hc : ¬ c = 0x0a := fun h => hcs (h ▸ List.mem_cons_self)
      rw [File.lineOf, if_neg hc, ih (fun h => hcs (List.mem_cons_of_mem _ h))
        (Nat.le_of_succ_le_succ hn)]

/-- The loop takes a file of short lines apart at their ends. -/
theorem ends_lines {f : File} {p : CSVSysParser}
    (hshort : ∀ line ∈ f.rest.splitOn newline, line.length < 1022) :
    Loop.Ends turn (f, p) ((f.rest.splitOn newline).foldl store p) := by
  -- the induction is on what has not been read
  induction hk : f.rest.length using Nat.strongRecOn generalizing f p with
  | ind k ih =>
      by_cases hnewline : newline ∈ f.rest
      · obtain ⟨line, more, hrest, hline⟩ := List.eq_append_cons_of_mem hnewline
        have hsplit : f.rest.splitOn newline = line :: more.splitOn newline := by
          rw [hrest, List.splitOn_append_cons_self_of_not_mem hline]
        rw [hsplit] at hshort ⊢
        obtain ⟨hlength, hshort⟩ := List.forall_mem_cons.1 hshort
        obtain ⟨f', hfgets, hmore⟩ := File.fgets_line 1023 hrest
          (fun c hc h => hline (h ▸ hc)) (by omega)
        have hturn : turn (f, p) = .again (f', p.store line) := by
          simp only [turn, hfgets, store, parseLine_newline]
        have hlt : f'.rest.length < k := by
          rw [hmore, ← hk, hrest, List.length_append, List.length_cons]
          omega
        rw [← hmore] at hshort ⊢
        exact .again hturn (ih _ hlt hshort rfl)
      · have hsplit : f.rest.splitOn newline = [f.rest] := List.splitOn_eq_singleton hnewline
        rw [hsplit] at hshort ⊢
        have hlength : f.rest.length < 1022 := hshort _ (List.mem_singleton.2 rfl)
        by_cases hend : f.rest = []
        · refine .leave ?_
          simp only [turn, File.fgets, hend]
          rfl
        · -- the last line has no end
          have hline := lineOf_eq (n := 1022) hnewline (by omega)
          have hfgets : f.fgets 1023 = some (f.rest, f.advance f.rest.length) := by
            rw [File.fgets, if_neg hend, hline]
          have hturn : turn (f, p) = .again (f.advance f.rest.length, p.store f.rest) := by
            simp only [turn, hfgets]
          refine .again hturn (.leave ?_)
          have hrest : (f.advance f.rest.length).rest = [] := by
            rw [File.rest_advance, List.drop_length]
          simp only [turn, File.fgets, if_pos hrest]
          rfl

theorem load_eq (p : CSVSysParser) {bytes : List UInt8}
    (hshort : ∀ line ∈ bytes.splitOn newline, line.length < 1022) :
    p.load bytes = (bytes.splitOn newline).foldl store p := by
  have hends := ends_lines (f := ⟨bytes, 0⟩) (p := p) hshort
  have hrun := Loop.run_of_ends (fun _ _ => measure_turn) hends (bytes.length + 1)
    (Nat.lt_succ_self _)
  rw [load, hrun]
  rfl

/-! ## What is stored -/

theorem lookup_insert (p : CSVSysParser) (id : Int) (string : List UInt8) (n : Int) :
    (p.insert id string).strings.lookup n =
      (p.strings.lookup n).or (if n = id then some string else none) := by
  unfold insert
  cases hid : p.strings.lookup id with
  | some s =>
      by_cases hn : n = id
      · rw [hn, hid]
        rfl
      · rw [if_neg hn, Option.or_none]
  | none =>
      by_cases hn : n = id
      · rw [hn, hid, if_pos rfl]
        simp
      · have hne : (n == id) = false := beq_false_of_ne hn
        rw [if_neg hn, Option.or_none, List.lookup_cons, hne]

/-- The line is stored under that number. -/
def Stores (line : List UInt8) (n : Int) (string : List UInt8) : Prop :=
  parseLine line = some (n, string)

/-- What the line stores under that number. -/
def stored (n : Int) (line : List UInt8) : Option (List UInt8) :=
  (parseLine line).bind fun e => if n = e.1 then some e.2 else none

theorem stored_eq_some_iff {n : Int} {line string : List UInt8} :
    stored n line = some string ↔ Stores line n string := by
  unfold stored Stores
  cases parseLine line with
  | none => simp
  | some e =>
      obtain ⟨m, s⟩ := e
      by_cases hn : n = m
      · simp [hn]
      · simp [hn, Ne.symm hn]

theorem stored_eq_none_iff {n : Int} {line : List UInt8} :
    stored n line = none ↔ ∀ s, ¬ Stores line n s := by
  rw [Option.eq_none_iff_forall_ne_some]
  exact forall_congr' fun s => not_congr stored_eq_some_iff

theorem lookup_foldl_store (lines : List (List UInt8)) (p : CSVSysParser) (n : Int) :
    (lines.foldl store p).strings.lookup n =
      (p.strings.lookup n).or (lines.findSome? (stored n)) := by
  induction lines generalizing p with
  | nil => simp
  | cons line lines ih =>
      rw [List.foldl_cons, ih, List.findSome?_cons, stored, store]
      cases parseLine line with
      | none => rfl
      | some e =>
          dsimp only
          rw [lookup_insert]
          by_cases hn : n = e.1
          · simp [hn]
          · simp [hn]

/-- A lookup finds the string of the first line that is stored under the number, or the default. -/
theorem lookup_load {lines : List (List UInt8)} {n : Int} :
    (lines.foldl store start).lookup n = (lines.findSome? (stored n)).getD default := by
  rw [lookup, lookup_foldl_store]
  rfl

theorem lookup_of_stores {lines front back : List (List UInt8)} {line string : List UInt8} {n : Int}
    (hsplit : lines = front ++ line :: back) (hstores : Stores line n string)
    (hfront : ∀ l ∈ front, ∀ s, ¬ Stores l n s) :
    (lines.foldl store start).lookup n = string := by
  have hfind : lines.findSome? (stored n) = some string :=
    List.findSome?_eq_some_iff.2 ⟨front, line, back, hsplit, stored_eq_some_iff.2 hstores,
      fun l hl => stored_eq_none_iff.2 (hfront l hl)⟩
  rw [lookup_load, hfind]
  rfl

theorem lookup_cases (lines : List (List UInt8)) (n : Int) :
    (∃ front line back, lines = front ++ line :: back ∧
        Stores line n ((lines.foldl store start).lookup n) ∧ ∀ l ∈ front, ∀ s, ¬ Stores l n s) ∨
      ((∀ l ∈ lines, ∀ s, ¬ Stores l n s) ∧ (lines.foldl store start).lookup n = default) := by
  rw [lookup_load]
  cases hfind : lines.findSome? (stored n) with
  | none =>
      rw [List.findSome?_eq_none_iff] at hfind
      exact Or.inr ⟨fun l hl => stored_eq_none_iff.1 (hfind l hl), rfl⟩
  | some string =>
      obtain ⟨front, line, back, hsplit, hline, hfront⟩ := List.findSome?_eq_some_iff.1 hfind
      exact Or.inl ⟨front, line, back, hsplit, stored_eq_some_iff.1 hline,
        fun l hl => stored_eq_none_iff.1 (hfront l hl)⟩

/-! ## The form of an identifier -/

/-- The line gives a string to a number: its identifier is `Sys`, the number in decimal, with any
zeros before it, and `_name`. A string ends at a NUL. -/
inductive IsEntry : List UInt8 → Int → List UInt8 → Prop
  | mk {n : Nat} {ds rest : List UInt8} : Padded n ds →
      IsEntry (sysPrefix ++ (ds ++ nameSuffix) ++ comma :: rest) n (File.cString rest)

/-- What the lookup of a number is to return: the string of the first line that gives it one, or the
default. -/
def Finds (lines : List (List UInt8)) (n : Int) (string : List UInt8) : Prop :=
  (∃ front line back, lines = front ++ line :: back ∧ IsEntry line n string ∧
      ∀ l ∈ front, ∀ s, ¬ IsEntry l n s) ∨
    ((∀ l ∈ lines, ∀ s, ¬ IsEntry l n s) ∧ string = default)

theorem chars_of_padded {n : Nat} {ds : List UInt8} (h : Padded n ds) :
    ∀ c ∈ ds, c ≠ newline ∧ c ≠ 0 ∧ c ≠ comma ∧ digit 10 c ≠ none := by
  intro c hc
  obtain ⟨d, hd⟩ := h.allDigits c hc
  refine ⟨(ne_of_digit hd).1, (ne_of_digit hd).2.1, ?_, ?_⟩
  · rintro rfl
    cases hd
  · show Numeral.digit 10 c.toNat ≠ none
    rw [hd]
    exact Option.some_ne_none d

/-- The characters before the comma of such a line. -/
theorem takeWhile_entry {n : Nat} {ds : List UInt8} (h : Padded n ds) (rest : List UInt8) :
    (sysPrefix ++ (ds ++ nameSuffix) ++ comma :: rest).takeWhile (· ≠ comma) =
        sysPrefix ++ (ds ++ nameSuffix) ∧
      (sysPrefix ++ (ds ++ nameSuffix) ++ comma :: rest).dropWhile (· ≠ comma) = comma :: rest := by
  refine takeWhile_ne_append rest ?_
  simp only [List.forall_mem_append]
  exact ⟨by simp [sysPrefix, comma], fun c hc => (chars_of_padded h c hc).2.2.1,
    by simp [nameSuffix, comma]⟩

/-- Such a line is stored under its number. -/
theorem stores_of_isEntry {line string : List UInt8} {n : Int} (h : IsEntry line n string)
    (hline : newline ∉ line) (hn : n < 2 ^ 31) : Stores line n string := by
  cases h with
  | @mk n ds rest hds =>
      have hn : n < 2 ^ 31 := by omega
      -- the array holds the whole identifier
      have hrest : newline ∉ rest := fun h => hline (by simp [h])
      have hstring : (File.cString (sysPrefix ++ (ds ++ nameSuffix) ++ comma :: rest)).takeWhile
          (· ≠ newline) = sysPrefix ++ (ds ++ nameSuffix) ++ comma :: File.cString rest := by
        have hall : ∀ c ∈ sysPrefix ++ (ds ++ nameSuffix), c ≠ 0 ∧ c ≠ newline := by
          simp only [List.forall_mem_append]
          refine ⟨by simp [sysPrefix, newline], fun c hc => ?_, by simp [nameSuffix, newline]⟩
          have hchar := chars_of_padded hds c hc
          exact ⟨hchar.2.1, hchar.1⟩
        have hself : (File.cString rest).takeWhile (· ≠ newline) = File.cString rest := by
          refine List.takeWhile_eq_self_iff.2 fun c hc => decide_eq_true fun heq => hrest ?_
          exact heq ▸ (List.takeWhile_sublist _).subset hc
        rw [File.cString, List.takeWhile_append_of_pos fun c hc => decide_eq_true (hall c hc).1,
          List.takeWhile_cons_of_pos (by decide),
          List.takeWhile_append_of_pos fun c hc => decide_eq_true (hall c hc).2,
          List.takeWhile_cons_of_pos (by decide)]
        rw [← File.cString, hself]
      obtain ⟨htake, hdrop⟩ := takeWhile_entry hds (File.cString rest)
      have hnumber : strtoul 10 (ds ++ nameSuffix) = (.ofNat n, nameSuffix) :=
        hds.strtoul_eq (by omega) (Numeral.stops_cons (by decide) _)
      have hbmod : Int.bmod (UInt32.ofNat n).toNat (2 ^ 32) = n := by
        rw [UInt32.toNat_ofNat_of_lt' (Nat.lt_trans hn (by decide)), Int.bmod_eq_of_le] <;> omega
      have hlength : (sysPrefix ++ (ds ++ nameSuffix)).length = ds.length + 8 := by
        simp [sysPrefix, nameSuffix]
      have hend : (sysPrefix ++ (ds ++ nameSuffix)).drop (ds.length + 8 - 5) = nameSuffix := by
        rw [← List.append_assoc]
        exact List.drop_left' (by simp [sysPrefix])
      have hfront : (sysPrefix ++ (ds ++ nameSuffix)).take 3 = sysPrefix := rfl
      have hback : (sysPrefix ++ (ds ++ nameSuffix)).drop 3 = ds ++ nameSuffix := rfl
      simp only [Stores, parseLine, hstring, htake, hdrop, hfront, hlength, hend, hback, hnumber]
      rw [if_neg (by decide), if_neg (by simp), if_neg (by decide), hbmod]

/-! ## Lookups -/

section Lookups

variable {lines : List (List UInt8)} (hlines : ∀ line ∈ lines, newline ∉ line)

include hlines

/-- With nothing stored under the number, no line gives it a string. -/
theorem finds_of_not_stores {n : Int} (hn : n < 2 ^ 31)
    (hnone : ∀ l ∈ lines, ∀ s, ¬ Stores l n s) : Finds lines n default :=
  Or.inr ⟨fun l hl s h => hnone l hl s (stores_of_isEntry h (hlines l hl) hn), rfl⟩

/-- When the line that is stored under the number first is one that gives it a string, that string
is to be found. -/
theorem finds_of_isEntry {front back : List (List UInt8)} {line string : List UInt8} {n : Int}
    (hn : n < 2 ^ 31) (hsplit : lines = front ++ line :: back) (h : IsEntry line n string)
    (hfront : ∀ l ∈ front, ∀ s, ¬ Stores l n s) : Finds lines n string := by
  refine Or.inl ⟨front, line, back, hsplit, h, fun l hl s hs => hfront l hl s ?_⟩
  exact stores_of_isEntry hs (hlines l (by simp [hsplit, hl])) hn

end Lookups

theorem bounds_of_stores {line string : List UInt8} {n : Int} (h : Stores line n string) :
    -2 ^ 31 ≤ n ∧ n < 2 ^ 31 := by
  have hbmod : ∀ k : Nat, -2 ^ 31 ≤ Int.bmod k (2 ^ 32) ∧ Int.bmod k (2 ^ 32) < 2 ^ 31 := by
    intro k
    have hle := @Int.le_bmod k (2 ^ 32) (by decide)
    have hlt := @Int.bmod_lt k (2 ^ 32) (by decide)
    omega
  unfold Stores parseLine at h
  dsimp only at h
  split at h
  · cases h
  · split at h
    · cases h
    split at h
    · cases h
    split at h
    · cases h
    · obtain ⟨rfl, -⟩ := Prod.mk.inj (Option.some.inj h)
      exact hbmod _

theorem newline_notMem_of_mem_splitOn (bytes : List UInt8) :
    ∀ line ∈ bytes.splitOn newline, newline ∉ line := by
  induction bytes with
  | nil => simp
  | cons c cs ih =>
      rw [List.splitOn_cons_eq_if_modifyHead]
      by_cases hc : c = newline
      · simpa [hc] using ih
      · obtain ⟨line, lines, heq⟩ := List.exists_cons_of_ne_nil (List.splitOn_ne_nil newline cs)
        rw [heq] at ih ⊢
        simpa [hc, Ne.symm hc] using ih

/-- Every lookup in a text of short lines finds what it is to find, if and only if each line that is
stored under a number without giving it a string comes after another line stored under that number,
or has the very string that the lookup is to find. -/
theorem lookup_finds_iff {bytes : List UInt8}
    (hshort : ∀ line ∈ bytes.splitOn newline, line.length < 1022) :
    (∀ n : Int, -2 ^ 31 ≤ n → n < 2 ^ 31 →
        Finds (bytes.splitOn newline) n ((start.load bytes).lookup n)) ↔
      ∀ front line back n string, bytes.splitOn newline = front ++ line :: back →
        Stores line n string → ¬ IsEntry line n string →
          (∃ l ∈ front, ∃ s, Stores l n s) ∨ Finds (bytes.splitOn newline) n string := by
  have hlines := newline_notMem_of_mem_splitOn bytes
  rw [load_eq start hshort]
  constructor
  · intro hall front line back n string hsplit hstores _
    by_cases hfront : ∃ l ∈ front, ∃ s, Stores l n s
    · exact Or.inl hfront
    · -- the line is the one that the lookup finds
      have hfirst := lookup_of_stores hsplit hstores fun l hl s hs => hfront ⟨l, hl, s, hs⟩
      obtain ⟨hle, hlt⟩ := bounds_of_stores hstores
      exact Or.inr (hfirst ▸ hall n hle hlt)
  · intro hstray n _ hlt
    rcases lookup_cases (bytes.splitOn newline) n with
      ⟨front, line, back, hsplit, hstores, hfront⟩ | ⟨hnone, hdefault⟩
    · by_cases hentry : IsEntry line n (((bytes.splitOn newline).foldl store start).lookup n)
      · exact finds_of_isEntry hlines hlt hsplit hentry hfront
      · rcases hstray front line back n _ hsplit hstores hentry with ⟨l, hl, s, hs⟩ | hfinds
        · exact absurd hs (hfront l hl s)
        · exact hfinds
    · rw [hdefault]
      exact finds_of_not_stores hlines hlt hnone

/-- `Sys05_name,b` -/
def entryLine : List UInt8 := sysPrefix ++ ([0x30, 0x35] ++ nameSuffix) ++ comma :: [0x62]

theorem padded_five : Padded 5 [0x30, 0x35] := padded_digit (by decide) 1

theorem parseLine_entryLine : parseLine entryLine = some (5, [0x62]) := by decide +kernel

/-- `Name,c` -/
def titleLine : List UInt8 := [0x4e, 0x61, 0x6d, 0x65] ++ comma :: [0x63]

/-- `Sys7_name,` -/
def sevenLine : List UInt8 := sysPrefix ++ ([0x37] ++ nameSuffix) ++ comma :: []

def threeLines : List UInt8 := titleLine ++ newline :: (entryLine ++ newline :: sevenLine)

theorem splitOn_threeLines :
    threeLines.splitOn newline = [titleLine, entryLine, sevenLine] := by
  rw [threeLines, List.splitOn_append_cons_self_of_not_mem (by decide),
    List.splitOn_append_cons_self_of_not_mem (by decide), List.splitOn_eq_singleton (by decide)]

/-- A title, two entries, and a number that has none. -/
theorem lookup_finds_threeLines :
    Finds [titleLine, entryLine, sevenLine] 5 ((start.load threeLines).lookup 5) ∧
      Finds [titleLine, entryLine, sevenLine] 7 ((start.load threeLines).lookup 7) ∧
        Finds [titleLine, entryLine, sevenLine] 9 ((start.load threeLines).lookup 9) := by
  have hlines := splitOn_threeLines
  have hshort : ∀ line ∈ threeLines.splitOn newline, line.length < 1022 := by
    rw [hlines]
    decide
  have htitle : parseLine titleLine = none := by decide +kernel
  have hseven : parseLine sevenLine = some (7, []) := by decide +kernel
  have hfinds := (lookup_finds_iff hshort).2 fun front line back n string hsplit hstores hnot => by
    have hmem : line ∈ threeLines.splitOn newline := by simp [hsplit]
    rw [hlines] at hmem
    simp only [List.mem_cons, List.not_mem_nil, or_false] at hmem
    rcases hmem with rfl | rfl | rfl
    · cases hstores.symm.trans htitle
    · cases hstores.symm.trans parseLine_entryLine
      exact absurd (.mk padded_five) hnot
    · cases hstores.symm.trans hseven
      exact absurd (.mk (padded_digit (by decide) 0)) hnot
  rw [hlines] at hfinds
  exact ⟨hfinds 5 (by decide) (by decide), hfinds 7 (by decide) (by decide),
    hfinds 9 (by decide) (by decide)⟩

/-- `Sys5_x_name,a` -/
def strayLine : List UInt8 :=
  sysPrefix ++ ([0x35, 0x5f, 0x78] ++ nameSuffix) ++ comma :: [0x61]

theorem not_isEntry_strayLine (n : Int) (string : List UInt8) : ¬ IsEntry strayLine n string := by
  intro h
  generalize hline : strayLine = line at h
  cases h with
  | @mk n ds rest hds =>
      -- what is between the prefix and the suffix would have to be digits
      have hidentifier := (takeWhile_entry hds rest).1
      rw [← hline, show strayLine.takeWhile (· ≠ comma) =
        sysPrefix ++ ([0x35, 0x5f, 0x78] ++ nameSuffix) by decide] at hidentifier
      obtain rfl := List.append_cancel_right (List.append_cancel_left hidentifier)
      exact (chars_of_padded hds underscore (by decide)).2.2.2 (by decide)

/-- A line that is no entry comes first, and its string is looked up. -/
theorem strayLine_found : ¬ ∀ bytes : List UInt8,
    (∀ line ∈ bytes.splitOn newline, line.length < 1022) → ∀ n : Int, 0 ≤ n → n < 2 ^ 31 →
      Finds (bytes.splitOn newline) n ((start.load bytes).lookup n) := by
  intro hall
  have hlines : (strayLine ++ newline :: entryLine).splitOn newline = [strayLine, entryLine] := by
    rw [List.splitOn_append_cons_self_of_not_mem (by decide),
      List.splitOn_eq_singleton (by decide)]
  have hlookup : (start.load (strayLine ++ newline :: entryLine)).lookup 5 = [0x61] := by
    decide +kernel
  have hfinds := hall (strayLine ++ newline :: entryLine) (by rw [hlines]; decide) 5 (by decide)
    (by decide)
  rw [hlines, hlookup] at hfinds
  rcases hfinds with ⟨front, line, back, hsplit, hentry, -⟩ | ⟨-, hdefault⟩
  · have hmem : line ∈ [strayLine, entryLine] := by simp [hsplit]
    simp only [List.mem_cons, List.not_mem_nil, or_false] at hmem
    rcases hmem with rfl | rfl
    · exact not_isEntry_strayLine _ _ hentry
    · have hstores := stores_of_isEntry hentry (by decide) (by decide)
      cases hstores.symm.trans parseLine_entryLine
  · cases hdefault

end CSVSysParser

end OpenRom.RomDump
