import OpenRom.Pack.Progress
import OpenRom.Pack.Decode

/-!
# What the machine reads

The machine reads a stream piece by piece: runs of literals and matches, whose counts it takes
modulo `2 ^ 32`, end markers, and a byte that is no command. `EndsFrom ctx passed rest dst o` says
that the machine, about to decode `rest` in the context `ctx` with `dst` written, halts with `o`.
`endsFrom_piece` moves it over one piece, and `piece_cases` says that anything else is a fault.
-/

set_option autoImplicit false

namespace OpenRom.Pack

open SlidingWindow Loop

/-! ## Pieces -/

/-- A command as the machine reads it. It differs from a `Command` where a count field is so long
that its value does not fit an `uint32_t`. -/
inductive Piece
  | literals (count : Count 15) (bytes : List UInt8) (h : bytes.length = u32 (3 + count.value))
  | copy (m : Match) (trailing : List UInt8) (h : trailing.length ≤ 3)

namespace Piece

def encode : Piece → List UInt8
  | literals count bytes _ => UInt8.ofNat count.bits :: count.tail ++ bytes
  | copy m trailing _ => m.encode trailing.length ++ trailing

theorem length_encode_pos (q : Piece) : 1 ≤ q.encode.length := by
  refine List.length_pos_iff.2 ?_
  cases q with
  | literals count bytes h => exact List.cons_ne_nil _ _
  | copy m trailing h => cases m <;> exact List.cons_ne_nil _ _

/-- The output after a piece, given the output before it. -/
def meaning : Piece → List UInt8 → Option (List UInt8)
  | literals _ bytes _, out => some (out ++ bytes)
  | copy m trailing _, out => (copyBack m.distance (u32 m.length) out).map (· ++ trailing)

def AllowedIn : Piece → Context → Prop
  | literals _ _ _, ctx => ctx = .standard
  | copy m _ _, ctx => m.AllowedIn ctx

/-- The context in which the piece after this one stands. -/
def after : Piece → Context
  | literals _ _ _ => .alternative
  | copy _ trailing _ => trailingContext trailing

end Piece

/-! ## One turn -/

/-- The run halts with `o` after this turn. -/
def EndsAfter : Option Turn → Outcome → Prop
  | none, o => o = .fault
  | some (.again m), o => Ends Machine.turn m o
  | some (.leave o'), o => o = o'

/-- How a run ends, from what the code of the label does. -/
theorem ends_iff_exec (m : Machine) (o : Outcome) :
    Ends Machine.turn m o ↔ EndsAfter m.exec o := by
  cases h : m.exec with
  | none => exact ends_iff_of_leave (by rw [Machine.turn, h]; rfl)
  | some t =>
      cases t with
      | again m' => exact ends_iff_of_again (by rw [Machine.turn, h]; rfl)
      | leave o' => exact ends_iff_of_leave (by rw [Machine.turn, h]; rfl)

/-- The machine, about to decode `rest`, halts with `o`. In the strict context the next byte has
been fetched by the code that copied the literals. -/
def EndsFrom (ctx : Context) (passed rest dst : List UInt8) (o : Outcome) : Prop :=
  match ctx, rest with
  | .standard, rest => Ends Machine.turn ⟨.try00to0FStandard, ⟨passed, rest⟩, dst⟩ o
  | .alternative, rest => Ends Machine.turn ⟨.try00to0FAlternative, ⟨passed, rest⟩, dst⟩ o
  | .strict, [] => o = .fault
  | .strict, b :: rest => Ends Machine.turn ⟨.tryStandard b.toNat, ⟨b :: passed, rest⟩, dst⟩ o

/-- A byte from `0x10` on means the same everywhere. -/
theorem endsFrom_high (ctx : Context) {b : UInt8} (hb : 0x10 ≤ b.toNat)
    (passed rest dst : List UInt8) (o : Outcome) :
    EndsFrom ctx passed (b :: rest) dst o ↔
      Ends Machine.turn ⟨.tryStandard b.toNat, ⟨b :: passed, rest⟩, dst⟩ o := by
  cases ctx with
  | standard =>
      rw [EndsFrom, ends_iff_exec]
      simp [Machine.exec, try00to0FStandard, hb, EndsAfter]
  | alternative =>
      rw [EndsFrom, ends_iff_exec]
      simp [Machine.exec, try00to0FAlternative, hb, EndsAfter]
  | strict => rfl

/-- `handle_offset_count` copies the literals that the byte two back counts. -/
theorem ends_handleOffsetCount {x y : UInt8} {passed lits : List UInt8}
    (hy : y.toNat % 4 = lits.length) (rest dst : List UInt8) (o : Outcome) :
    Ends Machine.turn ⟨.handleOffsetCount, ⟨x :: y :: passed, lits ++ rest⟩, dst⟩ o ↔
      EndsFrom (trailingContext lits) (lits.reverse ++ x :: y :: passed) rest (dst ++ lits) o := by
  rw [ends_iff_exec]
  cases lits with
  | nil =>
      -- no literals: the next command is fetched by `try00to0FStandard`
      have h0 : y.toNat &&& 3 = 0 := by rw [and_three, hy]; rfl
      simp [Machine.exec, handleOffsetCount, h0, trailingContext, EndsFrom, EndsAfter]
  | cons l lits =>
      -- the literals are copied, and the byte after them is fetched here
      have hn : y.toNat &&& 3 = (l :: lits).length := by rw [and_three, hy]
      have hne : ¬ ((l :: lits).length = 0) := by simp
      simp only [Machine.exec, handleOffsetCount, List.getElem?_cons_succ, List.getElem?_cons_zero,
        Option.bind_eq_bind, Option.bind_some, hn, if_neg hne, copyIn_append]
      cases rest with
      | nil => simp [trailingContext, EndsFrom, EndsAfter]
      | cons b rest => simp [trailingContext, EndsFrom, EndsAfter]

/-- Without enough source left for the literals the copy of them faults. -/
theorem ends_handleOffsetCount_short {x y : UInt8} {passed rest : List UInt8}
    (hy : rest.length < y.toNat % 4) (dst : List UInt8) (o : Outcome) :
    Ends Machine.turn ⟨.handleOffsetCount, ⟨x :: y :: passed, rest⟩, dst⟩ o ↔ o = .fault := by
  rw [ends_iff_exec]
  have hne : ¬ (y.toNat % 4 = 0) := by omega
  simp [Machine.exec, handleOffsetCount, and_three, hne, copyIn_eq_none hy, EndsAfter]

/-! ## One piece -/

/-- Over a match, up to its literals. -/
theorem endsFrom_match {ctx : Context} {m : Match} (hm : m.AllowedIn ctx) {xx : Nat} (hx : xx ≤ 3)
    (passed rest dst : List UInt8) (o : Outcome) :
    EndsFrom ctx passed (m.encode xx ++ rest) dst o ↔
      EndsAfter (afterMatch m ((m.encode xx).reverse ++ passed) rest dst) o := by
  by_cases hr : ∃ aa b, m = .recent aa b
  · -- a three-byte match, which only the alternative context allows
    obtain ⟨aa, b, rfl⟩ := hr
    obtain rfl : ctx = .alternative := hm
    rw [EndsFrom, ends_iff_exec, ← try00to0FAlternative_recent aa b hx]
    rfl
  · obtain ⟨b, bs, hb, hge, hexec⟩ :=
      tryStandard_encode m (fun aa b hab => hr ⟨aa, b, hab⟩) hx passed rest dst
    rw [hb] at hexec ⊢
    rw [List.cons_append, endsFrom_high ctx hge, ends_iff_exec, ← hexec]
    rfl

/-- The literals after a match. -/
theorem endsAfter_afterMatch (m : Match) {lits : List UInt8} (h : lits.length ≤ 3)
    (passed rest dst : List UInt8) (o : Outcome) :
    EndsAfter (afterMatch m ((m.encode lits.length).reverse ++ passed) (lits ++ rest) dst) o ↔
      match (Piece.copy m lits h).meaning dst with
      | none => o = .fault
      | some dst' => EndsFrom (trailingContext lits)
          ((Piece.copy m lits h).encode.reverse ++ passed) rest dst' o := by
  unfold afterMatch
  cases hc : copyBack m.distance (u32 m.length) dst with
  | none => simp [Piece.meaning, hc, EndsAfter]
  | some dst' =>
      obtain ⟨x, y, tail, hrev, hy⟩ := m.encode_low h
      -- the byte two before the read position is the one that counts the literals
      have hpassed : (Piece.copy m lits h).encode.reverse ++ passed =
          lits.reverse ++ x :: y :: (tail ++ passed) := by
        rw [Piece.encode, List.reverse_append, hrev]
        simp
      simp only [Piece.meaning, hc, Option.map_some, EndsAfter, hpassed]
      rw [hrev]
      exact ends_handleOffsetCount hy rest dst' o

section Literals

variable {count : Count 15} (passed : List UInt8)

/-- The code of a run of literals, up to the copy. -/
theorem try00to0FStandard_literals (rest dst : List UInt8) :
    try00to0FStandard ⟨passed, UInt8.ofNat count.bits :: (count.tail ++ rest)⟩ dst =
      (copyIn (u32 (3 + count.value))
          ⟨count.tail.reverse ++ UInt8.ofNat count.bits :: passed, rest⟩ dst).bind fun (c, dst) =>
        some (.again ⟨.try00to0FAlternative, c, dst⟩) := by
  have hbits := count.bits_le
  have hcode : (UInt8.ofNat count.bits).toNat = count.bits := toNat_ofNat_of_lt (by omega)
  have hlow : ¬ (count.bits ≥ 0x10) := by omega
  have hand : count.bits &&& 15 = count.bits := by rw [and_fifteen]; omega
  simp only [try00to0FStandard, Cursor.next_cons, Option.bind_eq_bind, Option.bind_some, hcode,
    if_neg hlow, handleCount_encode count (by omega) hand, u32_add]
  rfl

theorem endsFrom_literals {bytes : List UInt8} (h : bytes.length = u32 (3 + count.value))
    (rest dst : List UInt8) (o : Outcome) :
    EndsFrom .standard passed ((Piece.literals count bytes h).encode ++ rest) dst o ↔
      EndsFrom .alternative ((Piece.literals count bytes h).encode.reverse ++ passed) rest
        (dst ++ bytes) o := by
  have hencode : (Piece.literals count bytes h).encode ++ rest =
      UInt8.ofNat count.bits :: (count.tail ++ (bytes ++ rest)) := by simp [Piece.encode]
  rw [EndsFrom, ends_iff_exec, Machine.exec_standard, hencode, try00to0FStandard_literals,
    ← h, copyIn_append]
  simp [EndsAfter, EndsFrom, Piece.encode]

/-- Without enough bytes left the copy of the literals faults. -/
theorem fault_of_short_literals {rest dst : List UInt8}
    (hrest : rest.length < u32 (3 + count.value)) {o : Outcome}
    (h : EndsFrom .standard passed (UInt8.ofNat count.bits :: (count.tail ++ rest)) dst o) :
    o = .fault := by
  rw [EndsFrom, ends_iff_exec, Machine.exec_standard, try00to0FStandard_literals,
    copyIn_eq_none hrest] at h
  exact h

end Literals

/-- Over one piece the machine does what the piece means. -/
theorem endsFrom_piece {ctx : Context} {q : Piece} (hq : q.AllowedIn ctx)
    (passed rest dst : List UInt8) (o : Outcome) :
    EndsFrom ctx passed (q.encode ++ rest) dst o ↔
      match q.meaning dst with
      | none => o = .fault
      | some dst' => EndsFrom q.after (q.encode.reverse ++ passed) rest dst' o := by
  cases q with
  | literals count bytes h =>
      obtain rfl : ctx = .standard := hq
      exact endsFrom_literals passed h rest dst o
  | copy m lits h =>
      rw [Piece.encode, List.append_assoc, endsFrom_match hq h, endsAfter_afterMatch m h]
      rfl

/-- At an end marker the call returns, with `true` when nothing follows. -/
theorem endsFrom_endMarker (ctx : Context) (e : EndMarker) (passed rest dst : List UInt8)
    (o : Outcome) :
    EndsFrom ctx passed (e.encode ++ rest) dst o ↔
      o = .returned ⟨rest.isEmpty, dst, int32 dst.length⟩ := by
  obtain ⟨count, low⟩ := e
  have hbits := count.bits_le
  have hcode : (UInt8.ofNat (0x10 + count.bits)).toNat = 0x10 + count.bits :=
    toNat_ofNat_of_lt (by omega)
  have hlt40 : ¬ (0x10 + count.bits ≥ 0x40) := by omega
  have hlt20 : ¬ (0x10 + count.bits ≥ 0x20) := by omega
  have hge10 : ¬ (0x10 + count.bits < 0x10) := by omega
  have hand : (0x10 + count.bits) &&& 7 = count.bits := by rw [and_seven]; omega
  have hfar : ((0x10 + count.bits) &&& 8) <<< 0xb = 0 := by
    rw [far_bit _ (by omega)]
    omega
  have hlow : [UInt8.ofNat low.val, 0] = le16 low.val := by
    rw [le16, show low.val / 256 = 0 by omega]
    rfl
  have hoff : low.val >>> 2 = 0 := by
    rw [Nat.shiftRight_eq_div_pow]
    omega
  -- nothing is taken off the write position, which is how the code knows the marker
  have hbuf : (dst.length : Int) - (0 : Nat) - (0 : Nat) = dst.length := by omega
  rw [EndMarker.encode, List.cons_append, List.cons_append,
    endsFrom_high ctx (by rw [hcode]; omega), ends_iff_exec]
  simp only [Machine.exec, tryStandard, hcode, if_neg hlt40, if_neg hlt20, if_neg hge10,
    List.append_assoc, handleCount_encode count (by omega) hand, hlow,
    Cursor.next16_le16 (show low.val < 2 ^ 16 by omega), Option.bind_eq_bind, Option.bind_some,
    hfar, hoff, if_pos hbuf]
  rfl

/-- After literals a byte below `0x10` makes the call return `false`. -/
theorem endsFrom_low {b : UInt8} (hb : b.toNat < 0x10) (passed rest dst : List UInt8)
    (o : Outcome) :
    EndsFrom .strict passed (b :: rest) dst o ↔ o = .returned ⟨false, dst, 0⟩ := by
  rw [EndsFrom, ends_iff_exec, Machine.exec_tryStandard, tryStandard, if_neg (by omega),
    if_neg (by omega), if_pos hb]
  rfl

/-! ## Anything else -/

/-- A match without enough bytes left for its literals makes the call fault. -/
theorem fault_of_short {ctx : Context} {m : Match} (hm : m.AllowedIn ctx) {xx : Nat} (hx : xx ≤ 3)
    {rest : List UInt8} (hrest : rest.length < xx) {passed dst : List UInt8} {o : Outcome}
    (h : EndsFrom ctx passed (m.encode xx ++ rest) dst o) : o = .fault := by
  rw [endsFrom_match hm hx, afterMatch] at h
  cases hc : copyBack m.distance (u32 m.length) dst with
  | none => rwa [hc] at h
  | some dst' =>
      obtain ⟨x, y, tail, hrev, hy⟩ := m.encode_low hx
      rw [hc, hrev] at h
      exact (ends_handleOffsetCount_short (by omega) dst' o).1 h

/-- A match and what follows it is a piece, or makes the call fault. -/
theorem piece_or_fault {ctx : Context} {m : Match} (hm : m.AllowedIn ctx) {xx : Nat}
    (hx : xx ≤ 3) (passed rest dst : List UInt8) :
    (∃ q : Piece, ∃ rest', q.AllowedIn ctx ∧ m.encode xx ++ rest = q.encode ++ rest') ∨
      ∀ o, EndsFrom ctx passed (m.encode xx ++ rest) dst o → o = .fault := by
  by_cases hrest : rest.length < xx
  · exact Or.inr fun o => fault_of_short hm hx hrest
  · have htake : (rest.take xx).length = xx := by
      rw [List.length_take]
      omega
    refine Or.inl ⟨.copy m (rest.take xx) (by omega), rest.drop xx, hm, ?_⟩
    rw [Piece.encode, htake, List.append_assoc, List.take_append_drop]

/-- After a byte from `0x10` on. -/
theorem high_cases (ctx : Context) {b : UInt8} (hb : 0x10 ≤ b.toNat) (bs passed dst : List UInt8) :
    (∃ q : Piece, ∃ rest', q.AllowedIn ctx ∧ b :: bs = q.encode ++ rest') ∨
      (∃ e : EndMarker, ∃ rest', b :: bs = e.encode ++ rest') ∨
        ∀ o, EndsFrom ctx passed (b :: bs) dst o → o = .fault := by
  rcases match_cases hb bs (b :: passed) dst with ⟨m, xx, rest, hm, hx, heq⟩ | hend | hnone
  · -- only a three-byte match depends on the context
    have hallowed : m.AllowedIn ctx := by
      cases m with
      | recent aa b => exact absurd rfl (hm aa b)
      | near | middle | far => trivial
    rw [heq]
    exact (piece_or_fault hallowed hx passed rest dst).imp_right Or.inr
  · exact Or.inr (Or.inl hend)
  · refine Or.inr (Or.inr fun o h => ?_)
    rwa [endsFrom_high ctx hb, ends_iff_exec, Machine.exec_tryStandard, hnone] at h

/-- After a byte below `0x10`, where it starts a run of literals. -/
theorem literals_cases {b : UInt8} (hb : b.toNat < 0x10) (bs passed dst : List UInt8) :
    (∃ q : Piece, ∃ rest', q.AllowedIn .standard ∧ b :: bs = q.encode ++ rest') ∨
      ∀ o, EndsFrom .standard passed (b :: bs) dst o → o = .fault := by
  rcases handleCount_cases 15 b.toNat (b :: passed) bs with
    ⟨count, rest, hbits, rfl⟩ | hnone
  · rw [and_fifteen] at hbits
    -- below `0x10` the byte is nothing but the bits of the count
    obtain rfl : UInt8.ofNat count.bits = b := by
      rw [← UInt8.toNat_inj, UInt8.toNat_ofNat']
      omega
    by_cases hrest : rest.length < u32 (3 + count.value)
    · exact Or.inr fun o => fault_of_short_literals passed hrest
    · have htake : (rest.take (u32 (3 + count.value))).length = u32 (3 + count.value) := by
        rw [List.length_take]
        omega
      exact Or.inl ⟨.literals count (rest.take (u32 (3 + count.value))) htake,
        rest.drop (u32 (3 + count.value)), rfl, by simp [Piece.encode]⟩
  · refine Or.inr fun o h => ?_
    rw [EndsFrom, ends_iff_exec, Machine.exec_standard, try00to0FStandard] at h
    simp only [Cursor.next_cons, Option.bind_eq_bind, Option.bind_some,
      if_neg (show ¬ (b.toNat ≥ 0x10) by omega), hnone, Option.bind_none] at h
    exact h

/-- After a byte below `0x10`, where it starts a three-byte match. -/
theorem recent_cases {b : UInt8} (hb : b.toNat < 0x10) (bs passed dst : List UInt8) :
    (∃ q : Piece, ∃ rest', q.AllowedIn .alternative ∧ b :: bs = q.encode ++ rest') ∨
      ∀ o, EndsFrom .alternative passed (b :: bs) dst o → o = .fault := by
  cases bs with
  | nil =>
      refine Or.inr fun o h => ?_
      rw [EndsFrom, ends_iff_exec, Machine.exec_alternative, try00to0FAlternative] at h
      simpa [show ¬ (b.toNat ≥ 0x10) by omega, EndsAfter] using h
  | cons d rest =>
      have hm : (Match.recent ⟨b.toNat / 4, by omega⟩ d).AllowedIn .alternative := rfl
      have heq : b :: d :: rest =
          (Match.recent ⟨b.toNat / 4, by omega⟩ d).encode (b.toNat % 4) ++ rest := by
        have hbyte : UInt8.ofNat (4 * (b.toNat / 4) + b.toNat % 4) = b := by
          rw [Nat.div_add_mod, UInt8.ofNat_toNat]
        simp [Match.encode, hbyte]
      rw [heq]
      exact piece_or_fault hm (by omega) passed rest dst

/-- The next bytes are an allowed piece, an end marker or a byte that is no command, or make the
call fault. -/
theorem piece_cases (ctx : Context) (rest passed dst : List UInt8) :
    (∃ q : Piece, ∃ rest', q.AllowedIn ctx ∧ rest = q.encode ++ rest') ∨
      (∃ e : EndMarker, ∃ rest', rest = e.encode ++ rest') ∨
        (ctx = .strict ∧ ∃ b rest', b.toNat < 0x10 ∧ rest = b :: rest') ∨
          ∀ o, EndsFrom ctx passed rest dst o → o = .fault := by
  cases rest with
  | nil =>
      refine Or.inr (Or.inr (Or.inr fun o h => ?_))
      cases ctx with
      | standard => exact (ends_iff_exec _ _).1 h
      | alternative => exact (ends_iff_exec _ _).1 h
      | strict => exact h
  | cons b bs =>
      by_cases hb : 0x10 ≤ b.toNat
      · exact (high_cases ctx hb bs passed dst).imp_right (Or.imp_right Or.inr)
      cases ctx with
      | standard =>
          exact (literals_cases (by omega) bs passed dst).imp_right (Or.inr ∘ Or.inr)
      | alternative =>
          exact (recent_cases (by omega) bs passed dst).imp_right (Or.inr ∘ Or.inr)
      | strict => exact Or.inr (Or.inr (Or.inl ⟨rfl, b, bs, by omega, rfl⟩))

/-! ## The first byte -/

theorem enter_of_le {b : UInt8} (hb : b.toNat ≤ 0x11) (bs : List UInt8) :
    enter (b :: bs) = some ⟨.try00to0FStandard, ⟨[], b :: bs⟩, []⟩ := by
  simp [enter, Nat.not_lt.2 hb]

/-- The opening literals are copied, and the label chosen by their number. -/
theorem ends_enter_opening (o : Opening) (rest : List UInt8) (out : Outcome) :
    (∃ m, enter (o.encode ++ rest) = some m ∧ Ends Machine.turn m out) ↔
      EndsFrom o.after (o.bytes.reverse ++ [UInt8.ofNat (0x11 + o.bytes.length)]) rest o.bytes
        out := by
  obtain ⟨bytes, hbounds⟩ := o
  have hcode : (UInt8.ofNat (0x11 + bytes.length)).toNat = 0x11 + bytes.length :=
    toNat_ofNat_of_lt (by omega)
  have hcopy := copyIn_append [UInt8.ofNat (0x11 + bytes.length)] bytes rest []
  by_cases h4 : bytes.length < 4
  · simp only [enter, Opening.encode, Opening.after, List.cons_append, List.head?_cons,
      List.tail_cons, Option.bind_eq_bind, Option.bind_some, hcode, Nat.add_sub_cancel_left,
      if_pos (show 0x11 + bytes.length > 0x11 by omega), hcopy, if_pos h4, EndsFrom]
    simp
  · simp only [enter, Opening.encode, Opening.after, List.cons_append, List.head?_cons,
      List.tail_cons, Option.bind_eq_bind, Option.bind_some, hcode, Nat.add_sub_cancel_left,
      if_pos (show 0x11 + bytes.length > 0x11 by omega), hcopy, if_neg h4, EndsFrom]
    simp

/-- A source is empty, starts with a byte that is no opening, or with an opening, or ends inside
one. -/
theorem opening_cases (src : List UInt8) :
    (∃ b rest, b.toNat ≤ 0x11 ∧ src = b :: rest) ∨ (∃ o : Opening, ∃ rest, src = o.encode ++ rest) ∨
      enter src = none := by
  cases src with
  | nil => exact Or.inr (Or.inr rfl)
  | cons b bs =>
      have hlt := b.toNat_lt
      by_cases hb : b.toNat ≤ 0x11
      · exact Or.inl ⟨b, bs, hb, rfl⟩
      · by_cases hshort : bs.length < b.toNat - 0x11
        · exact Or.inr (Or.inr (by simp [enter, Nat.not_le.1 hb, copyIn_eq_none hshort]))
        · have htake : (bs.take (b.toNat - 0x11)).length = b.toNat - 0x11 := by
            rw [List.length_take]
            omega
          have hbyte : UInt8.ofNat (0x11 + (b.toNat - 0x11)) = b := by
            rw [← UInt8.toNat_inj, UInt8.toNat_ofNat']
            omega
          refine Or.inr (Or.inl
            ⟨⟨bs.take (b.toNat - 0x11), by omega⟩, bs.drop (b.toNat - 0x11), ?_⟩)
          simp only [Opening.encode, htake, hbyte, List.cons_append, List.take_append_drop]

end OpenRom.Pack
