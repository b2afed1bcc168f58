import OpenRom.Pack.Pieces

/-!
# The unpacker accepts the format and computes its meaning

In a stream below `2 ^ 24` bytes no count field has a value that does not fit, so the pieces that
the machine reads are the commands of the format (`exists_piece`, `exists_command`). By induction
over the commands both directions of `unpack_true_iff` follow.
-/

set_option autoImplicit false

namespace OpenRom.Pack

open SlidingWindow Loop

/-! ## Commands as pieces -/

theorem Count.u32_value {mask : Nat} (cnt : Count mask) (hm : mask ≤ 31)
    (h : cnt.tail.length < 2 ^ 24) {k : Nat} (hk : k ≤ 3) :
    u32 (k + cnt.value) = k + cnt.value := by
  have hlt := cnt.value_lt hm h
  exact u32_eq (by omega)

theorem Match.u32_length {m : Match} {xx : Nat} (h : (m.encode xx).length < 2 ^ 24) :
    u32 m.length = m.length := by
  cases m with
  | recent aa b => rfl
  | near ccc hc bbb d => exact u32_eq (by rw [Match.length]; omega)
  | middle count off =>
      simp only [Match.encode, List.length_cons, List.length_append] at h
      exact count.u32_value (by omega) (by omega) (by omega)
  | far b count off hne =>
      simp only [Match.encode, List.length_cons, List.length_append] at h
      exact count.u32_value (by omega) (by omega) (by omega)

/-- The piece that a command is read as. -/
theorem exists_piece {c : Command} (hlen : c.encode.length < 2 ^ 24) :
    ∃ q : Piece, q.encode = c.encode ∧ q.after = c.after ∧ (∀ dst, q.meaning dst = c.meaning dst) ∧
      ∀ ctx, q.AllowedIn ctx ↔ c.AllowedIn ctx := by
  cases c with
  | literals count bytes h =>
      simp only [Command.encode, List.length_cons, List.length_append] at hlen
      have hvalue := count.u32_value (k := 3) (by omega) (by omega) (by omega)
      exact ⟨.literals count bytes (h.trans hvalue.symm), rfl, rfl, fun _ => rfl, fun _ => Iff.rfl⟩
  | copy m trailing h =>
      rw [Command.encode, List.length_append] at hlen
      refine ⟨.copy m trailing h, rfl, rfl, fun dst => ?_, fun _ => Iff.rfl⟩
      have hm : (m.encode trailing.length).length < 2 ^ 24 := by omega
      rw [Piece.meaning, Command.meaning, Match.u32_length hm]

/-- The command that a piece is. -/
theorem exists_command {q : Piece} (hlen : q.encode.length < 2 ^ 24) :
    ∃ c : Command, c.encode = q.encode ∧ ∀ ctx, q.AllowedIn ctx → c.AllowedIn ctx := by
  cases q with
  | literals count bytes h =>
      simp only [Piece.encode, List.length_cons, List.length_append] at hlen
      have hvalue := count.u32_value (k := 3) (by omega) (by omega) (by omega)
      exact ⟨.literals count bytes (h.trans hvalue), rfl, fun _ => id⟩
  | copy m trailing h => exact ⟨.copy m trailing h, rfl, fun _ => id⟩

/-- Over one command the machine does what the command means. -/
theorem endsFrom_command {ctx : Context} {c : Command} (hc : c.AllowedIn ctx)
    (hlen : c.encode.length < 2 ^ 24) (passed rest dst : List UInt8) (o : Outcome) :
    EndsFrom ctx passed (c.encode ++ rest) dst o ↔
      match c.meaning dst with
      | none => o = .fault
      | some dst' => EndsFrom c.after (c.encode.reverse ++ passed) rest dst' o := by
  obtain ⟨q, hencode, hafter, hmeaning, hallowed⟩ := exists_piece hlen
  have hpiece := endsFrom_piece ((hallowed ctx).2 hc) passed rest dst o
  rw [hencode, hmeaning, hafter] at hpiece
  exact hpiece

/-- The next bytes are an allowed command, an end marker, or nothing the machine accepts. -/
theorem rest_cases (ctx : Context) {rest : List UInt8} (hlen : rest.length < 2 ^ 24)
    (passed dst : List UInt8) :
    (∃ c : Command, ∃ rest', c.AllowedIn ctx ∧ rest = c.encode ++ rest') ∨
      (∃ e : EndMarker, ∃ rest', rest = e.encode ++ rest') ∨
        ∀ r, EndsFrom ctx passed rest dst (.returned r) → r.ok = false := by
  rcases piece_cases ctx rest passed dst with
    ⟨q, rest', hq, rfl⟩ | hend | ⟨rfl, b, rest', hb, rfl⟩ | hfault
  · rw [List.length_append] at hlen
    obtain ⟨c, hencode, hallowed⟩ := exists_command (q := q) (by omega)
    exact Or.inl ⟨c, rest', hallowed ctx hq, by rw [hencode]⟩
  · exact Or.inr (Or.inl hend)
  · refine Or.inr (Or.inr fun r h => ?_)
    cases (endsFrom_low hb _ _ _ _).1 h
    rfl
  · exact Or.inr (Or.inr fun r h => absurd (hfault _ h) nofun)

/-! ## Whole streams -/

/-- A list of commands and an end marker is decoded to its meaning. -/
theorem endsFrom_of_meaningFrom {ctx : Context} {cs : List Command} {stop : EndMarker}
    {dst out : List UInt8} (hallowed : AllowedFrom ctx cs)
    (hlen : ((cs.map Command.encode).flatten ++ stop.encode).length < 2 ^ 24)
    (hout : meaningFrom cs dst = some out) (passed : List UInt8) :
    EndsFrom ctx passed ((cs.map Command.encode).flatten ++ stop.encode) dst
      (.returned ⟨true, out, int32 out.length⟩) := by
  induction cs generalizing ctx passed dst with
  | nil =>
      cases hout
      have hend := endsFrom_endMarker ctx stop passed [] out
        (.returned ⟨true, out, int32 out.length⟩)
      rw [List.append_nil] at hend
      exact hend.2 rfl
  | cons c cs ih =>
      simp only [List.map_cons, List.flatten_cons, List.append_assoc, List.length_append] at hlen
      obtain ⟨dst', hdst, hout⟩ := Option.bind_eq_some_iff.1 hout
      rw [List.map_cons, List.flatten_cons, List.append_assoc,
        endsFrom_command hallowed.1 (by omega), hdst]
      exact ih hallowed.2 (by rw [List.length_append]; omega) hout _

/-- What the machine accepts is a list of commands and an end marker, decoded to its meaning. -/
theorem exists_commands {ctx : Context} {passed rest dst : List UInt8} {r : Written}
    (hlen : rest.length < 2 ^ 24) (h : EndsFrom ctx passed rest dst (.returned r))
    (hok : r.ok = true) :
    ∃ cs stop, AllowedFrom ctx cs ∧
      (cs.map Command.encode).flatten ++ EndMarker.encode stop = rest ∧
        meaningFrom cs dst = some r.dst := by
  -- each command takes at least one byte of what is left
  induction hk : rest.length using Nat.strongRecOn generalizing ctx passed rest dst with
  | ind k ih =>
      rcases rest_cases ctx hlen passed dst with ⟨c, rest', hc, rfl⟩ | ⟨e, rest', rfl⟩ | hfalse
      · -- a command: what it means is written, and the rest follows
        have hpos := c.length_encode_pos
        rw [List.length_append] at hlen hk
        rw [endsFrom_command hc (by omega)] at h
        cases hdst : c.meaning dst with
        | none =>
            rw [hdst] at h
            cases h
        | some dst' =>
            rw [hdst] at h
            obtain ⟨cs, stop, hallowed, henc, hout⟩ := ih rest'.length (by omega) (by omega) h rfl
            refine ⟨c :: cs, stop, ⟨hc, hallowed⟩, ?_, ?_⟩
            · rw [List.map_cons, List.flatten_cons, List.append_assoc, henc]
            · rw [meaningFrom, hdst]
              exact hout
      · -- the end marker: nothing is left of the source, as the call returns `true`
        rw [endsFrom_endMarker ctx e] at h
        cases h
        obtain rfl : rest' = [] := List.isEmpty_iff.1 hok
        exact ⟨[], e, trivial, (List.append_nil _).symm, rfl⟩
      · -- anything else: the call does not return `true`
        rw [hfalse r h] at hok
        cases hok

/-- A stream of the format is unpacked to its meaning. -/
theorem unpack_complete {src out : List UInt8} (hlen : src.length < 2 ^ 24)
    (h : Describes src out) : unpack src = .returned ⟨true, out, int32 out.length⟩ := by
  obtain ⟨⟨opening, cs, stop⟩, hwf, rfl, hout⟩ := h
  rw [unpack_eq_iff]
  cases opening with
  | none =>
      have hends := endsFrom_of_meaningFrom hwf.1 hlen hout []
      obtain ⟨b, bs, hb⟩ : ∃ b bs, (cs.map Command.encode).flatten ++ stop.encode = b :: bs :=
        List.exists_cons_of_ne_nil (by simp [EndMarker.encode])
      -- the first byte is not that of an opening
      have hhead : b.toNat ≤ 0x11 := hwf.2 b (by simp [Program.body, hb])
      rw [hb] at hends
      exact ⟨_, by rw [Program.encode, Program.body, hb, enter_of_le hhead], hends⟩
  | some o =>
      simp only [Program.encode, Program.body, List.length_append] at hlen
      have hbody : ((cs.map Command.encode).flatten ++ stop.encode).length < 2 ^ 24 := by
        rw [List.length_append]
        omega
      exact (ends_enter_opening o _ _).2 (endsFrom_of_meaningFrom hwf hbody hout _)

/-- What is unpacked is a stream of the format. -/
theorem unpack_sound {src : List UInt8} {r : Written} (hlen : src.length < 2 ^ 24)
    (h : unpack src = .returned r) (hok : r.ok = true) : Describes src r.dst := by
  rw [unpack_eq_iff] at h
  rcases opening_cases src with ⟨b, rest, hb, rfl⟩ | ⟨o, rest, rfl⟩ | hnone
  · obtain ⟨m, hm, hends⟩ := h
    rw [enter_of_le hb] at hm
    cases hm
    obtain ⟨cs, stop, hallowed, henc, hout⟩ := @exists_commands .standard _ _ _ _ hlen hends hok
    refine ⟨⟨none, cs, stop⟩, ⟨hallowed, ?_⟩, henc, hout⟩
    rw [Program.body, henc]
    simpa using hb
  · rw [ends_enter_opening] at h
    rw [List.length_append] at hlen
    obtain ⟨cs, stop, hallowed, hbody, hout⟩ := exists_commands (by omega) h hok
    refine ⟨⟨some o, cs, stop⟩, hallowed, ?_, hout⟩
    rw [← hbody]
    rfl
  · obtain ⟨m, hm, -⟩ := h
    cases hnone.symm.trans hm

/-- `Unpack` returns `true` exactly on the streams of the format, and then the destination holds
their meaning and `*outlen` its length. -/
theorem unpack_true_iff (src out : List UInt8) (outlen : Int) (hlen : src.length < 2 ^ 24) :
    unpack src = .returned ⟨true, out, outlen⟩ ↔
      Describes src out ∧ outlen = int32 out.length := by
  constructor
  · intro h
    have hdesc := unpack_sound hlen h rfl
    have hret := unpack_complete hlen hdesc
    rw [h, Outcome.returned.injEq, Written.mk.injEq] at hret
    exact ⟨hdesc, hret.2.2⟩
  · rintro ⟨hdesc, hout⟩
    rw [hout]
    exact unpack_complete hlen hdesc

/-- One literal, and a copy of three bytes that overlaps what it writes. -/
theorem describes_overlapping_copy : Describes [0x12, 7, 0x40, 0, 0x11, 0, 0] [7, 7, 7, 7] := by
  have hlen : [(0x12 : UInt8), 7, 0x40, 0, 0x11, 0, 0].length < 2 ^ 24 := by simp
  have hunpack : unpack [0x12, 7, 0x40, 0, 0x11, 0, 0] = .returned ⟨true, [7, 7, 7, 7], 4⟩ := by
    decide +kernel
  exact ((unpack_true_iff _ _ _ hlen).1 hunpack).1

end OpenRom.Pack
