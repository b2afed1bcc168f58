import OpenRom.Pack.Packer
import OpenRom.Pack.Reads
import OpenRom.Protocol.Scan

/-!
# The transformation `rompack`

`ROMPacking` unpacks what follows a transformation. What `Pack` writes is unpacked to the source
(`romPacking_packed`); bytes that end in zeros are not unpacked (`romPacking_zeros`). The trailer is
taken off no other source than one that has it (`romPackingApply_trailer`). What is unpacked may be
longer than the estimate (`written_le_estimate_iff`), and when nothing is left to unpack, the
estimate is reported for it (`reports_iff`).
-/

set_option autoImplicit false

namespace OpenRom

namespace ProtocolDefinition

/-- The trailer that some packets are packed with. -/
def hasTrailer (source : List UInt8) : Bool :=
  decide (8 < source.length) && source.drop (source.length - 4) == [0x11, 0x10, 0x00, 0x00]

/-- What `Unpack` comes to in a destination of this size. There is no room for a longer output, also
when that is rejected in the end. -/
def unpackInto (oDestLen : Int) (source : List UInt8) : Applied :=
  match Pack.unpack source with
  | .fault => .fault
  | .returned ⟨ok, dst, outlen⟩ =>
      if oDestLen < dst.length then .fault
      else if ok then .placed dst outlen
      else .failed

/-- `ROMPacking::Apply`. It reads the source to its end, which has to be set. -/
def romPackingApply (source : List UInt8) (iSourceLen oDestLen : Int) : Applied :=
  if iSourceLen = 0 then .placed [] oDestLen -- nothing to do
  else if source.length < iSourceLen then .fault
  else
    let source := source.take iSourceLen.toNat
    unpackInto oDestLen (if hasTrailer source then source.take (source.length - 8) else source)

/-- `ROMPacking` -/
def romPacking : Transformation where
  name := "rompack"
  estimateBufferSize _ _ := 1024 * 1024
  apply := romPackingApply

/-- The buffer is always of the same size. -/
theorem romPacking_applied (s : DecodeState) :
    romPacking.applied s = romPackingApply s.data s.dataLeft (1024 * 1024) := by
  rw [Transformation.applied]
  exact if_neg (show ¬ (1024 * 1024 : Int) ≤ 0 by decide)

/-- The source without the trailer. -/
def withoutTrailer (source : List UInt8) : List UInt8 :=
  if hasTrailer source then source.take (source.length - 8) else source

/-- `Apply` on bytes that others follow. -/
theorem romPackingApply_eq {bs : List UInt8} (hne : bs ≠ []) (more : List UInt8) (oDestLen : Int) :
    romPackingApply (bs ++ more) bs.length oDestLen = unpackInto oDestLen (withoutTrailer bs) := by
  have hlen : (bs.length : Int) ≠ 0 := by
    have hpos := List.length_pos_iff.2 hne
    omega
  have hset : ¬ ((bs ++ more).length : Int) < bs.length := by
    rw [List.length_append]
    omega
  have htake : (bs ++ more).take (bs.length : Int).toNat = bs := List.take_left
  unfold romPackingApply
  rw [if_neg hlen, if_neg hset]
  dsimp only
  rw [htake]
  rfl

theorem hasTrailer_of_end {source front last : List UInt8} (h : source = front ++ last)
    (hlen : last.length = 4) (hne : last ≠ [0x11, 0x10, 0x00, 0x00]) :
    hasTrailer source = false := by
  have hdrop : source.drop (source.length - 4) = last := by
    refine h ▸ List.drop_left' ?_
    rw [List.length_append, hlen, Nat.add_sub_cancel]
  rw [hasTrailer, hdrop, beq_eq_false_iff_ne.2 hne, Bool.and_false]

theorem romPacking_applied_eq (offset : UInt32) {bs : List UInt8} (hne : bs ≠ [])
    (more : List UInt8) :
    romPacking.applied ⟨bs ++ more, bs.length, offset⟩ =
      unpackInto (1024 * 1024) (withoutTrailer bs) := by
  rw [romPacking_applied, romPackingApply_eq hne]

theorem romPacking_start (offset : UInt32) {bs : List UInt8} (hne : bs ≠ [])
    (htrailer : hasTrailer bs = false) :
    romPacking.applied (.start offset bs) = unpackInto (1024 * 1024) bs := by
  have hbs : withoutTrailer bs = bs := if_neg (Bool.eq_false_iff.1 htrailer)
  have happlied := romPacking_applied_eq offset hne []
  rwa [List.append_nil, hbs] at happlied

theorem unpackInto_of_accepted {src dst : List UInt8} {outlen oDestLen : Int}
    (h : Pack.unpack src = .returned ⟨true, dst, outlen⟩) (hroom : dst.length ≤ oDestLen) :
    unpackInto oDestLen src = .placed dst outlen := by
  rw [unpackInto, h]
  exact if_neg (Int.not_lt.2 hroom)

/-- What `Pack` writes is unpacked to the source. -/
theorem romPacking_packed (offset : UInt32) {src : List UInt8} {w : Pack.Written}
    (hlow : 19 ≤ src.length) (hhigh : src.length < 2 ^ 17) (h : Pack.pack src = some w) :
    romPacking.applied (.start offset w.dst) = .placed src src.length := by
  obtain ⟨w', hw, -, hdst⟩ := Pack.pack_eq_encode hlow
  obtain rfl : w = w' := Option.some.inj (h.symm.trans hw)
  have hunpack := Pack.unpack_packed hlow (by omega)
  rw [← hdst] at hunpack
  -- the end marker is behind some other byte
  have hpos : (Pack.packLiterals hlow).encode ≠ [] :=
    List.length_pos_iff.1 (Pack.Command.length_encode_pos _)
  obtain ⟨front, b, hb⟩ := (List.eq_nil_or_concat _).resolve_left hpos
  have hlast : w.dst = front ++ [b, 0x11, 0x00, 0x00] := by
    rw [hdst, Pack.packEnd_encode, hb, List.concat_append]
  have htrailer := hasTrailer_of_end hlast rfl fun heq => by cases (List.cons.inj heq).2
  have hne : w.dst ≠ [] := by
    rw [hlast]
    exact List.append_ne_nil_of_right_ne_nil _ nofun
  rw [romPacking_start offset hne htrailer, unpackInto_of_accepted hunpack (by omega),
    Pack.int32_eq (by omega)]

theorem romPacking_process (offset : UInt32) {src : List UInt8} {w : Pack.Written}
    (hlow : 19 ≤ src.length) (hhigh : src.length < 2 ^ 17) (h : Pack.pack src = some w) :
    romPacking.process (.start offset w.dst) = some ⟨src, src.length, 0⟩ := by
  rw [Transformation.process, romPacking_packed offset hlow hhigh h]

/-! ## Bytes that end in zeros -/

/-- The third byte from the end of an end marker is not zero. -/
theorem encode_endMarker (e : Pack.EndMarker) :
    ∃ front last, e.encode = front ++ last ∧ last.length = 3 ∧ last ≠ [0, 0, 0] := by
  obtain ⟨count, low⟩ := e
  cases count with
  | short a h =>
      refine ⟨[], _, rfl, rfl, fun heq => ?_⟩
      have hbyte : (UInt8.ofNat (0x10 + a)).toNat = 0x10 + a := Pack.toNat_ofNat_of_lt (by omega)
      have hzero : UInt8.ofNat (0x10 + a) = 0 := (List.cons.inj heq).1
      rw [hzero, UInt8.toNat_zero] at hbyte
      omega
  | long zeros last h =>
      refine ⟨UInt8.ofNat 0x10 :: List.replicate zeros 0, [last, UInt8.ofNat low.val, 0], ?_, rfl,
        fun heq => h (List.cons.inj heq).1⟩
      simp [Pack.EndMarker.encode, Pack.Count.tail, Pack.Count.bits]

theorem encode_program (p : Pack.Program) :
    ∃ front last, p.encode = front ++ last ∧ last.length = 3 ∧ last ≠ [0, 0, 0] := by
  obtain ⟨front, last, hstop, hlen, hne⟩ := encode_endMarker p.stop
  unfold Pack.Program.encode Pack.Program.body
  rw [hstop]
  cases p.opening with
  | none => exact ⟨_, last, (List.append_assoc _ _ _).symm, hlen, hne⟩
  | some o =>
      refine ⟨o.encode ++ ((p.commands.map Pack.Command.encode).flatten ++ front), last, ?_, hlen,
        hne⟩
      simp only [List.append_assoc]

/-- Bytes that end in zeros are not unpacked. -/
theorem romPacking_zeros (offset : UInt32) {front : List UInt8} (hlen : front.length < 2 ^ 23) :
    romPacking.process (.start offset (front ++ List.replicate 5 0)) = none := by
  have hne : front ++ List.replicate 5 0 ≠ [] := List.append_ne_nil_of_right_ne_nil _ nofun
  have hsplit : front ++ List.replicate 5 0 = (front ++ [0]) ++ List.replicate 4 0 := by
    rw [List.append_assoc]
    rfl
  have happlied := romPacking_start offset hne (hasTrailer_of_end hsplit rfl (by decide))
  unfold unpackInto at happlied
  rcases hunpack : Pack.unpack (front ++ List.replicate 5 0) with _ | ⟨_ | _, dst, outlen⟩
  · rw [hunpack] at happlied
    rw [Transformation.process, happlied]
  · rw [hunpack] at happlied
    rw [Transformation.process, happlied]
    by_cases hroom : (1024 * 1024 : Int) < dst.length
    · simp only [if_pos hroom]
    · simp only [if_neg hroom, Bool.false_eq_true, if_false]
  · have hbound : (front ++ List.replicate 5 0).length < 2 ^ 24 := by
      rw [List.length_append, List.length_replicate]
      omega
    obtain ⟨p, -, hencode, -⟩ := Pack.unpack_sound hbound hunpack rfl
    obtain ⟨front', last, hp, hlast, hzeros⟩ := encode_program p
    have hends : front' ++ last = (front ++ [0, 0]) ++ [0, 0, 0] := by
      rw [← hp, hencode, List.append_assoc]
      rfl
    exact absurd (List.append_inj_right' hends hlast) hzeros

/-! ## The size of the destination -/

/-- What is written for a source that is accepted fits the estimate if the bytes that the source
counts do. -/
theorem written_le_estimate_iff {src dst : List UInt8} {outlen : Int}
    (h : Pack.unpack src = .returned ⟨true, dst, outlen⟩) :
    (dst.length : Int) ≤ romPacking.estimateBufferSize src src.length ↔
      ∃ n ≤ 2 ^ 20, Pack.ReadsWhole src true n := by
  have hestimate : romPacking.estimateBufferSize src src.length = (2 ^ 20 : Nat) := rfl
  rw [hestimate, Int.ofNat_le]
  constructor
  · intro hle
    exact ⟨dst.length, hle, (Pack.readsWhole_of_unpack h).1⟩
  · rintro ⟨n, hle, hreads⟩
    -- the number of bytes is the one that the unpacker returns with
    obtain ⟨r, hr, -, rfl⟩ := (Pack.unpack_returned_iff src true n).2 hreads
    cases hr.symm.trans h
    exact hle

theorem overlapping_copy_le_estimate :
    ∃ n ≤ 2 ^ 20, Pack.ReadsWhole [0x12, 7, 0x40, 0, 0x11, 0, 0] true n := by
  have h : Pack.unpack [0x12, 7, 0x40, 0, 0x11, 0, 0] = .returned ⟨true, [7, 7, 7, 7], 4⟩ := by
    decide +kernel
  exact (written_le_estimate_iff h).1 (by decide)

/-- One literal, a match whose count goes on for so many zero bytes, and an end marker. -/
def longRun (zeros : Nat) : List UInt8 :=
  [0x12, 0, 0x20] ++ (List.replicate zeros 0 ++ [1, 0, 0, 0x11, 0, 0])

theorem length_longRun (zeros : Nat) : (longRun zeros).length = zeros + 9 := by
  rw [longRun, List.length_append, List.length_append, List.length_replicate]
  simp only [List.length_cons, List.length_nil]
  omega

/-- Every zero byte counts 255 bytes of output. -/
theorem reads_longRun {zeros : Nat} (h : zeros < 2 ^ 24) :
    Pack.ReadsWhole (longRun zeros) true (255 * zeros + 35) := by
  let o : Pack.Opening := ⟨[0], by decide⟩
  let q : Pack.Piece := .copy (.middle (.long zeros 1 (by decide)) 0) [] (Nat.zero_le 3)
  have hencode : longRun zeros = o.encode ++ (q.encode ++ (Pack.packEnd.encode ++ [])) := by
    simp [longRun, o, q, Pack.Opening.encode, Pack.Piece.encode, Pack.Match.encode,
      Pack.Count.tail, Pack.Count.bits, Pack.le16, Pack.packEnd_encode]
  have hsize : 1 + q.size = 255 * zeros + 35 := by
    have hone : (1 : UInt8).toNat = 1 := rfl
    show 1 + (Pack.u32 (2 + (31 + 255 * zeros + (1 : UInt8).toNat)) + 0) = 255 * zeros + 35
    rw [hone, Pack.u32_eq (by omega)]
    omega
  rw [hencode]
  refine .opening o (.piece trivial (Or.inr (Nat.le_refl 1)) ?_)
  show Pack.Reads _ _ (1 + q.size) true (255 * zeros + 35)
  rw [hsize]
  exact .stop _ Pack.packEnd [] _

/-- A source of 4209 bytes whose output does not fit. -/
theorem longRun_exceeds_estimate :
    ¬ ∀ (src dst : List UInt8) (outlen : Int), src.length ≤ 131060 →
      Pack.unpack src = .returned ⟨true, dst, outlen⟩ →
        (dst.length : Int) ≤ romPacking.estimateBufferSize src src.length := by
  intro hall
  obtain ⟨⟨ok, dst, outlen⟩, hr, rfl, hlen⟩ :=
    (Pack.unpack_returned_iff (longRun 4200) true _).2 (reads_longRun (by decide))
  have hlength := length_longRun 4200
  have hle := hall (longRun 4200) dst outlen (by omega) hr
  have hestimate : romPacking.estimateBufferSize (longRun 4200) (longRun 4200).length =
    1024 * 1024 := rfl
  rw [hestimate] at hle
  dsimp only at hlen
  omega

/-! ## The trailer -/

/-- An end marker does not end like the trailer. -/
theorem hasTrailer_endMarker (front : List UInt8) (e : Pack.EndMarker) :
    hasTrailer (front ++ e.encode) = false := by
  obtain ⟨count, low⟩ := e
  cases count with
  | short a h =>
      -- the byte in front of the last two is 0x11 or above
      have hbyte : (UInt8.ofNat (0x10 + a)).toNat = 0x10 + a := Pack.toNat_ofNat_of_lt (by omega)
      have hne : UInt8.ofNat (0x10 + a) ≠ 0x10 := by
        intro heq
        have hnat : (UInt8.ofNat (0x10 + a)).toNat = 0x10 := congrArg UInt8.toNat heq
        omega
      rcases List.eq_nil_or_concat front with rfl | ⟨front, b, rfl⟩
      · rfl
      · have hend : (front.concat b) ++ (⟨.short a h, low⟩ : Pack.EndMarker).encode =
            front ++ [b, UInt8.ofNat (0x10 + a), UInt8.ofNat low.val, 0] := by
          rw [List.concat_append]
          rfl
        exact hasTrailer_of_end hend rfl fun heq => hne (List.cons.inj (List.cons.inj heq).2).1
  | long zeros last h =>
      -- four bytes from the end is a zero, or 0x10
      cases zeros with
      | zero =>
          have hend : front ++ (⟨.long 0 last h, low⟩ : Pack.EndMarker).encode =
            front ++ [0x10, last, UInt8.ofNat low.val, 0] := rfl
          exact hasTrailer_of_end hend rfl fun heq => by cases (List.cons.inj heq).1
      | succ zeros =>
          have hend : front ++ (⟨.long (zeros + 1) last h, low⟩ : Pack.EndMarker).encode =
              (front ++ 0x10 :: List.replicate zeros 0) ++
                [0, last, UInt8.ofNat low.val, 0] := by
            simp [Pack.EndMarker.encode, Pack.Count.tail, Pack.Count.bits, List.replicate_succ']
          exact hasTrailer_of_end hend rfl fun heq => by cases (List.cons.inj heq).1

theorem hasTrailer_of_unpack {src dst : List UInt8} {outlen : Int}
    (h : Pack.unpack src = .returned ⟨true, dst, outlen⟩) : hasTrailer src = false := by
  obtain ⟨front, e, rfl⟩ := (Pack.readsWhole_of_unpack h).1.exists_endMarker
  exact hasTrailer_endMarker front e

theorem withoutTrailer_append {bs four : List UInt8} (hne : bs ≠ []) (hfour : four.length = 4) :
    withoutTrailer (bs ++ (four ++ [0x11, 0x10, 0x00, 0x00])) = bs := by
  have hpos := List.length_pos_iff.2 hne
  have hlen : (bs ++ (four ++ [0x11, 0x10, 0x00, 0x00])).length = bs.length + 8 := by
    rw [List.length_append, List.length_append, hfour]
    rfl
  have hdrop : (bs ++ (four ++ [0x11, 0x10, 0x00, 0x00])).drop (bs.length + 4) =
      [0x11, 0x10, 0x00, 0x00] := by
    rw [← List.append_assoc]
    exact List.drop_left' (by rw [List.length_append, hfour])
  have htrailer : hasTrailer (bs ++ (four ++ [0x11, 0x10, 0x00, 0x00])) = true := by
    rw [hasTrailer, hlen, Nat.add_sub_cancel (n := bs.length + 4) (m := 4), hdrop,
      decide_eq_true (by omega)]
    rfl
  rw [withoutTrailer, if_pos htrailer, hlen, Nat.add_sub_cancel, List.take_left]

/-- A source that the unpacker accepts has no trailer, and is unpacked to the same output with a
trailer behind it, in a destination with room for the output. -/
theorem romPackingApply_trailer {s dst : List UInt8} {outlen oDestLen : Int}
    (h : Pack.unpack s = .returned ⟨true, dst, outlen⟩) (hroom : dst.length ≤ oDestLen)
    {four : List UInt8} (hfour : four.length = 4) (more : List UInt8) :
    hasTrailer s = false ∧
      romPackingApply (s ++ more) s.length oDestLen = .placed dst outlen ∧
      romPackingApply (s ++ (four ++ [0x11, 0x10, 0x00, 0x00]) ++ more)
          (s ++ (four ++ [0x11, 0x10, 0x00, 0x00])).length oDestLen = .placed dst outlen := by
  have htrailer := hasTrailer_of_unpack h
  have hne : s ≠ [] := by
    rintro rfl
    cases h
  have hwithout : withoutTrailer s = s := if_neg (Bool.eq_false_iff.1 htrailer)
  have hplaced := unpackInto_of_accepted h hroom
  refine ⟨htrailer, ?_, ?_⟩
  · rw [romPackingApply_eq hne, hwithout, hplaced]
  · rw [romPackingApply_eq (List.append_ne_nil_of_left_ne_nil hne _),
      withoutTrailer_append hne hfour, hplaced]

theorem romPackingApply_overlapping_copy :
    hasTrailer [0x12, 7, 0x40, 0, 0x11, 0, 0] = false ∧
      romPackingApply ([0x12, 7, 0x40, 0, 0x11, 0, 0] ++ []) 7 4 = .placed [7, 7, 7, 7] 4 ∧
      romPackingApply ([0x12, 7, 0x40, 0, 0x11, 0, 0] ++
        ([1, 2, 3, 4] ++ [0x11, 0x10, 0x00, 0x00]) ++ []) 15 4 = .placed [7, 7, 7, 7] 4 := by
  have h : Pack.unpack [0x12, 7, 0x40, 0, 0x11, 0, 0] = .returned ⟨true, [7, 7, 7, 7], 4⟩ := by
    decide +kernel
  have hfour : [(1 : UInt8), 2, 3, 4].length = 4 := rfl
  exact romPackingApply_trailer h (by decide) hfour []

/-! ## What `Process` reports -/

/-- What the unpacker places in the buffer for a source. Without a source it is not called. -/
def placed (source : List UInt8) : List UInt8 :=
  if source = [] then []
  else
    match Pack.unpack (withoutTrailer source) with
    | .fault => []
    | .returned r => r.dst

/-- `Process` stays inside of the source and of its new buffer. When it succeeds, what is left is
what the unpacker has placed; when it fails, the state is as before. -/
def Reports (s : DecodeState) (source : List UInt8) : Prop :=
  romPacking.applied s ≠ .fault ∧
  (∀ s', romPacking.process s = some s' →
    s'.dataLeft = (placed source).length ∧ s'.data.take s'.dataLeft.toNat = placed source) ∧
  (((Action.transformationAction romPacking).process s).1 = false →
    ((Action.transformationAction romPacking).process s).2.1 = s)

/-- The output of the unpacker fits the buffer of `Process`, whether it is accepted or not. -/
def Unpacks (source : List UInt8) : Prop :=
  ∃ ok, ∃ n ≤ 2 ^ 20, Pack.ReadsWhole (withoutTrailer source) ok n

theorem unpackInto_ne_fault_iff (source : List UInt8) :
    unpackInto (1024 * 1024) (withoutTrailer source) ≠ .fault ↔ Unpacks source := by
  unfold unpackInto
  constructor
  · intro hinside
    cases hunpack : Pack.unpack (withoutTrailer source) with
    | fault =>
        rw [hunpack] at hinside
        exact absurd rfl hinside
    | returned r =>
        rw [hunpack] at hinside
        refine ⟨r.ok, r.dst.length, Nat.le_of_not_lt fun hlong => hinside ?_,
          (Pack.readsWhole_of_unpack hunpack).1⟩
        exact if_pos (by omega)
  · rintro ⟨ok, n, hle, hreads⟩
    obtain ⟨⟨_, dst, outlen⟩, hunpack, rfl, rfl⟩ := (Pack.unpack_returned_iff _ ok n).2 hreads
    rw [hunpack]
    dsimp only at hle ⊢
    rw [if_neg (by omega)]
    split <;> nofun

/-- `Process` reports what the unpacker has placed, and stays inside of its buffers, exactly when
there are bytes left, which the unpacker reads whole to an output that fits. Without bytes, `Apply`
succeeds with the size of the buffer. -/
theorem reports_iff (bs more : List UInt8) (offset : UInt32) :
    Reports ⟨bs ++ more, bs.length, offset⟩ bs ↔ bs ≠ [] ∧ Unpacks bs := by
  by_cases hne : bs = []
  · -- a megabyte is reported
    refine iff_of_false ?_ fun h => h.1 hne
    rintro ⟨-, hreports, -⟩
    subst hne
    obtain ⟨hleft, -⟩ := hreports ⟨[], 1024 * 1024, 0⟩ rfl
    cases hleft
  have happlied := romPacking_applied_eq offset hne more
  rw [Reports, happlied, unpackInto_ne_fault_iff, and_iff_right hne]
  refine and_iff_left ⟨?_, Action.state_of_false⟩
  intro s' hs
  rw [Transformation.process, happlied] at hs
  have hplaced : placed bs = match Pack.unpack (withoutTrailer bs) with
    | .fault => []
    | .returned r => r.dst := if_neg hne
  unfold unpackInto at hs
  rcases hunpack : Pack.unpack (withoutTrailer bs) with _ | ⟨ok, dst, outlen⟩
  · rw [hunpack] at hs
    cases hs
  · rw [hunpack] at hs hplaced
    dsimp only at hs hplaced
    by_cases hroom : (1024 * 1024 : Int) < dst.length
    · rw [if_pos hroom] at hs
      cases hs
    · rw [if_neg hroom] at hs
      cases ok with
      | false => cases hs
      | true =>
          cases hs
          -- the output fits the buffer, so its length is an `int`
          have hout := (Pack.readsWhole_of_unpack hunpack).2 rfl
          rw [Pack.int32_eq (by dsimp only; omega)] at hout
          dsimp only at hout
          rw [hplaced, hout, Int.toNat_natCast]
          exact ⟨rfl, List.take_length⟩

/-- Without a byte left the transformation succeeds, and a megabyte that nothing has written is left
to decode. -/
theorem empty_not_reported :
    ¬ ∀ (bs more : List UInt8) (offset : UInt32), Reports ⟨bs ++ more, bs.length, offset⟩ bs := by
  intro hall
  obtain ⟨hleft, -⟩ := (hall [] [] 0).2.1 ⟨[], 1024 * 1024, 0⟩ rfl
  cases hleft

end ProtocolDefinition

end OpenRom
