import OpenRom.Pack.Stream

/-!
# The packer

`ROMPack::Pack` compresses nothing: it writes one run of literals and an end marker. The length of
the run is written as an extended count, which starts at 18; a shorter source makes the byte that
ends the count wrap around, and a source of exactly 18 bytes fails the assertion.
-/

set_option autoImplicit false

namespace OpenRom.Pack

/-- The loop over `len`: the zero bytes written, and what is left of `len`. -/
def packLength (len : Int) : List UInt8 × Int :=
  if len > 255 then
    let (zeros, len) := packLength (len - 255)
    (0 :: zeros, len)
  else ([], len)
  termination_by len.toNat
  decreasing_by omega

/-- `ROMPack::Pack(src, srclen, dst, outlen)`; there is no result when the assertion fails. -/
def pack (src : List UInt8) : Option Written :=
  let (zeros, len) := packLength ((src.length : Int) - 18)
  if len ≠ 0 then
    let dst := 0x00 :: (zeros ++ UInt8.ofInt len :: src ++ [0x11, 0x00, 0x00])
    some ⟨true, dst, int32 dst.length⟩
  else none

/-- The loop takes 255 off as long as something remains. -/
theorem packLength_add (k m : Nat) (hm : 1 ≤ m ∧ m ≤ 255) :
    packLength (m + 255 * k : Nat) = (List.replicate k 0, (m : Int)) := by
  induction k with
  | zero =>
      rw [packLength, if_neg (by omega)]
      rfl
  | succ k ih =>
      have hsub : ((m + 255 * (k + 1) : Nat) : Int) - 255 = (m + 255 * k : Nat) := by omega
      rw [packLength, if_pos (by omega), hsub, ih]
      rfl

/-- Not even one zero byte is written for a short source. -/
theorem packLength_of_le {len : Int} (h : len ≤ 255) : packLength len = ([], len) := by
  rw [packLength, if_neg (by omega)]

theorem pack_of_packLength {src zeros : List UInt8} {len : Int}
    (h : packLength ((src.length : Int) - 18) = (zeros, len)) (hne : len ≠ 0) :
    ∃ w, pack src = some w ∧ w.outlen = int32 w.dst.length ∧
      w.dst = 0x00 :: (zeros ++ UInt8.ofInt len :: src ++ [0x11, 0x00, 0x00]) := by
  have hpack : pack src = some ⟨true, 0x00 :: (zeros ++ UInt8.ofInt len :: src ++
      [0x11, 0x00, 0x00]), int32 (0x00 :: (zeros ++ UInt8.ofInt len :: src ++
        [0x11, 0x00, 0x00])).length⟩ := by
    rw [pack, h]
    simp only [if_pos hne]
  exact ⟨_, hpack, by simp only, by simp only⟩

/-! ## From 19 bytes on -/

/-- The count that the packer writes for `n` bytes. -/
def packCount (n : Nat) : Count 15 :=
  .long ((n - 19) / 255) (UInt8.ofNat ((n - 19) % 255 + 1)) (by
    rw [ne_eq, ← UInt8.toNat_inj, UInt8.toNat_ofNat']
    simp only [UInt8.toNat_zero]
    omega)

theorem packCount_value {n : Nat} (h : 19 ≤ n) : n = 3 + (packCount n).value := by
  simp only [packCount, Count.value, UInt8.toNat_ofNat']
  omega

theorem packCount_length_tail (n : Nat) : (packCount n).tail.length = (n - 19) / 255 + 1 := by
  simp [packCount, Count.tail]

/-- The end marker that the packer writes. -/
def packEnd : EndMarker := ⟨.short 1 (by decide), 0⟩

theorem packEnd_encode : packEnd.encode = [0x11, 0x00, 0x00] := rfl

section Packs

variable {src : List UInt8} (h : 19 ≤ src.length)

/-- The run of literals that the packer writes. -/
def packLiterals : Command := .literals (packCount src.length) src (packCount_value h)

/-- The packer writes a run of literals and an end marker. -/
theorem pack_eq_encode :
    ∃ w, pack src = some w ∧ w.outlen = int32 w.dst.length ∧
      w.dst = (packLiterals h).encode ++ packEnd.encode := by
  -- the loop leaves a remainder from 1 to 255, which is the byte that ends the count
  have hlen : (src.length : Int) - 18 =
      ((src.length - 19) % 255 + 1 + 255 * ((src.length - 19) / 255) : Nat) := by omega
  have hbyte : UInt8.ofInt (((src.length - 19) % 255 + 1 : Nat) : Int) =
      UInt8.ofNat ((src.length - 19) % 255 + 1) := by
    rw [← UInt8.toNat_inj, UInt8.ofInt, UInt8.toNat_ofNat', UInt8.toNat_ofNat']
    omega
  obtain ⟨w, hw, hout, hdst⟩ := pack_of_packLength (hlen ▸ packLength_add _ _ (by omega))
    (by omega)
  refine ⟨w, hw, hout, ?_⟩
  rw [hdst, hbyte, packEnd_encode]
  simp [packLiterals, Command.encode, packCount, Count.tail, Count.bits]

theorem length_packed :
    ((packLiterals h).encode ++ packEnd.encode).length =
      src.length + 5 + (src.length - 19) / 255 := by
  simp only [packLiterals, Command.encode, packEnd_encode, List.length_append, List.length_cons,
    packCount_length_tail, List.length_nil]
  omega

/-- And the unpacker reads them back. -/
theorem unpack_packed (hlen : src.length < 2 ^ 24) :
    unpack ((packLiterals h).encode ++ packEnd.encode) =
      .returned ⟨true, src, int32 src.length⟩ := by
  have htail : (packCount src.length).tail.length < 2 ^ 24 := by
    rw [packCount_length_tail]
    omega
  have hcount := (packCount src.length).u32_value (k := 3) (by omega) htail (by omega)
  have hmark := (endsFrom_endMarker .alternative packEnd ((packLiterals h).encode.reverse ++ []) []
    src _).2 rfl
  rw [List.append_nil packEnd.encode] at hmark
  rw [unpack_eq_iff]
  refine ⟨_, enter_of_le (b := 0x00) (by decide) _, ?_⟩
  exact (endsFrom_literals [] ((packCount_value h).trans hcount.symm) packEnd.encode [] _).2 hmark

end Packs

/-! ## Below 18 bytes -/

/-- The byte that ends the count has wrapped around: it counts more literals than follow. -/
theorem unpack_short {src : List UInt8} (h : src.length < 18) :
    unpack (0x00 :: UInt8.ofInt ((src.length : Int) - 18) :: (src ++ [0x11, 0x00, 0x00])) =
      .fault := by
  -- `len` is negative, and the byte is what is left of it modulo 256
  have hbyte : (UInt8.ofInt ((src.length : Int) - 18)).toNat = 238 + src.length := by
    rw [UInt8.ofInt, UInt8.toNat_ofNat']
    omega
  have hne : UInt8.ofInt ((src.length : Int) - 18) ≠ 0 := by
    rw [ne_eq, ← UInt8.toNat_inj, hbyte, UInt8.toNat_zero]
    omega
  have hfault : ∀ o, EndsFrom .standard []
      (0x00 :: UInt8.ofInt ((src.length : Int) - 18) :: (src ++ [0x11, 0x00, 0x00])) [] o →
        o = .fault := by
    -- so at least 256 literals are counted, and at most 20 bytes follow
    have hcount :
        (src ++ [0x11, 0x00, 0x00]).length < u32 (3 + (Count.long 0 _ hne : Count 15).value) := by
      rw [Count.u32_value _ (by omega) (by simp [Count.tail]) (by omega), Count.value, hbyte,
        List.length_append]
      simp only [List.length_cons, List.length_nil]
      omega
    exact fun o => fault_of_short_literals [] hcount
  cases hu : unpack _ with
  | fault => rfl
  | returned r =>
      obtain ⟨m, hm, hends⟩ := (unpack_eq_iff _ _).1 hu
      rw [enter_of_le (by decide)] at hm
      cases hm
      cases hfault _ hends

theorem int32_eq {n : Nat} (h : n < 2 ^ 31) : int32 n = n := by
  rw [int32, Int.bmod_eq_of_le (by omega) (by omega)]

/-- `Unpack` gives back what `Pack` was given exactly from 19 bytes on, where `Pack` adds five
bytes and one more for every 255, and then `Unpack` reports the number of bytes of the source. -/
theorem unpack_pack_iff (src : List UInt8) (hlen : src.length < 2 ^ 24) :
    ((∃ w outlen, pack src = some w ∧
        unpack (w.dst.take w.outlen.toNat) = .returned ⟨true, src, outlen⟩) ↔
      19 ≤ src.length) ∧
    (19 ≤ src.length → ∃ w, pack src = some w ∧
      w.outlen = w.dst.length ∧ w.dst.length = src.length + 5 + (src.length - 19) / 255 ∧
        unpack (w.dst.take w.outlen.toNat) = .returned ⟨true, src, src.length⟩) := by
  -- what is written for a source that is long enough
  have hwrites : 19 ≤ src.length → ∃ w, pack src = some w ∧ w.outlen = w.dst.length ∧
      w.dst.length = src.length + 5 + (src.length - 19) / 255 ∧
        unpack (w.dst.take w.outlen.toNat) = .returned ⟨true, src, src.length⟩ := by
    intro h
    obtain ⟨w, hw, hout, hdst⟩ := pack_eq_encode h
    have hdlen : w.dst.length = src.length + 5 + (src.length - 19) / 255 := by
      rw [hdst, length_packed]
    have houtlen : w.outlen = w.dst.length := hout.trans (int32_eq (by omega))
    have hunpack := unpack_packed h hlen
    rw [← hdst, int32_eq (by omega)] at hunpack
    refine ⟨w, hw, houtlen, hdlen, ?_⟩
    rw [houtlen, Int.toNat_natCast, List.take_length]
    exact hunpack
  refine ⟨⟨?_, fun h => ?_⟩, fun h => ?_⟩
  · rintro ⟨w, outlen, hw, hunpack⟩
    refine Nat.le_of_not_lt fun hlt => ?_
    by_cases h18 : src.length = 18
    · -- the assertion fails
      rw [pack, h18, packLength_of_le (by omega)] at hw
      cases hw
    · obtain ⟨w', hw', hout, hdst⟩ :=
        pack_of_packLength (packLength_of_le (show (src.length : Int) - 18 ≤ 255 by omega))
          (by omega)
      obtain rfl : w = w' := Option.some.inj (hw.symm.trans hw')
      have hdlen : w.dst.length = src.length + 5 := by
        rw [hdst]
        simp
      rw [hout, int32_eq (by omega), Int.toNat_natCast, List.take_length, hdst, List.nil_append,
        List.cons_append, unpack_short (by omega)] at hunpack
      cases hunpack
  · obtain ⟨w, hw, -, -, hunpack⟩ := hwrites h
    exact ⟨w, _, hw, hunpack⟩
  · exact hwrites h

theorem unpack_pack_zeros : ∃ w outlen, pack (List.replicate 300 0) = some w ∧
    unpack (w.dst.take w.outlen.toNat) = .returned ⟨true, List.replicate 300 0, outlen⟩ := by
  have hlen : (List.replicate 300 (0 : UInt8)).length = 300 := List.length_replicate
  exact (unpack_pack_iff _ (by omega)).1.2 (by omega)

end OpenRom.Pack
