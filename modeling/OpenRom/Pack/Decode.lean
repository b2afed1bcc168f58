import OpenRom.Pack.Progress
import OpenRom.Pack.Format

/-!
# Reading the pieces of the format

What the machine does when the piece it reads next is a count field or a match, and that these
pieces are the only ones it can read: `handleCount_encode` and `handleCount_cases` for counts,
`tryStandard_encode` and `match_cases` for matches.
-/

set_option autoImplicit false

namespace OpenRom.Pack

open SlidingWindow Loop

/-! ## Bits -/

theorem and_three (n : Nat) : n &&& 3 = n % 4 := Nat.and_two_pow_sub_one_eq_mod n 2
theorem and_seven (n : Nat) : n &&& 7 = n % 8 := Nat.and_two_pow_sub_one_eq_mod n 3
theorem and_fifteen (n : Nat) : n &&& 15 = n % 16 := Nat.and_two_pow_sub_one_eq_mod n 4
theorem and_thirtyOne (n : Nat) : n &&& 31 = n % 32 := Nat.and_two_pow_sub_one_eq_mod n 5

/-- The bit `b` of `0001baaa`, shifted to its place in the distance. -/
theorem far_bit : ∀ code < 0x20, (code &&& 8) <<< 0xb = 0x4000 * (code / 8 % 2) := by decide

theorem toNat_ofNat_of_lt {n : Nat} (h : n < 256) : (UInt8.ofNat n).toNat = n := by
  rw [UInt8.toNat_ofNat']
  omega

theorem u32_eq {n : Nat} (h : n < 2 ^ 32) : u32 n = n := Nat.mod_eq_of_lt h

theorem u32_add (n k : Nat) : u32 (u32 n + k) = u32 (k + n) := by
  unfold u32
  omega

/-! ## Reading and copying -/

@[simp] theorem Cursor.next_cons (passed rest : List UInt8) (b : UInt8) :
    Cursor.next ⟨passed, b :: rest⟩ = some (b, ⟨b :: passed, rest⟩) := rfl

@[simp] theorem Cursor.next_nil (passed : List UInt8) : Cursor.next ⟨passed, []⟩ = none := rfl

theorem Cursor.next16_le16 {n : Nat} (h : n < 2 ^ 16) (passed rest : List UInt8) :
    Cursor.next16 ⟨passed, le16 n ++ rest⟩ = some (n, ⟨(le16 n).reverse ++ passed, rest⟩) := by
  have hhi : (UInt8.ofNat (n / 256)).toNat = n / 256 := toNat_ofNat_of_lt (by omega)
  have hlo : (UInt8.ofNat n).toNat = n % 256 := UInt8.toNat_ofNat'
  have hsum : n % 256 + 256 * (n / 256) = n := by omega
  simp [le16, Cursor.next16, hhi, hlo, hsum]

theorem le16_toNat (lo hi : UInt8) : le16 (lo.toNat + 256 * hi.toNat) = [lo, hi] := by
  have hlo := lo.toNat_lt
  have hdiv : (lo.toNat + 256 * hi.toNat) / 256 = hi.toNat := by omega
  have hmod : UInt8.ofNat (lo.toNat + 256 * hi.toNat) = lo := by
    rw [← UInt8.toNat_inj, UInt8.toNat_ofNat']
    omega
  rw [le16, hdiv, hmod, UInt8.ofNat_toNat]

/-- Two bytes are an offset and the number of literals after the match, or are missing. -/
theorem Cursor.next16_cases (rest : List UInt8) :
    (∃ off : Fin (2 ^ 14), ∃ xx ≤ 3, ∃ rest', rest = le16 (4 * off.val + xx) ++ rest') ∨
      ∀ passed, Cursor.next16 ⟨passed, rest⟩ = none := by
  match rest with
  | [] => exact Or.inr fun _ => rfl
  | [b] => exact Or.inr fun _ => rfl
  | lo :: hi :: rest =>
      have hlo := lo.toNat_lt
      have hhi := hi.toNat_lt
      have hn : 4 * ((lo.toNat + 256 * hi.toNat) / 4) + (lo.toNat + 256 * hi.toNat) % 4 =
          lo.toNat + 256 * hi.toNat := by omega
      refine Or.inl ⟨⟨(lo.toNat + 256 * hi.toNat) / 4, by omega⟩,
        (lo.toNat + 256 * hi.toNat) % 4, by omega, rest, ?_⟩
      rw [hn, le16_toNat]
      rfl

theorem copyIn_append (passed bytes rest dst : List UInt8) :
    copyIn bytes.length ⟨passed, bytes ++ rest⟩ dst =
      some (⟨bytes.reverse ++ passed, rest⟩, dst ++ bytes) := by
  induction bytes generalizing passed dst with
  | nil => simp [copyIn]
  | cons b bytes ih => simp [copyIn, ih]

theorem copyIn_eq_none {n : Nat} {rest : List UInt8} (h : rest.length < n)
    (passed dst : List UInt8) : copyIn n ⟨passed, rest⟩ dst = none := by
  induction n generalizing passed rest dst with
  | zero => omega
  | succ n ih =>
      cases rest with
      | nil => rfl
      | cons b rest =>
          simp only [List.length_cons] at h
          simpa [copyIn] using ih (by omega) _ _

/-- A copy through the pointer `buf` is the copy from the distance between `buf` and the write
position. -/
theorem copyBuf_eq_copyBack {d : Nat} (hd : 1 ≤ d) (n : Nat) (dst : List UInt8) :
    copyBuf n (dst.length - d) dst = copyBack d n dst := by
  induction n generalizing dst with
  | zero => rfl
  | succ n ih =>
      by_cases h : d ≤ dst.length
      · have hpos : ¬ ((dst.length : Int) - d < 0) := by omega
        have hnat : ((dst.length : Int) - d).toNat = dst.length - d := by omega
        -- one byte is copied, and the distance stays the same as both pointers move on
        have hget := List.getElem?_eq_getElem (l := dst) (show dst.length - d < dst.length by omega)
        have hbyte : dstByte dst (dst.length - d) = dst[dst.length - d]? := by
          rw [dstByte, if_neg hpos, hnat]
        rw [copyBuf, hbyte, hget, copyBack_succ h hget, ← ih]
        simp only [List.length_append, List.length_singleton]
        congr 1
        omega
      · have hneg : (dst.length : Int) - d < 0 := by omega
        rw [copyBuf, dstByte, if_pos hneg, copyBack_of_lt (by omega)]

/-! ## Count fields -/

namespace Count

variable {mask : Nat}

/-- The count fits an `uint32_t`, with room for the constant added to it. -/
theorem value_lt (cnt : Count mask) (hm : mask ≤ 31) (h : cnt.tail.length < 2 ^ 24) :
    cnt.value + 3 < 2 ^ 32 := by
  cases cnt with
  | short a ha => simp only [value]; omega
  | long zeros last hl =>
      have hlast := last.toNat_lt
      simp only [tail, List.length_append, List.length_replicate, List.length_singleton] at h
      simp only [value]
      omega

theorem bits_le (cnt : Count mask) : cnt.bits ≤ mask := by
  cases cnt with
  | short a ha => exact ha.2
  | long zeros last hl => exact Nat.zero_le mask

end Count

theorem extendCount_run (mask acc zeros : Nat) (last : UInt8) (hl : last ≠ 0)
    (passed rest : List UInt8) :
    extendCount mask acc passed (List.replicate zeros 0 ++ last :: rest) =
      some (u32 (acc + 255 * zeros + (last.toNat + mask)),
        ⟨last :: (List.replicate zeros 0 ++ passed), rest⟩) := by
  induction zeros generalizing acc passed with
  | zero => simp [extendCount, hl]
  | succ z ih =>
      -- the sum may be reduced modulo `2 ^ 32` in between or at the end
      have hsum : u32 (u32 (acc + 255) + 255 * z + (last.toNat + mask)) =
          u32 (acc + 255 * (z + 1) + (last.toNat + mask)) := by
        unfold u32
        omega
      have hrev : List.replicate z (0 : UInt8) ++ 0 :: passed =
          0 :: (List.replicate z 0 ++ passed) := by
        rw [← List.cons_append, ← List.replicate_succ, List.replicate_succ', List.append_assoc]
        rfl
      rw [List.replicate_succ, List.cons_append, extendCount, if_pos rfl, ih, hsum, hrev]
      rfl

/-- A count field is read as its value, modulo `2 ^ 32`. -/
theorem handleCount_encode {mask code : Nat} (cnt : Count mask) (hm : mask ≤ 31)
    (hcode : code &&& mask = cnt.bits) (passed rest : List UInt8) :
    handleCount code mask ⟨passed, cnt.tail ++ rest⟩ =
      some (u32 cnt.value, ⟨cnt.tail.reverse ++ passed, rest⟩) := by
  cases cnt with
  | short a ha =>
      have hne : ¬ (code &&& mask = 0) := by
        rw [hcode]
        exact Nat.pos_iff_ne_zero.1 ha.1
      have hvalue : u32 (Count.short a ha).value = a := u32_eq (show a < 2 ^ 32 by omega)
      rw [handleCount, if_neg hne, hcode, hvalue]
      rfl
  | long zeros last hl =>
      have hval : 0 + 255 * zeros + (last.toNat + mask) = mask + 255 * zeros + last.toNat := by
        omega
      rw [handleCount, if_pos (show code &&& mask = 0 from hcode)]
      simp only [Count.tail, List.append_assoc, List.singleton_append, extendCount_run _ _ _ _ hl,
        hval, Count.value]
      simp

/-- What follows the bits of a command byte is the rest of a count field, or ends inside one. -/
theorem handleCount_cases (mask code : Nat) (passed rest : List UInt8) :
    (∃ cnt : Count mask, ∃ rest', code &&& mask = cnt.bits ∧ rest = cnt.tail ++ rest') ∨
      handleCount code mask ⟨passed, rest⟩ = none := by
  by_cases h0 : code &&& mask = 0
  · have hrun : ∀ (acc : Nat) (passed : List UInt8),
        (∃ zeros last rest', last ≠ 0 ∧ rest = List.replicate zeros 0 ++ last :: rest') ∨
          extendCount mask acc passed rest = none := by
      intro acc passed
      induction rest generalizing acc passed with
      | nil => exact Or.inr rfl
      | cons b rest ih =>
          -- the run of zero bytes goes on, is ended by this byte, or is cut off
          by_cases hb : b = 0
          · rcases ih (u32 (acc + 255)) (b :: passed) with ⟨z, last, rest', hl, rfl⟩ | hnone
            · exact Or.inl ⟨z + 1, last, rest', hl, by rw [hb]; rfl⟩
            · exact Or.inr (by rw [extendCount, if_pos hb, hnone])
          · exact Or.inl ⟨0, b, rest, hb, rfl⟩
    rcases hrun 0 passed with ⟨zeros, last, rest', hl, rfl⟩ | hnone
    · exact Or.inl ⟨.long zeros last hl, rest', h0, by simp [Count.tail]⟩
    · exact Or.inr (by rw [handleCount, if_pos h0, hnone])
  · exact Or.inl ⟨.short (code &&& mask) ⟨Nat.pos_of_ne_zero h0, Nat.and_le_right⟩, rest, rfl, rfl⟩

/-! ## Matches -/

namespace Match

/-- The byte before the last of a match carries the number of literals after it in its low bits. -/
theorem encode_low (m : Match) {xx : Nat} (hx : xx ≤ 3) :
    ∃ x y tail, (m.encode xx).reverse = x :: y :: tail ∧ y.toNat % 4 = xx := by
  cases m with
  | recent aa b =>
      refine ⟨b, UInt8.ofNat (4 * aa.val + xx), [], rfl, ?_⟩
      rw [UInt8.toNat_ofNat']
      omega
  | near ccc h bbb d =>
      refine ⟨d, UInt8.ofNat (32 * ccc + 4 * bbb.val + xx), [], rfl, ?_⟩
      rw [UInt8.toNat_ofNat']
      omega
  | middle count off =>
      refine ⟨UInt8.ofNat ((4 * off.val + xx) / 256), UInt8.ofNat (4 * off.val + xx),
        (UInt8.ofNat (0x20 + count.bits) :: count.tail).reverse, by simp [encode, le16], ?_⟩
      rw [UInt8.toNat_ofNat']
      omega
  | far b count off h =>
      refine ⟨UInt8.ofNat ((4 * off.val + xx) / 256), UInt8.ofNat (4 * off.val + xx),
        (UInt8.ofNat (0x10 + 8 * b.val + count.bits) :: count.tail).reverse,
        by simp [encode, le16], ?_⟩
      rw [UInt8.toNat_ofNat']
      omega

theorem one_le_distance (m : Match) : 1 ≤ m.distance := by
  cases m <;> simp only [distance] <;> omega

end Match

/-- What a decoded match leads to: the copy, of a length modulo `2 ^ 32`, and then its literals. -/
def afterMatch (m : Match) (passed rest dst : List UInt8) : Option Turn :=
  (copyBack m.distance (u32 m.length) dst).map fun dst' =>
    .again ⟨.handleOffsetCount, ⟨passed, rest⟩, dst'⟩

/-- A three-byte match, where `00..0F` have their alternative meaning. -/
theorem try00to0FAlternative_recent (aa : Fin 4) (b : UInt8) {xx : Nat} (hx : xx ≤ 3)
    (passed rest dst : List UInt8) :
    try00to0FAlternative ⟨passed, (Match.recent aa b).encode xx ++ rest⟩ dst =
      afterMatch (.recent aa b) (((Match.recent aa b).encode xx).reverse ++ passed) rest dst := by
  have hcode : (UInt8.ofNat (4 * aa.val + xx)).toNat = 4 * aa.val + xx :=
    toNat_ofNat_of_lt (by omega)
  have hlt : ¬ (4 * aa.val + xx ≥ 0x10) := by omega
  -- the pointer is as far behind the write position as the format says
  have hbuf : ((dst.length : Int) - ((4 * aa.val + xx) >>> 2 : Nat) - (b.toNat * 4 : Nat) - 0x801) =
      dst.length - ((Match.recent aa b).distance : Nat) := by
    have hshift : (4 * aa.val + xx) >>> 2 = aa.val := by
      rw [Nat.shiftRight_eq_div_pow]
      omega
    rw [hshift]
    simp only [Match.distance]
    omega
  simp only [try00to0FAlternative, Match.encode, List.cons_append, Cursor.next_cons,
    Option.bind_eq_bind, Option.bind_some, hcode, if_neg hlt, hbuf,
    copyBuf_eq_copyBack (Match.one_le_distance _), List.nil_append]
  have hlength : u32 (Match.recent aa b).length = 3 := rfl
  unfold afterMatch
  rw [hlength]
  cases copyBack (Match.recent aa b).distance 3 dst <;> rfl

/-- The other matches, from their first byte on. -/
theorem tryStandard_encode (m : Match) (hm : ∀ aa b, m ≠ .recent aa b) {xx : Nat} (hx : xx ≤ 3)
    (passed rest dst : List UInt8) :
    ∃ b bs, m.encode xx = b :: bs ∧ 0x10 ≤ b.toNat ∧
      tryStandard b.toNat ⟨b :: passed, bs ++ rest⟩ dst =
        afterMatch m ((m.encode xx).reverse ++ passed) rest dst := by
  cases m with
  | recent aa b => exact absurd rfl (hm aa b)
  | near ccc h bbb d =>
      have hcode : (UInt8.ofNat (32 * ccc + 4 * bbb.val + xx)).toNat =
          32 * ccc + 4 * bbb.val + xx := toNat_ofNat_of_lt (by omega)
      have hge : 32 * ccc + 4 * bbb.val + xx ≥ 0x40 := by omega
      -- `bbb` and `ccc` are read back from the first byte
      have hbits : (32 * ccc + 4 * bbb.val + xx) >>> 2 &&& 7 = bbb.val := by
        rw [Nat.shiftRight_eq_div_pow, and_seven]
        omega
      have hcount : (32 * ccc + 4 * bbb.val + xx) >>> 5 + 1 =
          u32 (Match.near ccc h bbb d).length := by
        rw [Nat.shiftRight_eq_div_pow, Match.length, u32_eq (by omega)]
        omega
      have hbuf : ((dst.length : Int) - (bbb.val : Nat) - (d.toNat * 8 : Nat) - 1) =
          dst.length - ((Match.near ccc h bbb d).distance : Nat) := by
        simp only [Match.distance]
        omega
      refine ⟨_, _, rfl, by rw [hcode]; omega, ?_⟩
      simp only [tryStandard, hcode, if_pos hge, List.cons_append, Cursor.next_cons,
        Option.bind_eq_bind, Option.bind_some, hbits, hcount, hbuf,
        copyBuf_eq_copyBack (Match.one_le_distance _), List.nil_append]
      unfold afterMatch
      cases copyBack (Match.near ccc h bbb d).distance (u32 (Match.near ccc h bbb d).length) dst <;>
        rfl
  | middle count off =>
      have hbits := count.bits_le
      have hcode : (UInt8.ofNat (0x20 + count.bits)).toNat = 0x20 + count.bits :=
        toNat_ofNat_of_lt (by omega)
      have hlt40 : ¬ (0x20 + count.bits ≥ 0x40) := by omega
      have hge20 : 0x20 + count.bits ≥ 0x20 := by omega
      have hand : (0x20 + count.bits) &&& 31 = count.bits := by
        rw [and_thirtyOne]
        omega
      have hoff : (4 * off.val + xx) >>> 2 = off.val := by
        rw [Nat.shiftRight_eq_div_pow]
        omega
      have hlen : u32 (u32 count.value + 2) = u32 (Match.middle count off).length :=
        u32_add count.value 2
      have hbuf : ((dst.length : Int) - (off.val : Nat) - 1) =
          dst.length - ((Match.middle count off).distance : Nat) := by
        simp only [Match.distance]
        omega
      refine ⟨_, count.tail ++ le16 (4 * off.val + xx), rfl, by rw [hcode]; omega, ?_⟩
      simp only [tryStandard, hcode, if_neg hlt40, if_pos hge20, List.append_assoc,
        handleCount_encode count (by omega) hand, Cursor.next16_le16
          (show 4 * off.val + xx < 2 ^ 16 by omega), Option.bind_eq_bind, Option.bind_some, hoff,
        hlen, hbuf, copyBuf_eq_copyBack (Match.one_le_distance _)]
      unfold afterMatch
      simp only [Match.encode, List.reverse_append, List.reverse_cons, List.append_assoc,
        List.singleton_append]
      cases copyBack (Match.middle count off).distance (u32 (Match.middle count off).length) dst <;>
        rfl
  | far b count off h =>
      have hbits := count.bits_le
      have hb := b.isLt
      have hcode : (UInt8.ofNat (0x10 + 8 * b.val + count.bits)).toNat =
          0x10 + 8 * b.val + count.bits := toNat_ofNat_of_lt (by omega)
      have hlt40 : ¬ (0x10 + 8 * b.val + count.bits ≥ 0x40) := by omega
      have hlt20 : ¬ (0x10 + 8 * b.val + count.bits ≥ 0x20) := by omega
      have hge10 : ¬ (0x10 + 8 * b.val + count.bits < 0x10) := by omega
      have hand : (0x10 + 8 * b.val + count.bits) &&& 7 = count.bits := by
        rw [and_seven]
        omega
      have hfar : ((0x10 + 8 * b.val + count.bits) &&& 8) <<< 0xb = 0x4000 * b.val := by
        rw [far_bit _ (by omega)]
        omega
      have hoff : (4 * off.val + xx) >>> 2 = off.val := by
        rw [Nat.shiftRight_eq_div_pow]
        omega
      have hlen : u32 (u32 count.value + 2) = u32 (Match.far b count off h).length :=
        u32_add count.value 2
      -- `b` and the offset are not both zero, so this is not the end marker
      have hne : ¬ ((dst.length : Int) - (0x4000 * b.val : Nat) - (off.val : Nat) =
          dst.length) := by omega
      have hbuf : ((dst.length : Int) - (0x4000 * b.val : Nat) - (off.val : Nat) - 0x4000) =
          dst.length - ((Match.far b count off h).distance : Nat) := by
        simp only [Match.distance]
        omega
      refine ⟨_, count.tail ++ le16 (4 * off.val + xx), rfl, by rw [hcode]; omega, ?_⟩
      simp only [tryStandard, hcode, if_neg hlt40, if_neg hlt20, if_neg hge10, List.append_assoc,
        handleCount_encode count (by omega) hand, Cursor.next16_le16
          (show 4 * off.val + xx < 2 ^ 16 by omega), Option.bind_eq_bind, Option.bind_some, hoff,
        hfar, hlen, if_neg hne, hbuf, copyBuf_eq_copyBack (Match.one_le_distance _)]
      unfold afterMatch
      simp only [Match.encode, List.reverse_append, List.reverse_cons, List.append_assoc,
        List.singleton_append]
      cases copyBack (Match.far b count off h).distance
        (u32 (Match.far b count off h).length) dst <;> rfl

/-- A byte from `0x10` on starts a match or an end marker, or what it starts is cut off. -/
theorem match_cases {b : UInt8} (hb : 0x10 ≤ b.toNat) (bs passed dst : List UInt8) :
    (∃ m xx rest, (∀ aa b', m ≠ Match.recent aa b') ∧ xx ≤ 3 ∧ b :: bs = m.encode xx ++ rest) ∨
      (∃ e : EndMarker, ∃ rest, b :: bs = e.encode ++ rest) ∨
        tryStandard b.toNat ⟨passed, bs⟩ dst = none := by
  have hlt := b.toNat_lt
  have hbyte : ∀ n, n = b.toNat → UInt8.ofNat n = b := by
    rintro n rfl
    exact UInt8.ofNat_toNat
  by_cases h40 : b.toNat ≥ 0x40
  · cases bs with
    | nil => exact Or.inr (Or.inr (by simp [tryStandard, h40]))
    | cons d rest =>
        -- `cccbbbxx dddddddd`
        refine Or.inl ⟨.near (b.toNat / 32) (by omega) ⟨b.toNat / 4 % 8, by omega⟩ d,
          b.toNat % 4, rest, nofun, by omega, ?_⟩
        rw [Match.encode, hbyte _ (by simp only; omega)]
        rfl
  by_cases h20 : b.toNat ≥ 0x20
  · rcases handleCount_cases 31 b.toNat passed bs with
      ⟨count, rest, hbits, rfl⟩ | hnone
    · -- `001aaaaa`
      have hcode := hbits
      rw [and_thirtyOne] at hcode
      rcases Cursor.next16_cases rest with ⟨off, xx, hx, rest, rfl⟩ | hnone
      · refine Or.inl ⟨.middle count off, xx, rest, nofun, hx, ?_⟩
        rw [Match.encode, hbyte _ (by omega)]
        simp
      · refine Or.inr (Or.inr ?_)
        simp only [tryStandard, if_neg h40, if_pos h20,
          handleCount_encode count (by omega) hbits, hnone, Option.bind_eq_bind,
          Option.bind_some, Option.bind_none]
    · refine Or.inr (Or.inr ?_)
      simp only [tryStandard, if_neg h40, if_pos h20, hnone, Option.bind_eq_bind,
        Option.bind_none]
  · have h10 : ¬ (b.toNat < 0x10) := by omega
    rcases handleCount_cases 7 b.toNat passed bs with
      ⟨count, rest, hbits, rfl⟩ | hnone
    · -- `0001baaa`
      have hcode := hbits
      rw [and_seven] at hcode
      rcases Cursor.next16_cases rest with ⟨off, xx, hx, rest, rfl⟩ | hnone
      · by_cases hend : b.toNat / 8 % 2 = 0 ∧ off.val = 0
        · -- both the bit and the offset are zero: the end marker
          refine Or.inr (Or.inl ⟨⟨count, ⟨xx, by omega⟩⟩, rest, ?_⟩)
          have hxx : le16 (4 * off.val + xx) = [UInt8.ofNat xx, 0] := by
            rw [hend.2, le16, show (4 * 0 + xx) / 256 = 0 by omega, Nat.mul_zero, Nat.zero_add]
            rfl
          rw [EndMarker.encode, hbyte _ (by simp only; omega), hxx]
          simp
        · refine Or.inl ⟨.far ⟨b.toNat / 8 % 2, by omega⟩ count off (by simp only; omega), xx,
            rest, nofun, hx, ?_⟩
          rw [Match.encode, hbyte _ (by simp only; omega)]
          simp
      · refine Or.inr (Or.inr ?_)
        simp only [tryStandard, if_neg h40, if_neg h20, if_neg h10,
          handleCount_encode count (by omega) hbits, hnone, Option.bind_eq_bind,
          Option.bind_some, Option.bind_none]
    · refine Or.inr (Or.inr ?_)
      simp only [tryStandard, if_neg h40, if_neg h20, if_neg h10, hnone, Option.bind_eq_bind,
        Option.bind_none]

end OpenRom.Pack
