import OpenRom.Pack.Packer
import OpenRom.Pack.Reads

/-!
# How far a stream expands

A zero byte in a count field stands for 255 bytes of output, and every other byte of a stream for
fewer, so the output is never longer than 255 times the source. The counts are 32 bits wide. A run
of zero bytes therefore has an end, and each match pays again for the bytes around its run: the
ratio stays below 255 by a constant (`length_le`). Below `2 ^ 31` bytes the largest ratio is that
of the stream `densest` (`expansion_bounds`).
-/

set_option autoImplicit false

namespace OpenRom.Pack

/-! ## One piece -/

/-- So many bytes written for so many bytes read, with this many counts in runs of zero bytes. A
run costs 732 bytes of output in the bytes around it; it gains on 222 times the bytes read only up
to where the count no longer fits. -/
def Within (runs written read : Nat) : Prop :=
  written + 732 * runs ≤ 255 * read ∧ written ≤ 222 * read + 555818631 * runs

theorem Within.add {i j w w' r r' : Nat} (h : Within i w r) (h' : Within j w' r') :
    Within (i + j) (w + w') (r + r') := by
  unfold Within at *
  omega

theorem u32_le (n : Nat) : u32 n ≤ n := Nat.mod_le n _

theorem u32_lt (n : Nat) : u32 n < 2 ^ 32 := Nat.mod_lt n (by decide)

theorem length_le16 (n : Nat) : (le16 n).length = 2 := rfl

/-- A count and the two bytes before and after it, and what they make the machine copy. -/
theorem Count.within {mask : Nat} (cnt : Count mask) (hm : mask ≤ 31) :
    ∃ j, Within j (u32 (2 + cnt.value)) (cnt.tail.length + 3) := by
  have hle := u32_le (2 + cnt.value)
  cases cnt with
  | short a ha =>
      refine ⟨0, ?_⟩
      simp only [Count.value, Count.tail, List.length_nil, Within] at hle ⊢
      omega
  | long zeros last hl =>
      have hlt := u32_lt (2 + (.long zeros last hl : Count mask).value)
      have hlast := last.toNat_lt
      refine ⟨1, ?_⟩
      simp only [Count.value, Count.tail, List.length_append, List.length_replicate,
        List.length_singleton, Within] at hle hlt ⊢
      -- past the longest run the count wraps, and every further zero byte is lost
      by_cases hz : zeros ≤ 16843007
      · omega
      · omega

theorem Match.within (m : Match) (xx : Nat) :
    ∃ j, Within j (u32 m.length) (m.encode xx).length := by
  cases m with
  | recent aa b =>
      refine ⟨0, ?_⟩
      show Within 0 3 2
      unfold Within
      omega
  | near ccc h bbb d =>
      have hle := u32_le (ccc + 1)
      refine ⟨0, ?_⟩
      simp only [Match.length, Match.encode, List.length_cons, List.length_nil, Within]
      omega
  | middle count off =>
      obtain ⟨j, hj⟩ := count.within (by decide)
      refine ⟨j, ?_⟩
      simpa [Match.length, Match.encode, length_le16] using hj
  | far b count off h =>
      obtain ⟨j, hj⟩ := count.within (by decide)
      refine ⟨j, ?_⟩
      simpa [Match.length, Match.encode, length_le16] using hj

/-- Literals are read as they are written. -/
theorem within_literals {written read : Nat} (h : written ≤ read) : Within 0 written read := by
  unfold Within
  omega

theorem Piece.within (q : Piece) : ∃ j, Within j q.size q.encode.length := by
  cases q with
  | literals count bytes h =>
      refine ⟨0, within_literals ?_⟩
      simp only [Piece.size, Piece.encode, List.length_append, List.length_cons]
      omega
  | copy m trailing h =>
      obtain ⟨j, hj⟩ := m.within trailing.length
      refine ⟨j + 0, ?_⟩
      rw [Piece.size, Piece.encode, List.length_append]
      exact hj.add (within_literals (Nat.le_refl _))

/-- Before anything is written, a piece has no bytes to copy and writes its literals. -/
theorem Piece.size_lt_of_reaches {q : Piece} (h : q.Reaches 0) :
    q.size + 1 ≤ q.encode.length ∧ 2 ≤ q.encode.length := by
  cases q with
  | literals count bytes hbytes =>
      have htail : bytes.length = 0 → 1 ≤ count.tail.length := by
        intro hzero
        cases count with
        | short a ha =>
            have hvalue : u32 (3 + (Count.short a ha).value) = 3 + a :=
              u32_eq (by simp only [Count.value]; omega)
            omega
        | long zeros last hl => simp [Count.tail]
      simp only [Piece.size, Piece.encode, List.length_append, List.length_cons]
      omega
  | copy m trailing htrailing =>
      have hpos := m.one_le_distance
      have hnone : u32 m.length = 0 := h.resolve_right (by omega)
      have htwo : 2 ≤ (m.encode trailing.length).length := by
        cases m <;> simp [Match.encode, length_le16]
      rw [Piece.size, Piece.encode, List.length_append, hnone]
      omega

/-! ## Whole streams -/

/-- What follows is paid for but for the end marker. -/
theorem Reads.within {ctx : Context} {rest : List UInt8} {k n : Nat}
    (h : Reads ctx rest k true n) :
    ∃ j w r, Within j w r ∧ n = k + w ∧ r + 3 ≤ rest.length := by
  generalize hok : true = ok at h
  induction h with
  | stop ctx e rest k =>
      refine ⟨0, 0, 0, within_literals (Nat.le_refl 0), rfl, ?_⟩
      simp only [EndMarker.encode, List.length_append, List.length_cons, List.length_nil]
      omega
  | low hb rest k => cases hok
  | @piece ctx q rest k n ok hq hreaches _ ih =>
      obtain ⟨j, w, r, hwithin, hn, hr⟩ := ih hok
      obtain ⟨i, hi⟩ := q.within
      refine ⟨i + j, q.size + w, q.encode.length + r, hi.add hwithin, by omega, ?_⟩
      rw [List.length_append]
      omega

/-- What comes first is not a match: it takes a byte more than it writes. -/
theorem ReadsWhole.within {src : List UInt8} {n : Nat} (h : ReadsWhole src true n) :
    n = 0 ∨ ∃ j w r a b, Within j w r ∧ n = a + w ∧ b + r + 3 ≤ src.length ∧
      a + 1 ≤ b ∧ 2 ≤ b := by
  generalize hok : true = ok at h
  cases h with
  | @plain b rest _ _ hb h =>
      generalize b :: rest = src at h
      generalize hk : 0 = k at h
      cases h with
      | stop e rest => exact Or.inl rfl
      | piece hq hreaches h =>
          subst hok hk
          obtain ⟨j, w, r, hwithin, hn, hr⟩ := h.within
          have hfirst := Piece.size_lt_of_reaches hreaches
          refine Or.inr ⟨j, w, r, _, _, hwithin, by omega, ?_, hfirst.1, hfirst.2⟩
          rw [List.length_append]
          omega
  | opening o h =>
      subst hok
      obtain ⟨j, w, r, hwithin, hn, hr⟩ := h.within
      have hpos := o.length_bounds.1
      refine Or.inr ⟨j, w, r, o.bytes.length, 1 + o.bytes.length, hwithin, hn, ?_, by omega,
        by omega⟩
      simp only [Opening.encode, List.length_append, List.length_cons]
      omega

/-- The output is at most 255 times as long as the source. -/
theorem length_le_255 {src dst : List UInt8} {outlen : Int}
    (h : unpack src = .returned ⟨true, dst, outlen⟩) : dst.length ≤ 255 * src.length := by
  have hreads : ReadsWhole src true dst.length := (readsWhole_of_unpack h).1
  rcases hreads.within with hzero | ⟨j, w, r, a, b, hwithin, hn, hlen, hab, hb⟩
  · omega
  · unfold Within at hwithin
    omega

/-- With counts of any length in the source, no stream expands further than a match with the
longest run that a count has room for. -/
theorem length_le {src dst : List UInt8} {outlen : Int}
    (h : unpack src = .returned ⟨true, dst, outlen⟩) :
    16843011 * dst.length ≤ 4294967073 * src.length := by
  have hreads : ReadsWhole src true dst.length := (readsWhole_of_unpack h).1
  rcases hreads.within with hzero | ⟨j, w, r, a, b, hwithin, hn, hlen, hab, hb⟩
  · omega
  · unfold Within at hwithin
    omega

/-- Below `2 ^ 31` bytes there is room for 127 such matches, and for the bytes of an opening and an
end marker, which are not paid for by any other. -/
theorem length_le_of_int {src dst : List UInt8} {outlen : Int} (hsrc : src.length < 2 ^ 31)
    (h : unpack src = .returned ⟨true, dst, outlen⟩) :
    2139062402 * dst.length ≤ 545460818272 * src.length := by
  have hreads : ReadsWhole src true dst.length := (readsWhole_of_unpack h).1
  rcases hreads.within with hzero | ⟨j, w, r, a, b, hwithin, hn, hlen, hab, hb⟩
  · omega
  · unfold Within at hwithin
    -- with 128 runs or more, what the runs cost is enough
    by_cases hj : j ≤ 127
    · omega
    · omega

/-! ## The densest stream -/

/-- A match at distance 1 whose count is a run of so many zero bytes and one of 255. -/
def runMatch (zeros : Nat) : Piece :=
  .copy (.middle (.long zeros 255 (by decide)) 0) [] (Nat.zero_le 3)

theorem size_runMatch {zeros : Nat} (h : zeros ≤ 16843007) :
    (runMatch zeros).size = 255 * zeros + 288 := by
  have hlast : (255 : UInt8).toNat = 255 := rfl
  have hvalue : (2 : Nat) + (31 + 255 * zeros + (255 : UInt8).toNat) = 255 * zeros + 288 := by omega
  rw [runMatch, Piece.size, Match.length, Count.value, hvalue, u32_eq (by omega), List.length_nil]

theorem length_runMatch (zeros : Nat) : (runMatch zeros).encode.length = zeros + 4 := by
  simp only [runMatch, Piece.encode, Match.encode, Count.tail, List.length_append,
    List.length_cons, List.length_nil, List.length_replicate, length_le16]

/-- So many of these matches, and an end marker. -/
def runMatches (zeros m : Nat) : List UInt8 :=
  (List.replicate m (runMatch zeros).encode).flatten ++ packEnd.encode

theorem length_runMatches (zeros m : Nat) :
    (runMatches zeros m).length = m * (zeros + 4) + 3 := by
  simp only [runMatches, packEnd_encode, List.length_append, List.length_flatten,
    List.map_replicate, List.sum_replicate_nat, length_runMatch, List.length_cons,
    List.length_nil]

theorem reads_runMatches {zeros : Nat} (hzeros : zeros ≤ 16843007) (ctx : Context) (m : Nat)
    {k : Nat} (hk : 1 ≤ k) :
    Reads ctx (runMatches zeros m) k true (k + m * (255 * zeros + 288)) := by
  induction m generalizing ctx k with
  | zero =>
      have hstop := Reads.stop ctx packEnd [] k
      rw [List.append_nil] at hstop
      rw [runMatches, List.replicate_zero, Nat.zero_mul]
      exact hstop
  | succ m ih =>
      have hrest := ih (runMatch zeros).after (show 1 ≤ k + (runMatch zeros).size by omega)
      have hsum : k + (runMatch zeros).size + m * (255 * zeros + 288) =
          k + (m + 1) * (255 * zeros + 288) := by
        rw [size_runMatch hzeros, Nat.succ_mul m]
        omega
      rw [hsum] at hrest
      rw [runMatches, List.replicate_succ, List.flatten_cons, List.append_assoc]
      exact .piece trivial (Or.inr hk) hrest

/-- An opening with one literal. -/
def oneLiteral : Opening := ⟨[0], by decide⟩

/-- One literal, then so many matches with a run of this length. -/
def runStream (zeros m : Nat) : List UInt8 := oneLiteral.encode ++ runMatches zeros m

theorem length_runStream (zeros m : Nat) :
    (runStream zeros m).length = 2 + (m * (zeros + 4) + 3) := by
  rw [runStream, List.length_append, length_runMatches]
  rfl

theorem unpack_runStream {zeros : Nat} (h : zeros ≤ 16843007) (m : Nat) :
    ∃ dst outlen, unpack (runStream zeros m) = .returned ⟨true, dst, outlen⟩ ∧
      dst.length = 1 + m * (255 * zeros + 288) := by
  have hreads : ReadsWhole (runStream zeros m) true (1 + m * (255 * zeros + 288)) :=
    .opening oneLiteral (reads_runMatches h _ m (Nat.le_refl 1))
  obtain ⟨⟨ok, dst, outlen⟩, hr, rfl, hlen⟩ := (unpack_returned_iff _ _ _).2 hreads
  exact ⟨dst, outlen, hr, hlen⟩

/-- The longest run of zero bytes that a count has room for, in as many matches as an `int` has. -/
def densest : List UInt8 := runStream 16843007 127

/-! ## Constant factors -/

/-- The factor bounds the output for all sources that are accepted. -/
def Bounds (c : Rat) : Prop :=
  ∀ (src dst : List UInt8) (outlen : Int), src.length < 2 ^ 31 →
    unpack src = .returned ⟨true, dst, outlen⟩ → (dst.length : Rat) ≤ c * src.length

/-- The output is at most 255 times as long as the source, and a constant factor bounds it exactly
from the ratio of the densest stream on. -/
theorem expansion_bounds :
    (∀ (src dst : List UInt8) (outlen : Int), unpack src = .returned ⟨true, dst, outlen⟩ →
      dst.length ≤ 255 * src.length) ∧
    ∀ c : Rat, Bounds c ↔ 545460818272 / 2139062402 ≤ c := by
  refine ⟨fun src dst outlen h => length_le_255 h, fun c => ⟨fun hall => ?_, fun hc => ?_⟩⟩
  · -- the densest stream is one of the sources
    obtain ⟨dst, outlen, hr, hdst⟩ := unpack_runStream (Nat.le_refl 16843007) 127
    have hlength : densest.length = 2139062402 := length_runStream 16843007 127
    have hle := hall densest dst outlen (by omega) hr
    rw [hdst, hlength] at hle
    refine Rat.not_lt.1 fun hlt => Rat.not_lt.2 hle ?_
    exact (Rat.lt_div_iff (by grind)).1 hlt
  · intro src dst outlen hsrc h
    have hle : (2139062402 : Rat) * dst.length ≤ 545460818272 * src.length := by
      exact_mod_cast length_le_of_int hsrc h
    have hscaled := Rat.mul_le_mul_of_nonneg_right hc (Rat.natCast_nonneg (a := src.length))
    grind

/-- The counts are too narrow for the ratio to come close to 255. -/
theorem not_sharp_255 :
    ¬ ((∀ (src dst : List UInt8) (outlen : Int), unpack src = .returned ⟨true, dst, outlen⟩ →
        dst.length ≤ 255 * src.length) ∧
      ∀ c : Rat, c < 255 → ∃ (src dst : List UInt8) (outlen : Int),
        unpack src = .returned ⟨true, dst, outlen⟩ ∧ c * src.length < dst.length) := by
  rintro ⟨-, hsharp⟩
  obtain ⟨src, dst, outlen, h, hlt⟩ := hsharp (4294967073 / 16843011) (by grind)
  have hle : (16843011 : Rat) * dst.length ≤ 4294967073 * src.length := by
    exact_mod_cast length_le h
  grind

end OpenRom.Pack
