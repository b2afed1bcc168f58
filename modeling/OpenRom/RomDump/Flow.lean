import Mathlib.Algebra.Ring.Int.Defs
import Mathlib.Algebra.Ring.Nat
import OpenRom.Library.Loop

/-!
# Flows

The bytes that `romdump` has seen from one source to one destination. The buffer of a `Flow` starts
with 262000 bytes and is doubled when it is full, in an `unsigned int`: the doubling after
4292608000 bytes overflows, and `Append` then copies more than the new buffer holds. Up to there it
works (`Flow.append_eq`).
-/

set_option autoImplicit false

namespace OpenRom.RomDump

/-- `IPv4Address` -/
structure IPv4Address where
  address : UInt32
  port : UInt16
  deriving DecidableEq, Repr

/-- `Connection`, the key of the map of flows. Its order is a lexicographic one, so that two
connections are the same key only when they are equal. -/
structure Connection where
  source : IPv4Address
  dest : IPv4Address
  deriving DecidableEq, Repr

/-- A flow. Nothing reads the bytes before the current offset again, so only their number is
kept. -/
structure Flow where
  dataBufferSize : UInt32
  currentDataOffset : Nat
  left : List UInt8
  deriving DecidableEq, Repr

namespace Flow

/-- A flow as `main` makes it. -/
def fresh : Flow := ⟨262000, 0, []⟩

/-- `m_DataBufferUsed` -/
def dataBufferUsed (f : Flow) : Nat := f.currentDataOffset + f.left.length

/-- The loop of `Append`. There is no size when `memcpy` runs behind the end of the new buffer. -/
def resize (used length : UInt32) (size : UInt32) : Loop.Turn UInt32 (Option UInt32) :=
  if used + length > size then
    if used > size * 2 then .leave none else .again (size * 2)
  else .leave (some size)

/-- `Flow::Append`. The fuel is one turn for each bit of the size, which is zero after as many
doublings. -/
def append (f : Flow) (buffer : List UInt8) : Option Flow :=
  match Loop.run (resize (.ofNat f.dataBufferUsed) (.ofNat buffer.length)) 33 f.dataBufferSize with
  | some (some size) => some { f with dataBufferSize := size, left := f.left ++ buffer }
  | _ => none

/-- The largest size that the buffer can have. -/
def capacity : Nat := 4292608000

/-- The buffer has been doubled some times without an overflow, and holds the data. -/
structure Sound (f : Flow) : Prop where
  size_eq : ∃ k ≤ 14, f.dataBufferSize.toNat = 262000 * 2 ^ k
  used_le : f.dataBufferUsed ≤ f.dataBufferSize.toNat

theorem sound_fresh : fresh.Sound := ⟨⟨0, by decide, rfl⟩, by decide⟩

theorem Sound.size_le {f : Flow} (hf : f.Sound) : f.dataBufferSize.toNat ≤ capacity := by
  obtain ⟨k, hk, hsize⟩ := hf.size_eq
  have hpow : 2 ^ k ≤ 2 ^ 14 := Nat.pow_le_pow_right (by decide) hk
  rw [hsize, capacity]
  omega

/-- Within these bounds the sum in the condition of the loop does not wrap. -/
theorem lt_add_iff {used length size : UInt32} (hlen : length.toNat ≤ 131072)
    (hused : used.toNat ≤ size.toNat) (hle : size.toNat ≤ capacity) :
    used + length > size ↔ size.toNat < used.toNat + length.toNat := by
  have hsum : (used + length).toNat = used.toNat + length.toNat := by
    rw [UInt32.toNat_add]
    unfold capacity at hle
    omega
  rw [gt_iff_lt, UInt32.lt_iff_toNat_lt, hsum]

/-- The loop, from a size that can be doubled `n` more times: it is left with a size that is enough,
or in the overflow. -/
theorem run_resize (used length : UInt32) (hlen : length.toNat ≤ 131072) {n fuel : Nat}
    (hfuel : n < fuel) {size : UInt32} {k : Nat} (hk : k + n = 14)
    (hsize : size.toNat = 262000 * 2 ^ k) (hused : used.toNat ≤ size.toNat) :
    if used.toNat + length.toNat ≤ capacity then
      ∃ size' k', k' ≤ 14 ∧ size'.toNat = 262000 * 2 ^ k' ∧
        used.toNat + length.toNat ≤ size'.toNat ∧
          Loop.run (resize used length) fuel size = some (some size')
    else Loop.run (resize used length) fuel size = some none := by
  induction n generalizing fuel size k with
  | zero =>
      obtain ⟨m, rfl⟩ : ∃ m, fuel = m + 1 := ⟨fuel - 1, by omega⟩
      obtain rfl : k = 14 := by omega
      have hfull : size.toNat = capacity := hsize
      have hle := Nat.le_of_eq hfull
      rw [Loop.run, resize]
      by_cases hfits : used.toNat + length.toNat ≤ size.toNat
      · rw [if_pos (hfull ▸ hfits), if_neg (mt (lt_add_iff hlen hused hle).1 (by omega))]
        exact ⟨size, 14, Nat.le_refl _, hsize, hfits, rfl⟩
      · -- twice the largest size is less than what has to be copied
        have hdouble : (size * 2).toNat = 4290248704 := by
          rw [UInt32.toNat_mul, hsize]
          rfl
        have hfault : used > size * 2 := by
          rw [gt_iff_lt, UInt32.lt_iff_toNat_lt, hdouble]
          unfold capacity at hfull
          omega
        rw [if_neg (by omega), if_pos ((lt_add_iff hlen hused hle).2 (by omega)),
          if_pos hfault]
  | succ n ih =>
      obtain ⟨m, rfl⟩ : ∃ m, fuel = m + 1 := ⟨fuel - 1, by omega⟩
      have hpow : 2 ^ (k + 1) = 2 * 2 ^ k := by rw [Nat.pow_succ, Nat.mul_comm]
      have hbound : 2 ^ (k + 1) ≤ 2 ^ 14 := Nat.pow_le_pow_right (by decide) (by omega)
      have hle : size.toNat ≤ capacity := by
        unfold capacity
        omega
      rw [Loop.run, resize]
      by_cases hfits : used.toNat + length.toNat ≤ size.toNat
      · -- there is space already
        rw [if_pos (Nat.le_trans hfits hle), if_neg (mt (lt_add_iff hlen hused hle).1 (by omega))]
        exact ⟨size, k, by omega, hsize, hfits, rfl⟩
      · have hdouble : (size * 2).toNat = 262000 * 2 ^ (k + 1) := by
          have htwo : (2 : UInt32).toNat = 2 := rfl
          rw [UInt32.toNat_mul, hsize, htwo, Nat.mod_eq_of_lt]
          · omega
          · omega
        have hcopy : ¬ used > size * 2 := by
          rw [gt_iff_lt, UInt32.lt_iff_toNat_lt, hdouble]
          omega
        rw [if_pos ((lt_add_iff hlen hused hle).2 (by omega)), if_neg hcopy]
        exact ih (by omega) (by omega) hdouble (by omega)

/-- `Append` works as long as the flow stays within the largest size. -/
theorem append_eq {f : Flow} (hf : f.Sound) {buffer : List UInt8} (hlen : buffer.length ≤ 131072) :
    if f.dataBufferUsed + buffer.length ≤ capacity then
      ∃ f', f.append buffer = some f' ∧ f'.Sound ∧ f'.left = f.left ++ buffer ∧
        f'.currentDataOffset = f.currentDataOffset
    else f.append buffer = none := by
  obtain ⟨k, hk, hsize⟩ := hf.size_eq
  have hle := Nat.le_trans hf.used_le hf.size_le
  have hword : UInt32.size = 2 ^ 32 := rfl
  have hlength : (UInt32.ofNat buffer.length).toNat = buffer.length :=
    UInt32.toNat_ofNat_of_lt' (by omega)
  have hused : (UInt32.ofNat f.dataBufferUsed).toNat = f.dataBufferUsed := by
    unfold capacity at hle
    exact UInt32.toNat_ofNat_of_lt' (by omega)
  have hrun := run_resize (.ofNat f.dataBufferUsed) (.ofNat buffer.length)
    (by rw [hlength]; exact hlen) (n := 14 - k) (show 14 - k < 33 by omega) (by omega) hsize
    (by rw [hused]; exact hf.used_le)
  rw [hlength, hused] at hrun
  split at hrun
  next hfits =>
    obtain ⟨size', k', hk', hsize', henough, hrun⟩ := hrun
    rw [if_pos hfits]
    refine ⟨{ f with dataBufferSize := size', left := f.left ++ buffer }, ?_,
      ⟨⟨k', hk', hsize'⟩, ?_⟩, rfl, rfl⟩
    · rw [append, hrun]
    · rw [dataBufferUsed, List.length_append, ← Nat.add_assoc]
      exact henough
  next hfull =>
    rw [if_neg hfull, append, hrun]

/-- What is processed only moves the current offset. -/
def process (f : Flow) (rest : List UInt8) : Flow :=
  { f with currentDataOffset := f.currentDataOffset + (f.left.length - rest.length), left := rest }

theorem dataBufferUsed_process {f : Flow} {rest : List UInt8}
    (hrest : rest.length ≤ f.left.length) : (f.process rest).dataBufferUsed = f.dataBufferUsed := by
  simp only [process, dataBufferUsed]
  omega

theorem Sound.process {f : Flow} (hf : f.Sound) {rest : List UInt8}
    (hrest : rest.length ≤ f.left.length) : (f.process rest).Sound :=
  ⟨hf.size_eq, by rw [dataBufferUsed_process hrest]; exact hf.used_le⟩

end Flow

end OpenRom.RomDump
