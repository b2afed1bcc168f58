import Mathlib.Data.List.Basic

/-!
# Numbers at the front of a string

What the functions of the `strtol` family read: blanks, a sign, the prefix of a hexadecimal number,
and digits, of which there has to be one (`scan`). `code` is the number of a character. Where the
text is digits up to another character, it is their number that is read (`scan_digits`).
-/

set_option autoImplicit false

namespace Numeral

universe u

variable {α : Type u} (code : α → Nat)

/-- `isspace` in the C locale. -/
def isSpace (c : Nat) : Bool := c = 0x20 ∨ (0x09 ≤ c ∧ c ≤ 0x0d)

/-- The value of a digit, below the base. -/
def digit (base c : Nat) : Option Nat :=
  let v :=
    if 0x30 ≤ c ∧ c ≤ 0x39 then c - 0x30
    else if 0x41 ≤ c ∧ c ≤ 0x5a then c - 0x41 + 10
    else if 0x61 ≤ c ∧ c ≤ 0x7a then c - 0x61 + 10
    else base
  if v < base then some v else none

/-- The digits at the front: their value with what came before, and what follows them. -/
def digits (base : Nat) : Nat → List α → Nat × List α
  | v, [] => (v, [])
  | v, c :: cs =>
      match digit base (code c) with
      | some d => digits base (v * base + d) cs
      | none => (v, c :: cs)

/-- What follows a sign, and whether it is a minus. -/
def skipSign : List α → Bool × List α
  | [] => (false, [])
  | c :: cs =>
      if code c = 0x2d then (true, cs) else if code c = 0x2b then (false, cs) else (false, c :: cs)

/-- What follows the prefix of a hexadecimal number, if there is one and a digit behind it. -/
def skipPrefix : List α → Option (List α)
  | a :: x :: c :: cs =>
      if code a = 0x30 ∧ (code x = 0x78 ∨ code x = 0x58) ∧ (digit 16 (code c)).isSome then
        some (c :: cs)
      else none
  | _ => none

/-- The base and the digits; with 0 for the base, it is the number that shows it. -/
def detectBase (base : Nat) (s : List α) : Nat × List α :=
  match skipPrefix code s with
  | some cs => if base = 0 ∨ base = 16 then (16, cs) else (base, s)
  | none => (if base ≠ 0 then base else if s.head?.map code = some 0x30 then 8 else 10, s)

/-- The number at the front, whether there is a minus before it, and the rest of the string. -/
def scan (base : Nat) (s : List α) : Option (Bool × Nat × List α) :=
  let (negative, t) := skipSign code (s.dropWhile fun c => isSpace (code c))
  let (base, t) := detectBase code base t
  let (v, rest) := digits code base 0 t
  if rest.length = t.length then none else some (negative, v, rest)

/-! ## Digits -/

/-- The characters that are digits of some base. -/
theorem range_of_digit {base c d : Nat} (hc : digit base c = some d) :
    (0x30 ≤ c ∧ c ≤ 0x39) ∨ (0x41 ≤ c ∧ c ≤ 0x5a) ∨ (0x61 ≤ c ∧ c ≤ 0x7a) := by
  unfold digit at hc
  by_cases hdec : 0x30 ≤ c ∧ c ≤ 0x39
  · exact Or.inl hdec
  by_cases hupper : 0x41 ≤ c ∧ c ≤ 0x5a
  · exact Or.inr (Or.inl hupper)
  by_cases hlower : 0x61 ≤ c ∧ c ≤ 0x7a
  · exact Or.inr (Or.inr hlower)
  · simp only [if_neg hdec, if_neg hupper, if_neg hlower, Nat.lt_irrefl, if_false] at hc
    cases hc

/-- No digit up to base sixteen is an `x`. -/
theorem digit_ne_prefix {base : Nat} (hbase : base ≤ 16) {c d : Nat} (hc : digit base c = some d) :
    c ≠ 0x78 ∧ c ≠ 0x58 := by
  constructor
  · rintro rfl
    simp [digit] at hc
    omega
  · rintro rfl
    simp [digit] at hc
    omega

/-- The characters are digits of the base. -/
def AllDigits (base : Nat) (ds : List α) : Prop := ∀ c ∈ ds, ∃ d, digit base (code c) = some d

/-- No digit comes next. -/
def Stops (base : Nat) (rest : List α) : Prop := ∀ c ∈ rest.head?, digit base (code c) = none

/-- The number that the digits make, behind one that has been read already. -/
def numberFrom (base v : Nat) (ds : List α) : Nat :=
  ds.foldl (fun v c => v * base + (digit base (code c)).getD 0) v

variable {code} {base : Nat} {ds rest : List α}

theorem numberFrom_append (v : Nat) (ds es : List α) :
    numberFrom code base v (ds ++ es) = numberFrom code base (numberFrom code base v ds) es :=
  List.foldl_append

theorem stops_cons {c : α} (hc : digit base (code c) = none) (cs : List α) :
    Stops code base (c :: cs) := by
  intro d hd
  cases hd
  exact hc

/-- The digits are read up to where they stop. -/
theorem digits_eq (hds : AllDigits code base ds) (hstop : Stops code base rest) (v : Nat) :
    digits code base v (ds ++ rest) = (numberFrom code base v ds, rest) := by
  induction ds generalizing v with
  | nil =>
      cases rest with
      | nil => rfl
      | cons c cs => simp [digits, hstop c rfl, numberFrom]
  | cons d ds ih =>
      obtain ⟨n, hn⟩ := hds d List.mem_cons_self
      rw [List.cons_append, digits, hn]
      refine (ih (fun c hc => hds c (List.mem_cons_of_mem _ hc)) _).trans ?_
      simp [numberFrom, hn]

/-! ## Numbers -/

/-- Digits are not taken for a prefix, unless there is one of them only. -/
theorem skipPrefix_digits (hbase : base ≤ 16) {a b : α} {d : Nat}
    (hb : digit base (code b) = some d) (cs : List α) : skipPrefix code (a :: b :: cs) = none := by
  obtain ⟨hx, hX⟩ := digit_ne_prefix hbase hb
  cases cs with
  | nil => rfl
  | cons c cs => exact if_neg fun h => h.2.1.elim hx hX

theorem detectBase_eq (hpos : 0 < base) {s : List α}
    (hskip : base = 16 → skipPrefix code s = none) : detectBase code base s = (base, s) := by
  unfold detectBase
  by_cases hsixteen : base = 16
  · simp only [hskip hsixteen, if_pos (Nat.ne_of_gt hpos)]
  · cases skipPrefix code s with
    | none => simp only [if_pos (Nat.ne_of_gt hpos)]
    | some cs => exact if_neg (by omega)

/-- Where there is neither a blank nor a sign, the digits are next. -/
theorem scan_cons (hpos : 0 < base) {c : α} {cs : List α} (hspace : isSpace (code c) = false)
    (hminus : code c ≠ 0x2d) (hplus : code c ≠ 0x2b)
    (hskip : base = 16 → skipPrefix code (c :: cs) = none) :
    scan code base (c :: cs) =
      if (digits code base 0 (c :: cs)).2.length = (c :: cs).length then none
      else some (false, digits code base 0 (c :: cs)) := by
  have hdrop : (c :: cs).dropWhile (fun c => isSpace (code c)) = c :: cs := by
    rw [List.dropWhile_cons, hspace]
    rfl
  have hsign : skipSign code (c :: cs) = (false, c :: cs) := by
    rw [skipSign, if_neg hminus, if_neg hplus]
  simp only [scan, hdrop, hsign, detectBase_eq hpos hskip]

theorem scan_digits (hpos : 0 < base) (hds : AllDigits code base ds) (hne : ds ≠ [])
    (hstop : Stops code base rest) (hskip : base = 16 → skipPrefix code (ds ++ rest) = none) :
    scan code base (ds ++ rest) = some (false, numberFrom code base 0 ds, rest) := by
  obtain ⟨d, ds, rfl⟩ := List.exists_cons_of_ne_nil hne
  obtain ⟨n, hn⟩ := hds d List.mem_cons_self
  have hrange := range_of_digit hn
  have hspace : isSpace (code d) = false := by
    simp only [isSpace, decide_eq_false_iff_not]
    omega
  have hread := digits_eq hds hstop 0
  rw [List.cons_append] at hskip hread ⊢
  rw [scan_cons hpos hspace (by omega) (by omega) hskip, hread, if_neg]
  simp
  omega

/-- Without a digit nothing is read. -/
theorem scan_none (hpos : 0 < base) {c : α} (hspace : isSpace (code c) = false)
    (hminus : code c ≠ 0x2d) (hplus : code c ≠ 0x2b) (hzero : code c ≠ 0x30)
    (hc : digit base (code c) = none) (cs : List α) : scan code base (c :: cs) = none := by
  have hskip : skipPrefix code (c :: cs) = none := by
    unfold skipPrefix
    split
    next a x b bs heq =>
      cases heq
      exact if_neg fun h => hzero h.1
    · rfl
  rw [scan_cons hpos hspace hminus hplus fun _ => hskip, digits, hc]
  exact if_pos rfl

end Numeral
