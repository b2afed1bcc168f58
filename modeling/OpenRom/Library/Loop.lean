/-!
# Loops with a result

A loop is a function `turn` from the loop state to either the next state or the value with which the
loop is left. `run` executes it with fuel and is computable; `Ends` is the fuel-free relation "the
loop started here is left with this value". A measure that every turn lowers makes the two agree
(`Ends.of_run`, `run_of_ends`) and makes every run end (`exists_ends`).
-/

set_option autoImplicit false

namespace Loop

universe u v

/-- One turn: go on with a new state, or leave the loop with a result. -/
inductive Turn (σ : Type u) (ρ : Type v) where
  | again (s : σ)
  | leave (r : ρ)

variable {σ : Type u} {ρ : Type v} (turn : σ → Turn σ ρ)

/-- At most `n` turns; `none` when the loop has not been left by then. -/
def run : Nat → σ → Option ρ
  | 0, _ => none
  | n + 1, s =>
      match turn s with
      | .again s' => run n s'
      | .leave r => some r

/-- The loop started in a state is left with a result. -/
inductive Ends : σ → ρ → Prop
  | leave {s : σ} {r : ρ} : turn s = .leave r → Ends s r
  | again {s s' : σ} {r : ρ} : turn s = .again s' → Ends s' r → Ends s r

/-- The states that the loop comes through. -/
inductive Reaches : σ → σ → Prop
  | refl (s : σ) : Reaches s s
  | again {s s' s'' : σ} : turn s = .again s' → Reaches s' s'' → Reaches s s''

variable {turn}

theorem ends_iff_of_leave {s : σ} {r₀ r : ρ} (h : turn s = .leave r₀) :
    Ends turn s r ↔ r = r₀ := by
  constructor
  · intro he
    cases he with
    | leave h' => rw [h] at h'; exact (Turn.leave.inj h').symm
    | again h' _ => rw [h] at h'; cases h'
  · rintro rfl
    exact .leave h

theorem ends_iff_of_again {s s' : σ} {r : ρ} (h : turn s = .again s') :
    Ends turn s r ↔ Ends turn s' r := by
  constructor
  · intro he
    cases he with
    | leave h' => rw [h] at h'; cases h'
    | again h' he' => rw [h] at h'; exact Turn.again.inj h' ▸ he'
  · exact .again h

/-- A loop is left with at most one result. -/
theorem Ends.unique {s : σ} {r r' : ρ} (h : Ends turn s r) (h' : Ends turn s r') : r = r' := by
  induction h with
  | leave ht => exact ((ends_iff_of_leave ht).1 h').symm
  | again ht _ ih => exact ih ((ends_iff_of_again ht).1 h')

theorem Ends.of_run {n : Nat} {s : σ} {r : ρ} (h : run turn n s = some r) : Ends turn s r := by
  induction n generalizing s with
  | zero => simp [run] at h
  | succ n ih =>
      unfold run at h
      cases ht : turn s with
      | again s' =>
          rw [ht] at h
          exact .again ht (ih h)
      | leave r₀ =>
          rw [ht] at h
          cases h
          exact .leave ht

/-- The invariant rule: what every turn keeps, from the states the loop comes through, holds when
the loop is left. -/
theorem Ends.preserves {P : σ → Prop} {Q : ρ → Prop} {s : σ} {r : ρ} (h : Ends turn s r) (hs : P s)
    (hagain : ∀ {s' s''}, Reaches turn s s' → P s' → turn s' = .again s'' → P s'')
    (hleave : ∀ {s' r'}, Reaches turn s s' → P s' → turn s' = .leave r' → Q r') : Q r := by
  induction h with
  | leave ht => exact hleave (.refl _) hs ht
  | again ht _ ih =>
      -- the states that the rest of the loop comes through are states of the whole loop
      apply ih (hagain (.refl _) hs ht)
      · intro s' s'' hreach
        exact hagain (.again ht hreach)
      · intro s' r' hreach
        exact hleave (.again ht hreach)

/-- What a turn comes to, under a function on the states and one on the results. -/
def Turn.map {σ' : Type u} {ρ' : Type v} (f : σ → σ') (g : ρ → ρ') : Turn σ ρ → Turn σ' ρ'
  | .again s => .again (f s)
  | .leave r => .leave (g r)

/-- Two loops whose turns agree are left alike. -/
theorem run_map {σ' : Type u} {ρ' : Type v} {turn' : σ' → Turn σ' ρ'} {f : σ → σ'} {g : ρ → ρ'}
    (hturn : ∀ s, turn' (f s) = (turn s).map f g) (n : Nat) (s : σ) :
    run turn' n (f s) = (run turn n s).map g := by
  induction n generalizing s with
  | zero => rfl
  | succ n ih =>
      rw [run, run, hturn]
      cases turn s with
      | again s' => exact ih s'
      | leave r => rfl

section Measure

variable {μ : σ → Nat} (hμ : ∀ s s', turn s = .again s' → μ s' < μ s)

include hμ

/-- A loop whose turns lower a measure is left. -/
theorem exists_ends (s : σ) : ∃ r, Ends turn s r := by
  -- the measure of the state is what the induction is on
  induction hk : μ s using Nat.strongRecOn generalizing s with
  | ind k ih =>
      cases ht : turn s with
      | leave r => exact ⟨r, .leave ht⟩
      | again s' =>
          obtain ⟨r, hr⟩ := ih (μ s') (hk ▸ hμ s s' ht) s' rfl
          exact ⟨r, .again ht hr⟩

theorem run_of_ends {s : σ} {r : ρ} (h : Ends turn s r) :
    ∀ n, μ s < n → run turn n s = some r := by
  induction h with
  | leave ht =>
      intro n hn
      -- there is fuel for one more turn, as the measure is below it
      obtain ⟨m, rfl⟩ : ∃ m, n = m + 1 := ⟨n - 1, by omega⟩
      simp [run, ht]
  | @again s s' r ht _ ih =>
      intro n hn
      obtain ⟨m, rfl⟩ : ∃ m, n = m + 1 := ⟨n - 1, by omega⟩
      have hlt := hμ s s' ht
      simp only [run, ht]
      exact ih m (by omega)

end Measure

end Loop
