/-!
# Computations that allocate

A computation that asks for arrays, one after the other, and goes on when it gets what it has asked
for. At the first array that it does not get it ends in an exception. So there is a result exactly
when all that it asks for is granted (`run_eq_some_iff`), and what it asks for does not depend on
what is granted.
-/

set_option autoImplicit false

namespace Allocation

universe u v

/-- `new T[count]`, with the size of an element. -/
structure Request where
  count : Int
  size : Nat
  deriving DecidableEq, Repr

/-- A computation, as far as its next request. -/
inductive Alloc (α : Type u) : Type u
  | done (a : α)
  | new (r : Request) (next : Alloc α)

namespace Alloc

variable {α : Type u} {β : Type v}

protected def bind {β : Type u} : Alloc α → (α → Alloc β) → Alloc β
  | done a, f => f a
  | new r next, f => new r (next.bind f)

instance : Monad Alloc where
  pure := done
  bind := Alloc.bind

/-- A request, and nothing else. -/
def ask (count : Int) (size : Nat) : Alloc Unit := new ⟨count, size⟩ (done ())

/-- What it comes to when it gets all that it asks for. -/
def result : Alloc α → α
  | done a => a
  | new _ next => next.result

/-- What it asks for then, in turn. -/
def requests : Alloc α → List Request
  | done _ => []
  | new r next => r :: next.requests

/-- What it comes to, when these requests are granted. Nothing, when it ends in an exception. -/
def run (grants : Request → Bool) : Alloc α → Option α
  | done a => some a
  | new r next => if grants r then next.run grants else none

@[simp] theorem result_pure (a : α) : (pure a : Alloc α).result = a := rfl

@[simp] theorem result_bind {β : Type u} (p : Alloc α) (f : α → Alloc β) :
    (p >>= f).result = (f p.result).result := by
  induction p with
  | done a => rfl
  | new r next ih => exact ih

theorem bind_assoc {β γ : Type u} (p : Alloc α) (f : α → Alloc β) (g : β → Alloc γ) :
    (p >>= f) >>= g = p >>= fun a => f a >>= g := by
  induction p with
  | done a => rfl
  | new r next ih => exact congrArg (new r) ih

/-- What comes next depends on the result only. -/
theorem bind_congr {β : Type u} {p : Alloc α} {f g : α → Alloc β}
    (h : f p.result = g p.result) : p >>= f = p >>= g := by
  induction p with
  | done a => exact h
  | new r next ih => exact congrArg (new r) (ih h)

theorem run_bind {β : Type u} (grants : Request → Bool) (p : Alloc α) (f : α → Alloc β) :
    (p >>= f).run grants = (p.run grants).bind fun a => (f a).run grants := by
  induction p with
  | done a => rfl
  | new r next ih =>
      have hnew : ((new r next >>= f : Alloc β)).run grants =
          if grants r then (next >>= f).run grants else none := rfl
      rw [hnew, run]
      by_cases hr : grants r = true
      · rw [if_pos hr, if_pos hr, ih]
      · rw [if_neg hr, if_neg hr]
        rfl

/-- There is a result exactly when all requests are granted. -/
theorem run_eq_some_iff {grants : Request → Bool} {p : Alloc α} {a : α} :
    p.run grants = some a ↔ (∀ r ∈ p.requests, grants r = true) ∧ p.result = a := by
  induction p with
  | done b => simp [run, requests, result]
  | new r next ih =>
      rw [run, requests, result, List.forall_mem_cons]
      by_cases hr : grants r = true
      · rw [if_pos hr, ih, and_iff_right hr]
      · rw [if_neg hr]
        exact iff_of_false nofun fun hall => hr hall.1.1

/-- And an exception otherwise. -/
theorem run_eq_none_iff {grants : Request → Bool} {p : Alloc α} :
    p.run grants = none ↔ ∃ r ∈ p.requests, grants r = false := by
  constructor
  · intro hnone
    refine Decidable.byContradiction fun hnot => ?_
    have hall : ∀ r ∈ p.requests, grants r = true := by
      intro r hr
      cases hg : grants r with
      | true => rfl
      | false => exact absurd ⟨r, hr, hg⟩ hnot
    rw [run_eq_some_iff.2 ⟨hall, rfl⟩] at hnone
    cases hnone
  · rintro ⟨r, hr, hg⟩
    refine Option.eq_none_iff_forall_ne_some.2 fun a ha => ?_
    rw [(run_eq_some_iff.1 ha).1 r hr] at hg
    cases hg

end Alloc

end Allocation
