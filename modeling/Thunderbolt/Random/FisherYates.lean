import Mathlib.Data.List.Perm.Basic
import Mathlib.Data.Nat.Notation

/-! The Fisher–Yates shuffle, by exchanges.

Whatever the generator returns, and however a return value is cut down to a position, the
list is permuted. -/
namespace Thunderbolt.Random

variable {α : Type*}

/-- `std::swap`, of two elements of a list. -/
def exchange (l : List α) (i j : ℕ) : List α :=
  match l[i]?, l[j]? with
  | some x, some y => (l.set i y).set j x
  | _, _ => l

theorem exchange_perm (l : List α) (i j : ℕ) : (exchange l i j).Perm l := by
  unfold exchange
  split
  case h_1 x y hi hj =>
    obtain ⟨hilt, rfl⟩ := List.getElem?_eq_some_iff.mp hi
    obtain ⟨hjlt, rfl⟩ := List.getElem?_eq_some_iff.mp hj
    exact List.set_set_perm hilt hjlt
  case h_2 => exact .refl _

/-- From position `k - 1` down, with the return values of the generator from `drawn` on: the list,
and how many have been used. -/
def shuffle (rng : ℕ → ℕ) : ℕ → List α → ℕ → List α × ℕ
  | 0, order, drawn | 1, order, drawn => (order, drawn)
  | k + 2, order, drawn => shuffle rng (k + 1) (exchange order (k + 1) (rng drawn % (k + 2))) (drawn + 1)

theorem shuffle_perm (rng : ℕ → ℕ) (k : ℕ) (order : List α) (drawn : ℕ) :
    (shuffle rng k order drawn).1.Perm order := by
  induction k generalizing order drawn with
  | zero => exact .refl _
  | succ k ih =>
    cases k with
    | zero => exact .refl _
    | succ k => exact (ih _ _).trans (exchange_perm _ _ _)

end Thunderbolt.Random
