import Mathlib.Algebra.Order.BigOperators.Group.List
import Mathlib.Algebra.Order.Field.Basic
import Mathlib.Algebra.Order.Ring.Abs
import Mathlib.Tactic.FieldSimp
import Mathlib.Tactic.Linarith
import Mathlib.Tactic.Positivity
import Mathlib.Tactic.Ring

/-! Least squares for a line, over an ordered field.

Everything comes from the sums of the points: the squared residuals of a line are a quadratic
form in its two coefficients (`residuals_eq`), and two normal equations say where it is
least. -/
namespace Thunderbolt.LeastSquares

variable {K : Type*} [Field K]

/-! ### Sums -/

/-- The squared deviations from `c`. -/
def deviations (xs : List K) (c : K) : K := (xs.map fun x => (x - c) ^ 2).sum

/-- The squared residuals of a line. -/
def residuals (points : List (K × K)) (intercept slope : K) : K :=
  (points.map fun p => (p.2 - (intercept + slope * p.1)) ^ 2).sum

def sumX (points : List (K × K)) : K := (points.map Prod.fst).sum

def sumY (points : List (K × K)) : K := (points.map Prod.snd).sum

def sumXX (points : List (K × K)) : K := (points.map fun p => p.1 * p.1).sum

def sumXY (points : List (K × K)) : K := (points.map fun p => p.1 * p.2).sum

/-- Zero if all abscissas are one. -/
def determinant (points : List (K × K)) : K :=
  points.length * sumXX points - sumX points * sumX points

variable {points : List (K × K)} {xs : List K} {a b c intercept slope : K}

theorem deviations_eq (xs : List K) (c : K) :
    deviations xs c = (xs.map fun x => x * x).sum - 2 * c * xs.sum + xs.length * c ^ 2 := by
  induction xs with
  | nil => simp [deviations]
  | cons x xs ih =>
    simp only [deviations, List.map_cons, List.sum_cons, List.length_cons, Nat.cast_succ] at ih ⊢
    rw [ih]
    ring

/-- A line and another, `a` higher and `b` steeper. -/
theorem residuals_add (points : List (K × K)) (intercept slope a b : K) :
    residuals points (intercept + a) (slope + b) = residuals points intercept slope +
      (points.length * a ^ 2 + 2 * a * b * sumX points + b ^ 2 * sumXX points) -
      2 * a * (sumY points - points.length * intercept - slope * sumX points) -
      2 * b * (sumXY points - intercept * sumX points - slope * sumXX points) := by
  induction points with
  | nil => simp [residuals, sumX, sumY, sumXX, sumXY]
  | cons p points ih =>
    simp only [residuals, sumX, sumY, sumXX, sumXY, List.map_cons, List.sum_cons, List.length_cons,
      Nat.cast_succ] at ih ⊢
    rw [ih]
    ring

/-- The residuals of a level line. -/
theorem residuals_level (points : List (K × K)) (c : K) :
    residuals points c 0 = deviations (points.map Prod.snd) c := by
  rw [residuals, deviations, List.map_map]
  congr 1
  apply List.map_congr_left
  intro p _
  simp

section Ordered
variable [LinearOrder K] [IsStrictOrderedRing K]

/-! ### Deviations -/

theorem sum_sq_nonneg {α : Type*} (l : List α) (f : α → K) : 0 ≤ (l.map fun x => f x ^ 2).sum := by
  apply List.sum_nonneg
  intro y hy
  obtain ⟨x, _, rfl⟩ := List.mem_map.mp hy
  exact sq_nonneg _

theorem sum_sq_eq_zero {α : Type*} {l : List α} {f : α → K} :
    (l.map fun x => f x ^ 2).sum = 0 ↔ ∀ x ∈ l, f x = 0 := by
  induction l with
  | nil => simp
  | cons x l ih =>
    rw [List.map_cons, List.sum_cons, add_eq_zero_iff_of_nonneg (sq_nonneg _) (sum_sq_nonneg l f), ih,
      sq_eq_zero_iff, List.forall_mem_cons]

theorem deviations_nonneg (xs : List K) (c : K) : 0 ≤ deviations xs c := sum_sq_nonneg xs _

theorem residuals_nonneg (points : List (K × K)) (intercept slope : K) :
    0 ≤ residuals points intercept slope := sum_sq_nonneg points _

theorem residuals_eq_zero :
    residuals points intercept slope = 0 ↔ ∀ p ∈ points, p.2 = intercept + slope * p.1 := by
  rw [residuals, sum_sq_eq_zero]
  exact forall₂_congr fun p _ => sub_eq_zero

/-- All entries are one. -/
def Constant (xs : List K) : Prop := ∀ x ∈ xs, ∀ y ∈ xs, x = y

theorem length_pos {α : Type*} {l : List α} (hne : l ≠ []) : (0 : K) < l.length :=
  Nat.cast_pos.mpr (List.length_pos_iff.mpr hne)

/-- Nothing deviates from the mean if all entries are one. -/
theorem deviations_mean_eq_zero (hne : xs ≠ []) : deviations xs (xs.sum / xs.length) = 0 ↔ Constant xs := by
  rw [deviations, sum_sq_eq_zero]
  constructor
  · intro h x hx y hy
    rw [sub_eq_zero.mp (h x hx), sub_eq_zero.mp (h y hy)]
  · intro h x hx
    have hsum : xs.sum = xs.length * x := by
      rw [List.sum_eq_card_nsmul xs x fun y hy => h y hy x hx, nsmul_eq_mul]
    rw [sub_eq_zero, hsum, mul_div_cancel_left₀ _ (length_pos hne).ne']

theorem determinant_eq (hne : points ≠ []) :
    determinant points = points.length *
      deviations (points.map Prod.fst) ((points.map Prod.fst).sum / (points.map Prod.fst).length) := by
  have hpos : (0 : K) < points.length := length_pos hne
  rw [deviations_eq, List.map_map, List.length_map, determinant, sumXX, sumX]
  simp only [Function.comp_def]
  field_simp
  ring

theorem determinant_nonneg (hne : points ≠ []) : 0 ≤ determinant points := by
  rw [determinant_eq hne]
  exact mul_nonneg (length_pos hne).le (deviations_nonneg _ _)

theorem determinant_eq_zero (hne : points ≠ []) :
    determinant points = 0 ↔ Constant (points.map Prod.fst) := by
  rw [determinant_eq hne, mul_eq_zero, or_iff_right (length_pos hne).ne',
    deviations_mean_eq_zero (by simpa using hne)]

/-! ### The line -/

/-- **The normal equations** are enough for the least residuals. -/
theorem residuals_le (hne : points ≠ []) (hlevel : points.length * intercept + slope * sumX points = sumY points)
    (hsteep : intercept * sumX points + slope * sumXX points = sumXY points) (a b : K) :
    residuals points intercept slope ≤ residuals points a b := by
  have hpos : (0 : K) < points.length := length_pos hne
  have hdet := determinant_nonneg hne
  have hadd := residuals_add points intercept slope (a - intercept) (b - slope)
  rw [add_sub_cancel, add_sub_cancel, ← hlevel, ← hsteep] at hadd
  have hform : 0 ≤ points.length * (a - intercept) ^ 2 + 2 * (a - intercept) * (b - slope) * sumX points +
      (b - slope) ^ 2 * sumXX points := by
    refine nonneg_of_mul_nonneg_right ?_ hpos
    have hsquares : 0 ≤ (points.length * (a - intercept) + sumX points * (b - slope)) ^ 2 +
        determinant points * (b - slope) ^ 2 := by positivity
    rw [determinant] at hsquares
    linarith
  rw [hadd]
  linarith

end Ordered
end Thunderbolt.LeastSquares
