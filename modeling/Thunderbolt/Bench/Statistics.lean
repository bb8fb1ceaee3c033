import Mathlib.Data.Rat.Cast.Order
import Mathlib.Tactic.LinearCombination
import Thunderbolt.Fitting.LeastSquares

/-! Summary statistics, and the line that is fitted.

A summary is of doubles. The fit is taken over the rationals, exactly; its abscissas
are task counts, so that a determinant that is not zero is far above the cutoff. -/
namespace Thunderbolt.Bench
open LeastSquares

/-! ### Summaries -/

structure Summary where
  sample_count : ℕ
  min : Float
  p25 : Float
  median : Float
  p75 : Float
  max : Float
  iqr : Float
  mean : Float

/-- By linear interpolation. -/
def percentile_sorted (sorted : List Float) (fraction : Float) : Float :=
  match sorted with
  | [] => 0.0
  | [x] => x
  | _ =>
    let position := fraction * Float.ofNat (sorted.length - 1)
    let lower := position.floor.toUInt64.toNat
    let upper := position.ceil.toUInt64.toNat
    let weight := position - Float.ofNat lower
    sorted.getD lower 0.0 * (1.0 - weight) + sorted.getD upper 0.0 * weight

def summarize (samples : List Float) : Summary :=
  if samples.isEmpty then ⟨0, 0.0, 0.0, 0.0, 0.0, 0.0, 0.0, 0.0⟩
  else
    let sorted := samples.mergeSort fun a b => a ≤ b
    let p25 := percentile_sorted sorted 0.25
    let p75 := percentile_sorted sorted 0.75
    { sample_count := samples.length
      min := sorted.headD 0.0
      p25
      median := percentile_sorted sorted 0.50
      p75
      max := sorted.getLastD 0.0
      iqr := p75 - p25
      mean := sorted.foldl (· + ·) 0.0 / Float.ofNat sorted.length }

/-! ### The fit -/

structure LinearFit where
  intercept : ℚ
  slope : ℚ
  r_squared : ℚ
  valid : Bool

/-- The accumulators of the first loop. -/
structure Sums where
  x : ℚ
  y : ℚ
  xx : ℚ
  xy : ℚ

def Sums.add (s : Sums) (p : ℚ × ℚ) : Sums :=
  ⟨s.x + p.1, s.y + p.2, s.xx + p.1 * p.1, s.xy + p.1 * p.2⟩

/-- `1e-12`. -/
def cutoff : ℚ := 1 / 10 ^ 12

def fit_linear (x y : List ℚ) : LinearFit :=
  if x.length ≠ y.length ∨ x.length < 2 then ⟨0, 0, 0, false⟩
  else
    let n : ℚ := x.length
    let sum := (x.zip y).foldl Sums.add ⟨0, 0, 0, 0⟩
    let denominator := n * sum.xx - sum.x * sum.x
    if |denominator| < cutoff then ⟨0, 0, 0, false⟩
    else
      let slope := (n * sum.xy - sum.x * sum.y) / denominator
      let intercept := (sum.y - slope * sum.x) / n
      let mean_y := sum.y / n
      let ss := (x.zip y).foldl (fun (ss : ℚ × ℚ) p =>
        let predicted := intercept + slope * p.1
        (ss.1 + (p.2 - mean_y) * (p.2 - mean_y), ss.2 + (p.2 - predicted) * (p.2 - predicted))) (0, 0)
      ⟨intercept, slope, if ss.1 > 0 then 1 - ss.2 / ss.1 else 0, true⟩

variable {x y : List ℚ} {points : List (ℚ × ℚ)}

/-! ### The loops -/

theorem foldl_add (points : List (ℚ × ℚ)) (s : Sums) : points.foldl Sums.add s =
    ⟨s.x + sumX points, s.y + sumY points, s.xx + sumXX points, s.xy + sumXY points⟩ := by
  induction points generalizing s with
  | nil => simp [sumX, sumY, sumXX, sumXY]
  | cons p points ih => simp [ih, Sums.add, sumX, sumY, sumXX, sumXY, add_assoc]

theorem foldl_squares (points : List (ℚ × ℚ)) (mean intercept slope : ℚ) (ss : ℚ × ℚ) :
    points.foldl (fun (ss : ℚ × ℚ) p =>
        let predicted := intercept + slope * p.1
        (ss.1 + (p.2 - mean) * (p.2 - mean), ss.2 + (p.2 - predicted) * (p.2 - predicted))) ss =
      (ss.1 + residuals points mean 0, ss.2 + residuals points intercept slope) := by
  induction points generalizing ss with
  | nil => simp [residuals]
  | cons p points ih =>
    rw [List.foldl_cons, ih]
    simp only [residuals, List.map_cons, List.sum_cons, zero_mul, add_zero]
    ext <;> ring

/-- The coefficients, where the fit has any. -/
def slopeOf (points : List (ℚ × ℚ)) : ℚ :=
  (points.length * sumXY points - sumX points * sumY points) / determinant points

def interceptOf (points : List (ℚ × ℚ)) : ℚ :=
  (sumY points - slopeOf points * sumX points) / points.length

/-- What the function returns, in terms of the sums. -/
theorem fit_linear_eq (hlength : x.length = y.length) (htwo : 2 ≤ x.length) :
    fit_linear x y =
      if |determinant (x.zip y)| < cutoff then ⟨0, 0, 0, false⟩
      else
        ⟨interceptOf (x.zip y), slopeOf (x.zip y),
          if residuals (x.zip y) (sumY (x.zip y) / (x.zip y).length) 0 > 0 then
            1 - residuals (x.zip y) (interceptOf (x.zip y)) (slopeOf (x.zip y)) /
              residuals (x.zip y) (sumY (x.zip y) / (x.zip y).length) 0
          else 0, true⟩ := by
  have hzip : (x.zip y).length = x.length := by simp [hlength]
  rw [fit_linear, if_neg (by omega)]
  simp only [foldl_add, foldl_squares, zero_add, interceptOf, slopeOf, determinant, hzip]

/-! ### The cutoff -/

/-- A determinant of integer abscissas is an integer. -/
theorem determinant_cast {x : List ℤ} (hzip : points.map Prod.fst = x.map Int.cast) :
    ∃ d : ℤ, determinant points = d := by
  have hlength : points.length = x.length := by simpa using congrArg List.length hzip
  have hx : sumX points = (x.sum : ℤ) := by
    rw [sumX, hzip]
    exact (map_list_sum (Int.castRingHom ℚ) x).symm
  have hxx : sumXX points = ((x.map fun a => a * a).sum : ℤ) := by
    have hsquares : points.map (fun p => p.1 * p.1) = (x.map Int.cast).map fun a : ℚ => a * a := by
      rw [← hzip, List.map_map]
      rfl
    rw [sumXX, hsquares]
    refine Eq.trans ?_ (map_list_sum (Int.castRingHom ℚ) (x.map fun a => a * a)).symm
    simp [Function.comp_def]
  exact ⟨x.length * (x.map fun a => a * a).sum - x.sum * x.sum, by
    rw [determinant, hx, hxx, hlength]
    push_cast
    rfl⟩

/-- So it is below the cutoff only if it is zero. -/
theorem determinant_lt_cutoff {x : List ℤ} (hne : points ≠ [])
    (hzip : points.map Prod.fst = x.map Int.cast) :
    |determinant points| < cutoff ↔ ∀ a ∈ x, ∀ b ∈ x, a = b := by
  have hconstant : Constant (points.map Prod.fst) ↔ ∀ a ∈ x, ∀ b ∈ x, a = b := by
    rw [hzip, Constant]
    simp
  rw [← hconstant, ← determinant_eq_zero hne]
  obtain ⟨d, hd⟩ := determinant_cast hzip
  constructor
  · intro hlt
    have hone : |d| < 1 := by
      have : (|d| : ℚ) < 1 := by
        rw [← hd]
        exact hlt.trans (by norm_num [cutoff])
      exact_mod_cast this
    rw [hd, Int.abs_lt_one_iff.mp hone, Int.cast_zero]
  · intro hzero
    rw [hzero, abs_zero]
    norm_num [cutoff]

/-! ### The line -/

section Valid
variable (hne : points ≠ []) (hdet : determinant points ≠ 0)
include hne

theorem level_eq :
    points.length * interceptOf points + slopeOf points * sumX points = sumY points := by
  have hpos : (points.length : ℚ) ≠ 0 := (length_pos hne).ne'
  rw [interceptOf, mul_div_cancel₀ _ hpos]
  ring

include hdet

theorem steep_eq :
    interceptOf points * sumX points + slopeOf points * sumXX points = sumXY points := by
  have hpos : (points.length : ℚ) ≠ 0 := (length_pos hne).ne'
  have hslope : slopeOf points * determinant points =
      points.length * sumXY points - sumX points * sumY points := div_mul_cancel₀ _ hdet
  have hlevel := level_eq hne
  rw [determinant] at hslope
  apply mul_left_cancel₀ hpos
  linear_combination hslope + sumX points * hlevel

/-- No line has smaller residuals. -/
theorem fit_le (a b : ℚ) :
    residuals points (interceptOf points) (slopeOf points) ≤ residuals points a b :=
  residuals_le hne (level_eq hne) (steep_eq hne hdet) a b

end Valid

/-- The part of the variation that the line explains. -/
theorem r_squared_range {total residual : ℚ} (hresidual : 0 ≤ residual) (hle : residual ≤ total) :
    0 ≤ (if total > 0 then 1 - residual / total else 0) ∧
      (if total > 0 then 1 - residual / total else 0) ≤ 1 ∧
      ((if total > 0 then 1 - residual / total else 0) = 1 ↔ total ≠ 0 ∧ residual = 0) := by
  split
  case isTrue htotal =>
    have hratio : residual / total ≤ 1 := (div_le_one htotal).mpr hle
    have hpos : 0 ≤ residual / total := div_nonneg hresidual htotal.le
    refine ⟨by linarith, by linarith, ?_⟩
    rw [sub_eq_self, div_eq_zero_iff, or_iff_left htotal.ne']
    exact ⟨fun h => ⟨htotal.ne', h⟩, And.right⟩
  case isFalse htotal =>
    have hzero : total = 0 := le_antisymm (not_lt.mp htotal) (hresidual.trans hle)
    simp [hzero]

/-- What is to be said of a fit to integer abscissas. -/
structure LeastSquaresFit (x : List ℤ) (y : List ℚ) (fit : LinearFit) : Prop where
  valid : fit.valid = true ↔ x.length = y.length ∧ 2 ≤ x.length ∧ ¬∀ a ∈ x, ∀ b ∈ x, a = b
  least : fit.valid = true → ∀ intercept slope : ℚ,
    residuals ((x.map Int.cast).zip y) fit.intercept fit.slope ≤
      residuals ((x.map Int.cast).zip y) intercept slope
  range : fit.valid = true → 0 ≤ fit.r_squared ∧ fit.r_squared ≤ 1
  /-- The line explains all of the variation, and there is some. -/
  perfect : fit.valid = true → (fit.r_squared = 1 ↔ (¬∀ a ∈ y, ∀ b ∈ y, a = b) ∧
    ∀ p ∈ (x.map Int.cast).zip y, p.2 = fit.intercept + fit.slope * p.1)

/-- **`fit_linear` is least squares**, for integer abscissas. -/
theorem fit_linear_correct (x : List ℤ) (y : List ℚ) :
    LeastSquaresFit x y (fit_linear (x.map Int.cast) y) := by
  by_cases hshape : x.length = y.length ∧ 2 ≤ x.length
  · obtain ⟨hlength, htwo⟩ := hshape
    have hlength' : (x.map (Int.cast : ℤ → ℚ)).length = y.length := by simpa using hlength
    have heq := fit_linear_eq hlength' (by simpa using htwo)
    set points := (x.map (Int.cast : ℤ → ℚ)).zip y with hpoints
    have hne : points ≠ [] := by
      rw [← List.length_pos_iff, hpoints, List.length_zip]
      omega
    have hfst : points.map Prod.fst = x.map Int.cast := List.map_fst_zip (by omega)
    have hsnd : points.map Prod.snd = y := List.map_snd_zip (by omega)
    have hcut := determinant_lt_cutoff hne hfst
    by_cases hconstant : ∀ a ∈ x, ∀ b ∈ x, a = b
    · rw [if_pos (hcut.mpr hconstant)] at heq
      rw [heq]
      exact ⟨⟨nofun, fun h => absurd hconstant h.2.2⟩, nofun, nofun, nofun⟩
    · rw [if_neg (mt hcut.mp hconstant)] at heq
      rw [heq]
      have hdet : determinant points ≠ 0 := by
        rw [Ne, determinant_eq_zero hne, hfst]
        simpa [Constant] using hconstant
      have hmean : sumY points / points.length = (points.map Prod.snd).sum / (points.map Prod.snd).length := by
        rw [sumY, List.length_map]
      have htotal : residuals points (sumY points / points.length) 0 = 0 ↔ ∀ a ∈ y, ∀ b ∈ y, a = b := by
        rw [residuals_level, hmean, deviations_mean_eq_zero (by simpa using hne), hsnd, Constant]
      obtain ⟨hnonneg, hle, hone⟩ :=
        r_squared_range (residuals_nonneg points _ _) (fit_le hne hdet (sumY points / points.length) 0)
      refine ⟨⟨fun _ => ⟨hlength, htwo, hconstant⟩, fun _ => rfl⟩, fun _ => fit_le hne hdet,
        fun _ => ⟨hnonneg, hle⟩, fun _ => ?_⟩
      rw [hone, Ne, htotal, residuals_eq_zero]
  · have hinvalid : fit_linear (x.map Int.cast) y = ⟨0, 0, 0, false⟩ := by
      rw [fit_linear, if_pos]
      rw [List.length_map]
      omega
    rw [hinvalid]
    exact ⟨⟨nofun, fun h => absurd ⟨h.1, h.2.1⟩ hshape⟩, nofun, nofun, nofun⟩

/-- Three points on a line. -/
theorem fit_linear_correct_line : (fit_linear ([0, 1, 2].map Int.cast) [1, 3, 5]).r_squared = 1 := by
  have hfit := fit_linear_correct [0, 1, 2] [1, 3, 5]
  refine (hfit.perfect (hfit.valid.mpr ⟨rfl, by decide, by decide⟩)).mpr ⟨by norm_num, ?_⟩
  norm_num [fit_linear, Sums.add, cutoff]

end Thunderbolt.Bench
