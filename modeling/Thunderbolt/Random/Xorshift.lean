import Mathlib.Logic.Function.Iterate

/-! Marsaglia's xorshift, for any width and any three shifts.

Each of the three steps adds the state, shifted, to the state. Two states that it takes to
one differ by a word that equals itself shifted, and so by zero: shift it often
enough. -/
namespace Thunderbolt.Random

variable {w a : ℕ} {x y z : BitVec w}

/-! ### One shift -/

theorem xor_exchange {p q : BitVec w} (h : x ^^^ p = y ^^^ q) : p ^^^ q = x ^^^ y := by
  have hp : p = x ^^^ (y ^^^ q) := by rw [← h, ← BitVec.xor_assoc, BitVec.xor_self, BitVec.zero_xor]
  rw [hp, ← BitVec.xor_assoc, BitVec.xor_assoc, BitVec.xor_self, BitVec.xor_zero]

/-- A word that equals itself shifted is zero. -/
theorem eq_zero_of_shiftLeft (ha : 0 < a) (hz : z <<< a = z) : z = 0#w := by
  have hmany : ∀ k, z <<< (a * k) = z := by
    intro k
    induction k with
    | zero => simp
    | succ k ih => rw [Nat.mul_succ, BitVec.shiftLeft_add, ih, hz]
  rw [← hmany w]
  exact BitVec.shiftLeft_eq_zero (Nat.le_mul_of_pos_left w ha)

theorem eq_zero_of_ushiftRight (ha : 0 < a) (hz : z >>> a = z) : z = 0#w := by
  have hmany : ∀ k, z >>> (a * k) = z := by
    intro k
    induction k with
    | zero => simp
    | succ k ih => rw [Nat.mul_succ, BitVec.shiftRight_add, ih, hz]
  rw [← hmany w]
  exact BitVec.ushiftRight_eq_zero (Nat.le_mul_of_pos_left w ha)

theorem xor_shiftLeft_injective (ha : 0 < a) : Function.Injective fun x : BitVec w => x ^^^ x <<< a := by
  intro x y heq
  have hfixed : (x ^^^ y) <<< a = x ^^^ y := by
    rw [BitVec.shiftLeft_xor_distrib]
    exact xor_exchange heq
  exact BitVec.xor_eq_zero_iff.mp (eq_zero_of_shiftLeft ha hfixed)

theorem xor_ushiftRight_injective (ha : 0 < a) : Function.Injective fun x : BitVec w => x ^^^ x >>> a := by
  intro x y heq
  have hfixed : (x ^^^ y) >>> a = x ^^^ y := by
    rw [BitVec.ushiftRight_xor_distrib]
    exact xor_exchange heq
  exact BitVec.xor_eq_zero_iff.mp (eq_zero_of_ushiftRight ha hfixed)

/-! ### Three shifts -/

/-- Left, right and left again. -/
def xorshift (a b c : ℕ) (state : BitVec w) : BitVec w :=
  let state := state ^^^ state <<< a
  let state := state ^^^ state >>> b
  state ^^^ state <<< c

variable {b c : ℕ}

theorem xorshift_injective (ha : 0 < a) (hb : 0 < b) (hc : 0 < c) :
    Function.Injective (xorshift (w := w) a b c) :=
  (xor_shiftLeft_injective hc).comp ((xor_ushiftRight_injective hb).comp (xor_shiftLeft_injective ha))

@[simp] theorem xorshift_zero : xorshift a b c (0#w) = 0#w := by simp [xorshift]

/-- Zero is reached from zero only. -/
theorem xorshift_iterate_ne_zero (ha : 0 < a) (hb : 0 < b) (hc : 0 < c) (hx : x ≠ 0#w) (draws : ℕ) :
    (xorshift a b c)^[draws] x ≠ 0#w := by
  have hzero : (xorshift a b c)^[draws] (0#w) = 0#w := Function.iterate_fixed xorshift_zero draws
  intro heq
  exact hx ((xorshift_injective ha hb hc).iterate draws (heq.trans hzero.symm))

/-! ### Seeds -/

/-- A multiplier with an inverse keeps seeds apart. -/
theorem mul_injective {m inverse : BitVec w} (h : inverse * m = 1#w) : Function.Injective (m * ·) := by
  intro x y heq
  have hmul := congrArg (inverse * ·) heq
  simpa only [← BitVec.mul_assoc, h, BitVec.one_mul] using hmul

end Thunderbolt.Random
