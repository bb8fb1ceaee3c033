import Mathlib.Data.Int.ModEq
import Mathlib.Tactic.NormNum.IsCoprime
import Mathlib.Tactic.Ring

/-! FNV-1a with 64 bits, and what it cannot confuse.

A step is a bijection of the hash value, so two different values stay different
under a common suffix (`feedBytes_injective`). Four bytes fed to one value leave
different values when they differ: each byte displaces the value by less than
`256` before it is multiplied, and the prime, `2 ^ 40 + 435`, keeps four such
displacements apart (`displacements_apart`, `feed_four_injective`). -/
namespace Thunderbolt.Hash

abbrev Byte := BitVec 8

def prime : BitVec 64 := 0x100000001B3#64

def offsetBasis : BitVec 64 := 0xCBF29CE484222325#64

/-- One byte. -/
def step (h : BitVec 64) (b : Byte) : BitVec 64 := (h ^^^ b.setWidth 64) * prime

/-- Bytes, in order. -/
def feedBytes (h : BitVec 64) (bytes : List Byte) : BitVec 64 := bytes.foldl step h

/-! ### A common suffix -/

theorem prime_inverse : prime * 0xCE965057AFF6957B#64 = 1#64 := by decide

theorem step_injective (b : Byte) : Function.Injective (step · b) := by
  intro h h' heq
  have hmul := congrArg (· * 0xCE965057AFF6957B#64) heq
  simp only [step, BitVec.mul_assoc, prime_inverse, BitVec.mul_one] at hmul
  have hxor := congrArg (· ^^^ b.setWidth 64) hmul
  simpa [BitVec.xor_assoc] using hxor

theorem feedBytes_injective (bytes : List Byte) : Function.Injective (feedBytes · bytes) := by
  induction bytes with
  | nil => exact fun _ _ h => h
  | cons b bytes ih => exact fun h h' heq => step_injective b (ih heq)

/-! ### Four differing bytes -/

/-- What the byte adds to the value before the multiplication. -/
def displacement (h : BitVec 64) (b : Byte) : ℤ := (h ^^^ b.setWidth 64).toNat - h.toNat

/-- A byte changes only the low byte. -/
theorem displacement_eq (h : BitVec 64) (b : Byte) :
    ∃ low : ℕ, low < 256 ∧ displacement h b = low - (h.toNat % 256 : ℕ) := by
  refine ⟨(h ^^^ b.setWidth 64).toNat % 256, Nat.mod_lt _ (by norm_num), ?_⟩
  have hdiv : (h ^^^ b.setWidth 64).toNat / 2 ^ 8 = h.toNat / 2 ^ 8 := by
    have hb : (b.setWidth 64).toNat / 2 ^ 8 = 0 := by
      rw [BitVec.toNat_setWidth_of_le (by decide)]
      exact Nat.div_eq_of_lt b.isLt
    rw [BitVec.toNat_xor, Nat.xor_div_two_pow, hb, Nat.xor_zero]
  unfold displacement
  omega

theorem displacement_inj {h : BitVec 64} {b b' : Byte} (heq : displacement h b = displacement h b') :
    b = b' := by
  have hxor : (h ^^^ b.setWidth 64).toNat = (h ^^^ b'.setWidth 64).toNat := by
    unfold displacement at heq
    omega
  have := congrArg (fun x => (h ^^^ x).setWidth 8) (BitVec.eq_of_toNat_eq hxor)
  simpa [← BitVec.xor_assoc] using this

theorem step_modEq (h : BitVec 64) (b : Byte) :
    ((step h b).toNat : ℤ) ≡ (h.toNat + displacement h b) * 0x100000001B3 [ZMOD 2 ^ 64] := by
  have hstep : (step h b).toNat = (h ^^^ b.setWidth 64).toNat * 0x100000001B3 % 2 ^ 64 := by
    rw [step, BitVec.toNat_mul]
    rfl
  rw [hstep]
  unfold displacement
  push_cast
  rw [add_sub_cancel]
  exact Int.mod_modEq _ _

/-- Four small displacements, one step apart, do not cancel. -/
theorem displacements_apart {d₁ d₂ d₃ d₄ : ℤ} (h₁ : -256 < d₁ ∧ d₁ < 256)
    (h₂ : -511 < d₂ ∧ d₂ < 511) (h₃ : -511 < d₃ ∧ d₃ < 511) (h₄ : -511 < d₄ ∧ d₄ < 511)
    (hdvd : (2 ^ 64 : ℤ) ∣ ((d₁ * 0x100000001B3 + d₂) * 0x100000001B3 + d₃) * 0x100000001B3 + d₄) :
    d₁ = 0 ∧ d₂ = 0 ∧ d₃ = 0 ∧ d₄ = 0 := by
  obtain ⟨k, hk⟩ := hdvd
  -- The value below and above bit 40.
  obtain ⟨m, hm⟩ : ∃ m, 82312875 * d₁ + 189225 * d₂ + 435 * d₃ + d₄ +
      2 ^ 40 * (567675 * d₁ + 870 * d₂ + d₃) = 2 ^ 64 * m := by
    refine ⟨k - (2 ^ 56 * d₁ + 2 ^ 16 * 1305 * d₁ + 2 ^ 16 * d₂), ?_⟩
    rw [mul_sub, ← hk]
    ring
  have hlow : 82312875 * d₁ + 189225 * d₂ + 435 * d₃ + d₄ = 0 := by omega
  have hhigh : 567675 * d₁ + 870 * d₂ + d₃ = 2 ^ 24 * m := by omega
  obtain ⟨q₀, hq₀⟩ : ∃ q, d₄ = 435 * q := ⟨-(189225 * d₁ + 435 * d₂ + d₃), by omega⟩
  obtain ⟨q₁, hq₁⟩ : ∃ q, d₃ + q₀ = 435 * q := ⟨-(435 * d₁ + d₂), by omega⟩
  have hd₂ : d₂ = -435 * d₁ - q₁ := by omega
  have hm : m = 0 := by omega
  omega

/-- Two steps that leave one value: how far apart the values before them are. -/
theorem step_eq {h h' : BitVec 64} (b b' : Byte) {x : ℤ}
    (hx : (h.toNat : ℤ) - h'.toNat ≡ x [ZMOD 2 ^ 64]) :
    ((step h b).toNat : ℤ) - (step h' b').toNat ≡
      (x + (displacement h b - displacement h' b')) * 0x100000001B3 [ZMOD 2 ^ 64] := by
  have hsub := (step_modEq h b).sub (step_modEq h' b')
  refine hsub.trans ?_
  have heq : (h.toNat + displacement h b) * 0x100000001B3 -
      (h'.toNat + displacement h' b') * 0x100000001B3 =
      ((h.toNat : ℤ) - h'.toNat + (displacement h b - displacement h' b')) * 0x100000001B3 := by ring
  rw [heq]
  exact (hx.add_right _).mul_right _

theorem displacement_sub (h h' : BitVec 64) (b b' : Byte) :
    -511 < displacement h b - displacement h' b' ∧ displacement h b - displacement h' b' < 511 := by
  obtain ⟨low, hlow, heq⟩ := displacement_eq h b
  obtain ⟨low', hlow', heq'⟩ := displacement_eq h' b'
  rw [heq, heq']
  omega

theorem displacement_sub_same (h : BitVec 64) (b b' : Byte) :
    -256 < displacement h b - displacement h b' ∧ displacement h b - displacement h b' < 256 := by
  obtain ⟨low, hlow, heq⟩ := displacement_eq h b
  obtain ⟨low', hlow', heq'⟩ := displacement_eq h b'
  rw [heq, heq']
  omega

/-- **Four bytes are fed injectively**, from every value. -/
theorem feed_four_injective (h : BitVec 64) {b₁ b₂ b₃ b₄ c₁ c₂ c₃ c₄ : Byte}
    (heq : feedBytes h [b₁, b₂, b₃, b₄] = feedBytes h [c₁, c₂, c₃, c₄]) :
    [b₁, b₂, b₃, b₄] = [c₁, c₂, c₃, c₄] := by
  have hzero : (h.toNat : ℤ) - h.toNat ≡ 0 [ZMOD 2 ^ 64] := by rw [sub_self]
  have hfour := step_eq b₄ c₄ (step_eq b₃ c₃ (step_eq b₂ c₂ (step_eq b₁ c₁ hzero)))
  have hsame : step (step (step (step h b₁) b₂) b₃) b₄ = step (step (step (step h c₁) c₂) c₃) c₄ := heq
  rw [hsame, sub_self, zero_add] at hfour
  have hcoprime : IsCoprime (2 ^ 64 : ℤ) 0x100000001B3 := by norm_num
  have hdvd := hcoprime.dvd_of_dvd_mul_right (Int.modEq_zero_iff_dvd.mp hfour.symm)
  obtain ⟨h₁, h₂, h₃, h₄⟩ := displacements_apart (displacement_sub_same _ _ _)
    (displacement_sub _ _ _ _) (displacement_sub _ _ _ _) (displacement_sub _ _ _ _) hdvd
  obtain rfl := displacement_inj (sub_eq_zero.mp h₁)
  obtain rfl := displacement_inj (sub_eq_zero.mp h₂)
  obtain rfl := displacement_inj (sub_eq_zero.mp h₃)
  obtain rfl := displacement_inj (sub_eq_zero.mp h₄)
  rfl

end Thunderbolt.Hash
