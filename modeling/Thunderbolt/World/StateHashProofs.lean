import Mathlib.Data.List.OfFn
import Thunderbolt.World.StateHash

/-! The hash tells apart states that are one value apart.

What follows a differing value is fed injectively (`feed_injective` and its kin), and
the value itself leaves different hashes (`feed_ne` and its kin), so it is enough that
the walk passes every array. -/
namespace Thunderbolt.World
open Hash

namespace StateHasher

/-! ### What follows -/

theorem feed_injective (w : Word) : Function.Injective (feed · w) := feedBytes_injective _

theorem feedVec3_injective (v : Vec3 Word) : Function.Injective (feedVec3 · v) := by
  intro h h' heq
  simp only [feedVec3] at heq
  apply feed_injective v.x
  apply feed_injective v.y
  exact feed_injective v.z heq

theorem feedLod_injective (l : SimLod) : Function.Injective (feedLod · l) :=
  feed_injective (l.setWidth 32)

theorem foldl_injective {α : Type} {f : BitVec 64 → α → BitVec 64}
    (hf : ∀ x, Function.Injective (f · x)) (l : List α) : Function.Injective (l.foldl f ·) := by
  induction l with
  | nil => exact fun _ _ h => h
  | cons x l ih => exact ih.comp (hf x)

/-! ### The differing value -/

theorem feed_ne (h : BitVec 64) {w w' : Word} (hne : w ≠ w') : feed h w ≠ feed h w' := by
  intro heq
  have hbytes := feed_four_injective h heq
  simp only [List.cons.injEq, and_true] at hbytes
  obtain ⟨h₀, h₁, h₂, h₃⟩ := hbytes
  have hbyte : ∀ {k}, w.extractLsb' k 8 = w'.extractLsb' k 8 →
      w.toNat / 2 ^ k % 2 ^ 8 = w'.toNat / 2 ^ k % 2 ^ 8 := by
    intro k hk
    simpa [BitVec.extractLsb'_toNat, Nat.shiftRight_eq_div_pow] using congrArg BitVec.toNat hk
  have h₀ := hbyte h₀
  have h₁ := hbyte h₁
  have h₂ := hbyte h₂
  have h₃ := hbyte h₃
  have hw := w.isLt
  have hw' := w'.isLt
  exact hne (BitVec.eq_of_toNat_eq (by omega))

theorem feedVec3_ne (h : BitVec 64) {v w : Vec3 Word} (hne : v.Differ w) :
    feedVec3 h v ≠ feedVec3 h w := by
  unfold feedVec3
  cases hne with
  | x hx hy hz =>
    rw [hy, hz]
    exact (feed_injective _).ne ((feed_injective _).ne (feed_ne h hx))
  | y hx hy hz =>
    rw [hx, hz]
    exact (feed_injective _).ne (feed_ne _ hy)
  | z hx hy hz =>
    rw [hx, hy]
    exact feed_ne _ hz

theorem feedLod_ne (h : BitVec 64) {l l' : SimLod} (hne : l ≠ l') : feedLod h l ≠ feedLod h l' := by
  apply feed_ne
  intro heq
  apply hne
  have := congrArg (BitVec.setWidth 8) heq
  simpa using this

theorem feed_array_ne {α : Type} {R : α → α → Prop} {f : BitVec 64 → α → BitVec 64}
    (hf : ∀ x, Function.Injective (f · x)) (hR : ∀ h {x y}, R x y → f h x ≠ f h y) {count : ℕ}
    (h : BitVec 64) {a b : Fin count → α} (hab : ArrayDiffer R a b) :
    feed_array f h a ≠ feed_array f h b := by
  unfold feed_array
  induction count generalizing h with
  | zero =>
    obtain ⟨i, _⟩ := hab
    exact i.elim0
  | succ count ih =>
    obtain ⟨i, hi, hrest⟩ := hab
    rw [List.ofFn_succ, List.ofFn_succ, List.foldl_cons, List.foldl_cons]
    cases i using Fin.cases with
    | zero =>
      have htail : (fun j : Fin count => a j.succ) = fun j => b j.succ :=
        funext fun j => hrest _ (Fin.succ_ne_zero j)
      rw [htail]
      exact (foldl_injective hf _).ne (hR h hi)
    | succ i =>
      rw [hrest 0 (Fin.succ_ne_zero i).symm]
      exact ih _ ⟨i, hi, fun j hj => hrest _ (fun heq => hj (Fin.succ_injective _ heq))⟩

end StateHasher

open StateHasher

/-- **The hash detects a single corrupted value**, wherever it is. -/
theorem hash_detects {v n a : ℕ} {s s' : WorldState Word v n a} (h : s.Differ s') :
    hash_state s ≠ hash_state s' := by
  have hvec : ∀ {count : ℕ} (values : Fin count → Vec3 Word),
      Function.Injective (feed_array feedVec3 · values) :=
    fun values => foldl_injective feedVec3_injective _
  have hword : ∀ {count : ℕ} (values : Fin count → Word),
      Function.Injective (feed_array feed · values) :=
    fun values => foldl_injective feed_injective _
  have hlod : ∀ {count : ℕ} (values : Fin count → SimLod),
      Function.Injective (feed_array feedLod · values) :=
    fun values => foldl_injective feedLod_injective _
  unfold hash_state
  cases h with
  | player_position hp => exact feedVec3_ne _ hp
  -- Peel off the arrays walked after the one that differs.
  | vehicles hb =>
    apply (feedVec3_injective _).ne
    cases hb with
    | position hb | velocity hb =>
      repeat first | apply (hvec _).ne | apply (hword _).ne | apply (hlod _).ne
      exact feed_array_ne feedVec3_injective feedVec3_ne _ hb
    | heading hb | steer hb | throttle hb | engine_rpm hb | wheel_load hb | mass hb | lane hb =>
      repeat first | apply (hvec _).ne | apply (hword _).ne | apply (hlod _).ne
      exact feed_array_ne feed_injective feed_ne _ hb
    | lod hb =>
      repeat first | apply (hvec _).ne | apply (hword _).ne | apply (hlod _).ne
      exact feed_array_ne feedLod_injective feedLod_ne _ hb
  | npcs hb =>
    apply (feedVec3_injective _).ne
    cases hb with
    | position hb | velocity hb | target hb =>
      repeat first | apply (hvec _).ne | apply (hword _).ne | apply (hlod _).ne
      exact feed_array_ne feedVec3_injective feedVec3_ne _ hb
    | speed hb | behaviour hb | nearest_distance hb | nearest_index hb =>
      repeat first | apply (hvec _).ne | apply (hword _).ne | apply (hlod _).ne
      exact feed_array_ne feed_injective feed_ne _ hb
    | lod hb =>
      repeat first | apply (hvec _).ne | apply (hword _).ne | apply (hlod _).ne
      exact feed_array_ne feedLod_injective feedLod_ne _ hb
  | aircraft hb =>
    apply (feedVec3_injective _).ne
    cases hb with
    | position hb | velocity hb =>
      repeat first | apply (hvec _).ne | apply (hword _).ne | apply (hlod _).ne
      exact feed_array_ne feedVec3_injective feedVec3_ne _ hb
    | heading hb | pitch hb | throttle hb | altitude hb | air_density hb | lift hb | drag hb | thrust hb | mass hb =>
      repeat first | apply (hvec _).ne | apply (hword _).ne | apply (hlod _).ne
      exact feed_array_ne feed_injective feed_ne _ hb

theorem hash_detects_heading :
    let s : WorldState Word 1 0 0 :=
      { vehicles := ⟨fun _ => ⟨1, 0, 2⟩, fun _ => ⟨0, 0, 0⟩, fun _ => 7, fun _ => 0, fun _ => 0,
          fun _ => 0, fun _ => 0, fun _ => 0, fun _ => .Full, fun _ => 3⟩
        npcs := ⟨nofun, nofun, nofun, nofun, nofun, nofun, nofun, nofun⟩
        aircraft := ⟨nofun, nofun, nofun, nofun, nofun, nofun, nofun, nofun, nofun, nofun, nofun⟩
        player_position := ⟨0, 0, 0⟩ }
    hash_state s ≠ hash_state {s with vehicles := {s.vehicles with heading := fun _ => 8}} :=
  hash_detects (.vehicles (.heading ⟨0, by decide, fun j hj => absurd (Subsingleton.elim j 0) hj⟩))

end Thunderbolt.World
