import Mathlib.Algebra.Order.Field.Basic
import Mathlib.Algebra.Order.Ring.Rat
import Mathlib.Data.Fin.VecNotation
import Mathlib.Data.List.MinMax
import Mathlib.Tactic.FinCases
import Mathlib.Tactic.NormNum
import Mathlib.Tactic.Ring
import Thunderbolt.World.Simulation

/-! What perception finds.

An NPC looks at the `kPerceptionWindow` NPCs behind it, counting round the end of the
array, and takes the first of the nearest (`nearest_eq`). With more NPCs than the window
is long it never meets itself there. With fewer it does, at distance zero, and takes itself
for its nearest neighbour unless another stands in the same place
(`perception_nearest`). -/
namespace Thunderbolt.World
open FloatOps Vec3

variable {Float K : Type} [FloatOps Float] {v n a : ℕ}

theorem behind_lt (i : Fin n) (k : ℕ) : (i + k) % n < n := Nat.mod_lt _ i.pos

/-- The NPCs that NPC `i` looks at, in order. -/
def window (i : Fin n) : List (Fin n) :=
  (List.range' 1 kPerceptionWindow).map fun k => ⟨(i + k) % n, behind_lt i k⟩

/-- `update_npc_perception` over the batches of a partition, in order. -/
def perceive (inp : WorldState Float v n a) (batches : List (ℕ × ℕ)) (out : WorldState Float v n a) :
    WorldState Float v n a :=
  batches.foldl (fun out b => Stage.npc_perception.range inp b.1 b.2 out) out

/-- Batches within the range that leave no index out. -/
structure Partition (n : ℕ) (batches : List (ℕ × ℕ)) : Prop where
  within : ∀ b ∈ batches, b.2 ≤ n
  covers : ∀ i < n, ∃ b ∈ batches, b.1 ≤ i ∧ i < b.2

section Specification
variable [Field K] [LinearOrder K] [IsStrictOrderedRing K]

/-- The squared distance of two NPCs, when `val` reads a number off its representation. -/
def distance_sq (val : Float → K) (inp : WorldState Float v n a) (i j : Fin n) : K :=
  let p := inp.npcs.position i
  let q := inp.npcs.position j
  (val q.x - val p.x) ^ 2 + (val q.y - val p.y) ^ 2 + (val q.z - val p.z) ^ 2

/-- Squared distances and their comparison are exact, and below the sentinel. -/
structure Exact (val : Float → K) (inp : WorldState Float v n a) : Prop where
  lt : ∀ x y, lt x y = decide (val x < val y)
  distance : ∀ i j, val (length_squared (sub (inp.npcs.position j) (inp.npcs.position i))) =
    distance_sq val inp i j
  below : ∀ i j, distance_sq val inp i j < val 1e30

/-- NPC `i` has found the nearest of the others in its window, and how far it is. -/
def FindsNearest (val : Float → K) (inp out : WorldState Float v n a) (i : Fin n) : Prop :=
  ∃ j ∈ window i, (out.npcs.nearest_index i).toNat = j ∧ j ≠ i ∧
    (∀ k ∈ window i, k ≠ i → distance_sq val inp i j ≤ distance_sq val inp i k) ∧
    ∃ x, val x = distance_sq val inp i j ∧ out.npcs.nearest_distance i = sqrt x

end Specification

/-! ### The window -/

theorem mem_window {i j : Fin n} :
    j ∈ window i ↔ ∃ k, 1 ≤ k ∧ k ≤ kPerceptionWindow ∧ (i + k) % n = j := by
  simp only [window, List.mem_map, List.mem_range'_1, Fin.ext_iff]
  constructor
  · intro hsome
    obtain ⟨k, ⟨hk, hlt⟩, hj⟩ := hsome
    exact ⟨k, hk, by omega, hj⟩
  · intro hsome
    obtain ⟨k, hk, hle, hj⟩ := hsome
    exact ⟨k, ⟨hk, by omega⟩, hj⟩

/-- `k` steps round the array lead back to where they began if they are a multiple of `n`. -/
theorem add_mod_self (i : Fin n) (k : ℕ) : (i + k) % n = i ↔ n ∣ k := by
  constructor
  · intro h
    have hdiv := Nat.div_add_mod (i + k) n
    rw [h] at hdiv
    exact ⟨(i + k) / n, by omega⟩
  · intro hsome
    obtain ⟨q, rfl⟩ := hsome
    rw [Nat.add_mul_mod_self_left, Nat.mod_eq_of_lt i.isLt]

/-- An NPC looks at itself if there are no more NPCs than the window is long. -/
theorem self_mem_window (i : Fin n) : i ∈ window i ↔ n ≤ kPerceptionWindow := by
  rw [mem_window]
  constructor
  · intro hsome
    obtain ⟨k, hk, hle, hi⟩ := hsome
    exact (Nat.le_of_dvd hk ((add_mod_self i k).mp hi)).trans hle
  · exact fun h => ⟨n, i.pos, h, (add_mod_self i n).mpr (Nat.dvd_refl n)⟩

/-- Then the others come before it. -/
theorem idxOf_window {i j : Fin n} (hn : n ≤ kPerceptionWindow) (hj : j ≠ i) :
    (window i).idxOf j < (window i).idxOf i := by
  have hlength : (window i).length = kPerceptionWindow := by simp [window]
  have hget : ∀ t (ht : t < (window i).length), ((window i)[t] : ℕ) = (i + (1 + t)) % n := by
    intro t ht
    simp [window]
  -- The steps that lead to `j`: fewer than `n`.
  obtain ⟨k, hk, hkn, hkj⟩ : ∃ k, 1 ≤ k ∧ k < n ∧ (i + k) % n = j := by
    have hne : j.val ≠ i.val := fun h => hj (Fin.ext h)
    have hji := j.isLt
    have hii := i.isLt
    by_cases hlt : i.val < j.val
    · exact ⟨j - i, by omega, by omega, by
        rw [show i.val + (j.val - i.val) = j.val by omega, Nat.mod_eq_of_lt j.isLt]⟩
    · exact ⟨j + n - i, by omega, by omega, by
        rw [show i.val + (j.val + n - i.val) = j.val + n by omega, Nat.add_mod_right,
          Nat.mod_eq_of_lt j.isLt]⟩
  have hkt : k - 1 < (window i).length := by omega
  have hmem : (window i)[k - 1] = j := by
    apply Fin.ext
    rw [hget, show 1 + (k - 1) = k by omega]
    exact hkj
  have hle : (window i).idxOf j ≤ k - 1 := by
    by_contra hlt
    have := List.not_of_lt_findIdx (p := (· == j)) (Nat.lt_of_not_le hlt)
    simp [hmem] at this
  have hself : n - 1 ≤ (window i).idxOf i := by
    have hlt := List.idxOf_lt_length_of_mem ((self_mem_window i).mpr hn)
    have hi := hget _ hlt
    rw [List.getElem_idxOf hlt] at hi
    have := Nat.le_of_dvd (by omega) ((add_mod_self i _).mp hi.symm)
    omega
  omega

/-! ### The first of the nearest -/

section Nearest
variable [Field K] [LinearOrder K] [IsStrictOrderedRing K] {val : Float → K}
  {inp out : WorldState Float v n a}

omit [IsStrictOrderedRing K] in
/-- What the scan of the window has found. -/
theorem scan_eq (h : Exact val inp) (i : Fin n) (l : List (Fin n)) :
    (l.foldl (fun (found : Float × BitVec 32) j =>
      let distance_sq := length_squared (sub (inp.npcs.position j) (inp.npcs.position i))
      if lt distance_sq found.1 then (distance_sq, BitVec.ofNat 32 j) else found)
      (1e30, BitVec.ofNat 32 i)) =
    match l.argmin (distance_sq val inp i) with
    | some j => (length_squared (sub (inp.npcs.position j) (inp.npcs.position i)), BitVec.ofNat 32 j)
    | none => (1e30, BitVec.ofNat 32 i) := by
  induction l using List.reverseRecOn with
  | nil => rfl
  | append_singleton l j ih =>
    rw [List.foldl_concat, ih, List.argmin_concat]
    cases l.argmin (distance_sq val inp i) with
    | none => simp [h.lt, h.distance, h.below]
    | some k =>
      by_cases hlt : distance_sq val inp i j < distance_sq val inp i k
      · simp [h.lt, h.distance, hlt]
      · simp [h.lt, h.distance, hlt]

omit [IsStrictOrderedRing K] in
/-- **Perception takes the first of the nearest in the window.** -/
theorem nearest_eq (h : Exact val inp) (i : Fin n) :
    ∃ j ∈ (window i).argmin (distance_sq val inp i), nearest inp i =
      (length_squared (sub (inp.npcs.position j) (inp.npcs.position i)), BitVec.ofNat 32 j) := by
  have hscan := scan_eq h i (window i)
  cases hmin : (window i).argmin (distance_sq val inp i) with
  | none =>
    have := List.argmin_eq_none.mp hmin
    simp [window, kPerceptionWindow] at this
  | some j =>
    rw [hmin, window, List.foldl_map] at hscan
    exact ⟨j, rfl, hscan⟩

end Nearest

/-- The frame holds what NPC `i` has found. -/
def Found (inp out : WorldState Float v n a) (i : Fin n) : Prop :=
  out.npcs.nearest_distance i = sqrt (nearest inp i).1 ∧ out.npcs.nearest_index i = (nearest inp i).2

section Batches
variable {inp out : WorldState Float v n a} {i : Fin n}

theorem found_update (j : Fin n) (h : Found inp out i ∨ i = j) :
    Found inp (update_npc_perception inp out j) i := by
  by_cases hij : i = j
  · subst hij
    simp [Found, update_npc_perception]
  · simpa [Found, update_npc_perception, hij] using h

theorem found_range (first last : ℕ) (h : Found inp out i ∨ first ≤ i.val ∧ i.val < last) :
    Found inp (Stage.npc_perception.range inp first last out) i := by
  have hfold : ∀ l : List (Fin n), ∀ out : WorldState Float v n a, Found inp out i ∨ i ∈ l →
      Found inp (l.foldl (fun out j => update_npc_perception inp out j) out) i := by
    intro l
    induction l with
    | nil => exact fun out h => h.resolve_right List.not_mem_nil
    | cons j l ih =>
      intro out h
      apply ih
      obtain hfound | hmem := h
      · exact .inl (found_update j (.inl hfound))
      · obtain heq | hmem := List.mem_cons.mp hmem
        · exact .inl (found_update j (.inr heq))
        · exact .inr hmem
  apply hfold
  obtain hfound | hrange := h
  · exact .inl hfound
  · exact .inr (List.mem_filter.mpr ⟨List.mem_finRange i, decide_eq_true hrange⟩)

/-- Whatever the batches are, the NPCs they hold find what they look for. -/
theorem found_perceive (batches : List (ℕ × ℕ))
    (h : Found inp out i ∨ ∃ b ∈ batches, b.1 ≤ i.val ∧ i.val < b.2) :
    Found inp (perceive inp batches out) i := by
  induction batches generalizing out with
  | nil =>
    obtain hfound | ⟨b, hb, _⟩ := h
    · exact hfound
    · cases hb
  | cons b batches ih =>
    apply ih
    obtain hfound | ⟨c, hc, hrange⟩ := h
    · exact .inl (found_range _ _ (.inl hfound))
    · obtain rfl | hc := List.mem_cons.mp hc
      · exact .inl (found_range _ _ (.inr hrange))
      · exact .inr ⟨c, hc, hrange⟩

end Batches

/-! ### When that is the nearest of the others -/

section Main
variable [Field K] [LinearOrder K] [IsStrictOrderedRing K] {val : Float → K}
  {inp out : WorldState Float v n a} {i : Fin n}

omit [FloatOps Float] in
theorem distance_sq_nonneg (i j : Fin n) : 0 ≤ distance_sq val inp i j := by
  exact add_nonneg (add_nonneg (sq_nonneg _) (sq_nonneg _)) (sq_nonneg _)

omit [FloatOps Float] [LinearOrder K] [IsStrictOrderedRing K] in
theorem distance_sq_self (i : Fin n) : distance_sq val inp i i = 0 := by
  simp [distance_sq]

omit [FloatOps Float] in
/-- NPC `i` does not take itself: it does not meet itself, or another stands in its place. -/
theorem argmin_ne_self {j : Fin n} (hj : j ∈ (window i).argmin (distance_sq val inp i)) :
    j ≠ i ↔ kPerceptionWindow < n ∨ ∃ k, k ≠ i ∧ distance_sq val inp i k = 0 := by
  by_cases hn : n ≤ kPerceptionWindow
  · have hself := (self_mem_window i).mpr hn
    have hzero : distance_sq val inp i j = 0 := by
      apply le_antisymm _ (distance_sq_nonneg i j)
      have hstay : distance_sq val inp i i = 0 := distance_sq_self i
      rw [← hstay]
      exact List.le_of_mem_argmin hself hj
    constructor
    · exact fun hne => .inr ⟨j, hne, hzero⟩
    · rintro (hlt | ⟨k, hk, hkzero⟩) rfl
      · omega
      · have hbefore := idxOf_window hn hk
        have hmem : k ∈ window j := List.idxOf_lt_length_iff.mp
          (hbefore.trans (List.idxOf_lt_length_of_mem hself))
        have := List.index_of_argmin hj hmem (by rw [hkzero, hzero])
        omega
  · refine ⟨fun _ => .inl (Nat.lt_of_not_le hn), fun _ => ?_⟩
    intro heq
    obtain rfl := heq
    exact hn ((self_mem_window j).mp (List.argmin_mem hj))

/-- **Perception finds the nearest other NPC exactly when** the window does not reach the
NPC itself or another stands in the same place, and the first of the nearest has an index of
32 bits or one whose low 32 bits name another of the nearest. -/
theorem perception_nearest (hexact : Exact val inp) {batches : List (ℕ × ℕ)} (hbatches : Partition n batches)
    (i : Fin n) :
    FindsNearest val inp (perceive inp batches out) i ↔
      (kPerceptionWindow < n ∨ ∃ j, j ≠ i ∧ distance_sq val inp i j = 0) ∧
        ∀ j ∈ (window i).argmin (distance_sq val inp i), ∃ k ∈ window i,
          k.val = j.val % 0x100000000 ∧ distance_sq val inp i k = distance_sq val inp i j := by
  obtain ⟨j, hj, hnearest⟩ := nearest_eq hexact i
  have hcovered : Found inp out i ∨ ∃ b ∈ batches, b.1 ≤ i.val ∧ i.val < b.2 :=
    .inr (hbatches.covers i i.isLt)
  obtain ⟨hdistance, hindex⟩ := found_perceive batches hcovered
  rw [hnearest] at hdistance hindex
  have hstored : ((perceive inp batches out).npcs.nearest_index i).toNat = j.val % 0x100000000 := by
    rw [hindex, BitVec.toNat_ofNat]
  have hmin : ∀ k ∈ window i, distance_sq val inp i j ≤ distance_sq val inp i k :=
    fun k hk => List.le_of_mem_argmin hk hj
  -- An index that is not stored as it is belongs to many NPCs.
  have hsmall : n ≤ kPerceptionWindow → j.val % 0x100000000 = j.val := by
    intro hn
    have := j.isLt
    unfold kPerceptionWindow at hn
    exact Nat.mod_eq_of_lt (by omega)
  rw [← argmin_ne_self hj]
  constructor
  · intro hsome
    obtain ⟨k, hk, hkj, hki, hkmin, -⟩ := hsome
    have hlow : k.val = j.val % 0x100000000 := hkj.symm.trans hstored
    have hji : j ≠ i := by
      intro heq
      obtain rfl := heq
      exact hki (Fin.ext (hlow.trans (hsmall ((self_mem_window j).mp (List.argmin_mem hj)))))
    refine ⟨hji, fun j' hj' => ?_⟩
    obtain rfl := Option.mem_unique hj hj'
    exact ⟨k, hk, hlow, le_antisymm (hkmin j (List.argmin_mem hj) hji) (hmin k hk)⟩
  · intro hboth
    obtain ⟨hji, hnames⟩ := hboth
    obtain ⟨k, hk, hkj, hkd⟩ := hnames j hj
    have hki : k ≠ i := by
      intro heq
      obtain rfl := heq
      have := hsmall ((self_mem_window k).mp hk)
      exact hji (Fin.ext (this.symm.trans hkj.symm))
    refine ⟨k, hk, hstored.trans hkj.symm, hki, fun l hl _ => hkd ▸ hmin l hl, _, ?_, hdistance⟩
    rw [hexact.distance, hkd]

/-- Integers for the numbers: what perception computes with them is exact. -/
@[reducible]
def integers : FloatOps ℤ where
  ofScientific m negative e := if negative then m / 10 ^ e else m * 10 ^ e
  lt x y := decide (x < y)
  le x y := decide (x ≤ y)
  sqrt x := x.sqrt
  cos _ := 1
  sin _ := 0
  abs x := |x|
  pow x _ := x
  fmod x y := x % y
  ofNat k := k

/-- Two NPCs, so far apart. -/
def pair (x : ℤ) : WorldState ℤ 0 2 0 where
  vehicles := ⟨nofun, nofun, nofun, nofun, nofun, nofun, nofun, nofun, nofun, nofun⟩
  npcs :=
    { position := ![⟨0, 0, 0⟩, ⟨x, 0, 0⟩], velocity _ := ⟨0, 0, 0⟩, target _ := ⟨0, 0, 0⟩, speed _ := 0
      behaviour _ := 0, lod _ := 0, nearest_distance _ := 0, nearest_index _ := 0 }
  aircraft := ⟨nofun, nofun, nofun, nofun, nofun, nofun, nofun, nofun, nofun, nofun, nofun⟩
  player_position := ⟨0, 0, 0⟩

attribute [local instance] integers

theorem exact_pair {x : ℤ} (hx : x ^ 2 < 10 ^ 30) : Exact (Int.cast : ℤ → ℚ) (pair x) where
  lt y z := by simp [lt]
  distance i j := by
    simp only [length_squared, dot, sub, distance_sq]
    push_cast
    ring
  below i j := by
    have hx' : (x : ℚ) ^ 2 < 10 ^ 30 := by exact_mod_cast hx
    fin_cases i <;> fin_cases j <;> simp [distance_sq, pair, OfScientific.ofScientific] <;> assumption

theorem partition_pair : Partition 2 [(0, 2)] where
  within := by simp
  covers i hi := ⟨(0, 2), List.mem_singleton_self _, Nat.zero_le i, hi⟩

theorem perception_nearest_together :
    FindsNearest (Int.cast : ℤ → ℚ) (pair 0) (perceive (pair 0) [(0, 2)] (pair 0)) 0 := by
  refine (perception_nearest (exact_pair (by norm_num)) partition_pair 0).mpr
    ⟨.inr ⟨1, by decide, by simp [distance_sq, pair]⟩, fun j hj => ⟨j, List.argmin_mem hj, ?_, rfl⟩⟩
  have := j.isLt
  omega

/-- Of two NPCs three metres apart the first takes itself. -/
theorem perception_takes_self :
    Exact (Int.cast : ℤ → ℚ) (pair 3) ∧ Partition 2 [(0, 2)] ∧
      ¬FindsNearest (Int.cast : ℤ → ℚ) (pair 3) (perceive (pair 3) [(0, 2)] (pair 3)) 0 := by
  refine ⟨exact_pair (by norm_num), partition_pair, ?_⟩
  intro hsome
  obtain ⟨j, -, hj, hne, -⟩ := hsome
  have hstored : ((perceive (pair 3) [(0, 2)] (pair 3)).npcs.nearest_index 0).toNat = 0 := by decide
  exact hne (Fin.ext (hj.symm.trans hstored))

end Main

end Thunderbolt.World
