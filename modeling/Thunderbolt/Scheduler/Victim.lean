import Mathlib.Algebra.Group.Nat.Defs
import Mathlib.Data.List.Count
import Mathlib.Data.List.Rotate
import Thunderbolt.Executor.ReadyQueues
import Thunderbolt.Random.Xorshift

/-! Whom a worker steals from.

Each worker has its own xorshift generator, seeded with a multiple of an odd constant. A
draw picks the victim the scan starts with; from there it goes round, with indices
of 32 bits. -/
namespace Thunderbolt.Scheduler.Victim
open Executor Thunderbolt.Random

/-! ### The generator -/

def xorshift64 : BitVec 64 → BitVec 64 := xorshift 13 7 17

/-- The constant that seeds are multiples of. -/
def golden : BitVec 64 := 0x9E3779B97F4A7C15#64

/-- `rng` of the worker with this index, as the constructor leaves it. -/
def seed (i : BitVec 32) : BitVec 64 := golden * (i.setWidth 64 + 1#64)

/-- The same after so many draws. -/
def drawn (i : BitVec 32) (draws : ℕ) : BitVec 64 := xorshift64^[draws] (seed i)

theorem golden_inverse : 0xF1DE83E19937733D#64 * golden = 1#64 := by decide

theorem golden_injective : Function.Injective (golden * ·) := mul_injective golden_inverse

theorem seed_injective : Function.Injective seed := by
  intro i j heq
  have hsucc : i.setWidth 64 + 1#64 = j.setWidth 64 + 1#64 := golden_injective heq
  have hwide := congrArg BitVec.toNat ((BitVec.add_left_inj _).mp hsucc)
  rw [BitVec.toNat_setWidth_of_le (by decide), BitVec.toNat_setWidth_of_le (by decide)] at hwide
  exact BitVec.eq_of_toNat_eq hwide

theorem seed_ne_zero (i : BitVec 32) : seed i ≠ 0#64 := by
  intro heq
  have hzero : i.setWidth 64 + 1#64 = 0#64 := golden_injective (heq.trans (BitVec.mul_zero).symm)
  have hnat := congrArg BitVec.toNat hzero
  rw [BitVec.toNat_add, BitVec.toNat_setWidth_of_le (by decide)] at hnat
  have hlt := i.isLt
  simp at hnat
  omega

/-! ### The scan -/

/-- The fields of `WorkerState` that a steal touches. -/
structure WorkerState where
  rng : BitVec 64
  steal_attempts : ℕ
  steals_succeeded : ℕ
  steals_failed : ℕ

/-- What comes of a scan: the workers whose deques were tried, in order, and the task. -/
structure Scan where
  visited : List (BitVec 32)
  handle : TaskHandle
  success : Bool

/-- What `steal` says, deque by deque; `none` stands for `Empty` and for `Abort`. -/
abbrev Steal := BitVec 32 → TaskPriority → Option TaskHandle

/-- `(start + offset) % worker_count_`. -/
def victim_index (worker_count start : BitVec 32) (offset : ℕ) : BitVec 32 :=
  (start + BitVec.ofNat 32 offset) % worker_count

/-- The loop over these offsets, behind these victims. -/
def scanFrom (steal : Steal) (worker_count worker_index start : BitVec 32) (visited : List (BitVec 32)) :
    List ℕ → Scan
  | [] => ⟨visited, .none, false⟩
  | offset :: offsets =>
    let victim := victim_index worker_count start offset
    if victim = worker_index then scanFrom steal worker_count worker_index start visited offsets
    else
      match (scan false).findSome? (steal victim) with
      | some handle => ⟨visited ++ [victim], handle, true⟩
      | none => scanFrom steal worker_count worker_index start (visited ++ [victim]) offsets

def steal_from_others (steal : Steal) (worker_count worker_index : BitVec 32) (worker : WorkerState) :
    WorkerState × Scan :=
  if worker_count ≤ 1#32 then (worker, ⟨[], .none, false⟩)
  else
    let rng := xorshift64 worker.rng
    let start := (rng % worker_count.setWidth 64).setWidth 32
    let scan := scanFrom steal worker_count worker_index start [] (List.range worker_count.toNat)
    ({ rng
       steal_attempts := worker.steal_attempts + 1
       steals_succeeded := if scan.success then worker.steals_succeeded + 1 else worker.steals_succeeded
       steals_failed := if scan.success then worker.steals_failed else worker.steals_failed + 1 }, scan)

/-- The thief after these attempts, one after another. -/
def attempts (worker_count worker_index : BitVec 32) : WorkerState → List Steal → WorkerState :=
  List.foldl fun worker steal => (steal_from_others steal worker_count worker_index worker).1

variable {steal : Steal} {worker_count worker_index start : BitVec 32}

theorem one_lt_count (hmany : 2 ≤ worker_count.toNat) : ¬worker_count ≤ 1#32 := by
  rw [BitVec.le_def]
  simp
  omega

/-- An attempt draws once, whatever comes of it. -/
theorem rng_steal_from_others (hmany : 2 ≤ worker_count.toNat) (steal : Steal) (worker : WorkerState) :
    (steal_from_others steal worker_count worker_index worker).1.rng = xorshift64 worker.rng := by
  rw [steal_from_others, if_neg (one_lt_count hmany)]

theorem rng_attempts (hmany : 2 ≤ worker_count.toNat) (worker : WorkerState) (steals : List Steal) :
    (attempts worker_count worker_index worker steals).rng = xorshift64^[steals.length] worker.rng := by
  induction steals generalizing worker with
  | nil => rfl
  | cons steal steals ih =>
    rw [List.length_cons, Function.iterate_succ_apply, ← rng_steal_from_others hmany steal]
    exact ih _

/-- When no steal succeeds, everyone it comes by is tried, the thief excepted. -/
theorem visited_scanFrom (hfail : ∀ v p, steal v p = none) (visited : List (BitVec 32)) (offsets : List ℕ) :
    (scanFrom steal worker_count worker_index start visited offsets).visited =
      visited ++ (offsets.map (victim_index worker_count start)).filter (· ≠ worker_index) := by
  induction offsets generalizing visited with
  | nil => simp [scanFrom]
  | cons offset offsets ih =>
    have hnone : (scan false).findSome? (steal (victim_index worker_count start offset)) = none :=
      List.findSome?_eq_none_iff.mpr fun p _ => hfail _ p
    by_cases hself : victim_index worker_count start offset = worker_index
    · simp [scanFrom, hself, ih]
    · simp [scanFrom, hself, hnone, ih]

/-- The indices do not wrap. -/
theorem toNat_victim_index (hcount : worker_count.toNat ≤ 2 ^ 31) (hstart : start < worker_count) {offset : ℕ}
    (hoffset : offset < worker_count.toNat) :
    (victim_index worker_count start offset).toNat = (offset + start.toNat) % worker_count.toNat := by
  have hlt : start.toNat < worker_count.toNat := hstart
  have hnat : (BitVec.ofNat 32 offset).toNat = offset := Nat.mod_eq_of_lt (by omega)
  have hsum : start.toNat + offset < 2 ^ 32 := by omega
  rw [victim_index, BitVec.toNat_umod, BitVec.toNat_add, hnat, Nat.mod_eq_of_lt hsum, Nat.add_comm]

/-- The scan goes round once. -/
theorem map_victim_index (hcount : worker_count.toNat ≤ 2 ^ 31) (hstart : start < worker_count) :
    ((List.range worker_count.toNat).map (victim_index worker_count start)).map BitVec.toNat =
      (List.range worker_count.toNat).rotate start.toNat := by
  apply List.ext_getElem
  · simp
  · intro offset hoffset _
    have hlt : offset < worker_count.toNat := by simpa using hoffset
    simp [List.getElem_rotate, toNat_victim_index hcount hstart hlt]

theorem count_victim_index (hcount : worker_count.toNat ≤ 2 ^ 31) (hstart : start < worker_count)
    (v : BitVec 32) :
    ((List.range worker_count.toNat).map (victim_index worker_count start)).count v =
      if v < worker_count then 1 else 0 := by
  rw [← List.count_map_of_injective _ _ fun _ _ => BitVec.eq_of_toNat_eq, map_victim_index hcount hstart,
    (List.rotate_perm _ _).count_eq]
  split
  case isTrue hv => exact List.count_eq_one_of_mem List.nodup_range (List.mem_range.mpr hv)
  case isFalse hv => exact List.count_eq_zero.mpr fun hmem => hv (List.mem_range.mp hmem)

theorem count_visited (hmany : 2 ≤ worker_count.toNat) (hcount : worker_count.toNat ≤ 2 ^ 31)
    (hfail : ∀ v p, steal v p = none) (worker : WorkerState) (v : BitVec 32) :
    (steal_from_others steal worker_count worker_index worker).2.visited.count v =
      if v < worker_count ∧ v ≠ worker_index then 1 else 0 := by
  have hstart : (xorshift64 worker.rng % worker_count.setWidth 64).setWidth 32 < worker_count := by
    have hlt := Nat.mod_lt (xorshift64 worker.rng).toNat (show 0 < worker_count.toNat by omega)
    rw [BitVec.lt_def, BitVec.toNat_setWidth, BitVec.toNat_umod, BitVec.toNat_setWidth_of_le (by decide)]
    exact (Nat.mod_le _ _).trans_lt hlt
  rw [steal_from_others, if_neg (one_lt_count hmany), visited_scanFrom hfail, List.nil_append]
  by_cases hself : v = worker_index
  · subst hself
    rw [if_neg fun h => h.2 rfl]
    exact List.count_eq_zero.mpr (by simp)
  · rw [List.count_filter (by simpa using hself), count_victim_index hcount hstart]
    simp [hself]

/-- **Victim selection never degenerates**: no generator is ever at zero, no two workers'
generators are ever in step, and a scan that steals nothing tries each other worker once. -/
theorem never_degenerates (i j : BitVec 32) (draws : ℕ) :
    drawn i draws ≠ 0#64 ∧ (i ≠ j → drawn i draws ≠ drawn j draws) ∧
      (∀ (steal : Steal) (worker_count worker_index : BitVec 32) (worker : WorkerState),
        2 ≤ worker_count.toNat → worker_count.toNat ≤ 2 ^ 31 → worker_index < worker_count →
        (∀ v p, steal v p = none) → ∀ v,
          (steal_from_others steal worker_count worker_index worker).2.visited.count v =
            if v < worker_count ∧ v ≠ worker_index then 1 else 0) ∧
      ∀ (worker_count : BitVec 32) (worker : WorkerState) (steals : List Steal),
        2 ≤ worker_count.toNat → worker.rng = seed i → steals.length = draws →
        (attempts worker_count i worker steals).rng = drawn i draws := by
  refine ⟨?_, fun hne heq => ?_, fun _ _ _ worker hmany hcount _ hfail v => ?_,
    fun _ worker steals hmany hseed hlength => ?_⟩
  · exact xorshift_iterate_ne_zero (by decide) (by decide) (by decide) (seed_ne_zero i) draws
  · have hstep : Function.Injective xorshift64 :=
      xorshift_injective (by decide) (by decide) (by decide)
    exact hne (seed_injective (hstep.iterate draws heq))
  · exact count_visited hmany hcount hfail worker v
  · rw [rng_attempts hmany, hseed, hlength, drawn]

/-- The second of two workers draws once, and finds nothing at the first. -/
theorem never_degenerates_pair :
    drawn 0#32 1 ≠ drawn 1#32 1 ∧
      (steal_from_others (fun _ _ => none) 2#32 1#32 ⟨seed 1#32, 0, 0, 0⟩).2.visited.count 0#32 = 1 ∧
      (attempts 2#32 1#32 ⟨seed 1#32, 0, 0, 0⟩ [fun _ _ => none]).rng = drawn 1#32 1 :=
  have h := never_degenerates 1#32 0#32 1
  ⟨(h.2.1 (by decide)).symm,
    h.2.2.1 (fun _ _ => none) 2#32 1#32 ⟨seed 1#32, 0, 0, 0⟩ (by decide) (by decide) (by decide)
      (fun _ _ => rfl) 0#32,
    h.2.2.2 2#32 ⟨seed 1#32, 0, 0, 0⟩ [fun _ _ => none] (by decide) rfl rfl⟩

end Thunderbolt.Scheduler.Victim
