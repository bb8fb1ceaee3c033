import Thunderbolt.Task.TaskPoolProofs

/-! The pool's operations when no other thread is inside one.

Each is a function of the pools and the caches, written as the code computes it, and what the
steps of one thread come to (`take_run`, `put_run`). -/
namespace Thunderbolt.Task.TaskPool
open Concurrent

variable {Tid : Type} [DecidableEq Tid] (home : Tid → Shard) (t : Tid) (p : ℕ)

namespace State

/-- `refill_cache`, with `n` shards left to look at, the first at `offset` from home. -/
def refillCache (s : State Tid) (offset : ℕ) : ℕ → State Tid
  | 0 => s
  | n + 1 =>
    let k := probe (home t) offset
    if (s.pools p).shards k = [] then refillCache s (offset + 1) n
    else
      let room := (s.pools p).cacheBatch - (s.cache t).slots.length
      (s.setShard p k (((s.pools p).shards k).drop room)).setCache t
        ⟨(s.cache t).id, (((s.pools p).shards k).take room).reverse ++ (s.cache t).slots⟩

/-- The loop of `take_free_slot` without caches. -/
def scanShards (s : State Tid) (offset : ℕ) : ℕ → State Tid × Option ℕ
  | 0 => (s, none)
  | n + 1 =>
    let k := probe (home t) offset
    match (s.pools p).shards k with
    | [] => scanShards s (offset + 1) n
    | i :: rest => (s.setShard p k rest, some i)

/-- `rebind_cache`, where the cache serves another pool. -/
def rebindCache (s : State Tid) : State Tid :=
  if (s.cache t).id ≠ p then s.drain t (home t) p else s

/-- `take_free_slot` from the cache, rebound and refilled as far as possible. -/
def popCache (s : State Tid) : State Tid × Option ℕ :=
  match (s.cache t).slots with
  | [] => (s, none)
  | i :: rest => (s.setCache t ⟨(s.cache t).id, rest⟩, some i)

def takeFreeSlot (s : State Tid) : State Tid × Option ℕ :=
  if (s.pools p).cacheBatch ≠ 0 then
    let s := s.rebindCache home t p
    let s := if (s.cache t).slots = [] then s.refillCache home t p 0 kShardCount else s
    s.popCache t
  else s.scanShards home t p 0 kShardCount

/-- `spill_cache`. -/
def spillCache (s : State Tid) : State Tid :=
  let kept := (s.cache t).slots.length - (s.pools p).cacheBatch
  (s.setShard p (home t) ((s.cache t).slots.drop kept ++ (s.pools p).shards (home t))).setCache t
    ⟨(s.cache t).id, (s.cache t).slots.take kept⟩

/-- The end of `release`: slot `i` goes on the cache or on the home shard. -/
def putFreeSlot (s : State Tid) (i : ℕ) : State Tid :=
  if (s.pools p).cacheBatch ≠ 0 then
    let s := s.rebindCache home t p
    let s := if (s.cache t).slots.length = 2 * (s.pools p).cacheBatch then s.spillCache home t p else s
    s.setCache t ⟨(s.cache t).id, i :: (s.cache t).slots⟩
  else s.setShard p (home t) (i :: (s.pools p).shards (home t))

/-! ### Where the thread stands does not matter to them -/

variable {t p}

@[simp] theorem goto_goto (s : State Tid) (a b : Pc) : (s.goto t a).goto t b = s.goto t b := by
  simp [goto]

@[simp] theorem goto_pc (s : State Tid) (a : Pc) : (s.goto t a).pc t = a := Function.update_self ..

theorem goto_self {s : State Tid} {a : Pc} (h : s.pc t = a) : s.goto t a = s := by
  rw [goto, ← h, Function.update_eq_self]

theorem drain_goto (s : State Tid) (a : Pc) (k : Shard) (id : ℕ) :
    (s.goto t a).drain t k id = (s.drain t k id).goto t a := by
  have hcache : (s.goto t a).cache t = s.cache t := rfl
  have hregistered : (s.goto t a).registered (s.cache t).id = s.registered (s.cache t).id := rfl
  simp only [drain, hcache, hregistered]
  split <;> rfl

theorem drain_cache (s : State Tid) (k : Shard) (id : ℕ) : (s.drain t k id).cache t = ⟨id, []⟩ := by
  simp [drain, setCache]

end State

/-! ### They are what the steps come to -/

variable {home t p}

/-- What thread `t` can do alone. -/
abbrev Run (home : Tid → Shard) (t : Tid) : State Tid → State Tid → Prop :=
  Relation.ReflTransGen (Step home t)

theorem Run.reachable {s s' : State Tid} (h : Run home t s s') (hr : Reachable (system home) s) :
    Reachable (system home) s' := by
  induction h with
  | refl => exact hr
  | tail _ hs ih => exact ih.step (l := t) hs

theorem refill_run (s : State Tid) (taking : Taking) {offset n : ℕ} (h : offset + n = kShardCount) :
    Run home t (s.goto t (.refilling p taking offset))
      ((s.refillCache home t p offset n).goto t (.popping p taking)) := by
  induction n generalizing offset with
  | zero =>
    have hstep : Step home t _ _ := .refillNone (s.goto_pc (t := t) (.refilling p taking offset)) (by omega)
    rw [State.goto_goto] at hstep
    exact .single hstep
  | succ n ih =>
    have hpc := s.goto_pc (t := t) (.refilling p taking offset)
    simp only [State.refillCache]
    split
    case isTrue hempty =>
      have hstep : Step home t _ _ := .refillMiss hpc (by omega) hempty
      rw [State.goto_goto] at hstep
      exact .head hstep (ih (by omega))
    case isFalse hfull =>
      have hstep : Step home t _ _ := .refill hpc (by omega) hfull
      have hcomm : ∀ k l c, ((s.goto t (.refilling p taking offset)).setShard p k l).setCache t c =
          ((s.setShard p k l).setCache t c).goto t (.refilling p taking offset) := fun _ _ _ => rfl
      rw [hcomm, State.goto_goto] at hstep
      exact .single hstep

/-- What a thread about to take or to be refused a slot has found. -/
def Found (p : ℕ) (taking : Taking) : Option ℕ → Pc
  | some i => .handing p taking i
  | none => .exhausted p

theorem scan_run (s : State Tid) (taking : Taking) {offset n : ℕ} (h : offset + n = kShardCount) :
    Run home t (s.goto t (.scanning p taking offset))
      ((s.scanShards home t p offset n).1.goto t
        (Found p taking (s.scanShards home t p offset n).2)) := by
  induction n generalizing offset with
  | zero =>
    have hstep : Step home t _ _ := .scanNone (s.goto_pc (t := t) (.scanning p taking offset)) (by omega)
    rw [State.goto_goto] at hstep
    exact .single hstep
  | succ n ih =>
    have hpc := s.goto_pc (t := t) (.scanning p taking offset)
    simp only [State.scanShards]
    split
    case h_1 hempty =>
      have hstep : Step home t _ _ := .scanMiss hpc (by omega) hempty
      rw [State.goto_goto] at hstep
      exact .head hstep (ih (by omega))
    case h_2 i rest hfull =>
      have hstep : Step home t _ _ := .scan hpc (by omega) hfull
      have hcomm : ∀ k l, (s.goto t (.scanning p taking offset)).setShard p k l =
          (s.setShard p k l).goto t (.scanning p taking offset) := fun _ _ => rfl
      rw [hcomm, State.goto_goto] at hstep
      exact .single hstep

theorem pop_run (s : State Tid) (taking : Taking) : Run home t (s.goto t (.popping p taking))
    ((s.popCache t).1.goto t (Found p taking (s.popCache t).2)) := by
  have hpc := s.goto_pc (t := t) (.popping p taking)
  unfold State.popCache
  split
  case h_1 hempty =>
    have hstep : Step home t _ _ := .popNone hpc hempty
    rw [State.goto_goto] at hstep
    exact .single hstep
  case h_2 i rest hfull =>
    have hstep : Step home t _ _ := .pop hpc hfull
    have hcomm : ∀ c, (s.goto t (.popping p taking)).setCache t c =
        (s.setCache t c).goto t (.popping p taking) := fun _ => rfl
    rw [hcomm, State.goto_goto] at hstep
    exact .single hstep

variable (home) in
theorem take_run {s : State Tid} (hidle : s.pc t = .idle) (hlive : s.live p = true) (taking : Taking) :
    Run home t s ((s.takeFreeSlot home t p).1.goto t
      (Found p taking (s.takeFreeSlot home t p).2)) := by
  unfold State.takeFreeSlot
  split
  case isFalse hbatch =>
    exact .head (.takeUncached p taking hidle hlive (not_not.mp hbatch)) (scan_run s taking rfl)
  case isTrue hbatch =>
    unfold State.rebindCache
    dsimp only
    by_cases hid : (s.cache t).id = p
    · rw [if_neg (not_not.mpr hid)]
      split
      case isTrue hempty =>
        exact .head (.takeRefill p taking hidle hlive hbatch hid hempty)
          ((refill_run s taking rfl).trans (pop_run _ taking))
      case isFalse hfull =>
        exact .head (.takeCached p taking hidle hlive hbatch hid hfull) (pop_run _ taking)
    · rw [if_pos hid, if_pos (by rw [State.drain_cache])]
      have hrebind : Step home t _ _ := .rebindTake
        (s.goto_pc (t := t) (.rebinding p (.take taking)))
      rw [State.drain_goto, State.goto_goto] at hrebind
      exact .head (.takeRebind p taking hidle hlive hbatch hid)
        (.head hrebind ((refill_run _ taking rfl).trans (pop_run _ taking)))

theorem cache_run {s : State Tid} (hidle : s.pc t = .idle) (i : ℕ) :
    Run home t (s.goto t (.caching p i)) (s.setCache t ⟨(s.cache t).id, i :: (s.cache t).slots⟩) := by
  have hstep : Step home t _ _ := .cache (s.goto_pc (t := t) (.caching p i))
  have hcomm : ∀ c, ((s.goto t (.caching p i)).setCache t c).goto t .idle =
      (s.setCache t c).goto t .idle := fun c => State.goto_goto (s.setCache t c) (.caching p i) _
  rw [hcomm, State.goto_self (s := s.setCache ..) hidle] at hstep
  exact .single hstep

theorem list_run {s : State Tid} (hidle : s.pc t = .idle) (i : ℕ) :
    Run home t (s.goto t (.listing p i))
      (s.setShard p (home t) (i :: (s.pools p).shards (home t))) := by
  have hstep : Step home t _ _ := .list (s.goto_pc (t := t) (.listing p i))
  have hcomm : ∀ k l, ((s.goto t (.listing p i)).setShard p k l).goto t .idle =
      (s.setShard p k l).goto t .idle := fun k l => State.goto_goto (s.setShard p k l) (.listing p i) _
  rw [hcomm, State.goto_self (s := s.setShard ..) hidle] at hstep
  exact .single hstep

theorem put_run {s : State Tid} (hidle : s.pc t = .idle) (i : ℕ) :
    Run home t (s.goto t (.returning p i)) (s.putFreeSlot home t p i) := by
  have hpc := s.goto_pc (t := t) (.returning p i)
  unfold State.putFreeSlot State.rebindCache
  split
  case isFalse hbatch =>
    have hput : Step home t _ _ := .putUncached hpc (not_not.mp hbatch)
    rw [State.goto_goto] at hput
    exact .head hput (list_run hidle i)
  case isTrue hbatch =>
    dsimp only
    by_cases hid : (s.cache t).id = p
    · rw [if_neg (not_not.mpr hid)]
      split
      case isTrue hfull =>
        have hput : Step home t _ _ := .putSpill hpc hbatch hid hfull
        have hspill : Step home t _ _ := .spill (s.goto_pc (t := t) (.spilling p i))
        have hcomm : ∀ k l c, ((s.goto t (.spilling p i)).setShard p k l).setCache t c =
            ((s.setShard p k l).setCache t c).goto t (.spilling p i) := fun _ _ _ => rfl
        rw [State.goto_goto] at hput
        rw [hcomm, State.goto_goto] at hspill
        exact .head hput (.head hspill (cache_run (s := s.spillCache home t p) hidle i))
      case isFalse hroom =>
        have hput : Step home t _ _ := .putCached hpc hbatch hid hroom
        rw [State.goto_goto] at hput
        exact .head hput (cache_run hidle i)
    · have hempty : ((s.drain t (home t) p).cache t).slots.length ≠
          2 * ((s.drain t (home t) p).pools p).cacheBatch := by
        rw [State.drain_cache, ((SameShape.refl s).drain t (home t) p).batch]
        exact Nat.ne_of_lt (Nat.mul_pos (by decide) (Nat.pos_of_ne_zero hbatch))
      have hput : Step home t _ _ := .putRebind hpc hbatch hid
      have hrebind : Step home t _ _ := .rebindPut (s.goto_pc (t := t) (.rebinding p (.put i)))
      rw [State.goto_goto] at hput
      rw [State.drain_goto, State.goto_goto] at hrebind
      rw [if_pos hid, if_neg hempty]
      have hidle' : (s.drain t (home t) p).pc t = .idle := by
        simp only [State.drain]
        split <;> exact hidle
      exact .head hput (.head hrebind (cache_run hidle' i))

/-- `reserve`, as a whole. -/
theorem reserve_run {s : State Tid} (hidle : s.pc t = .idle) (hlive : s.live p = true) {i : ℕ}
    (hfound : (s.takeFreeSlot home t p).2 = some i)
    (hidle' : (s.takeFreeSlot home t p).1.pc t = .idle) :
    Run home t s ((s.takeFreeSlot home t p).1.setHeld p
      (⟨i, (((s.takeFreeSlot home t p).1.pools p).slots i).generation⟩ ::ₘ
        ((s.takeFreeSlot home t p).1.pools p).held)) := by
  have htake := take_run home hidle hlive .reserve
  rw [hfound] at htake
  set s' := (s.takeFreeSlot home t p).1
  have hstep : Step home t _ _ := .reserve (s'.goto_pc (t := t) (Found p .reserve (some i)))
  have hcomm : ∀ held, ((s'.goto t (Found p .reserve (some i))).setHeld p held).goto t .idle =
      (s'.setHeld p held).goto t .idle := fun held => State.goto_goto (s'.setHeld p held) _ _
  rw [hcomm, State.goto_self (s := s'.setHeld ..) hidle'] at hstep
  exact htake.tail hstep

/-- A taking that finds nothing. -/
theorem exhausted_run {s : State Tid} (hidle : s.pc t = .idle) (hlive : s.live p = true)
    (hfound : (s.takeFreeSlot home t p).2 = none)
    (hidle' : (s.takeFreeSlot home t p).1.pc t = .idle) :
    Run home t s (s.takeFreeSlot home t p).1 := by
  have htake := take_run home hidle hlive .reserve
  rw [hfound] at htake
  have hstep : Step home t _ _ := .fail ((s.takeFreeSlot home t p).1.goto_pc (t := t) (Found p .reserve none))
  rw [State.goto_goto, State.goto_self hidle'] at hstep
  exact htake.tail hstep

variable (home) in
/-- `release`, as a whole. -/
theorem release_run {s : State Tid} (hidle : s.pc t = .idle) (hlive : s.live p = true) {h : TaskHandle}
    {held : Multiset TaskHandle} (hheld : (s.pools p).held = h ::ₘ held) :
    Run home t s (((s.setSlot p h.index
      ⟨(((s.pools p).slots h.index).generation + 1) % word, .Free⟩).setHeld p held).putFreeSlot
        home t p h.index) :=
  .head (.release p h hidle hlive hheld) (put_run (s := (s.setSlot ..).setHeld ..) hidle _)

/-! ### What they leave alone -/

/-- The slots, the held handles and the pools' shape are the same, and everybody stands where
they stood. -/
structure SameSlots (s s' : State Tid) : Prop extends SameShape s s' where
  slots : ∀ q, (s'.pools q).slots = (s.pools q).slots
  held : ∀ q, (s'.pools q).held = (s.pools q).held
  pc : s'.pc = s.pc

namespace SameSlots
variable {s s' : State Tid}

omit [DecidableEq Tid] in
theorem refl (s : State Tid) : SameSlots s s := ⟨.refl s, fun _ => rfl, fun _ => rfl, rfl⟩

omit [DecidableEq Tid] in
theorem setShard (h : SameSlots s s') (q : ℕ) (k : Shard) (l : List ℕ) :
    SameSlots s (s'.setShard q k l) where
  toSameShape := h.toSameShape.setShard q k l
  slots r := (setShard_apart s' q k l r).1.trans (h.slots r)
  held r := (setShard_apart s' q k l r).2.trans (h.held r)
  pc := h.pc

theorem setCache (h : SameSlots s s') (c : ThreadCache) : SameSlots s (s'.setCache t c) :=
  ⟨h.toSameShape.setCache t c, h.slots, h.held, h.pc⟩

theorem drain (h : SameSlots s s') (k : Shard) (id : ℕ) : SameSlots s (s'.drain t k id) := by
  simp only [State.drain]
  split
  · exact (h.setShard ..).setCache _
  · exact h.setCache _

theorem rebindCache (h : SameSlots s s') : SameSlots s (s'.rebindCache home t p) := by
  unfold State.rebindCache
  split
  · exact h.drain _ _
  · exact h

theorem refillCache (h : SameSlots s s') (offset n : ℕ) :
    SameSlots s (s'.refillCache home t p offset n) := by
  induction n generalizing offset with
  | zero => exact h
  | succ n ih =>
    simp only [State.refillCache]
    split
    · exact ih _
    · exact (h.setShard ..).setCache _

omit [DecidableEq Tid] in
theorem scanShards (h : SameSlots s s') (offset n : ℕ) :
    SameSlots s (s'.scanShards home t p offset n).1 := by
  induction n generalizing offset with
  | zero => exact h
  | succ n ih =>
    simp only [State.scanShards]
    split
    · exact ih _
    · exact h.setShard ..

theorem popCache (h : SameSlots s s') : SameSlots s (s'.popCache t).1 := by
  unfold State.popCache
  split
  · exact h
  · exact h.setCache _

variable (home t p) in
theorem takeFreeSlot (h : SameSlots s s') : SameSlots s (s'.takeFreeSlot home t p).1 := by
  unfold State.takeFreeSlot
  split
  · dsimp only
    split
    · exact (h.rebindCache.refillCache _ _).popCache
    · exact h.rebindCache.popCache
  · exact h.scanShards _ _

variable (home t p) in
theorem putFreeSlot (h : SameSlots s s') (i : ℕ) : SameSlots s (s'.putFreeSlot home t p i) := by
  unfold State.putFreeSlot
  split
  · dsimp only
    split
    · exact ((h.rebindCache.setShard ..).setCache _).setCache _
    · exact h.rebindCache.setCache _
  · exact h.setShard ..

end SameSlots

/-! ### The free slots -/

section Free
variable [Fintype Tid] {s : State Tid}

/-- Shards and caches, whoever they belong to. -/
def Place.Free : Place Tid → Prop
  | .shard _ | .cache _ => True
  | _ => False

instance : DecidablePred (@Place.Free Tid) := fun x => by
  cases x <;> unfold Place.Free <;> infer_instance

/-- The free slots of pool `p`. -/
def freeSlots (s : State Tid) (p : ℕ) : Multiset ℕ := ∑ x with Place.Free x, contents s p x

/-- With nobody inside an operation, what is not handed out is free. -/
theorem freeSlots_add_held (hr : Reachable (system home) s) (hidle : ∀ t, s.pc t = .idle)
    (hlive : s.live p = true) :
    freeSlots s p + (s.pools p).held.map TaskHandle.index = Multiset.range (s.pools p).capacity := by
  rw [← (inv_reachable hr).conserved p hlive, ← Finset.sum_filter_add_sum_filter_not _ Place.Free]
  congr 1
  symm
  refine Finset.sum_eq_single Place.held (fun x hx hne => ?_) (fun h => ?_)
  · cases x with
    | shard k => exact absurd trivial (Finset.mem_filter.mp hx).2
    | cache u => exact absurd trivial (Finset.mem_filter.mp hx).2
    | held => exact absurd rfl hne
    | transit u => simp [contents, hidle, Pc.carried]
  · exact absurd (Finset.mem_filter.mpr ⟨Finset.mem_univ (Place.held : Place Tid), not_false⟩) h

/-- A slot found is one of the pool's. -/
theorem takeFreeSlot_lt (hr : Reachable (system home) s) (hidle : s.pc t = .idle)
    (hlive : s.live p = true) {i : ℕ} (hfound : (s.takeFreeSlot home t p).2 = some i) :
    i < (s.pools p).capacity := by
  have hrun := take_run home hidle hlive .reserve
  rw [hfound] at hrun
  have hsame := ((SameSlots.refl s).takeFreeSlot home t p).toSameShape.goto t
    (Found p .reserve (some i))
  have hr' := Run.reachable hrun hr
  have hmem : i ∈ ∑ x, contents ((s.takeFreeSlot home t p).1.goto t (Found p .reserve (some i))) p x :=
    Multiset.mem_sum.mpr ⟨.transit t, Finset.mem_univ _, by simp [contents, Found, Pc.carried]⟩
  rw [(inv_reachable hr').conserved p (hsame.live ▸ hlive), hsame.capacity] at hmem
  exact Multiset.mem_range.mp hmem

end Free
end Thunderbolt.Task.TaskPool
