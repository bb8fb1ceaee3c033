import Mathlib.Algebra.BigOperators.Group.Finset.Piecewise
import Thunderbolt.Concurrent.Places
import Thunderbolt.Task.TaskPool

/-! Slots are neither lost nor duplicated.

Every step moves a pool's slots between two places at most (`contents_step`), so
a live pool's places hold together the indices below its capacity, each once.
What a free slot's state is, which generation a held handle has, and why a cache
never outgrows its array follow from where a slot can be. -/
namespace Thunderbolt.Task.TaskPool
open Concurrent

variable {Tid : Type} [DecidableEq Tid] {home : Tid → Shard} {s s' : State Tid} {t u : Tid}

/-! ### What each write does to the contents -/

section Writes
variable (s) (t)

theorem contents_goto (pc : Pc) (p : ℕ) : contents (s.goto t pc) p =
    Function.update (contents s p) (.transit t) (pc.carried p) := by
  funext x
  cases x with
  | transit u => by_cases hu : u = t <;> simp [contents, State.goto, hu]
  | _ => rfl

theorem contents_setCache (c : ThreadCache) (p : ℕ) : contents (s.setCache t c) p =
    Function.update (contents s p) (.cache t) (if c.id = p then c.slots else 0) := by
  funext x
  cases x with
  | cache u => by_cases hu : u = t <;> simp [contents, State.setCache, hu]
  | _ => rfl

omit [DecidableEq Tid] in
theorem contents_setPool_ne {p q : ℕ} (h : p ≠ q) (pool : Pool) :
    contents (s.setPool q pool) p = contents s p := by
  funext x
  cases x with
  | cache u => rfl
  | _ => simp [contents, State.setPool, h]

theorem contents_setShard (p : ℕ) (k : Shard) (l : List ℕ) : contents (s.setShard p k l) p =
    Function.update (contents s p) (.shard k) (l : Multiset ℕ) := by
  funext x
  cases x with
  | shard j => by_cases hj : j = k <;> simp [contents, State.setShard, State.setPool, hj]
  | cache u => rfl
  | _ => simp [contents, State.setShard, State.setPool]

theorem contents_setHeld (p : ℕ) (held : Multiset TaskHandle) : contents (s.setHeld p held) p =
    Function.update (contents s p) .held (held.map TaskHandle.index) := by
  funext x
  cases x with
  | cache u => rfl
  | _ => simp [contents, State.setHeld, State.setPool]

omit [DecidableEq Tid] in
theorem contents_setSlot (p q i : ℕ) (slot : Slot) :
    contents (s.setSlot q i slot) p = contents s p := by
  by_cases h : p = q
  · subst h
    funext x
    cases x with
    | cache u => rfl
    | _ => simp [contents, State.setSlot, State.setPool]
  · exact contents_setPool_ne s h _

/-- Going on with the same slot in hand moves nothing. -/
theorem contents_goto_same {pc : Pc} {p : ℕ} (h : pc.carried p = (s.pc t).carried p) :
    contents (s.goto t pc) p = contents s p := by
  rw [contents_goto, h]
  exact Function.update_eq_self _ _

end Writes

/-! ### Caches stay within their array -/

/-- What a thread inside an operation knows of its own cache. -/
def Pc.Fits (s : State Tid) (c : ThreadCache) : Pc → Prop
  | rebinding p _ => (s.pools p).cacheBatch ≠ 0
  | refilling p _ _ => c.id = p ∧ c.slots = [] ∧ (s.pools p).cacheBatch ≠ 0
  | popping p _ => c.id = p ∧ (s.pools p).cacheBatch ≠ 0
  | caching p _ => c.id = p ∧ c.slots.length < 2 * (s.pools p).cacheBatch
  | spilling p _ => c.id = p ∧ c.slots.length = 2 * (s.pools p).cacheBatch ∧
      (s.pools p).cacheBatch ≠ 0
  | scanning p _ _ | listing p _ => (s.pools p).cacheBatch = 0
  | _ => True

structure Bounded (s : State Tid) : Prop where
  live : ∀ p, s.live p = true → p < s.nextId
  cacheId : ∀ t, (s.cache t).id < s.nextId
  operand : ∀ t p, (s.pc t).pool = some p → s.live p = true
  batch : ∀ p, (s.pools p).cacheBatch ≤ kMaxBatch
  size : ∀ t, (s.cache t).slots.length ≤ 2 * (s.pools (s.cache t).id).cacheBatch
  fits : ∀ t, (s.pc t).Fits s (s.cache t)

/-- What pools were made with, and which of them exist, is the same in both states. -/
structure SameShape (s s' : State Tid) : Prop where
  batch : ∀ p, (s'.pools p).cacheBatch = (s.pools p).cacheBatch
  capacity : ∀ p, (s'.pools p).capacity = (s.pools p).capacity
  live : s'.live = s.live
  nextId : s'.nextId = s.nextId

namespace SameShape
omit [DecidableEq Tid]

theorem refl (s : State Tid) : SameShape s s := ⟨fun _ => rfl, fun _ => rfl, rfl, rfl⟩

theorem setPool {pool : Pool} {p : ℕ} (h : SameShape s s')
    (hbatch : pool.cacheBatch = (s'.pools p).cacheBatch)
    (hcap : pool.capacity = (s'.pools p).capacity) : SameShape s (s'.setPool p pool) where
  batch q := by
    rw [← h.batch]
    by_cases hq : q = p <;> simp [State.setPool, hq, hbatch]
  capacity q := by
    rw [← h.capacity]
    by_cases hq : q = p <;> simp [State.setPool, hq, hcap]
  live := h.live
  nextId := h.nextId

theorem setShard (h : SameShape s s') (p : ℕ) (k : Shard) (l : List ℕ) :
    SameShape s (s'.setShard p k l) := h.setPool rfl rfl

theorem setSlot (h : SameShape s s') (p i : ℕ) (slot : Slot) :
    SameShape s (s'.setSlot p i slot) := h.setPool rfl rfl

theorem setHeld (h : SameShape s s') (p : ℕ) (held : Multiset TaskHandle) :
    SameShape s (s'.setHeld p held) := h.setPool rfl rfl

variable [DecidableEq Tid]

theorem setCache (h : SameShape s s') (t : Tid) (c : ThreadCache) :
    SameShape s (s'.setCache t c) := ⟨h.batch, h.capacity, h.live, h.nextId⟩

theorem goto (h : SameShape s s') (t : Tid) (pc : Pc) : SameShape s (s'.goto t pc) :=
  ⟨h.batch, h.capacity, h.live, h.nextId⟩

theorem drain (h : SameShape s s') (t : Tid) (k : Shard) (id : ℕ) :
    SameShape s (s'.drain t k id) := by
  simp only [State.drain]
  split
  · exact (h.setShard ..).setCache ..
  · exact h.setCache ..

end SameShape

/-- A step constructs a pool under a fresh id, destroys one nobody is using, or
leaves the pools' shape alone. -/
theorem shape_step (hs : Step home t s s') :
    (∃ c b, s' = {s.setPool s.nextId (.create c b) with
      live := Function.update s.live s.nextId true, nextId := s.nextId + 1}) ∨
    (∃ p, s' = {s with live := Function.update s.live p false} ∧
      ∀ u, (s.pc u).pool ≠ some p) ∨ SameShape s s' := by
  have h := SameShape.refl s
  cases hs
  case construct c b _ => exact .inl ⟨c, b, rfl⟩
  case destroy p _ _ hfree => exact .inr (.inl ⟨p, rfl, hfree⟩)
  all_goals right; right
  case threadExit => exact h.drain ..
  case rebindTake | rebindPut => exact (h.drain ..).goto ..
  case refill | spill => exact ((h.setShard ..).setCache ..).goto ..
  case pop | cache => exact (h.setCache ..).goto ..
  case scan | list => exact (h.setShard ..).goto ..
  case acquire | release => exact ((h.setSlot ..).setHeld ..).goto ..
  case reserve => exact (h.setHeld ..).goto ..
  case advance => exact h.setSlot ..
  all_goals exact h.goto ..

@[simp] theorem drain_cache (s : State Tid) (t : Tid) (k : Shard) (id : ℕ) :
    (s.drain t k id).cache = Function.update s.cache t ⟨id, []⟩ := by
  simp only [State.drain]
  split <;> rfl

@[simp] theorem drain_pc (s : State Tid) (t : Tid) (k : Shard) (id : ℕ) :
    (s.drain t k id).pc = s.pc := by
  simp only [State.drain]
  split <;> rfl

/-- A thread's cache and counter are its own. -/
theorem other_step (hs : Step home t s s') (hu : u ≠ t) :
    s'.cache u = s.cache u ∧ s'.pc u = s.pc u := by
  cases hs <;>
    simp [State.goto, State.setCache, State.setShard, State.setSlot, State.setHeld, State.setPool, hu]

/-- A step leaves its thread with a cache that fits what it goes on to do. -/
theorem own_fits (hb : Bounded s) (hs : Step home t s s') :
    (s'.pc t).Fits s (s'.cache t) := by
  have hfit := hb.fits t
  have hsize := hb.size t
  cases hs <;>
    simp_all [Pc.Fits, State.goto, State.setCache, State.setShard, State.setSlot, State.setHeld,
      State.setPool]
  all_goals omega

theorem own_size (hb : Bounded s) (hs : Step home t s s') :
    (s'.cache t).slots.length ≤ 2 * (s.pools (s'.cache t).id).cacheBatch := by
  have hfit := hb.fits t
  have hsize := hb.size t
  cases hs <;>
    simp_all [Pc.Fits, State.goto, State.setCache, State.setShard, State.setSlot, State.setHeld,
      State.setPool]
  all_goals omega

/-- A cache is only ever bound to a pool that exists. -/
theorem own_id (hb : Bounded s) (hs : Step home t s s') : (s'.cache t).id < s.nextId := by
  have hid := hb.cacheId t
  have hop := hb.operand t
  cases hs
  case rebindTake p taking hpc => simpa [State.goto] using hb.live p (hop p (by rw [hpc]; rfl))
  case rebindPut p i hpc => simpa [State.goto] using hb.live p (hop p (by rw [hpc]; rfl))
  case threadExit => simpa using Nat.zero_lt_of_lt hid
  all_goals
    simpa [State.goto, State.setCache, State.setShard, State.setSlot, State.setHeld,
      State.setPool] using hid

/-- Operations are started on live pools. -/
theorem own_pool (hb : Bounded s) (hs : Step home t s s') {p : ℕ}
    (hp : (s'.pc t).pool = some p) : s.live p = true := by
  have hop := hb.operand t
  cases hs <;>
    simp_all [Pc.pool, State.goto, State.setCache, State.setShard, State.setSlot, State.setHeld,
      State.setPool]

theorem batch_step (hs : Step home t s s') {p : ℕ} (hp : p < s.nextId) :
    (s'.pools p).cacheBatch = (s.pools p).cacheBatch ∧
      (s'.pools p).capacity = (s.pools p).capacity := by
  rcases shape_step hs with ⟨c, b, rfl⟩ | ⟨q, rfl, _⟩ | h
  · simp [State.setPool, hp.ne]
  · exact ⟨rfl, rfl⟩
  · exact ⟨h.batch p, h.capacity p⟩

omit [DecidableEq Tid] in
/-- What a thread knows of its cache depends on the pool it is using only. -/
theorem Pc.Fits.frame {pc : Pc} {c : ThreadCache} (h : pc.Fits s c)
    (hbatch : ∀ p, pc.pool = some p → (s'.pools p).cacheBatch = (s.pools p).cacheBatch) :
    pc.Fits s' c := by
  cases pc <;> simp_all [Fits, pool]

theorem bounded_step (hb : Bounded s) (hs : Step home t s s') : Bounded s' := by
  have hop : ∀ u p, (s'.pc u).pool = some p → s.live p = true := by
    intro u p hp
    by_cases hu : u = t
    · subst hu
      exact own_pool hb hs hp
    · exact hb.operand u p ((other_step hs hu).2 ▸ hp)
  have hid : ∀ u, (s'.cache u).id < s.nextId := by
    intro u
    by_cases hu : u = t
    · subst hu
      exact own_id hb hs
    · exact (other_step hs hu).1 ▸ hb.cacheId u
  have hnext : s.nextId ≤ s'.nextId := by
    rcases shape_step hs with ⟨c, b, rfl⟩ | ⟨q, rfl, _⟩ | h
    · exact Nat.le_succ _
    · exact le_rfl
    · exact h.nextId.ge
  refine
    { live := fun p hp => ?_
      cacheId := fun u => (hid u).trans_le hnext
      operand := fun u p hp => ?_
      batch := fun p => ?_
      size := fun u => ?_
      fits := fun u => ?_ }
  · rcases shape_step hs with ⟨c, b, rfl⟩ | ⟨q, rfl, _⟩ | h
    · rcases eq_or_ne p s.nextId with rfl | hne
      · exact Nat.lt_succ_self _
      · exact (hb.live p (by simpa [hne] using hp)).trans (Nat.lt_succ_self _)
    · rcases eq_or_ne p q with rfl | hne
      · simp at hp
      · exact hb.live p (by simpa [hne] using hp)
    · rw [h.nextId]
      exact hb.live p (h.live ▸ hp)
  · have hlive := hop u p hp
    rcases shape_step hs with ⟨c, b, rfl⟩ | ⟨q, rfl, hfree⟩ | h
    · simp [(hb.live p hlive).ne, hlive]
    · have hne : p ≠ q := by
        intro heq
        obtain rfl := heq
        exact hfree u hp
      simp [hne, hlive]
    · rw [h.live]
      exact hlive
  · rcases shape_step hs with ⟨c, b, rfl⟩ | ⟨q, rfl, _⟩ | h
    · rcases eq_or_ne p s.nextId with rfl | hne
      · simp only [State.setPool, Function.update_self, Pool.create]
        split
        · exact min_le_left _ _
        · exact Nat.zero_le _
      · simpa [State.setPool, hne] using hb.batch p
    · exact hb.batch p
    · rw [h.batch]
      exact hb.batch p
  · rw [(batch_step hs (hid u)).1]
    by_cases hu : u = t
    · subst hu
      exact own_size hb hs
    · rw [(other_step hs hu).1]
      exact hb.size u
  · refine Pc.Fits.frame ?_ fun p hp => (batch_step hs (hb.live p (hop u p hp))).1
    by_cases hu : u = t
    · subst hu
      exact own_fits hb hs
    · rw [(other_step hs hu).1, (other_step hs hu).2]
      exact hb.fits u

/-! ### Conservation -/

theorem drop_add_take (l : List ℕ) (n : ℕ) :
    ((l.drop n : List ℕ) : Multiset ℕ) + (l.take n : List ℕ) = (l : Multiset ℕ) := by
  rw [add_comm, Multiset.coe_add, List.take_append_drop]

theorem coe_cons (i : ℕ) (l : List ℕ) : ((i :: l : List ℕ) : Multiset ℕ) = (l : Multiset ℕ) + {i} := by
  rw [← Multiset.cons_coe, ← Multiset.singleton_add, add_comm]

omit [DecidableEq Tid] in
/-- A cache bound to another pool holds none of this one's slots. -/
theorem cache_other {p : ℕ} (h : (s.cache t).id ≠ p) : contents s p (.cache t) = 0 := if_neg h

/-- Emptying a cache that holds none of a pool's slots moves nothing of that pool. -/
theorem contents_rebound {p id : ℕ} (h : contents s p (.cache t) = 0) :
    contents (s.setCache t ⟨id, []⟩) p = contents s p := by
  have hempty : (if id = p then (([] : List ℕ) : Multiset ℕ) else 0) = contents s p (.cache t) := by
    rw [h]
    split <;> rfl
  rw [contents_setCache, hempty]
  exact Function.update_eq_self _ _

/-- Flushing a cache moves its slots to the home shard of the pool they belong to. -/
theorem contents_drain (hb : Bounded s) (t : Tid) (k : Shard) (id : ℕ) {p : ℕ}
    (hp : s.live p = true) : Transfer (contents s p) (contents (s.drain t k id) p) := by
  simp only [State.drain]
  split
  case isTrue h =>
    rcases eq_or_ne p (s.cache t).id with rfl | hne
    · rw [contents_setCache, contents_setShard]
      refine Transfer.update (by simp) ?_
      simp [contents, ← Multiset.coe_add, add_comm]
    · refine .of_eq ?_
      rw [contents_rebound, State.setShard, contents_setPool_ne s hne]
      exact cache_other hne.symm
  case isFalse h =>
    refine .of_eq (contents_rebound ?_)
    rcases eq_or_ne (s.cache t).id p with rfl | hne
    · have hslots : (s.cache t).slots = [] := by
        by_contra hslots
        refine h ⟨hslots, ?_⟩
        have hsize := hb.size t
        have := List.length_pos_iff.mpr hslots
        simp only [State.registered, hp, Bool.true_and, bne_iff_ne]
        omega
      simp [contents, hslots]
    · exact cache_other hne

/-! The four exchanges: between a shard and a cache, and between one of those, or
the held handles, and an operation in progress. -/

section Exchanges
variable {p q : ℕ}

theorem exchange_shard_cache {k : Shard} {l c : List ℕ} (hid : (s.cache t).id = q)
    (h : (l : Multiset ℕ) + c = ((s.pools q).shards k : Multiset ℕ) + (s.cache t).slots) :
    Transfer (contents s p) (contents ((s.setShard q k l).setCache t ⟨(s.cache t).id, c⟩) p) := by
  rw [contents_setCache]
  rcases eq_or_ne p q with rfl | hpq
  · rw [contents_setShard, if_pos hid]
    exact Transfer.update (by simp) (by simp [contents, hid, h])
  · have hne : (s.cache t).id ≠ p := hid ▸ hpq.symm
    rw [State.setShard, contents_setPool_ne s hpq, if_neg hne, ← cache_other hne]
    exact .of_eq (Function.update_eq_self _ _)

theorem exchange_cache_transit {c : List ℕ} {pc : Pc} (hid : (s.cache t).id = q)
    (hother : p ≠ q → pc.carried p = (s.pc t).carried p)
    (h : (c : Multiset ℕ) + pc.carried q = (s.cache t).slots + (s.pc t).carried q) :
    Transfer (contents s p) (contents ((s.setCache t ⟨(s.cache t).id, c⟩).goto t pc) p) := by
  rcases eq_or_ne p q with rfl | hpq
  · rw [contents_goto, contents_setCache, if_pos hid]
    exact Transfer.update (by simp) (by simp [contents, hid, h])
  · have hne : (s.cache t).id ≠ p := hid ▸ hpq.symm
    rw [contents_goto_same (s.setCache t _) t (hother hpq), contents_setCache, if_neg hne, ← cache_other hne]
    exact .of_eq (Function.update_eq_self _ _)

theorem exchange_shard_transit {k : Shard} {l : List ℕ} {pc : Pc}
    (hother : p ≠ q → pc.carried p = (s.pc t).carried p)
    (h : (l : Multiset ℕ) + pc.carried q = ((s.pools q).shards k : Multiset ℕ) + (s.pc t).carried q) :
    Transfer (contents s p) (contents ((s.setShard q k l).goto t pc) p) := by
  rcases eq_or_ne p q with rfl | hpq
  · rw [contents_goto, contents_setShard]
    exact Transfer.update (by simp) (by simp [contents, h])
  · rw [contents_goto_same (s.setShard q k l) t (hother hpq), State.setShard, contents_setPool_ne s hpq]
    exact .same

theorem exchange_held_transit {held : Multiset TaskHandle} {pc : Pc}
    (hother : p ≠ q → pc.carried p = (s.pc t).carried p)
    (h : held.map TaskHandle.index + pc.carried q =
      (s.pools q).held.map TaskHandle.index + (s.pc t).carried q) :
    Transfer (contents s p) (contents ((s.setHeld q held).goto t pc) p) := by
  rcases eq_or_ne p q with rfl | hpq
  · rw [contents_goto, contents_setHeld]
    exact Transfer.update (by simp) (by simp [contents, h])
  · rw [contents_goto_same (s.setHeld q held) t (hother hpq), State.setHeld, contents_setPool_ne s hpq]
    exact .same

end Exchanges

/-- A step moves a live pool's slots between two places at most. -/
theorem contents_step (hb : Bounded s) (hs : Step home t s s') {p : ℕ} (hp : s.live p = true) :
    Transfer (contents s p) (contents s' p) := by
  have hfit := hb.fits t
  cases hs
  case construct c b hpc => exact .of_eq (contents_setPool_ne s (hb.live p hp).ne _)
  case destroy => exact .same
  case threadExit => exact contents_drain hb t _ _ hp
  case rebindTake q taking hpc =>
    rw [contents_goto_same _ _ (by simp [hpc, Pc.carried])]
    exact contents_drain hb t _ _ hp
  case rebindPut q i hpc =>
    rw [contents_goto_same _ _ (by simp [hpc, Pc.carried])]
    exact contents_drain hb t _ _ hp
  case refill q taking offset hpc hoff hne =>
    rw [hpc] at hfit
    rw [contents_goto_same _ _ (by
      simp [hpc, Pc.carried, State.setCache, State.setShard, State.setPool])]
    refine exchange_shard_cache hfit.1 ?_
    rw [← Multiset.coe_add, Multiset.coe_reverse, ← add_assoc, drop_add_take]
  case pop q taking i rest hpc hslots =>
    rw [hpc] at hfit
    refine exchange_cache_transit hfit.1 (fun hpq => ?_) ?_
    · simp [hpc, Pc.carried, hpq.symm]
    · simp only [hpc, Pc.carried, hslots, if_true, coe_cons, add_zero]
  case scan q taking offset i rest hpc hoff hlist =>
    refine exchange_shard_transit (fun hpq => ?_) ?_
    · simp [hpc, Pc.carried, hpq.symm]
    · simp only [hpc, Pc.carried, hlist, if_true, coe_cons, add_zero]
  case acquire q i hpc =>
    have h := contents_setSlot s p q i ⟨((s.pools q).slots i).generation, .Created⟩
    rw [← h]
    refine exchange_held_transit (fun hpq => ?_) ?_
    · simp [hpc, Pc.carried, hpq.symm, State.setSlot, State.setPool]
    · simp [hpc, Pc.carried, ← Multiset.singleton_add, add_comm, State.setSlot, State.setPool]
  case reserve q i hpc =>
    refine exchange_held_transit (fun hpq => ?_) ?_
    · simp [hpc, Pc.carried, hpq.symm]
    · simp [hpc, Pc.carried, ← Multiset.singleton_add, add_comm]
  case advance q h x hpc hlive hmem => exact .of_eq (contents_setSlot ..)
  case release held q h hpc hlive hheld =>
    have hslot := contents_setSlot s p q h.index
      ⟨(((s.pools q).slots h.index).generation + 1) % word, .Free⟩
    rw [← hslot]
    refine exchange_held_transit (fun hpq => ?_) ?_
    · simp [hpc, Pc.carried, hpq.symm, State.setSlot, State.setPool]
    · simp [hpc, Pc.carried, hheld, ← Multiset.singleton_add, add_comm, State.setSlot, State.setPool]
  case spill q i hpc =>
    rw [hpc] at hfit
    rw [contents_goto_same _ _ (by
      simp [hpc, Pc.carried, State.setCache, State.setShard, State.setPool])]
    refine exchange_shard_cache hfit.1 ?_
    rw [← Multiset.coe_add, add_right_comm, drop_add_take, add_comm]
  case cache q i hpc =>
    rw [hpc] at hfit
    refine exchange_cache_transit hfit.1 (fun hpq => ?_) ?_
    · simp [hpc, Pc.carried, hpq.symm]
    · simp only [hpc, Pc.carried, if_true, coe_cons, add_zero]
  case list q i hpc =>
    refine exchange_shard_transit (fun hpq => ?_) ?_
    · simp [hpc, Pc.carried, hpq.symm]
    · simp only [hpc, Pc.carried, if_true, coe_cons, add_zero]
  all_goals
    refine .of_eq (contents_goto_same _ _ ?_)
    simp_all [Pc.carried]

section Totals
variable [Fintype Tid]

/-- The places of a live pool hold together each of its indices once. -/
def Conserved (s : State Tid) : Prop :=
  ∀ p, s.live p = true → ∑ x, contents s p x = Multiset.range (s.pools p).capacity

/-- Dealing a list out by a function of its elements keeps every element. -/
theorem sum_filter_eq (f : ℕ → Shard) (l : List ℕ) :
    ∑ k, ((l.filter fun i => f i = k : List ℕ) : Multiset ℕ) = (l : Multiset ℕ) := by
  induction l with
  | nil => simp
  | cons i l ih =>
    have hsplit : ∀ k, (((i :: l).filter fun i => f i = k : List ℕ) : Multiset ℕ) =
        ((l.filter fun i => f i = k : List ℕ) : Multiset ℕ) + if f i = k then {i} else 0 := by
      intro k
      by_cases hk : f i = k
      · rw [List.filter_cons_of_pos (by simpa using hk), coe_cons, if_pos hk]
      · rw [List.filter_cons_of_neg (by simpa using hk), if_neg hk, add_zero]
    rw [Finset.sum_congr rfl fun k _ => hsplit k, Finset.sum_add_distrib, ih, coe_cons]
    simp

omit [DecidableEq Tid] in
/-- A new pool's slots are all on its shards. -/
theorem conserved_create (hb : Bounded s) (c : ℕ) (b : Bool) :
    ∑ x, contents (s.setPool s.nextId (.create c b)) s.nextId x = Multiset.range c := by
  have hcarried : ∀ u, (s.pc u).carried s.nextId = 0 := by
    intro u
    have hop := hb.operand u
    have hne : ∀ q, s.live q = true → q ≠ s.nextId := fun q hq => (hb.live q hq).ne
    cases hpc : s.pc u <;> simp_all [Pc.carried, Pc.pool]
    rename_i next
    cases next <;> simp_all
  have hdeal := sum_filter_eq (fun i => ⟨i % kShardCount, Nat.mod_lt _ (by decide)⟩) (List.range c)
  rw [← Fintype.sum_of_injective Place.shard (fun k j h => Place.shard.inj h)
    (fun k : Shard => contents (s.setPool s.nextId (.create c b)) s.nextId (.shard k))]
  · rw [← Multiset.coe_range, ← hdeal]
    simp [contents, State.setPool, Pool.create, Fin.ext_iff]
  · intro x hx
    cases x with
    | shard k => exact absurd ⟨k, rfl⟩ hx
    | cache u => exact if_neg (hb.cacheId u).ne
    | held => simp [contents, State.setPool, Pool.create]
    | transit u => exact hcarried u
  · intro k
    rfl

theorem conserved_step (hb : Bounded s) (h : Conserved s) (hs : Step home t s s') :
    Conserved s' := by
  intro p hp
  rcases shape_step hs with ⟨c, b, rfl⟩ | ⟨q, rfl, _⟩ | hshape
  · rcases eq_or_ne p s.nextId with rfl | hne
    · have hcap : ((s.setPool s.nextId (.create c b)).pools s.nextId).capacity = c := by
        simp [State.setPool, Pool.create]
      show ∑ x, contents (s.setPool s.nextId (.create c b)) s.nextId x =
        Multiset.range ((s.setPool s.nextId (.create c b)).pools s.nextId).capacity
      rw [hcap]
      exact conserved_create hb c b
    · have hlive : s.live p = true := by simpa [hne] using hp
      rw [(contents_step hb hs hlive).sum_eq, (batch_step hs (hb.live p hlive)).2]
      exact h p hlive
  · rcases eq_or_ne p q with rfl | hne
    · simp at hp
    · exact h p (by simpa [hne] using hp)
  · have hlive := hshape.live ▸ hp
    rw [(contents_step hb hs hlive).sum_eq, hshape.capacity]
    exact h p hlive

omit [DecidableEq Tid] in
theorem Conserved.nodup {p : ℕ} (h : Conserved s) (hp : s.live p = true) :
    (∑ x, contents s p x).Nodup := by
  rw [h p hp]
  exact Multiset.nodup_range _

/-! ### The state of a free slot, and the generation of a held one -/

/-- A slot that is not handed out is `Free`. -/
def FreeStates (s : State Tid) : Prop :=
  ∀ p x i, s.live p = true → x ≠ .held → i ∈ contents s p x →
    ((s.pools p).slots i).state = .Free

/-- A held handle carries its slot's generation: no release is stale, none is double. -/
def Current (s : State Tid) : Prop :=
  ∀ p h, s.live p = true → h ∈ (s.pools p).held →
    ((s.pools p).slots h.index).generation = h.generation

omit [DecidableEq Tid] [Fintype Tid] in
/-- Free lists are apart from the slots and the held handles. -/
theorem setShard_apart (s : State Tid) (q : ℕ) (k : Shard) (l : List ℕ) (p : ℕ) :
    ((s.setShard q k l).pools p).slots = (s.pools p).slots ∧
      ((s.setShard q k l).pools p).held = (s.pools p).held := by
  by_cases h : p = q <;> simp [State.setShard, State.setPool, h]

omit [Fintype Tid] in
theorem drain_apart (s : State Tid) (t : Tid) (k : Shard) (id p : ℕ) :
    ((s.drain t k id).pools p).slots = (s.pools p).slots ∧
      ((s.drain t k id).pools p).held = (s.pools p).held := by
  simp only [State.drain]
  split
  · exact setShard_apart ..
  · exact ⟨rfl, rfl⟩

/-- What a step does to a pool's slots and held handles. -/
inductive SlotStep (pool pool' : Pool) : Prop where
  | quiet : pool'.slots = pool.slots → pool'.held = pool.held → SlotStep pool pool'
  | give (i : ℕ) : pool'.held = ⟨i, (pool.slots i).generation⟩ ::ₘ pool.held →
      (∀ j, (pool'.slots j).generation = (pool.slots j).generation) →
      (∀ j, j ≠ i → pool'.slots j = pool.slots j) → SlotStep pool pool'
  | advance (h : TaskHandle) : h ∈ pool.held → pool'.held = pool.held →
      (∀ j, (pool'.slots j).generation = (pool.slots j).generation) →
      (∀ j, j ≠ h.index → pool'.slots j = pool.slots j) → SlotStep pool pool'
  | release (h : TaskHandle) : pool.held = h ::ₘ pool'.held →
      (pool'.slots h.index).state = .Free →
      (∀ j, j ≠ h.index → pool'.slots j = pool.slots j) → SlotStep pool pool'

omit [Fintype Tid] in
theorem slot_step (hb : Bounded s) (hs : Step home t s s') {p : ℕ} (hp : s.live p = true) :
    SlotStep (s.pools p) (s'.pools p) := by
  cases hs
  case construct c b hpc =>
    have hne := (hb.live p hp).ne
    exact .quiet (by simp [State.setPool, hne]) (by simp [State.setPool, hne])
  case acquire q i hpc =>
    rcases eq_or_ne p q with rfl | hpq
    · refine .give i ?_ (fun j => ?_) (fun j hj => ?_)
      · simp [State.goto, State.setHeld, State.setSlot, State.setPool]
      · rcases eq_or_ne j i with rfl | hj <;>
          simp [State.goto, State.setHeld, State.setSlot, State.setPool, *]
      · simp [State.goto, State.setHeld, State.setSlot, State.setPool, hj]
    · exact .quiet (by simp [State.goto, State.setHeld, State.setSlot, State.setPool, hpq])
        (by simp [State.goto, State.setHeld, State.setSlot, State.setPool, hpq])
  case reserve q i hpc =>
    rcases eq_or_ne p q with rfl | hpq
    · exact .give i (by simp [State.goto, State.setHeld, State.setPool])
        (fun j => by simp [State.goto, State.setHeld, State.setPool])
        (fun j _ => by simp [State.goto, State.setHeld, State.setPool])
    · exact .quiet (by simp [State.goto, State.setHeld, State.setPool, hpq])
        (by simp [State.goto, State.setHeld, State.setPool, hpq])
  case advance q h x hpc hlive hmem =>
    rcases eq_or_ne p q with rfl | hpq
    · refine .advance h hmem (by simp [State.setSlot, State.setPool]) (fun j => ?_) (fun j hj => ?_)
      · rcases eq_or_ne j h.index with rfl | hj <;> simp [State.setSlot, State.setPool, *]
      · simp [State.setSlot, State.setPool, hj]
    · exact .quiet (by simp [State.setSlot, State.setPool, hpq])
        (by simp [State.setSlot, State.setPool, hpq])
  case release held q h hpc hlive hheld =>
    rcases eq_or_ne p q with rfl | hpq
    · refine .release h ?_ ?_ (fun j hj => ?_)
      · simpa [State.goto, State.setHeld, State.setSlot, State.setPool] using hheld
      · simp [State.goto, State.setHeld, State.setSlot, State.setPool]
      · simp [State.goto, State.setHeld, State.setSlot, State.setPool, hj]
    · exact .quiet (by simp [State.goto, State.setHeld, State.setSlot, State.setPool, hpq])
        (by simp [State.goto, State.setHeld, State.setSlot, State.setPool, hpq])
  case threadExit | rebindTake | rebindPut =>
    exact .quiet (by simp [State.goto, drain_apart]) (by simp [State.goto, drain_apart])
  case refill | scan | spill | list =>
    exact .quiet (setShard_apart ..).1 (setShard_apart ..).2
  all_goals exact .quiet rfl rfl

omit [DecidableEq Tid] in
/-- A slot found at a place other than `held` is not held. -/
theorem Conserved.not_held {p : ℕ} (h : Conserved s) (hp : s.live p = true) {x : Place Tid} {i : ℕ}
    (hx : x ≠ .held) (hi : i ∈ contents s p x) : ∀ g ∈ (s.pools p).held, g.index ≠ i := by
  intro g hg heq
  obtain rfl := heq
  exact hx (place_unique (h.nodup hp) hi (y := .held) (Multiset.mem_map_of_mem _ hg))

theorem freeStates_step (hb : Bounded s) (hc : Conserved s) (h : FreeStates s)
    (hs : Step home t s s') : FreeStates s' := by
  intro p x i hp hx hi
  have hc' := conserved_step hb hc hs
  by_cases hlive : s.live p = true
  · have hfree' := hc'.not_held hp hx hi
    -- Wherever the slot was, if it was not held there it was free already.
    have hbefore : (∀ g ∈ (s.pools p).held, g.index ≠ i) → ((s.pools p).slots i).state = .Free := by
      intro hheld
      have hmem : i ∈ ∑ y, contents s p y := by
        rw [← (contents_step hb hs hlive).sum_eq]
        exact Multiset.mem_sum.mpr ⟨x, Finset.mem_univ x, hi⟩
      obtain ⟨y, _, hy⟩ := Multiset.mem_sum.mp hmem
      refine h p y i hlive ?_ hy
      intro heq
      obtain rfl := heq
      obtain ⟨g, hg, rfl⟩ := Multiset.mem_map.mp hy
      exact hheld g hg rfl
    cases slot_step hb hs hlive with
    | quiet hslots hheld =>
      rw [hslots]
      exact hbefore (hheld ▸ hfree')
    | give j hheld _ hslots =>
      have hij : i ≠ j := (hfree' _ (hheld ▸ Multiset.mem_cons_self _ _)).symm
      rw [hslots i hij]
      exact hbefore fun g hg => hfree' g (hheld ▸ Multiset.mem_cons_of_mem hg)
    | advance g hg hheld _ hslots =>
      have hij : i ≠ g.index := (hfree' g (hheld ▸ hg)).symm
      rw [hslots i hij]
      exact hbefore (hheld ▸ hfree')
    | release g hheld hstate hslots =>
      rcases eq_or_ne i g.index with rfl | hij
      · exact hstate
      · rw [hslots i hij]
        refine hbefore fun f hf => ?_
        rw [hheld] at hf
        rcases Multiset.mem_cons.mp hf with rfl | hf
        · exact hij.symm
        · exact hfree' f hf
  · -- A pool just constructed: every slot is `Free`.
    rcases shape_step hs with ⟨c, b, rfl⟩ | ⟨q, rfl, _⟩ | hshape
    · rcases eq_or_ne p s.nextId with rfl | hne
      · simp [State.setPool, Pool.create]
      · exact absurd (by simpa [hne] using hp) hlive
    · rcases eq_or_ne p q with rfl | hne
      · simp at hp
      · exact absurd (by simpa [hne] using hp) hlive
    · exact absurd (hshape.live ▸ hp) hlive

theorem current_step (hb : Bounded s) (hc : Conserved s) (h : Current s) (hs : Step home t s s') :
    Current s' := by
  intro p g hp hg
  by_cases hlive : s.live p = true
  · cases slot_step hb hs hlive with
    | quiet hslots hheld =>
      rw [hslots]
      exact h p g hlive (hheld ▸ hg)
    | give j hheld hgen _ =>
      rw [hgen]
      rcases Multiset.mem_cons.mp (hheld ▸ hg) with rfl | hg
      · rfl
      · exact h p g hlive hg
    | advance _ _ hheld hgen _ =>
      rw [hgen]
      exact h p g hlive (hheld ▸ hg)
    | release f hheld _ hslots =>
      have hnodup : ((s.pools p).held.map TaskHandle.index).Nodup :=
        Multiset.nodup_of_le (Finset.single_le_sum (f := contents s p) (fun _ _ => Multiset.zero_le _)
          (Finset.mem_univ Place.held)) (hc.nodup hlive)
      rw [hheld, Multiset.map_cons, Multiset.nodup_cons] at hnodup
      have hne : g.index ≠ f.index := by
        intro heq
        exact hnodup.1 (heq ▸ Multiset.mem_map_of_mem _ hg)
      rw [hslots _ hne]
      exact h p g hlive (hheld ▸ Multiset.mem_cons_of_mem hg)
  · rcases shape_step hs with ⟨c, b, rfl⟩ | ⟨q, rfl, _⟩ | hshape
    · rcases eq_or_ne p s.nextId with rfl | hne
      · simp [State.setPool, Pool.create] at hg
      · exact absurd (by simpa [hne] using hp) hlive
    · rcases eq_or_ne p q with rfl | hne
      · simp at hp
      · exact absurd (by simpa [hne] using hp) hlive
    · exact absurd (hshape.live ▸ hp) hlive

/-! ### An acquire that runs alone -/

/-- What an operation of `t` running alone has found on its way. -/
def Pc.Found (home : Tid → Shard) (t : Tid) (s : State Tid) : Pc → Prop
  | refilling p _ n | scanning p _ n => ∀ j < n, (s.pools p).shards (probe (home t) j) = []
  | popping p _ => (s.cache t).slots = [] → ∀ k, (s.pools p).shards k = []
  | exhausted p => contents s p (.cache t) = 0 ∧ ∀ k, (s.pools p).shards k = []
  | _ => True

/-- While `t` alone moves, nobody else is inside an operation. -/
structure Alone (home : Tid → Shard) (t : Tid) (s : State Tid) : Prop where
  others : ∀ u, u ≠ t → s.pc u = .idle
  found : (s.pc t).Found home t s

/-- Probing `kShardCount` shards from home visits every one. -/
theorem probe_surjective (home k : Shard) : ∃ j < kShardCount, probe home j = k := by
  have hk := k.isLt
  have hh := home.isLt
  unfold kShardCount at hk hh
  refine ⟨(k + 16 - home) % 16, Nat.mod_lt _ (by decide), Fin.ext ?_⟩
  show (home + (k + 16 - home) % 16) % 16 = (k : ℕ)
  omega

/-- A whole round of misses. -/
theorem shards_empty {shards : Shard → List ℕ} {home : Shard} {n : ℕ} (hn : ¬n < kShardCount)
    (h : ∀ j < n, shards (probe home j) = []) (k : Shard) : shards k = [] := by
  obtain ⟨j, hj, rfl⟩ := probe_surjective home k
  exact h j (by omega)

/-- One miss more. -/
theorem misses_succ {shards : Shard → List ℕ} {home : Shard} {n : ℕ}
    (h : ∀ j < n, shards (probe home j) = []) (hn : shards (probe home n) = []) :
    ∀ j < n + 1, shards (probe home j) = [] := by
  intro j hj
  rcases Nat.lt_succ_iff_lt_or_eq.mp hj with hj | rfl
  · exact h j hj
  · exact hn

omit [Fintype Tid] in
theorem found_step (hb : Bounded s) (h : Alone home t s) (hs : Step home t s s') :
    (s'.pc t).Found home t s' := by
  have hfound := h.found
  have hfit := hb.fits t
  have hsize := hb.size t
  cases hs
  case refillMiss p taking n hpc hn hempty =>
    rw [hpc] at hfound
    simp only [State.goto, Function.update_self]
    exact misses_succ hfound hempty
  case scanMiss p taking n hpc hn hempty =>
    rw [hpc] at hfound
    simp only [State.goto, Function.update_self]
    exact misses_succ hfound hempty
  case refill p taking n hpc hn hne =>
    rw [hpc] at hfit
    obtain ⟨_, hslots, hbatch⟩ := hfit
    simp only [State.goto, Function.update_self]
    intro hnone
    simp only [State.setCache, Function.update_self, hslots, List.append_nil,
      List.reverse_eq_nil_iff, List.take_eq_nil_iff, List.length_nil, Nat.sub_zero] at hnone
    exact absurd (hnone.resolve_left hbatch) hne
  case refillNone p taking n hpc hn =>
    rw [hpc] at hfound
    simp only [State.goto, Function.update_self]
    exact fun _ => shards_empty hn hfound
  case scanNone p taking n hpc hn =>
    rw [hpc] at hfound hfit
    simp only [State.goto, Function.update_self]
    refine ⟨?_, shards_empty hn hfound⟩
    show (if (s.cache t).id = p then ((s.cache t).slots : Multiset ℕ) else 0) = 0
    split
    case isTrue hid =>
      have hbatch : (s.pools (s.cache t).id).cacheBatch = 0 := hid ▸ hfit
      simpa [hbatch] using hsize
    case isFalse => rfl
  case popNone p taking hpc hnone =>
    rw [hpc] at hfound
    simp only [State.goto, Function.update_self]
    refine ⟨?_, hfound hnone⟩
    show (if (s.cache t).id = p then ((s.cache t).slots : Multiset ℕ) else 0) = 0
    rw [hnone]
    split <;> rfl
  all_goals simp_all [Pc.Found, State.goto, State.setCache, State.setShard, State.setSlot,
    State.setHeld, State.setPool]

omit [Fintype Tid] in
theorem alone_step (hb : Bounded s) (h : Alone home t s) (hs : Step home t s s') :
    Alone home t s' :=
  ⟨fun u hu => (other_step hs hu).2 ▸ h.others u hu, found_step hb h hs⟩

/-! ### The pool, on every run -/

structure Inv (s : State Tid) : Prop where
  bounded : Bounded s
  conserved : Conserved s
  freeStates : FreeStates s
  current : Current s

omit [DecidableEq Tid] in
theorem inv_initial (h : Initial s) : Inv s where
  bounded :=
    { live := fun p hp => by simp [h.live] at hp
      cacheId := fun t => by simp [h.cache, h.nextId]
      operand := fun t p hp => by simp [h.pc, Pc.pool] at hp
      batch := fun p => by simp [h.pools, Pool.create]
      size := fun t => by simp [h.cache]
      fits := fun t => by simp [h.pc, Pc.Fits] }
  conserved p hp := by simp [h.live] at hp
  freeStates p x i hp := by simp [h.live] at hp
  current p g hp := by simp [h.live] at hp

theorem inv_step (h : Inv s) (hs : Step home t s s') : Inv s' where
  bounded := bounded_step h.bounded hs
  conserved := conserved_step h.bounded h.conserved hs
  freeStates := freeStates_step h.bounded h.conserved h.freeStates hs
  current := current_step h.bounded h.conserved h.current hs

theorem inv_reachable (h : Reachable (system home) s) : Inv s :=
  h.invariant (P := Inv) (fun _ hi => inv_initial hi) fun _ _ _ _ hinv hs => inv_step hinv hs

/-- What holds of the pools in state `s`. -/
structure Correct (home : Tid → Shard) (s : State Tid) : Prop where
  /-- Every index of a live pool is at one place, once, and nothing else is anywhere. -/
  place : ∀ p i, s.live p = true → i < (s.pools p).capacity → ∃! x, i ∈ contents s p x
  once : ∀ p x, s.live p = true → (contents s p x).Nodup ∧ ∀ i ∈ contents s p x,
    i < (s.pools p).capacity
  /-- A cache holds at most two batches, and is written within its array. -/
  cacheSize : ∀ t, (s.cache t).slots.length ≤ 2 * (s.pools (s.cache t).id).cacheBatch ∧
    2 * (s.pools (s.cache t).id).cacheBatch ≤ 2 * kMaxBatch
  cacheWrite : ∀ t p i, s.pc t = .caching p i → (s.cache t).slots.length < 2 * kMaxBatch
  /-- A slot about to be handed out is `Free`. -/
  free : ∀ t p taking i, s.pc t = .handing p taking i → ((s.pools p).slots i).state = .Free
  /-- A held handle is its slot's: releasing it is neither stale nor double. -/
  current : ∀ p h, s.live p = true → h ∈ (s.pools p).held →
    ((s.pools p).slots h.index).generation = h.generation
  /-- From here, with nobody inside an operation, a thread running alone comes up
  empty-handed only when every slot is held or in another thread's cache. -/
  exhausted : (∀ u, s.pc u = .idle) → ∀ t s', Relation.ReflTransGen (Step home t) s s' →
    ∀ p, s'.pc t = .exhausted p → ∀ i < (s'.pools p).capacity,
      i ∈ contents s' p .held ∨
        (s'.pools p).cacheBatch ≠ 0 ∧ ∃ u, u ≠ t ∧ i ∈ contents s' p (.cache u)

/-- Running alone keeps both invariants. -/
theorem alone_run (hi : Inv s) (ha : Alone home t s) (h : Relation.ReflTransGen (Step home t) s s') :
    Inv s' ∧ Alone home t s' := by
  induction h with
  | refl => exact ⟨hi, ha⟩
  | tail _ hs ih => exact ⟨inv_step ih.1 hs, alone_step ih.1.bounded ih.2 hs⟩

omit [DecidableEq Tid] in
theorem exhausted_alone (hi : Inv s) (ha : Alone home t s) {p : ℕ} (hpc : s.pc t = .exhausted p)
    {i : ℕ} (hcap : i < (s.pools p).capacity) : i ∈ contents s p .held ∨
      (s.pools p).cacheBatch ≠ 0 ∧ ∃ u, u ≠ t ∧ i ∈ contents s p (.cache u) := by
  have hlive := hi.bounded.operand t p (by rw [hpc]; rfl)
  have hfound := ha.found
  rw [hpc] at hfound
  have hmem : i ∈ ∑ x, contents s p x := by
    rw [hi.conserved p hlive]
    exact Multiset.mem_range.mpr hcap
  obtain ⟨x, _, hx⟩ := Multiset.mem_sum.mp hmem
  cases x with
  | shard k =>
    have hk : contents s p (.shard k) = ((s.pools p).shards k : Multiset ℕ) := rfl
    rw [hk, hfound.2 k] at hx
    simp at hx
  | cache u =>
    have hut : u ≠ t := by
      intro heq
      obtain rfl := heq
      rw [hfound.1] at hx
      simp at hx
    refine .inr ⟨fun hbatch => ?_, u, hut, hx⟩
    rcases eq_or_ne (s.cache u).id p with rfl | hne
    · have hsize := hi.bounded.size u
      rw [hbatch, Nat.mul_zero, Nat.le_zero, List.length_eq_zero_iff] at hsize
      simp [contents, hsize] at hx
    · rw [cache_other hne] at hx
      simp at hx
  | held => exact .inl hx
  | transit u =>
    have hcarried : contents s p (.transit u) = 0 := by
      rcases eq_or_ne u t with rfl | hut
      · show (s.pc u).carried p = 0
        rw [hpc]
        rfl
      · show (s.pc u).carried p = 0
        rw [ha.others u hut]
        rfl
    rw [hcarried] at hx
    simp at hx

/-- **Slots are conserved**: in every state any number of threads and pools can
reach, and for an acquire that runs alone from there. -/
theorem pool_correct (h : Reachable (system home) s) : Correct home s := by
  have hi := inv_reachable h
  refine
    { place := fun p i hp hcap => ?_
      once := fun p x hp => ⟨?_, fun i hx => ?_⟩
      cacheSize := fun t => ⟨hi.bounded.size t, Nat.mul_le_mul_left 2 (hi.bounded.batch _)⟩
      cacheWrite := fun t p i hpc => ?_
      free := fun t p taking i hpc => ?_
      current := hi.current
      exhausted := fun hidle t s' hrun p hpc i hcap => ?_ }
  · refine exists_unique_place (hi.conserved.nodup hp) ?_
    rw [hi.conserved p hp]
    exact Multiset.mem_range.mpr hcap
  · exact Multiset.nodup_of_le (Finset.single_le_sum (f := contents s p)
      (fun _ _ => Multiset.zero_le _) (Finset.mem_univ x)) (hi.conserved.nodup hp)
  · rw [← Multiset.mem_range, ← hi.conserved p hp]
    exact Multiset.mem_sum.mpr ⟨x, Finset.mem_univ x, hx⟩
  · have hfit := hi.bounded.fits t
    have hbatch := hi.bounded.batch p
    rw [hpc] at hfit
    exact hfit.2.trans_le (Nat.mul_le_mul_left 2 hbatch)
  · refine hi.freeStates p (.transit t) i (hi.bounded.operand t p (by rw [hpc]; rfl)) (by simp) ?_
    simp [contents, hpc, Pc.carried]
  · have halone : Alone home t s := ⟨fun u _ => hidle u, by rw [hidle t]; trivial⟩
    obtain ⟨hi', ha'⟩ := alone_run hi halone hrun
    exact exhausted_alone hi' ha' hpc hcap

end Totals

/-! ### A run -/

/-- Thread `t`, bound to pool 1, stands at `p`, while `u` is idle. So many slots are held,
in the cache of `t` and on its home shard. -/
structure Stands (home : Tid → Shard) (t u : Tid) (s : State Tid) (p : Pc) (held cached : ℕ)
    (other : ThreadCache) (listed : ℕ) : Prop where
  reachable : Reachable (system home) s
  live : s.live 1 = true
  batch : (s.pools 1).cacheBatch = 16
  pc : s.pc t = p
  idle : s.pc u = .idle
  bound : (s.cache t).id = 1
  held : (s.pools 1).held.card = held
  cached : (s.cache t).slots.length = cached
  other : s.cache u = other
  listed : ((s.pools 1).shards (home t)).length = listed

namespace Stands
variable {p : Pc} {n c l : ℕ} {o : ThreadCache}

theorem goto (h : Stands home t u s p n c o l) (hne : u ≠ t) {p' : Pc}
    (hs : Step home t s (s.goto t p')) : Stands home t u (s.goto t p') p' n c o l :=
  {h with
    reachable := h.reachable.step hs
    pc := Function.update_self ..
    idle := (Function.update_of_ne hne ..).trans h.idle}

theorem pop (h : Stands home t u s (.popping 1 .acquire) n (c + 1) o l) (hne : u ≠ t) :
    ∃ s', Stands home t u s' .idle (n + 1) c o l := by
  obtain ⟨i, rest, hslots⟩ := List.exists_cons_of_length_eq_add_one h.cached
  have hpop := h.reachable.step (l := t) (.pop h.pc hslots)
  have hacquire := hpop.step (l := t) (.acquire (Function.update_self ..))
  have hcached : rest.length = c := by simpa [hslots] using h.cached
  refine ⟨_, hacquire, h.live, ?_, ?_, ?_, ?_, ?_, ?_, ?_, ?_⟩ <;>
    simp [State.goto, State.setHeld, State.setSlot, State.setPool, State.setCache, h.batch, h.idle, h.bound,
      h.held, hcached, h.other, h.listed, hne]

/-- A task taken from the cache. -/
theorem acquire (h : Stands home t u s .idle n (c + 1) o l) (hne : u ≠ t) :
    ∃ s', Stands home t u s' .idle (n + 1) c o l := by
  have hslots : (s.cache t).slots ≠ [] := List.ne_nil_of_length_eq_add_one h.cached
  exact (h.goto hne (.takeCached 1 .acquire h.pc h.live (by simp [h.batch]) h.bound hslots)).pop hne

theorem refill (h : Stands home t u s (.refilling 1 .acquire 0) n 0 o (l + 16)) (hne : u ≠ t) :
    ∃ s', Stands home t u s' .idle (n + 1) 15 o l := by
  have hhome : probe (home t) 0 = home t := Fin.ext (Nat.mod_eq_of_lt (home t).isLt)
  have hsome : (s.pools 1).shards (probe (home t) 0) ≠ [] := by
    rw [hhome]
    exact List.ne_nil_of_length_eq_add_one h.listed
  have hrefill := h.reachable.step (l := t) (.refill h.pc (by decide) hsome)
  have hempty : (s.cache t).slots = [] := List.eq_nil_of_length_eq_zero h.cached
  refine pop (c := 15) ⟨hrefill, h.live, ?_, ?_, ?_, ?_, ?_, ?_, ?_, ?_⟩ hne <;>
    simp [State.goto, State.setShard, State.setPool, State.setCache, hhome, hempty, h.batch, h.idle, h.bound,
      h.held, h.other, h.listed, hne]

/-- A task taken by a thread whose cache is empty. -/
theorem acquireRefilling (h : Stands home t u s .idle n 0 o (l + 16)) (hne : u ≠ t) :
    ∃ s', Stands home t u s' .idle (n + 1) 15 o l := by
  have hslots : (s.cache t).slots = [] := List.eq_nil_of_length_eq_zero h.cached
  exact (h.goto hne (.takeRefill 1 .acquire h.pc h.live (by simp [h.batch]) h.bound hslots)).refill hne

/-- A slot released, and about to go on a list. -/
theorem returning (h : Stands home t u s .idle (n + 1) c o l) (hne : u ≠ t) :
    ∃ s' i, Stands home t u s' (.returning 1 i) n c o l := by
  obtain ⟨handle, hmem⟩ := Multiset.card_pos_iff_exists_mem.mp (by rw [h.held]; exact n.succ_pos)
  obtain ⟨held, hheld⟩ := Multiset.exists_cons_of_mem hmem
  have hrelease := h.reachable.step (l := t) (.release 1 handle h.pc h.live hheld)
  have hcard : held.card = n := by simpa [hheld] using h.held
  refine ⟨_, handle.index, hrelease, h.live, ?_, ?_, ?_, ?_, ?_, ?_, ?_, ?_⟩ <;>
    simp [State.goto, State.setHeld, State.setSlot, State.setPool, h.batch, h.idle, h.bound, hcard, h.cached,
      h.other, h.listed, hne]

theorem caching {i : ℕ} (h : Stands home t u s (.caching 1 i) n c o l) (hne : u ≠ t) :
    ∃ s', Stands home t u s' .idle n (c + 1) o l := by
  have hcache := h.reachable.step (l := t) (.cache h.pc)
  refine ⟨_, hcache, h.live, h.batch, ?_, ?_, ?_, h.held, ?_, ?_, h.listed⟩ <;>
    simp [State.goto, State.setCache, h.idle, h.bound, h.cached, h.other, hne]

theorem release (h : Stands home t u s .idle (n + 1) c o l) (hne : u ≠ t) (hc : c < 32) :
    ∃ s', Stands home t u s' .idle n (c + 1) o l := by
  obtain ⟨s', i, h⟩ := h.returning hne
  have hroom : (s'.cache t).slots.length ≠ 2 * (s'.pools 1).cacheBatch := by
    rw [h.cached, h.batch]
    omega
  exact (h.goto hne (.putCached h.pc (by simp [h.batch]) h.bound hroom)).caching hne

theorem spill {i : ℕ} (h : Stands home t u s (.spilling 1 i) n 32 o l) (hne : u ≠ t) :
    ∃ s', Stands home t u s' .idle n 17 o (l + 16) := by
  have hspill := h.reachable.step (l := t) (.spill h.pc)
  refine caching (c := 16) (i := i) ⟨hspill, h.live, ?_, ?_, ?_, ?_, ?_, ?_, ?_, ?_⟩ hne <;>
    simp [State.goto, State.setShard, State.setPool, State.setCache, h.batch, h.idle, h.bound, h.held,
      h.cached, h.other, h.listed, hne, Nat.add_comm]

/-- A release to a cache that is full. -/
theorem releaseSpilling (h : Stands home t u s .idle (n + 1) 32 o l) (hne : u ≠ t) :
    ∃ s', Stands home t u s' .idle n 17 o (l + 16) := by
  obtain ⟨s', i, h⟩ := h.returning hne
  have hfull : (s'.cache t).slots.length = 2 * (s'.pools 1).cacheBatch := by rw [h.cached, h.batch]
  exact (h.goto hne (.putSpill h.pc (by simp [h.batch]) h.bound hfull)).spill hne

/-- The other thread, whose cache served no pool, takes a task. -/
theorem rebind (h : Stands home t u s .idle n c ⟨0, []⟩ l) (hne : u ≠ t) (hhome : home u = home t) :
    ∃ s', Stands home u t s' (.refilling 1 .acquire 0) n 0 (s.cache t) l := by
  have hbatch : (s.pools 1).cacheBatch ≠ 0 := by simp [h.batch]
  have hrebind := h.reachable.step (l := u) (.takeRebind 1 .acquire h.idle h.live hbatch (by simp [h.other]))
  have hbind := hrebind.step (l := u) (.rebindTake (Function.update_self ..))
  have hlisted := hhome ▸ h.listed
  refine ⟨_, hbind, ?_, ?_, ?_, ?_, ?_, ?_, ?_, ?_, ?_⟩ <;>
    simp [State.goto, State.drain, State.setCache, h.live, h.batch, h.pc, h.held, h.other, hlisted, hne.symm]

theorem acquires (hne : u ≠ t) (k : ℕ) (h : Stands home t u s .idle n (c + k) o l) :
    ∃ s', Stands home t u s' .idle (n + k) c o l := by
  induction k generalizing n s with
  | zero => exact ⟨s, h⟩
  | succ k ih =>
    obtain ⟨s₁, h⟩ := h.acquire hne
    obtain ⟨s₂, h⟩ := ih h
    exact ⟨s₂, Nat.add_right_comm n 1 k ▸ h⟩

theorem releases (hne : u ≠ t) (k : ℕ) (hc : c + k ≤ 32) (h : Stands home t u s .idle (n + k) c o l) :
    ∃ s', Stands home t u s' .idle n (c + k) o l := by
  induction k generalizing c s with
  | zero => exact ⟨s, h⟩
  | succ k ih =>
    obtain ⟨s₁, h⟩ := h.release hne (by omega)
    obtain ⟨s₂, h⟩ := ih (by omega) h
    exact ⟨s₂, Nat.add_right_comm c 1 k ▸ h⟩

end Stands

/-- The theorem on a run of two threads that share a home shard, over a cached pool. One acquires
33 slots, in three refills, and releases 18, the last into a full cache; the other acquires one of
those that spilled. -/
theorem pool_correct_spilled : ∃ s : State (Fin 2), Reachable (system fun _ => ⟨0, by decide⟩) s ∧
    s.live 1 = true ∧ (s.pools 1).cacheBatch = 16 ∧ (s.pools 1).held.card = 16 ∧
    (s.cache 0).slots.length = 17 ∧ (s.cache 1).slots.length = 15 ∧
    Correct (fun _ => ⟨0, by decide⟩) s := by
  have hi : Reachable (system fun _ : Fin 2 => ⟨0, by decide⟩) ⟨fun _ => .create 0 false, fun _ => false, 1,
      fun _ => ⟨0, []⟩, fun _ => .idle⟩ :=
    .initial ⟨fun _ => rfl, fun _ => rfl, rfl, fun _ => rfl, fun _ => rfl⟩
  have h := hi.step (l := 0) (.construct 1024 true rfl)
  have h := h.step (l := 0) (.takeRebind 1 .acquire rfl rfl (by decide) (by decide))
  have h := h.step (l := 0) (.rebindTake rfl)
  obtain ⟨_, h⟩ := Stands.refill (t := 0) (u := 1) (o := ⟨0, []⟩) (l := 48)
    ⟨h, rfl, rfl, rfl, rfl, rfl, rfl, rfl, rfl, by decide +kernel⟩ (by decide)
  obtain ⟨_, h⟩ := h.acquires (c := 0) (by decide) 15
  obtain ⟨_, h⟩ := h.acquireRefilling (l := 32) (by decide)
  obtain ⟨_, h⟩ := h.acquires (c := 0) (by decide) 15
  obtain ⟨_, h⟩ := h.acquireRefilling (l := 16) (by decide)
  obtain ⟨_, h⟩ := h.releases (n := 16) (by decide) 17 (by decide)
  obtain ⟨_, h₀⟩ := h.releaseSpilling (by decide)
  obtain ⟨_, h⟩ := h₀.rebind (by decide) rfl
  obtain ⟨_, h⟩ := h.refill (l := 16) (by decide)
  refine ⟨_, h.reachable, h.live, h.batch, h.held, ?_, h.cached, pool_correct h.reachable⟩
  rw [h.other, h₀.cached]

end Thunderbolt.Task.TaskPool
