import Mathlib.Algebra.Order.Ring.Int
import Mathlib.Data.Nat.ModEq
import Mathlib.Tactic.Positivity
import Thunderbolt.Executor.AbpDeque

/-! Why every element of the deque is returned once.

`Bounds` is arithmetic: between `top_` and the logical bottom (`bottom_`, plus
one while a pop has lowered it) there are at most `2 ^ k` indices, and a thief
past its emptiness check that could still win is after one the owner has not
claimed. `Contents` is about values: those indices hold the values last pushed
there, and every other push has been returned. -/
namespace Thunderbolt.Executor.AbpDeque
open Concurrent

variable {Tid α : Type*} [DecidableEq Tid] {k : ℕ} {m : Mover Tid} {s s' : State Tid α}

theorem slot_eq (k : ℕ) (i : ℤ) : slot k i = i.toNat % 2 ^ k :=
  Nat.and_two_pow_sub_one_eq_mod _ _

/-- Fewer than a whole turn apart, two indices have different slots. -/
theorem slot_ne {i b : ℤ} (hi : 0 ≤ i) (hib : i < b) (hb : b - i < 2 ^ k) :
    slot k i ≠ slot k b := by
  rw [slot_eq, slot_eq]
  intro h
  have hdvd : 2 ^ k ∣ b.toNat - i.toNat := (Nat.modEq_iff_dvd' (by omega)).mp h
  have hle := Nat.le_of_dvd (by omega) hdvd
  have : ((2 ^ k : ℕ) : ℤ) = 2 ^ k := by simp
  omega

/-! ### Indices -/

namespace OwnerPc

/-- One past the last element, with `bottom_` at `bottom`. -/
def logicalBottom (bottom : ℤ) : OwnerPc α → ℤ
  | popTop b | popEmpty b | popRead b _ | popCas b _ _ | popRestore b _ _ => b + 1
  | _ => bottom

/-- One past the last element a thief may take: not the one a pop has seen above others. -/
def stealable (bottom : ℤ) : OwnerPc α → ℤ
  | popRead b t => if t < b then b else b + 1
  | popTop b | popEmpty b | popCas b _ _ | popRestore b _ _ => b + 1
  | _ => bottom

/-- What the owner's reads still say of `top_` and `bottom_`. -/
def Agrees (k : ℕ) (top bottom : ℤ) : OwnerPc α → Prop
  | idle => True
  | pushTop _ b | popTop b => b = bottom
  | pushWrite _ b | pushPublish _ b => b = bottom ∧ b - top < 2 ^ k
  | popStore b => b + 1 = bottom
  | popEmpty b => b = bottom ∧ top = b + 1
  | popRead b t => b = bottom ∧ t ≤ top ∧ t ≤ b ∧ (t < b → top ≤ b)
  | popCas b t _ => b = bottom ∧ t = b ∧ t ≤ top
  | popRestore b _ _ => b = bottom ∧ top = b + 1

end OwnerPc

/-- What a thief's reads still say: at `top_` still, its index is there to be taken. -/
def ThiefPc.Agrees (top stealable : ℤ) : ThiefPc α → Prop
  | idle => True
  | stealBottom i => i ≤ top
  | stealRead i | stealCas i _ => i ≤ top ∧ (top = i → i < stealable)

namespace State

def logicalBottom (s : State Tid α) : ℤ := s.owner.logicalBottom s.bottom

def stealable (s : State Tid α) : ℤ := s.owner.stealable s.bottom

end State

structure Bounds (k : ℕ) (s : State Tid α) : Prop where
  nonneg : 0 ≤ s.top
  top_le : s.top ≤ s.logicalBottom
  fits : s.logicalBottom - s.top ≤ 2 ^ k
  pushes : s.logicalBottom ≤ s.pushed.length
  owner : s.owner.Agrees k s.top s.bottom
  thief : ∀ t, (s.thief t).Agrees s.top s.stealable

omit [DecidableEq Tid] in
theorem bounds_initial (h : Initial s) : Bounds k s := by
  have hp : (0 : ℤ) < 2 ^ k := by positivity
  constructor <;>
    simp [h.top, h.bottom, h.owner, h.pushed, h.thief, State.logicalBottom, OwnerPc.logicalBottom,
      OwnerPc.Agrees, ThiefPc.Agrees, hp.le]

/-- Another thread's step leaves a thief where it is. -/
theorem thief_other (hs : Step k m s s') {t : Tid} (ht : m ≠ .thief t) : s'.thief t = s.thief t := by
  cases hs
  case steal | stealEmpty | stealSome | stealRead | stealWon | stealAbort =>
    refine Function.update_of_ne ?_ _ _
    intro heq
    obtain rfl := heq
    exact ht rfl
  all_goals rfl

/-- A thief's step leaves the owner where it is, and `bottom_` too. -/
theorem owner_other (hs : Step k m s s') (hm : m ≠ .owner) :
    s'.owner = s.owner ∧ s'.bottom = s.bottom := by
  cases hs
  case steal | stealEmpty | stealSome | stealRead | stealWon | stealAbort => exact ⟨rfl, rfl⟩
  all_goals exact absurd rfl hm

/-- What a thief's reads say survives every step. -/
theorem agrees_step (h : Bounds k s) (hs : Step k m s s') {p : ThiefPc α}
    (hp : p.Agrees s.top s.stealable) : p.Agrees s'.top s'.stealable := by
  have htop := h.top_le
  have hown := h.owner
  cases hs <;> cases p <;>
    simp_all [ThiefPc.Agrees, State.stealable, State.logicalBottom, OwnerPc.stealable,
      OwnerPc.logicalBottom, OwnerPc.Agrees, State.thiefAt] <;> grind

/-- A thief's own step reads what it then relies on. -/
theorem agrees_own (h : Bounds k s) {t : Tid} (hs : Step k (.thief t) s s') :
    (s'.thief t).Agrees s'.top s'.stealable := by
  have hbefore := h.thief t
  have hown := h.owner
  cases hs
  case stealSome i hlt hpc =>
    rw [hpc] at hbefore
    simp only [State.thiefAt, Function.update_self, ThiefPc.Agrees]
    refine ⟨hbefore, fun _ => ?_⟩
    cases hp : s.owner <;>
      simp_all [State.stealable, OwnerPc.stealable, OwnerPc.Agrees] <;> grind
  case stealRead i hpc =>
    rw [hpc] at hbefore
    simpa [State.thiefAt, State.stealable, ThiefPc.Agrees] using hbefore
  all_goals simp [State.thiefAt, ThiefPc.Agrees]

theorem bounds_step (h : Bounds k s) (hs : Step k m s s') : Bounds k s' where
  nonneg := by
    have := h.nonneg
    cases hs <;> simp only [State.thiefAt] <;> omega
  top_le := by
    have htop := h.top_le
    have hown := h.owner
    cases hs
    case stealWon t i v hpc hi =>
      have hthief := h.thief t
      cases hp : s.owner <;>
        simp_all [State.logicalBottom, OwnerPc.logicalBottom, OwnerPc.Agrees, State.thiefAt,
          ThiefPc.Agrees, State.stealable, OwnerPc.stealable] <;> grind
    all_goals
      simp_all [State.logicalBottom, OwnerPc.logicalBottom, OwnerPc.Agrees, State.thiefAt] <;> omega
  fits := by
    have hfits := h.fits
    have hown := h.owner
    cases hs <;>
      simp_all [State.logicalBottom, OwnerPc.logicalBottom, OwnerPc.Agrees, State.thiefAt] <;> omega
  pushes := by
    have hpushes := h.pushes
    have hown := h.owner
    cases hs <;>
      simp_all [State.logicalBottom, OwnerPc.logicalBottom, OwnerPc.Agrees, State.thiefAt]
    omega
  owner := by
    have htop := h.top_le
    have hown := h.owner
    cases hs
    case stealWon t i v hpc hi =>
      have hthief := h.thief t
      cases hp : s.owner <;>
        simp_all [State.logicalBottom, OwnerPc.logicalBottom, OwnerPc.Agrees, State.thiefAt,
          ThiefPc.Agrees, State.stealable, OwnerPc.stealable] <;> grind
    all_goals
      simp_all [State.logicalBottom, OwnerPc.logicalBottom, OwnerPc.Agrees, State.thiefAt] <;> omega
  thief t := by
    by_cases ht : m = .thief t
    · subst ht
      exact agrees_own h hs
    · rw [thief_other hs ht]
      exact agrees_step h hs (h.thief t)

theorem bounds_reachable (h : Reachable (system Tid α k) s) : Bounds k s :=
  h.invariant (P := Bounds k) (fun _ hi => bounds_initial hi) fun _ _ _ _ hb hs => bounds_step hb hs

/-! ### Values -/

namespace State

/-- Push number `n` has not been returned. -/
def Unreturned (s : State Tid α) (n : ℕ) : Prop := ∀ r ∈ s.returned, r.push ≠ n

/-- The latest push at index `i` wrote `v`, and has not been returned. -/
def Holds (s : State Tid α) (i : ℤ) (v : α) : Prop :=
  s.pushed[s.occupant i]? = some (i, v) ∧ s.Unreturned (s.occupant i)

end State

/-- The values the owner carries between two steps. -/
def OwnerPc.Carries (k : ℕ) (s : State Tid α) : OwnerPc α → Prop
  | pushPublish v b | popCas b _ v => s.buffer (slot k b) = v
  | popRestore b v true => s.Holds b v
  | _ => True

/-- The value a thief read is still there if `top_` is still where it read it. -/
def ThiefPc.Carries (k : ℕ) (s : State Tid α) : ThiefPc α → Prop
  | stealCas i v => s.top = i → s.buffer (slot k i) = v
  | _ => True

/-- Index `i` has been won by the pop in progress. -/
def OwnerPc.Claims (i : ℤ) : OwnerPc α → Prop
  | popRestore b _ true => b = i
  | _ => False

structure Contents (k : ℕ) (s : State Tid α) : Prop where
  /-- Every index in the deque holds its latest push. -/
  live : ∀ i, s.top ≤ i → i < s.logicalBottom → s.Holds i (s.buffer (slot k i))
  owner : s.owner.Carries k s
  thief : ∀ t, (s.thief t).Carries k s
  /-- What was returned is what was pushed. -/
  log : ∀ r ∈ s.returned, s.pushed[r.push]? = some (r.index, r.value)
  once : (s.returned.map Return.push).Nodup
  /-- No push is lost. -/
  conserved : ∀ n i v, s.pushed[n]? = some (i, v) → ¬s.Unreturned n ∨
    n = s.occupant i ∧ (s.top ≤ i ∧ i < s.logicalBottom ∨ s.owner.Claims i)

omit [DecidableEq Tid] in
theorem stealable_le (s : State Tid α) : s.stealable ≤ s.logicalBottom := by
  unfold State.stealable State.logicalBottom
  cases s.owner <;> simp only [OwnerPc.stealable, OwnerPc.logicalBottom, le_refl]
  split <;> omega

omit [DecidableEq Tid] in
/-- A won pop has advanced `top_` past its index. -/
theorem claims_top (hb : Bounds k s) {i : ℤ} (h : s.owner.Claims i) : s.top = i + 1 := by
  have hown := hb.owner
  cases hp : s.owner with
  | popRestore b v won =>
    rw [hp] at h hown
    cases won
    · exact h.elim
    · obtain rfl : b = i := h
      exact hown.2
  | _ =>
    rw [hp] at h
    exact h.elim

/-- What a step returns is an unreturned push it alone held, and takes it out of the deque. -/
theorem returned_step (hb : Bounds k s) (hc : Contents k s) (hs : Step k m s s') :
    s'.returned = s.returned ∨
      (∃ r, s'.returned = s.returned ++ [r] ∧ s'.pushed = s.pushed ∧ s'.occupant = s.occupant ∧
        r.push = s.occupant r.index ∧ s.Holds r.index r.value ∧ ¬s'.owner.Claims r.index ∧
        (r.index < s'.top ∨ s'.logicalBottom ≤ r.index)) := by
  have hown := hb.owner
  have hcar := hc.owner
  cases hs
  case popTake b t hne hpc =>
    rw [hpc] at hown
    obtain ⟨hbot, _, hle, htop⟩ := hown
    refine .inr ⟨_, rfl, rfl, rfl, rfl, ?_, id, .inr ?_⟩
    · apply hc.live
      · exact htop (lt_of_le_of_ne hle hne)
      · simp [State.logicalBottom, hpc, OwnerPc.logicalBottom]
    · simp [State.logicalBottom, OwnerPc.logicalBottom, hbot]
  case popReturn b v hpc =>
    rw [hpc] at hown hcar
    exact .inr ⟨_, rfl, rfl, rfl, rfl, hcar, id, .inl (by have := hown.2; simp; omega)⟩
  case stealWon t i v hpc hi =>
    have hthief := hb.thief t
    have hval := hc.thief t
    rw [hpc] at hthief hval
    have hlive := hc.live i hi.le ((hthief.2 hi).trans_le (stealable_le s))
    rw [hval hi] at hlive
    refine .inr ⟨_, rfl, rfl, rfl, rfl, hlive, ?_, .inl (by simp [State.thiefAt])⟩
    intro hclaim
    have := claims_top hb hclaim
    simp only at this
    omega
  all_goals exact .inl rfl

/-- A publication adds one index and one push; no other step adds either. -/
theorem publish_step (hb : Bounds k s) (hs : Step k m s s') :
    (s'.logicalBottom ≤ s.logicalBottom ∧ s'.pushed = s.pushed ∧ s'.occupant = s.occupant) ∨
      ∃ v b, s.owner = .pushPublish v b ∧ s'.owner = .idle ∧ s'.top = s.top ∧ s'.bottom = b + 1 ∧
        s'.buffer = s.buffer ∧ s'.returned = s.returned ∧ s'.pushed = s.pushed ++ [(b, v)] ∧
        s'.occupant = Function.update s.occupant b s.pushed.length := by
  have hown := hb.owner
  cases hs
  case pushPublish v b hpc => exact .inr ⟨v, b, hpc, rfl, rfl, rfl, rfl, rfl, rfl, rfl⟩
  all_goals
    refine .inl ⟨?_, rfl, rfl⟩
    simp_all [State.logicalBottom, OwnerPc.logicalBottom, OwnerPc.Agrees, State.thiefAt]
    try omega

omit [DecidableEq Tid] in
/-- Returns name pushes already made. -/
theorem Contents.fresh (h : Contents k s) : s.Unreturned s.pushed.length := by
  intro r hr hlen
  have := h.log r hr
  rw [hlen, List.getElem?_eq_none le_rfl] at this
  cases this

theorem log_step (hb : Bounds k s) (h : Contents k s) (hs : Step k m s s') :
    ∀ r ∈ s'.returned, s'.pushed[r.push]? = some (r.index, r.value) := by
  intro r hr
  rcases returned_step hb h hs with hret | ⟨r', hret, hpush, _, hr', hold, _⟩
  · rw [hret] at hr
    rcases publish_step hb hs with ⟨_, hpush, _⟩ | ⟨v, b, _, _, _, _, _, _, hpush, _⟩
    · rw [hpush, h.log r hr]
    · have hlog := h.log r hr
      have hlt := (List.getElem?_eq_some_iff.mp hlog).1
      rw [hpush, List.getElem?_append_left hlt, hlog]
  · rw [hpush]
    rw [hret, List.mem_append, List.mem_singleton] at hr
    rcases hr with hr | rfl
    · exact h.log r hr
    · rw [hr', hold.1]

theorem once_step (hb : Bounds k s) (h : Contents k s) (hs : Step k m s s') :
    (s'.returned.map Return.push).Nodup := by
  rcases returned_step hb h hs with hret | ⟨r, hret, _, _, hr, hold, _⟩
  · rw [hret]
    exact h.once
  · rw [hret, List.map_append, List.nodup_append]
    refine ⟨h.once, by simp, ?_⟩
    intro n hn n' hn' heq
    obtain ⟨r', hr', rfl⟩ := List.mem_map.mp hn
    obtain rfl : n' = r.push := by simpa using hn'
    exact hold.2 r' hr' (heq.trans hr)

/-- `top_` never decreases. -/
theorem top_step (hb : Bounds k s) (hs : Step k m s s') : s.top ≤ s'.top := by
  have hown := hb.owner
  cases hs <;> simp_all [State.thiefAt]

/-- Only the owner writes, outside the deque. -/
theorem buffer_step (hb : Bounds k s) (hs : Step k m s s') {i : ℤ} (hi : s.top ≤ i)
    (hib : i < s.logicalBottom) : s'.buffer (slot k i) = s.buffer (slot k i) := by
  have hown := hb.owner
  cases hs
  case pushWrite v b hpc =>
    rw [hpc] at hown
    simp only [State.logicalBottom, hpc, OwnerPc.logicalBottom, ← hown.1] at hib
    exact Function.update_of_ne (slot_ne (hb.nonneg.trans hi) hib (by have := hown.2; omega)) _ _
  all_goals rfl

/-- A push that stays in the deque, or stays claimed, stays unreturned. -/
theorem holds_step (hb : Bounds k s) (h : Contents k s) (hs : Step k m s s') {i : ℤ} {v : α}
    (hold : s.Holds i v) (hi : i < s.logicalBottom)
    (hstay : s'.top ≤ i ∧ i < s'.logicalBottom ∨ s'.owner.Claims i) : s'.Holds i v := by
  rcases returned_step hb h hs with hret | ⟨r, hret, hpush, hocc, hr, hr', hclaim, hout⟩
  · rcases publish_step hb hs with ⟨_, hpush, hocc⟩ | ⟨w, b, hpc, _, _, _, _, _, hpush, hocc⟩
    · unfold State.Holds State.Unreturned
      rw [hpush, hocc, hret]
      exact hold
    · have hown := hb.owner
      rw [hpc] at hown
      have hib : i ≠ b := by
        simp only [State.logicalBottom, hpc, OwnerPc.logicalBottom] at hi
        exact ne_of_lt (hown.1 ▸ hi)
      unfold State.Holds State.Unreturned
      rw [hocc, Function.update_of_ne hib, hret, hpush]
      have hlt := (List.getElem?_eq_some_iff.mp hold.1).1
      exact ⟨by rw [List.getElem?_append_left hlt, hold.1], hold.2⟩
  · have hne : r.push ≠ s.occupant i := by
      intro heq
      have hindex : r.index = i := by
        have := hr'.1
        rw [← hr, heq, hold.1] at this
        simp only [Option.some.injEq, Prod.mk.injEq] at this
        exact this.1.symm
      rcases hstay with ⟨hlow, hhigh⟩ | hc
      · omega
      · exact hclaim (hindex ▸ hc)
    unfold State.Holds State.Unreturned
    rw [hpush, hocc, hret]
    refine ⟨hold.1, fun r' hmem => ?_⟩
    rcases List.mem_append.mp hmem with hmem | hmem
    · exact hold.2 r' hmem
    · rw [List.mem_singleton.mp hmem]
      exact hne

theorem live_step (hb : Bounds k s) (h : Contents k s) (hs : Step k m s s') :
    ∀ i, s'.top ≤ i → i < s'.logicalBottom → s'.Holds i (s'.buffer (slot k i)) := by
  intro i hi hib
  have htop := (top_step hb hs).trans hi
  by_cases hold : i < s.logicalBottom
  · rw [buffer_step hb hs htop hold]
    exact holds_step hb h hs (h.live i htop hold) hold (.inl ⟨hi, hib⟩)
  · -- The one index a publication adds.
    rcases publish_step hb hs with ⟨hle, _⟩ | ⟨v, b, hpc, hidle, _, hbot, hbuf, hret, hpush, hocc⟩
    · omega
    · have hcar := h.owner
      rw [hpc] at hcar
      obtain rfl : i = b := by
        have hown := hb.owner
        rw [hpc] at hown
        simp only [State.logicalBottom, hpc, hidle, hbot, OwnerPc.logicalBottom] at hold hib
        have := hown.1
        omega
      unfold State.Holds State.Unreturned
      rw [hocc, Function.update_self, hpush, hret, hbuf, hcar]
      exact ⟨by simp, h.fresh⟩

omit [DecidableEq Tid] in
/-- The owner's values depend on the buffer, and on a won pop's index. -/
theorem OwnerPc.Carries.frame {p : OwnerPc α} (h : p.Carries k s) (hbuf : s'.buffer = s.buffer)
    (hwon : ∀ b v, p = .popRestore b v true → s.Holds b v → s'.Holds b v) : p.Carries k s' := by
  cases p with
  | pushPublish v b | popCas b _ v => exact (congrFun hbuf _).trans h
  | popRestore b v won =>
    cases won
    · trivial
    · exact hwon b v rfl h
  | _ => trivial

theorem owner_step (hb : Bounds k s) (h : Contents k s) (hs : Step k m s s') :
    s'.owner.Carries k s' := by
  have hown := hb.owner
  have hcar := h.owner
  have hwon := fun b v => holds_step hb h hs (i := b) (v := v)
  cases hs
  case pushWrite v b hpc => exact Function.update_self _ _ _
  case popLast b t heq hpc => rfl
  case popWon b t v hpc htop =>
    rw [hpc] at hown hcar
    obtain ⟨rfl, rfl, _⟩ := hown
    have hlive := h.live _ htop.le (by simp [State.logicalBottom, hpc, OwnerPc.logicalBottom])
    rw [show s.buffer (slot k s.bottom) = v from hcar] at hlive
    exact hlive
  case stealWon t i v hpc hi =>
    refine OwnerPc.Carries.frame hcar rfl fun b w (hp : s.owner = _) hold => hwon b w hold ?_ (.inr ?_)
    · rw [State.logicalBottom, hp]
      exact lt_add_one b
    · show s.owner.Claims b
      rw [hp]
      rfl
  all_goals first | exact hcar | trivial

theorem thief_step (hb : Bounds k s) (h : Contents k s) (hs : Step k m s s') (t : Tid) :
    (s'.thief t).Carries k s' := by
  by_cases ht : m = .thief t
  · subst ht
    cases hs
    case stealRead i hpc => simp [State.thiefAt, ThiefPc.Carries]
    all_goals simp [State.thiefAt, ThiefPc.Carries]
  · have htop := top_step hb hs
    have hthief := hb.thief t
    have hcar := h.thief t
    rw [thief_other hs ht]
    cases hp : s.thief t with
    | stealCas i v =>
      rw [hp] at hthief hcar
      intro htop'
      have heq : s.top = i := le_antisymm (htop'.symm ▸ htop) hthief.1
      rw [buffer_step hb hs heq.le ((hthief.2 heq).trans_le (stealable_le s))]
      exact hcar heq
    | _ => trivial

/-- No step takes back a return. -/
theorem unreturned_of_step (hb : Bounds k s) (h : Contents k s) (hs : Step k m s s') {n : ℕ}
    (hn : s'.Unreturned n) : s.Unreturned n := by
  rcases returned_step hb h hs with hret | ⟨r, hret, _⟩
  · unfold State.Unreturned
    rw [← hret]
    exact hn
  · intro r' hr'
    exact hn r' (by rw [hret]; exact List.mem_append_left _ hr')

/-- An index leaves the deque by being returned, or by being won by the pop in progress. -/
theorem leave_step (hb : Bounds k s) (hs : Step k m s s') {i : ℤ} (hi : s.top ≤ i)
    (hib : i < s.logicalBottom) : ¬s'.Unreturned (s.occupant i) ∨
      s'.top ≤ i ∧ i < s'.logicalBottom ∨ s'.owner.Claims i := by
  have hown := hb.owner
  cases hs
  case popTake b t hne hpc =>
    by_cases heq : i = b
    · subst heq
      exact .inl fun hn => hn _ (List.mem_append_right _ (List.mem_singleton_self _)) rfl
    · right; left
      simp_all [State.logicalBottom, OwnerPc.logicalBottom, OwnerPc.Agrees]
      omega
  case popWon b t v hpc htop =>
    right; right
    simp_all [State.logicalBottom, OwnerPc.logicalBottom, OwnerPc.Agrees, OwnerPc.Claims]
    omega
  case stealWon t j v hpc hj =>
    by_cases heq : i = j
    · subst heq
      exact .inl fun hn => hn _ (List.mem_append_right _ (List.mem_singleton_self _)) rfl
    · right; left
      simp_all [State.logicalBottom, State.thiefAt]
      omega
  all_goals
    right; left
    simp_all [State.logicalBottom, OwnerPc.logicalBottom, OwnerPc.Agrees, State.thiefAt]
    try omega

/-- A won pop returns its index. -/
theorem claim_step (hs : Step k m s s') {i : ℤ} (hi : s.owner.Claims i) :
    ¬s'.Unreturned (s.occupant i) ∨ s'.owner.Claims i := by
  cases hs
  case popReturn b v hpc =>
    rw [hpc] at hi
    obtain rfl : b = i := hi
    exact .inl fun hn => hn _ (List.mem_append_right _ (List.mem_singleton_self _)) rfl
  all_goals simp_all [OwnerPc.Claims, State.thiefAt]

theorem conserved_step (hb : Bounds k s) (h : Contents k s) (hs : Step k m s s') :
    ∀ n i v, s'.pushed[n]? = some (i, v) → ¬s'.Unreturned n ∨
      n = s'.occupant i ∧ (s'.top ≤ i ∧ i < s'.logicalBottom ∨ s'.owner.Claims i) := by
  intro n i v hn
  rcases publish_step hb hs with ⟨_, hpush, hocc⟩ | ⟨w, b, hpc, hidle, htop, hbot, _, hret, hpush, hocc⟩
  · rw [hpush] at hn
    rw [hocc]
    rcases h.conserved n i v hn with hret | ⟨rfl, ⟨hi, hib⟩ | hclaim⟩
    · exact .inl fun hn' => hret (unreturned_of_step hb h hs hn')
    · exact (leave_step hb hs hi hib).imp_right fun hstay => ⟨rfl, hstay⟩
    · exact (claim_step hs hclaim).imp_right fun hstay => ⟨rfl, .inr hstay⟩
  · have hown := hb.owner
    rw [hpc] at hown
    have hlow : s.logicalBottom = b := by rw [State.logicalBottom, hpc, hown.1]; rfl
    have hhigh : s'.logicalBottom = b + 1 := by rw [State.logicalBottom, hidle, hbot]; rfl
    have hle := hb.top_le
    rw [hocc, htop, hhigh]
    rw [hpush] at hn
    by_cases hlt : n < s.pushed.length
    · rw [List.getElem?_append_left hlt] at hn
      rcases h.conserved n i v hn with hret' | ⟨rfl, ⟨hi, hib⟩ | hclaim⟩
      · exact .inl fun hn' => hret' (unreturned_of_step hb h hs hn')
      · right
        rw [Function.update_of_ne (by omega)]
        exact ⟨rfl, .inl ⟨hi, by omega⟩⟩
      · rw [hpc] at hclaim
        exact hclaim.elim
    · right
      have hlast : n = s.pushed.length := by
        have := (List.getElem?_eq_some_iff.mp hn).1
        simp only [List.length_append, List.length_singleton] at this
        omega
      subst hlast
      obtain ⟨rfl, rfl⟩ : b = i ∧ w = v := by simpa using hn
      rw [Function.update_self]
      exact ⟨rfl, .inl ⟨by omega, by omega⟩⟩

theorem contents_step (hb : Bounds k s) (h : Contents k s) (hs : Step k m s s') :
    Contents k s' where
  live := live_step hb h hs
  owner := owner_step hb h hs
  thief := thief_step hb h hs
  log := log_step hb h hs
  once := once_step hb h hs
  conserved := conserved_step hb h hs

omit [DecidableEq Tid] in
/-- Nothing pushed, nothing returned: both halves hold at the start. -/
theorem contents_initial (h : Initial s) : Contents k s where
  live i hi hib := by
    simp only [State.logicalBottom, h.owner, h.bottom, h.top, OwnerPc.logicalBottom] at hi hib
    omega
  owner := by simp [h.owner, OwnerPc.Carries]
  thief t := by simp [h.thief, ThiefPc.Carries]
  log r hr := by simp [h.returned] at hr
  once := by simp [h.returned]
  conserved n i v hn := by simp [h.pushed] at hn

theorem contents_reachable (h : Reachable (system Tid α k) s) : Contents k s :=
  h.invariant (P := Contents k) (fun _ hi => contents_initial hi)
    fun _ _ _ hr hc hs => contents_step (bounds_reachable hr) hc hs

/-! ### Order -/

/-- Steals go up: each one takes the index at `top_` and advances it. -/
structure Ordered (s : State Tid α) : Prop where
  below : ∀ r ∈ s.returned, r.stolen = true → r.index < s.top
  steals : ((s.returned.filter Return.stolen).map Return.index).Pairwise (· < ·)

/-- A steal returns the index at `top_`; a pop, one above everything unreturned. -/
theorem return_order (hb : Bounds k s) (h : Contents k s) (hs : Step k m s s') :
    s'.returned = s.returned ∨ ∃ r, s'.returned = s.returned ++ [r] ∧
      (r.stolen = true → s.top = r.index ∧ s'.top = r.index + 1) ∧
      (r.stolen = false → ∀ n i v, s.pushed[n]? = some (i, v) → s.Unreturned n → i ≤ r.index) := by
  have hown := hb.owner
  cases hs
  case popTake b t hne hpc =>
    refine .inr ⟨_, rfl, by simp, fun _ n i v hn hfree => ?_⟩
    rcases (h.conserved n i v hn).resolve_left (not_not.mpr hfree) with ⟨_, ⟨_, hib⟩ | hclaim⟩
    · simp only [State.logicalBottom, hpc, OwnerPc.logicalBottom] at hib
      exact Int.lt_add_one_iff.mp hib
    · rw [hpc] at hclaim
      exact hclaim.elim
  case popReturn b v hpc =>
    refine .inr ⟨_, rfl, by simp, fun _ n i v hn hfree => ?_⟩
    rw [hpc] at hown
    rcases (h.conserved n i v hn).resolve_left (not_not.mpr hfree) with ⟨_, ⟨hi, hib⟩ | hclaim⟩
    · simp only [State.logicalBottom, hpc, OwnerPc.logicalBottom] at hib
      exact Int.lt_add_one_iff.mp hib
    · rw [hpc] at hclaim
      exact (show b = i from hclaim).symm.le
  case stealWon t i v hpc hi =>
    exact .inr ⟨_, rfl, fun _ => ⟨hi, rfl⟩, by simp⟩
  all_goals exact .inl rfl

theorem ordered_step (hb : Bounds k s) (hc : Contents k s) (h : Ordered s) (hs : Step k m s s') :
    Ordered s' := by
  have htop := top_step hb hs
  rcases return_order hb hc hs with hret | ⟨r, hret, hsteal, _⟩
  · refine ⟨fun r hr hst => ?_, by rw [hret]; exact h.steals⟩
    exact (h.below r (hret ▸ hr) hst).trans_le htop
  · constructor
    · intro r' hr' hst
      rw [hret, List.mem_append, List.mem_singleton] at hr'
      rcases hr' with hr' | rfl
      · exact (h.below r' hr' hst).trans_le htop
      · have := (hsteal hst).2
        omega
    · rw [hret, List.filter_append, List.map_append, List.pairwise_append]
      refine ⟨h.steals, ?_, ?_⟩
      · cases hst : r.stolen <;> simp [hst]
      · intro i hi j hj
        obtain ⟨r', hr', rfl⟩ := List.mem_map.mp hi
        obtain ⟨r'', hr'', rfl⟩ := List.mem_map.mp hj
        obtain ⟨hmem, hst⟩ := List.mem_filter.mp hr'
        obtain ⟨hmem', hst'⟩ := List.mem_filter.mp hr''
        obtain rfl := List.mem_singleton.mp hmem'
        rw [← (hsteal hst').1]
        exact h.below r' hmem hst

theorem ordered_reachable (h : Reachable (system Tid α k) s) : Ordered s := by
  refine h.invariant (P := Ordered) (fun s hi => ?_) fun _ _ _ hr ho hs =>
    ordered_step (bounds_reachable hr) (contents_reachable hr) ho hs
  have hi : Initial s := hi
  exact ⟨by simp [hi.returned], by simp [hi.returned]⟩

/-! ### The deque, whole -/

/-- What a deque of `2 ^ k` slots guarantees of a state, and of the steps out of it. -/
structure Correct (k : ℕ) (s : State Tid α) : Prop where
  /-- What an operation returned is what the push it took wrote, at that push's index. -/
  value : ∀ r ∈ s.returned, s.pushed[r.push]? = some (r.index, r.value)
  /-- No push is returned twice. -/
  once : (s.returned.map Return.push).Nodup
  top_mono : ∀ m s', Step k m s s' → s.top ≤ s'.top
  /-- Between operations the deque has at most its capacity of elements. -/
  size : Quiet s → 0 ≤ s.bottom - s.top ∧ s.bottom - s.top ≤ 2 ^ k
  /-- Between operations, the indices from `top_` up to `bottom_` are in the buffer. -/
  buffered : Quiet s → ∀ i, s.top ≤ i → i < s.bottom →
    s.pushed[s.occupant i]? = some (i, s.buffer (slot k i))
  /-- Between operations, those indices are the pushes not returned, and no others. -/
  remaining : Quiet s → ∀ n i v, s.pushed[n]? = some (i, v) →
    (s.Unreturned n ↔ s.top ≤ i ∧ i < s.bottom ∧ n = s.occupant i)
  steals : ((s.returned.filter Return.stolen).map Return.index).Pairwise (· < ·)
  /-- A pop takes the largest index not yet returned. -/
  pops : ∀ m s', Step k m s s' → ∀ r, s'.returned = s.returned ++ [r] → r.stolen = false →
    ∀ n i v, s.pushed[n]? = some (i, v) → s.Unreturned n → i ≤ r.index
  /-- The indices fit the code's 64 bits while there are fewer than `2 ^ 63` pushes. -/
  fits : 0 ≤ s.top ∧ s.top ≤ s.pushed.length ∧ -1 ≤ s.bottom ∧ s.bottom ≤ s.pushed.length

omit [DecidableEq Tid] in
theorem bottom_bounds (h : Bounds k s) : -1 ≤ s.bottom ∧ s.bottom ≤ s.pushed.length := by
  have hnonneg := h.nonneg
  have htop := h.top_le
  have hpushes := h.pushes
  have hown := h.owner
  unfold State.logicalBottom at htop hpushes
  cases hp : s.owner <;> simp_all [OwnerPc.logicalBottom, OwnerPc.Agrees] <;> omega

/-- **The deque is correct** in every reachable state, for any number of thieves:
each element once, from the top upwards for thieves and from the bottom for the owner. -/
theorem deque_correct (h : Reachable (system Tid α k) s) : Correct k s := by
  have hb := bounds_reachable h
  have hc := contents_reachable h
  have hquiet : Quiet s → s.logicalBottom = s.bottom := by
    intro hq
    rw [State.logicalBottom, hq.1]
    rfl
  refine
    { value := hc.log
      once := hc.once
      top_mono := fun m s' => top_step hb
      size := fun hq => ?_
      buffered := fun hq i hi hib => (hc.live i hi (by rwa [hquiet hq])).1
      remaining := fun hq n i v hn => ⟨fun hfree => ?_, ?_⟩
      steals := (ordered_reachable h).steals
      pops := fun m s' hs r hr hst => ?_
      fits := ⟨hb.nonneg, hb.top_le.trans hb.pushes, bottom_bounds hb⟩ }
  · have hle := hb.top_le
    have hfits := hb.fits
    rw [hquiet hq] at hle hfits
    exact ⟨by omega, hfits⟩
  · rcases (hc.conserved n i v hn).resolve_left (not_not.mpr hfree) with ⟨hocc, ⟨hi, hib⟩ | hclaim⟩
    · exact ⟨hi, hquiet hq ▸ hib, hocc⟩
    · rw [hq.1] at hclaim
      exact hclaim.elim
  · intro hboth
    obtain ⟨hi, hib, rfl⟩ := hboth
    exact (hc.live i hi (by rwa [hquiet hq])).2
  · rcases return_order hb hc hs with hret | ⟨r', hret, _, hpop⟩
    · rw [hret] at hr
      simp at hr
    · obtain rfl : r' = r := by simpa [hret] using hr
      exact hpop hst

/-- Two slots, nobody inside an operation. -/
theorem empty_reachable : Reachable (system Tid ℕ 1)
    ⟨0, 0, fun _ => 0, .idle, fun _ => .idle, [], fun _ => 0, []⟩ :=
  .initial ⟨rfl, rfl, rfl, fun _ => rfl, rfl, rfl⟩

/-- The theorem on a run of two thieves. Both go for the first element and one loses it;
the owner pops the second; the third, in the first one's slot, it loses to a thief. -/
theorem deque_correct_raced : ∃ s : State (Fin 2) ℕ, Reachable (system (Fin 2) ℕ 1) s ∧
    s.pushed = [(0, 10), (1, 20), (2, 30)] ∧
    s.returned = [⟨0, 0, 10, true⟩, ⟨1, 1, 20, false⟩, ⟨2, 2, 30, true⟩] ∧ Correct 1 s := by
  have h : Reachable (system (Fin 2) ℕ 1) _ := empty_reachable
  have h := h.step (l := Mover.owner) (.push 10 rfl)
  have h := h.step (l := Mover.owner) (.pushTop rfl (by decide))
  have h := h.step (l := Mover.owner) (.pushWrite rfl)
  have h := h.step (l := Mover.owner) (.pushPublish rfl)
  have h := h.step (l := Mover.owner) (.push 20 rfl)
  have h := h.step (l := Mover.owner) (.pushTop rfl (by decide))
  have h := h.step (l := Mover.owner) (.pushWrite rfl)
  have h := h.step (l := Mover.owner) (.pushPublish rfl)
  -- the first element
  have h := h.step (l := Mover.thief 0) (.steal rfl)
  have h := h.step (l := Mover.thief 0) (.stealSome rfl (by decide))
  have h := h.step (l := Mover.thief 0) (.stealRead rfl)
  have h := h.step (l := Mover.thief 1) (.steal rfl)
  have h := h.step (l := Mover.thief 1) (.stealSome rfl (by decide))
  have h := h.step (l := Mover.thief 1) (.stealRead rfl)
  have h := h.step (l := Mover.thief 0) (.stealWon rfl rfl)
  have h := h.step (l := Mover.thief 1) (.stealAbort rfl (by decide))
  -- the second
  have h := h.step (l := Mover.owner) (.pop rfl)
  have h := h.step (l := Mover.owner) (.popStore rfl)
  have h := h.step (l := Mover.owner) (.popSome rfl (by decide))
  have h := h.step (l := Mover.owner) (.popLast rfl rfl)
  have h := h.step (l := Mover.owner) (.popWon rfl rfl)
  have h := h.step (l := Mover.owner) (.popReturn rfl)
  -- the third
  have h := h.step (l := Mover.owner) (.push 30 rfl)
  have h := h.step (l := Mover.owner) (.pushTop rfl (by decide))
  have h := h.step (l := Mover.owner) (.pushWrite rfl)
  have h := h.step (l := Mover.owner) (.pushPublish rfl)
  have h := h.step (l := Mover.thief 1) (.steal rfl)
  have h := h.step (l := Mover.thief 1) (.stealSome rfl (by decide))
  have h := h.step (l := Mover.thief 1) (.stealRead rfl)
  have h := h.step (l := Mover.owner) (.pop rfl)
  have h := h.step (l := Mover.owner) (.popStore rfl)
  have h := h.step (l := Mover.owner) (.popSome rfl (by decide))
  have h := h.step (l := Mover.owner) (.popLast rfl rfl)
  have h := h.step (l := Mover.thief 1) (.stealWon rfl rfl)
  have h := h.step (l := Mover.owner) (.popLost rfl (by decide))
  have h := h.step (l := Mover.owner) (.popFail rfl)
  exact ⟨_, h, rfl, rfl, deque_correct h⟩

/-- An index the owner popped is pushed at, and popped, again. -/
theorem index_reused : ¬∀ s : State (Fin 1) ℕ, Reachable (system (Fin 1) ℕ 1) s →
    (s.returned.map Return.index).Nodup := by
  intro hall
  have h : Reachable (system (Fin 1) ℕ 1) _ := empty_reachable
  have h := h.step (l := Mover.owner) (.push 10 rfl)
  have h := h.step (l := Mover.owner) (.pushTop rfl (by decide))
  have h := h.step (l := Mover.owner) (.pushWrite rfl)
  have h := h.step (l := Mover.owner) (.pushPublish rfl)
  have h := h.step (l := Mover.owner) (.push 20 rfl)
  have h := h.step (l := Mover.owner) (.pushTop rfl (by decide))
  have h := h.step (l := Mover.owner) (.pushWrite rfl)
  have h := h.step (l := Mover.owner) (.pushPublish rfl)
  have h := h.step (l := Mover.owner) (.pop rfl)
  have h := h.step (l := Mover.owner) (.popStore rfl)
  have h := h.step (l := Mover.owner) (.popSome rfl (by decide))
  have h := h.step (l := Mover.owner) (.popTake rfl (by decide))
  have h := h.step (l := Mover.owner) (.push 30 rfl)
  have h := h.step (l := Mover.owner) (.pushTop rfl (by decide))
  have h := h.step (l := Mover.owner) (.pushWrite rfl)
  have h := h.step (l := Mover.owner) (.pushPublish rfl)
  have h := h.step (l := Mover.owner) (.pop rfl)
  have h := h.step (l := Mover.owner) (.popStore rfl)
  have h := h.step (l := Mover.owner) (.popSome rfl (by decide))
  have h := h.step (l := Mover.owner) (.popTake rfl (by decide))
  exact absurd (hall _ h) (by decide)

end Thunderbolt.Executor.AbpDeque
