import Mathlib.Data.List.Basic
import Mathlib.Data.List.Perm.Basic
import Mathlib.Data.Nat.Init

/-! Round robin over lists of unequal lengths.

Round `i` takes the `i`-th element of each list that has one. All rounds
together take each element once (`roundRobin_perm`), and after any number of elements no list is
more than one ahead of another that has more (`fair`). -/
namespace Thunderbolt.Lists

variable {α : Type*} {ls : List (List α)} {l m : List α} {rounds i : ℕ}

def round (ls : List (List α)) (i : ℕ) : List α := ls.filterMap (·[i]?)

/-- So many rounds, one behind the other. -/
def roundRobin (ls : List (List α)) (rounds : ℕ) : List α := (List.range rounds).flatMap (round ls)

theorem round_cons (l : List α) (ls : List (List α)) (i : ℕ) :
    round (l :: ls) i = l[i]?.toList ++ round ls i := by
  cases h : l[i]? <;> simp [round, h]

theorem roundRobin_succ (ls : List (List α)) (rounds : ℕ) :
    roundRobin ls (rounds + 1) = roundRobin ls rounds ++ round ls rounds := by
  simp [roundRobin, List.range_succ]

theorem flatMap_getElem? (l : List α) (n : ℕ) : ((List.range n).flatMap fun i => l[i]?.toList) = l.take n := by
  induction n with
  | zero => simp
  | succ n ih => rw [List.range_succ, List.flatMap_append, ih, List.take_add_one, List.flatMap_singleton]

/-- **All rounds together** take each element once. -/
theorem roundRobin_perm (h : ∀ l ∈ ls, l.length ≤ rounds) : (roundRobin ls rounds).Perm ls.flatten := by
  induction ls with
  | nil =>
    have hnil : (fun i => round ([] : List (List α)) i) = fun _ => [] := by
      funext i
      rfl
    simp [roundRobin, hnil]
  | cons l ls ih =>
    have hsplit : roundRobin (l :: ls) rounds =
        (List.range rounds).flatMap fun i => l[i]?.toList ++ round ls i := by
      rw [roundRobin]
      congr 1
      funext i
      exact round_cons l ls i
    rw [hsplit, List.flatten_cons]
    refine (List.flatMap_append_perm _ _ _).symm.trans ?_
    rw [flatMap_getElem?, List.take_of_length_le (h l List.mem_cons_self)]
    exact (ih fun m hm => h m (List.mem_cons_of_mem l hm)).append_left l

/-- A prefix is some full rounds and part of the next. -/
theorem prefix_roundRobin {p : List α} (h : p <+: roundRobin ls rounds) :
    ∃ r q, p = roundRobin ls r ++ q ∧ q <+: round ls r := by
  induction rounds with
  | zero => exact ⟨0, [], by simpa [roundRobin] using h, List.nil_prefix⟩
  | succ rounds ih =>
    rw [roundRobin_succ] at h
    obtain hshort | ⟨q, rfl⟩ := List.prefix_or_prefix_of_prefix h (List.prefix_append _ _)
    · exact ih hshort
    · exact ⟨rounds, q, rfl, (List.prefix_append_right_inj _).mp h⟩

/-! ### How much of a list has been taken -/

variable [DecidableEq α]

/-- How many of these elements are from `l`. -/
def share (l p : List α) : ℕ := p.countP (· ∈ l)

theorem share_append (l p q : List α) : share l (p ++ q) = share l p + share l q := List.countP_append

theorem share_le {p q : List α} (h : p <+: q) : share l p ≤ share l q := h.sublist.countP_le

theorem share_of_disjoint (h : ∀ m ∈ ls, l.Disjoint m) (i : ℕ) : share l (round ls i) = 0 := by
  rw [share, List.countP_eq_zero]
  intro x hx hmem
  obtain ⟨m, hm, hxm⟩ := List.mem_filterMap.mp hx
  exact h m hm (by simpa using hmem) (List.mem_of_getElem? hxm)

/-- A round takes one element of each list that is long enough. -/
theorem share_round (hdisjoint : ls.Pairwise List.Disjoint) (hl : l ∈ ls) (i : ℕ) :
    share l (round ls i) = if i < l.length then 1 else 0 := by
  induction ls with
  | nil => cases hl
  | cons m ls ih =>
    obtain ⟨hm, hls⟩ := List.pairwise_cons.mp hdisjoint
    rw [round_cons, share_append]
    by_cases heq : l = m
    · subst heq
      rw [share_of_disjoint hm i, share]
      split
      case isTrue hlt => simp [List.getElem?_eq_getElem hlt]
      case isFalse hge => simp [List.getElem?_eq_none (Nat.le_of_not_lt hge)]
    · have hrest := (List.mem_cons.mp hl).resolve_left heq
      have hnone : share l m[i]?.toList = 0 := by
        rw [share, List.countP_eq_zero]
        intro x hx hmem
        have hxm : m[i]? = some x := by simpa using hx
        exact hm l hrest (List.mem_of_getElem? hxm) (by simpa using hmem)
      rw [hnone, Nat.zero_add]
      exact ih hls hrest

theorem share_roundRobin (hdisjoint : ls.Pairwise List.Disjoint) (hl : l ∈ ls) (r : ℕ) :
    share l (roundRobin ls r) = min r l.length := by
  induction r with
  | zero => simp [roundRobin, share]
  | succ r ih =>
    rw [roundRobin_succ, share_append, ih, share_round hdisjoint hl]
    split <;> omega

/-- **Fairness**: who has been taken `k` times is at most one ahead of any other list that
has as many. -/
theorem fair (hdisjoint : ls.Pairwise List.Disjoint) (hl : l ∈ ls) (hm : m ∈ ls) {p : List α}
    (hp : p <+: roundRobin ls rounds) : min (share l p - 1) m.length ≤ share m p := by
  obtain ⟨r, q, rfl, hq⟩ := prefix_roundRobin hp
  have hpart : share l q ≤ 1 := by
    have hle := share_le (l := l) hq
    rw [share_round hdisjoint hl] at hle
    split at hle <;> omega
  rw [share_append, share_append, share_roundRobin hdisjoint hl, share_roundRobin hdisjoint hm]
  omega

end Thunderbolt.Lists
