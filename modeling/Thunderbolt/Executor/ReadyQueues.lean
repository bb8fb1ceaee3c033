import Mathlib.Data.Multiset.Basic
import Mathlib.Logic.Function.Basic
import Mathlib.Tactic.Tauto
import Thunderbolt.Task.Handle

/-! Five FIFO queues, one a priority.

The global queue, the static inboxes and the standard runtime's ready list are
all this: push at the back of one queue, pop at the front of the first non-empty
one, from the most urgent down or, when aging, from the least urgent up. -/
namespace Thunderbolt.Executor

abbrev ReadyQueues := TaskPriority → List TaskHandle

/-- The order in which a pop looks at the queues. -/
def scan (lowestFirst : Bool) : List TaskPriority :=
  let order := [.Critical, .High, .Normal, .Low, .Background]
  if lowestFirst then order.reverse else order

theorem mem_scan (lowestFirst : Bool) (p : TaskPriority) : p ∈ scan lowestFirst := by
  cases lowestFirst <;> cases p <;> simp [scan]

/-- `p` is looked at no later than `q`. -/
def Ahead (lowestFirst : Bool) (p q : TaskPriority) : Prop :=
  if lowestFirst then q.level ≤ p.level else p.level ≤ q.level

instance (lowestFirst : Bool) (p q : TaskPriority) : Decidable (Ahead lowestFirst p q) :=
  inferInstanceAs (Decidable (if lowestFirst then q.level ≤ p.level else p.level ≤ q.level))

theorem Ahead.refl (lowestFirst : Bool) (p : TaskPriority) : Ahead lowestFirst p p := by
  cases lowestFirst <;> simp [Ahead]

theorem Ahead.trans {lowestFirst : Bool} {p q r : TaskPriority} (hpq : Ahead lowestFirst p q)
    (hqr : Ahead lowestFirst q r) : Ahead lowestFirst p r := by
  cases lowestFirst <;> simp only [Ahead, Bool.false_eq_true, if_true, if_false] at * <;> omega

theorem Ahead.antisymm {lowestFirst : Bool} {p q : TaskPriority} (hpq : Ahead lowestFirst p q)
    (hqp : Ahead lowestFirst q p) : p = q := by
  have : p.level = q.level := by
    cases lowestFirst <;> simp only [Ahead, Bool.false_eq_true, if_true, if_false] at * <;> omega
  cases p <;> cases q <;> first | rfl | cases this

theorem scan_pairwise (lowestFirst : Bool) : (scan lowestFirst).Pairwise (Ahead lowestFirst) := by
  cases lowestFirst <;> decide

/-- A scan stops at the first priority that has something. -/
theorem scan_first {β : Type*} {lowestFirst : Bool} {f : TaskPriority → Option β} {y : β}
    (h : (scan lowestFirst).findSome? f = some y) :
    ∃ p, f p = some y ∧ ∀ q, f q ≠ none → Ahead lowestFirst p q := by
  obtain ⟨before, p, behind, hsplit, hp, hnone⟩ := List.findSome?_eq_some_iff.mp h
  refine ⟨p, hp, fun q hq => ?_⟩
  have hpair := scan_pairwise lowestFirst
  have hmem := mem_scan lowestFirst q
  rw [hsplit] at hpair hmem
  obtain hbefore | hbehind := List.mem_append.mp hmem
  · exact absurd (hnone q hbefore) hq
  · obtain rfl | hbehind := List.mem_cons.mp hbehind
    · exact .refl _ _
    · exact List.rel_of_pairwise_cons (List.pairwise_append.mp hpair).2.1 hbehind

theorem scan_none {β : Type*} {lowestFirst : Bool} {f : TaskPriority → Option β} :
    (scan lowestFirst).findSome? f = none ↔ ∀ p, f p = none := by
  rw [List.findSome?_eq_none_iff]
  exact ⟨fun h p => h p (mem_scan _ _), fun h p _ => h p⟩

namespace ReadyQueues

def empty : ReadyQueues := fun _ => []

def push (q : ReadyQueues) (h : TaskHandle) (p : TaskPriority) : ReadyQueues :=
  Function.update q p (q p ++ [h])

/-- The task taken, its priority, and what remains. -/
def pop (q : ReadyQueues) (lowestFirst : Bool) :
    Option (TaskHandle × TaskPriority × ReadyQueues) :=
  (scan lowestFirst).findSome? fun p => match q p with
    | [] => none
    | h :: rest => some (h, p, Function.update q p rest)

/-- What is queued. -/
def content (q : ReadyQueues) : Multiset TaskHandle := (scan false).flatMap q

/-- How many tasks are queued. -/
def total (q : ReadyQueues) : ℕ := ((scan false).flatMap q).length

theorem total_push (q : ReadyQueues) (h : TaskHandle) (p : TaskPriority) :
    (q.push h p).total = q.total + 1 := by
  cases p <;> simp [total, scan, push] <;> omega

/-- A successful pop takes one task off the front of its queue. -/
theorem pop_some {q q' : ReadyQueues} {lowestFirst : Bool} {h : TaskHandle} {p : TaskPriority}
    (hp : q.pop lowestFirst = some (h, p, q')) :
    ∃ rest, q p = h :: rest ∧ q' = Function.update q p rest := by
  obtain ⟨r, _, hr⟩ := List.exists_of_findSome?_eq_some hp
  cases hq : q r with
  | nil => simp [hq] at hr
  | cons g rest =>
    simp only [hq, Option.some.injEq, Prod.mk.injEq] at hr
    obtain ⟨rfl, rfl, rfl⟩ := hr
    exact ⟨rest, hq, rfl⟩

/-- It takes the first in the order of the scan. -/
theorem pop_ahead {q q' : ReadyQueues} {lowestFirst : Bool} {h : TaskHandle} {p r : TaskPriority}
    (hp : q.pop lowestFirst = some (h, p, q')) (hr : q r ≠ []) : Ahead lowestFirst p r := by
  obtain ⟨p₀, hp₀, hfirst⟩ := scan_first hp
  have : p₀ = p := by
    cases hq : q p₀ with
    | nil => simp [hq] at hp₀
    | cons g rest =>
      simp only [hq, Option.some.injEq, Prod.mk.injEq] at hp₀
      exact hp₀.2.1
  subst this
  apply hfirst
  cases hq : q r with
  | nil => exact absurd hq hr
  | cons g rest => simp

theorem content_push (q : ReadyQueues) (h : TaskHandle) (p : TaskPriority) :
    (q.push h p).content = h ::ₘ q.content := by
  rw [content, content, Multiset.cons_coe, Multiset.coe_eq_coe]
  cases p <;> simp [scan, push] <;> grind

theorem content_pop {q q' : ReadyQueues} {lowestFirst : Bool} {h : TaskHandle} {p : TaskPriority}
    (hp : q.pop lowestFirst = some (h, p, q')) : q.content = h ::ₘ q'.content := by
  obtain ⟨rest, hq, rfl⟩ := pop_some hp
  rw [content, content, Multiset.cons_coe, Multiset.coe_eq_coe]
  cases p <;> simp [scan, hq] <;> grind

theorem pop_none {q : ReadyQueues} {lowestFirst : Bool} :
    q.pop lowestFirst = none ↔ ∀ p, q p = [] := by
  unfold pop
  rw [scan_none]
  refine forall_congr' fun p => ?_
  cases q p <;> simp

theorem total_pop {q q' : ReadyQueues} {lowestFirst : Bool} {h : TaskHandle} {p : TaskPriority}
    (hp : q.pop lowestFirst = some (h, p, q')) : q.total = q'.total + 1 := by
  obtain ⟨rest, hq, rfl⟩ := pop_some hp
  cases p <;> simp [total, scan, hq] <;> omega

theorem pop_eq_none {q : ReadyQueues} {lowestFirst : Bool} :
    q.pop lowestFirst = none ↔ q.total = 0 := by
  have hnone : ∀ p, (match q p with
      | [] => none
      | h :: rest => some (h, p, Function.update q p rest)) = none ↔ q p = [] := by
    intro p
    cases q p <;> simp
  unfold pop
  rw [List.findSome?_eq_none_iff]
  cases lowestFirst <;> simp [scan, total, hnone] <;> tauto

end ReadyQueues
end Thunderbolt.Executor
