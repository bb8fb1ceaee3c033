import Mathlib.Logic.Relation
import Mathlib.Order.WellFoundedSet

/-! Relations without cycles.

Who waits for whom, of parties that come and go. A party that has just come waits for nobody
(`Acyclic.step`); one that begins to wait closes no cycle unless what it waits for waits for it already. In a
finite set some party waits for none of the others (`Acyclic.exists_last`). -/
namespace Thunderbolt.Concurrent
open Relation

variable {α : Type*} {r r' : α → α → Prop}

/-- Nothing leads back to where it began. -/
def Acyclic (r : α → α → Prop) : Prop := ∀ v, ¬TransGen r v v

namespace Acyclic

/-- What goes up does not come back. -/
theorem of_rank (rank : α → ℕ) (h : ∀ v w, r v w → rank v < rank w) : Acyclic r := by
  have hup : ∀ v w, TransGen r v w → rank v < rank w := by
    intro v w hvw
    induction hvw with
    | single hvw => exact h _ _ hvw
    | tail _ hbw ih => exact ih.trans (h _ _ hbw)
  exact fun v hv => (hup v v hv).ne rfl

/-- What nothing leads out of is on no cycle. -/
theorem transGen_of_leaves {leaf : α → Prop} {q : α → α → Prop} (hr : ∀ v w, r' v w → q v w ∨ leaf w)
    (hleaf : ∀ w, leaf w → ∀ v, ¬r' w v) {v w : α} (h : TransGen r' v w) (hout : ∃ u, r' w u) :
    TransGen q v w := by
  have hedge : ∀ {x y : α}, r' x y → (∃ z, r' y z) → q x y := by
    intro x y hxy hsome
    obtain ⟨z, hyz⟩ := hsome
    exact (hr x y hxy).resolve_right fun hy => hleaf y hy z hyz
  induction h with
  | single hvw => exact .single (hedge hvw hout)
  | tail _ hbw ih => exact (ih ⟨_, hbw⟩).tail (hedge hbw hout)

/-- A path may use edges out of `t` that are not in `r`. -/
theorem transGen_or {t : α} {goal : α → Prop} {v w : α}
    (h : TransGen (fun x y => r x y ∨ x = t ∧ goal y) v w) :
    TransGen r v w ∨ ReflTransGen r v t ∧ ∃ y, goal y ∧ ReflTransGen r y w := by
  induction h with
  | single hvw =>
    obtain hvw | ⟨rfl, hgoal⟩ := hvw
    · exact .inl (.single hvw)
    · exact .inr ⟨.refl, _, hgoal, .refl⟩
  | tail _ hbw ih =>
    obtain hbw | ⟨rfl, hgoal⟩ := hbw
    · obtain hvb | ⟨hvt, y, hgoal, hyb⟩ := ih
      · exact .inl (hvb.tail hbw)
      · exact .inr ⟨hvt, y, hgoal, hyb.tail hbw⟩
    · refine .inr ⟨?_, _, hgoal, .refl⟩
      obtain hvb | ⟨hvt, _⟩ := ih
      · exact hvb.to_reflTransGen
      · exact hvt

/-- Edges into leaves close no cycle, nor do those from `t` to where no path leads back to `t` from. -/
theorem step (h : Acyclic r) {leaf : α → Prop} (t : α) (goal : α → Prop)
    (hr : ∀ v w, r' v w → (r v w ∨ v = t ∧ goal w) ∨ leaf w) (hleaf : ∀ w, leaf w → ∀ v, ¬r' w v)
    (hgoal : ∀ w, goal w → ¬ReflTransGen r w t) : Acyclic r' := by
  intro v hv
  have hout : ∃ u, r' v u := by
    obtain ⟨u, hvu, _⟩ := TransGen.head'_iff.mp hv
    exact ⟨u, hvu⟩
  obtain hcycle | ⟨hvt, w, hw, hwv⟩ := transGen_or (transGen_of_leaves hr hleaf hv hout)
  · exact h v hcycle
  · exact hgoal w hw (hwv.trans hvt)

/-- In a finite set something leads to nothing in it. -/
theorem exists_last (h : Acyclic r) {p : Set α} (hfin : p.Finite) (hne : p.Nonempty) :
    ∃ v ∈ p, ∀ w ∈ p, ¬r v w := by
  have : IsStrictOrder α (fun v w => TransGen r w v) :=
    { irrefl := h
      trans := fun _ _ _ hba hcb => hcb.trans hba }
  have hwf : p.WellFoundedOn fun v w => TransGen r w v := hfin.wellFoundedOn
  obtain ⟨v₀, hv₀⟩ := hne
  obtain ⟨⟨v, hv⟩, _, hlast⟩ := hwf.has_min Set.univ ⟨⟨v₀, hv₀⟩, trivial⟩
  exact ⟨v, hv, fun w hw hvw => hlast ⟨w, hw⟩ trivial (.single hvw)⟩

end Acyclic

end Thunderbolt.Concurrent
