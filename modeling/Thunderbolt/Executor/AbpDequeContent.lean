import Mathlib.Data.Multiset.AddSub
import Mathlib.Data.Multiset.Range
import Thunderbolt.Executor.AbpDequeProofs

/-! What a deque holds: the values that were pushed and have not been returned.

Both are values of pushes: all of them, and those that were returned, each once (`went_le`). Where the deque is
empty, and no pop that has won is about to return, the two are the same (`content_eq_zero`). -/
namespace Thunderbolt.Executor.AbpDeque

variable {Tid α : Type*}

/-- What was pushed. -/
def State.came (s : State Tid α) : Multiset α := s.pushed.map Prod.snd

/-- What was returned. -/
def State.went (s : State Tid α) : Multiset α := s.returned.map Return.value

def State.content [DecidableEq α] (s : State Tid α) : Multiset α := s.came - s.went

/-- The deque is empty, and what was taken has been returned. -/
structure Drained (s : State Tid α) : Prop where
  empty : s.logicalBottom ≤ s.top
  claims : ∀ i, ¬s.owner.Claims i

/-- The values of these pushes. -/
def State.values (s : State Tid α) (pushes : Multiset ℕ) : Multiset α :=
  pushes.filterMap fun n => s.pushed[n]?.map Prod.snd

variable {k : ℕ} {s s' : State Tid α}

theorem values_range (s : State Tid α) : s.values (Multiset.range s.pushed.length) = s.came := by
  have hall : (List.range s.pushed.length).map (s.pushed[·]?) = s.pushed.map some :=
    List.ext_getElem (by simp) fun i _ _ => by simp
  have hvalues : (List.range s.pushed.length).filterMap (fun n => s.pushed[n]?.map Prod.snd) =
      s.pushed.map Prod.snd := by
    calc (List.range s.pushed.length).filterMap (fun n => s.pushed[n]?.map Prod.snd)
      _ = ((List.range s.pushed.length).map (s.pushed[·]?)).filterMap (Option.map Prod.snd) := by
        rw [List.filterMap_map]
        rfl
      _ = s.pushed.map Prod.snd := by
        rw [hall, List.filterMap_map, ← List.filterMap_eq_map]
        rfl
  exact congrArg Multiset.ofList hvalues

namespace Contents
variable (h : Contents k s)
include h

theorem values_returned : s.values (s.returned.map Return.push : List ℕ) = s.went := by
  have hvalues : (s.returned.map Return.push).filterMap (fun n => s.pushed[n]?.map Prod.snd) =
      s.returned.map Return.value := by
    rw [List.filterMap_map, ← List.filterMap_eq_map]
    refine List.filterMap_congr fun r hr => ?_
    simp [h.log r hr]
  exact congrArg Multiset.ofList hvalues

/-- Each push is returned at most once. -/
theorem returned_le : (s.returned.map Return.push : Multiset ℕ) ≤ Multiset.range s.pushed.length := by
  refine (Multiset.le_iff_subset (Multiset.coe_nodup.mpr h.once)).mpr fun n hn => ?_
  obtain ⟨r, hr, rfl⟩ := List.mem_map.mp (Multiset.mem_coe.mp hn)
  exact Multiset.mem_range.mpr (List.getElem?_eq_some_iff.mp (h.log r hr)).1

theorem returned_of_drained (hdrained : Drained s) :
    Multiset.range s.pushed.length ≤ (s.returned.map Return.push : List ℕ) := by
  refine (Multiset.le_iff_subset (Multiset.nodup_range _)).mpr fun n hn => ?_
  have hlt := Multiset.mem_range.mp hn
  have hreturned : ¬s.Unreturned n := by
    refine (h.conserved n _ _ (List.getElem?_eq_getElem hlt)).resolve_right fun ⟨_, hin⟩ => ?_
    obtain ⟨htop, hbottom⟩ | hclaims := hin
    · have hempty := hdrained.empty
      omega
    · exact hdrained.claims _ hclaims
  unfold State.Unreturned at hreturned
  push Not at hreturned
  obtain ⟨r, hr, rfl⟩ := hreturned
  exact Multiset.mem_coe.mpr (List.mem_map_of_mem hr)

theorem went_le : s.went ≤ s.came := by
  rw [← h.values_returned, ← values_range]
  exact Multiset.filterMap_le_filterMap _ h.returned_le

variable [DecidableEq α]

theorem content_eq_zero (hdrained : Drained s) : s.content = 0 := by
  refine tsub_eq_zero_of_le ?_
  rw [← h.values_returned, ← values_range]
  exact Multiset.filterMap_le_filterMap _ (h.returned_of_drained hdrained)

theorem content_push {b : ℤ} {v : α} (hpushed : s'.pushed = s.pushed ++ [(b, v)])
    (hreturned : s'.returned = s.returned) : s'.content = v ::ₘ s.content := by
  have hcame : s'.came = v ::ₘ s.came := by
    rw [State.came, State.came, hpushed, List.map_append, Multiset.cons_coe, Multiset.coe_eq_coe]
    exact List.perm_append_singleton ..
  have hwent : s'.went = s.went := congrArg (fun l => (l.map Return.value : Multiset α)) hreturned
  rw [State.content, State.content, hcame, hwent]
  exact Multiset.cons_sub_of_le v h.went_le

omit h in
theorem content_return (h' : Contents k s') {r : Return α} (hpushed : s'.pushed = s.pushed)
    (hreturned : s'.returned = s.returned ++ [r]) : s.content = r.value ::ₘ s'.content := by
  have hcame : s'.came = s.came := congrArg (fun l => (l.map Prod.snd : Multiset α)) hpushed
  have hwent : s'.went = r.value ::ₘ s.went := by
    rw [State.went, State.went, hreturned, List.map_append, Multiset.cons_coe, Multiset.coe_eq_coe]
    exact List.perm_append_singleton ..
  have hle : r.value ::ₘ s.went ≤ s.came := hwent ▸ hcame ▸ h'.went_le
  rw [State.content, State.content, hcame, hwent,
    tsub_eq_iff_eq_add_of_le ((Multiset.le_cons_self _ _).trans hle), Multiset.cons_add, ← Multiset.add_cons,
    tsub_add_cancel_of_le hle]

end Contents

end Thunderbolt.Executor.AbpDeque
