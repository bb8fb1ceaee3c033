import Thunderbolt.Task.TaskFunction

/-! A `TaskFunction` owns its callable.

Every operation is made of four changes of the objects that keep the invariant: an empty object
appears, it gets a callable, its callable is destroyed, an empty object goes. -/
namespace Thunderbolt
open Concurrent

variable {Name Fn : Type} [DecidableEq Name] [DecidableEq Fn]

namespace TaskFunction

theorem reset_empty (a : Account) : (empty : TaskFunction Fn).reset a = some (a, empty) := rfl

theorem reset_holding (a : Account) (c : Callable Fn) :
    (holding c).reset a = some ({a with destroyed := a.destroyed ++ [c.number]}, empty) := by
  simp [reset, holding, manageDestroy, empty]

theorem move_from_empty (a : Account) :
    (empty : TaskFunction Fn).move_from a empty = some (a, empty, empty) := rfl

/-- The callable is constructed anew, and the one moved from is destroyed. -/
theorem move_from_holding (a : Account) (c : Callable Fn) :
    empty.move_from a (holding c) = some (⟨a.constructed + 1, a.destroyed ++ [c.number]⟩,
      holding ⟨a.constructed, c.type⟩, empty) := by
  simp [move_from, holding, manageMoveTo, manageDestroy, construct, empty]

end TaskFunction

namespace TaskFunctions
open TaskFunction
variable {w w' : TaskFunctions Name Fn} {n m : Name} {f : TaskFunction Fn} {c : Callable Fn}

structure Inv (w : TaskFunctions Name Fn) : Prop where
  owned : ∀ n f, w.objects n = some f → f = .empty ∨ ∃ c, f = holding c
  alive : ∀ n c, w.stored n = some c → w.Alive c.number
  distinct : ∀ n m c d, w.stored n = some c → w.stored m = some d → c.number = d.number → n = m
  nodup : w.account.destroyed.Nodup
  destroyed : ∀ i ∈ w.account.destroyed, i < w.account.constructed
  stored : ∀ i, w.Alive i → ∃ n c, w.stored n = some c ∧ c.number = i

omit [DecidableEq Fn] in
theorem objects_set_self (w : TaskFunctions Name Fn) (n : Name) (f : Option (TaskFunction Fn)) :
    (w.set n f).objects n = f := Function.update_self ..

omit [DecidableEq Fn] in
theorem objects_set_of_ne (h : m ≠ n) (f : Option (TaskFunction Fn)) :
    (w.set n f).objects m = w.objects m := Function.update_of_ne h ..

omit [DecidableEq Fn] in
theorem stored_set_self (w : TaskFunctions Name Fn) (n : Name) (f : Option (TaskFunction Fn)) :
    (w.set n f).stored n = f.bind TaskFunction.storage_ := by
  rw [TaskFunctions.stored, objects_set_self]

omit [DecidableEq Fn] in
theorem stored_set_of_ne (h : m ≠ n) (f : Option (TaskFunction Fn)) :
    (w.set n f).stored m = w.stored m := by
  rw [TaskFunctions.stored, objects_set_of_ne h, TaskFunctions.stored]

omit [DecidableEq Fn] in
/-- What the objects own, when one of them is set. -/
theorem Inv.owned_set (h : Inv w) {f : Option (TaskFunction Fn)}
    (hf : ∀ g, f = some g → g = .empty ∨ ∃ c, g = holding c) :
    ∀ m g, (w.set n f).objects m = some g → g = .empty ∨ ∃ c, g = holding c := by
  intro m g hg
  by_cases hm : m = n
  · subst hm
    rw [objects_set_self] at hg
    exact hf g hg
  · rw [objects_set_of_ne hm] at hg
    exact h.owned m g hg

/-! ### Four changes -/

omit [DecidableEq Fn] in
/-- An empty object appears, or goes. -/
theorem Inv.setEmpty (h : Inv w) (hn : w.stored n = none) {f : Option (TaskFunction Fn)}
    (hf : ∀ g, f = some g → g = .empty) : Inv (w.set n f) := by
  have hstored : ∀ m, (w.set n f).stored m = w.stored m := by
    intro m
    by_cases hm : m = n
    · subst hm
      rw [stored_set_self, hn]
      cases f with
      | none => rfl
      | some g => rw [hf g rfl]; rfl
    · exact stored_set_of_ne hm f
  refine ⟨h.owned_set fun g hg => .inl (hf g hg), ?_, ?_, h.nodup, h.destroyed, ?_⟩
  · intro m c hc
    exact h.alive m c (hstored m ▸ hc)
  · intro m k c d hc hd
    exact h.distinct m k c d (hstored m ▸ hc) (hstored k ▸ hd)
  · intro i hi
    obtain ⟨m, c, hc, hnumber⟩ := h.stored i hi
    exact ⟨m, c, (hstored m).trans hc, hnumber⟩

omit [DecidableEq Fn] in
/-- An empty object gets a callable. -/
theorem Inv.fill (h : Inv w) (hn : w.stored n = none) (type : Fn) :
    Inv ((w.set n (some (holding ⟨w.account.constructed, type⟩))).charge
      {w.account with constructed := w.account.constructed + 1}) := by
  have hself : (w.set n (some (holding ⟨w.account.constructed, type⟩))).stored n =
      some ⟨w.account.constructed, type⟩ := stored_set_self ..
  have hother : ∀ m, m ≠ n → (w.set n (some (holding ⟨w.account.constructed, type⟩))).stored m =
      w.stored m := fun m hm => stored_set_of_ne hm _
  refine ⟨h.owned_set fun g hg => .inr ⟨_, (Option.some.inj hg).symm⟩, ?_, ?_, h.nodup, ?_, ?_⟩
  · intro m c hc
    by_cases hm : m = n
    · subst hm
      obtain rfl := Option.some.inj (hself.symm.trans hc)
      exact ⟨Nat.lt_succ_self _, fun hmem => lt_irrefl _ (h.destroyed _ hmem)⟩
    · obtain ⟨hlt, hnot⟩ := h.alive m c ((hother m hm).symm.trans hc)
      exact ⟨Nat.lt_succ_of_lt hlt, hnot⟩
  · intro m k c d hc hd heq
    -- A number in use is not the new one.
    have hfresh : ∀ m c, w.stored m = some c → c.number ≠ w.account.constructed :=
      fun m c hc => (h.alive m c hc).1.ne
    by_cases hm : m = n
    · by_cases hk : k = n
      · rw [hm, hk]
      · subst hm
        obtain rfl := Option.some.inj (hself.symm.trans hc)
        exact absurd heq.symm (hfresh k d ((hother k hk).symm.trans hd))
    · by_cases hk : k = n
      · subst hk
        obtain rfl := Option.some.inj (hself.symm.trans hd)
        exact absurd heq (hfresh m c ((hother m hm).symm.trans hc))
      · exact h.distinct m k c d ((hother m hm).symm.trans hc) ((hother k hk).symm.trans hd) heq
  · exact fun i hi => Nat.lt_succ_of_lt (h.destroyed i hi)
  · intro i hi
    obtain hlt | rfl := Nat.lt_succ_iff_lt_or_eq.mp hi.1
    · obtain ⟨m, c, hc, hnumber⟩ := h.stored i ⟨hlt, hi.2⟩
      have hm : m ≠ n := by
        intro heq
        obtain rfl := heq
        rw [hn] at hc
        cases hc
      exact ⟨m, c, (hother m hm).trans hc, hnumber⟩
    · exact ⟨n, _, hself, rfl⟩

omit [DecidableEq Fn] in
/-- The callable of an object is destroyed. -/
theorem Inv.drop (h : Inv w) (hn : w.stored n = some c) :
    Inv ((w.set n (some .empty)).charge
      {w.account with destroyed := w.account.destroyed ++ [c.number]}) := by
  have hself : (w.set n (some .empty)).stored n = none := stored_set_self ..
  have hother : ∀ m d, (w.set n (some .empty)).stored m = some d → m ≠ n ∧ w.stored m = some d := by
    intro m d hd
    have hm : m ≠ n := by
      intro heq
      obtain rfl := heq
      rw [hself] at hd
      cases hd
    exact ⟨hm, (stored_set_of_ne hm _).symm.trans hd⟩
  obtain ⟨hlt, hnot⟩ := h.alive n c hn
  refine ⟨h.owned_set fun g hg => .inl (Option.some.inj hg).symm, ?_, ?_, ?_, ?_, ?_⟩
  · intro m d hd
    obtain ⟨hm, hd⟩ := hother m d hd
    obtain ⟨hdlt, hdnot⟩ := h.alive m d hd
    refine ⟨hdlt, fun hmem => ?_⟩
    obtain hmem | hmem := List.mem_append.mp hmem
    · exact hdnot hmem
    · exact hm (h.distinct m n d c hd hn (List.mem_singleton.mp hmem))
  · intro m k d e hd he
    exact h.distinct m k d e (hother m d hd).2 (hother k e he).2
  · exact List.nodup_append.mpr ⟨h.nodup, List.nodup_singleton _, fun i hi j hj => by
      intro heq
      obtain rfl := heq
      exact hnot (List.mem_singleton.mp hj ▸ hi)⟩
  · intro i hi
    obtain hi | hi := List.mem_append.mp hi
    · exact h.destroyed i hi
    · exact List.mem_singleton.mp hi ▸ hlt
  · intro i hi
    have hi' : w.Alive i := ⟨hi.1, fun hmem => hi.2 (List.mem_append_left _ hmem)⟩
    obtain ⟨m, d, hd, hnumber⟩ := h.stored i hi'
    have hm : m ≠ n := by
      intro heq
      obtain rfl := heq
      obtain rfl := Option.some.inj (hn.symm.trans hd)
      exact hi.2 (List.mem_append_right _ (List.mem_singleton.mpr hnumber.symm))
    exact ⟨m, d, (stored_set_of_ne hm _).trans hd, hnumber⟩

/-! ### Every operation -/

omit [DecidableEq Name] [DecidableEq Fn] in
theorem stored_eq (h : w.objects n = some f) : w.stored n = f.storage_ := by
  rw [TaskFunctions.stored, h]
  rfl

/-- A reset destroys what the object holds, and constructs nothing. -/
theorem Inv.reset (h : Inv w) (hn : w.objects n = some f) :
    ∃ a, f.reset w.account = some (a, .empty) ∧ Inv ((w.set n (some .empty)).charge a) ∧
      a.constructed = w.account.constructed ∧
      ∀ c, w.stored n = some c → a.destroyed = w.account.destroyed ++ [c.number] := by
  have hstored := stored_eq hn
  obtain rfl | ⟨c, rfl⟩ := h.owned n f hn
  · refine ⟨w.account, reset_empty _, h.setEmpty hstored fun g hg => (Option.some.inj hg).symm, rfl, ?_⟩
    intro c hc
    rw [hstored] at hc
    cases hc
  · refine ⟨_, reset_holding _ c, h.drop hstored, rfl, ?_⟩
    intro d hd
    obtain rfl := Option.some.inj (hstored.symm.trans hd)
    rfl

/-- A move into an empty object constructs the callable there and destroys the one it was moved from. -/
theorem Inv.move (h : Inv w) (hne : n ≠ m) (hn : w.stored n = none) (hm : w.objects m = some f) :
    ∃ a g, TaskFunction.empty.move_from w.account f = some (a, g, .empty) ∧
      Inv (((w.set n (some g)).set m (some .empty)).charge a) := by
  have hstored := stored_eq hm
  obtain rfl | ⟨c, rfl⟩ := h.owned m f hm
  · have hset := h.setEmpty hn fun g hg => (Option.some.inj hg).symm
    have hm' : (w.set n (some .empty)).stored m = none := (stored_set_of_ne hne.symm _).trans hstored
    exact ⟨w.account, .empty, move_from_empty _, hset.setEmpty hm' fun g hg => (Option.some.inj hg).symm⟩
  · have hfill := h.fill hn c.type
    have hm' : ((w.set n (some (holding ⟨w.account.constructed, c.type⟩))).charge
        {w.account with constructed := w.account.constructed + 1}).stored m = some c :=
      (stored_set_of_ne hne.symm _).trans hstored
    exact ⟨_, _, move_from_holding _ c, hfill.drop hm'⟩

/-- Whatever the caller may do is defined, and keeps the invariant. -/
theorem Inv.next (h : Inv w) {a : Act Name Fn} (ha : w.Applies a) : ∃ w', w.next a = some w' ∧ Inv w' := by
  have hnew : ∀ n, w.objects n = none → w.stored n = none := by
    intro n hn
    rw [TaskFunctions.stored, hn]
    rfl
  have hempty : ∀ n, (w.set n (some .empty)).stored n = none := fun n => stored_set_self ..
  cases a with
  | default n => exact ⟨_, rfl, h.setEmpty (hnew n ha) fun g hg => (Option.some.inj hg).symm⟩
  | construct n type throws =>
    cases throws with
    | true => exact ⟨w, rfl, h⟩
    | false => exact ⟨_, rfl, h.fill (hnew n ha) type⟩
  | emplace n type throws =>
    obtain ⟨f, hf⟩ := Option.ne_none_iff_exists'.mp ha
    obtain ⟨b, hreset, hinv, -⟩ := h.reset hf
    cases throws with
    | true =>
      refine ⟨(w.set n (some .empty)).charge b, ?_, hinv⟩
      simp [TaskFunctions.next, TaskFunction.emplace, hf, hreset, init]
    | false =>
      refine ⟨_, ?_, hinv.fill (hempty n) type⟩
      simp [TaskFunctions.next, TaskFunction.emplace, hf, hreset, init, set, charge, holding, construct]
  | moveConstruct n m =>
    obtain ⟨hn, hm⟩ := ha
    obtain ⟨g, hg⟩ := Option.ne_none_iff_exists'.mp hm
    have hne : n ≠ m := by
      intro heq
      obtain rfl := heq
      exact hm hn
    obtain ⟨b, f, hmove, hinv⟩ := h.move hne (hnew n hn) hg
    refine ⟨_, ?_, hinv⟩
    simp [TaskFunctions.next, hg, hmove]
  | moveAssign n m =>
    obtain ⟨hn, hm⟩ := ha
    by_cases hne : n = m
    · exact ⟨w, if_neg (not_not.mpr hne), h⟩
    · obtain ⟨f, hf⟩ := Option.ne_none_iff_exists'.mp hn
      obtain ⟨g, hg⟩ := Option.ne_none_iff_exists'.mp hm
      obtain ⟨b, hreset, hinv, -⟩ := h.reset hf
      have hg' : ((w.set n (some .empty)).charge b).objects m = some g :=
        (objects_set_of_ne (Ne.symm hne) _).trans hg
      obtain ⟨b', f', hmove, hinv⟩ := hinv.move hne (hempty n) hg'
      refine ⟨_, ?_, hinv⟩
      have hmove' : TaskFunction.empty.move_from b g = some (b', f', .empty) := hmove
      simp [TaskFunctions.next, hne, hf, hg, hreset, hmove', set, charge]
  | reset n =>
    obtain ⟨f, hf⟩ := Option.ne_none_iff_exists'.mp ha
    obtain ⟨b, hreset, hinv, -⟩ := h.reset hf
    refine ⟨_, ?_, hinv⟩
    simp [TaskFunctions.next, hf, hreset]
  | destroy n =>
    obtain ⟨f, hf⟩ := Option.ne_none_iff_exists'.mp ha
    obtain ⟨b, hreset, hinv, -⟩ := h.reset hf
    refine ⟨_, ?_, hinv.setEmpty (f := none) (hempty n) fun g hg => by cases hg⟩
    simp [TaskFunctions.next, hf, hreset, set, charge]

theorem inv (h : Reachable (system Name Fn) w) : Inv w := by
  induction h with
  | initial hi =>
    obtain rfl := hi
    refine ⟨?_, ?_, ?_, List.nodup_nil, ?_, ?_⟩
    · exact fun n f hf => by cases hf
    · exact fun n c hc => by cases hc
    · exact fun n m c d hc => by cases hc
    · exact fun i hi => absurd hi List.not_mem_nil
    · exact fun i hi => absurd hi.1 (Nat.not_lt_zero i)
  | step _ hstep ih =>
    obtain ⟨happlies, hnext⟩ := hstep
    obtain ⟨w', hw', hinv⟩ := ih.next happlies
    rw [hnext] at hw'
    exact Option.some.inj hw' ▸ hinv

/-! ### What the objects hold -/

theorem Inv.filled (h : Inv w) {type : Fn} {a : Act Name Fn}
    (ha : a = .construct n type false ∨ a = .emplace n type false) (hw' : w.next a = some w') :
    w'.objects n = some (holding ⟨w.account.constructed, type⟩) := by
  obtain rfl | rfl := ha
  · obtain rfl := Option.some.inj hw'
    exact objects_set_self ..
  · obtain ⟨f, hf, hrest⟩ := Option.bind_eq_some_iff.mp hw'
    obtain ⟨b, hreset, _, hconstructed, _⟩ := h.reset hf
    simp only [TaskFunction.emplace, hreset, init, Option.bind_eq_bind, Option.bind_some,
      Bool.false_eq_true, if_false, Option.some.injEq] at hrest
    obtain rfl := hrest
    rw [← hconstructed]
    exact objects_set_self ..

omit [DecidableEq Name] in
theorem Inv.move_from (h : Inv w) (hm : w.objects m = some f) (a : Account) :
    ∃ b, TaskFunction.empty.move_from a f =
      some (b, (w.stored m).elim .empty fun c => holding ⟨a.constructed, c.type⟩, .empty) := by
  rw [stored_eq hm]
  obtain rfl | ⟨c, rfl⟩ := h.owned m f hm
  · exact ⟨_, move_from_empty a⟩
  · exact ⟨_, move_from_holding a c⟩

theorem Inv.moved (h : Inv w) (hne : n ≠ m) {a : Act Name Fn}
    (ha : a = .moveConstruct n m ∨ a = .moveAssign n m) (hw' : w.next a = some w') :
    w'.objects m = some .empty ∧ w'.objects n =
      some ((w.stored m).elim .empty fun c => holding ⟨w.account.constructed, c.type⟩) := by
  have hset : ∀ (a : Account) (f : TaskFunction Fn),
      (((w.set n (some f)).set m (some .empty)).charge a).objects n = some f := fun _ _ =>
    (objects_set_of_ne hne _).trans (objects_set_self ..)
  obtain rfl | rfl := ha
  · obtain ⟨g, hg, hrest⟩ := Option.bind_eq_some_iff.mp hw'
    obtain ⟨b, hmove⟩ := h.move_from hg w.account
    simp only [hmove, Option.bind_eq_bind, Option.bind_some, Option.some.injEq] at hrest
    obtain rfl := hrest
    exact ⟨objects_set_self .., hset ..⟩
  · rw [TaskFunctions.next, if_pos hne] at hw'
    obtain ⟨f, hf, hrest⟩ := Option.bind_eq_some_iff.mp hw'
    obtain ⟨g, hg, hrest⟩ := Option.bind_eq_some_iff.mp hrest
    obtain ⟨b, hreset, _, hconstructed, _⟩ := h.reset hf
    obtain ⟨b', hmove⟩ := h.move_from hg b
    simp only [hreset, hmove, Option.bind_eq_bind, Option.bind_some, Option.some.injEq] at hrest
    obtain rfl := hrest
    rw [← hconstructed]
    exact ⟨objects_set_self .., hset ..⟩

/-! ### Counting -/

omit [DecidableEq Name] [DecidableEq Fn] in
theorem Inv.valid_iff (h : Inv w) (n : Name) :
    (∃ f, w.objects n = some f ∧ f.valid = true) ↔ ∃ c, w.stored n = some c := by
  constructor
  · intro hsome
    obtain ⟨f, hf, hvalid⟩ := hsome
    obtain rfl | ⟨c, rfl⟩ := h.owned n f hf
    · cases hvalid
    · exact ⟨c, stored_eq hf⟩
  · intro hsome
    obtain ⟨c, hc⟩ := hsome
    obtain ⟨f, hf, hstorage⟩ := Option.bind_eq_some_iff.mp hc
    obtain rfl | ⟨d, rfl⟩ := h.owned n f hf
    · cases hstorage
    · exact ⟨_, hf, rfl⟩

omit [DecidableEq Name] [DecidableEq Fn] in
/-- The objects that hold a callable are as many as the callables alive. -/
theorem Inv.ncard (h : Inv w) :
    {i | w.Alive i}.ncard = {n | ∃ f, w.objects n = some f ∧ f.valid = true}.ncard := by
  let number : Name → ℕ := fun n => ((w.stored n).map Callable.number).getD 0
  have hnumber : ∀ n c, w.stored n = some c → number n = c.number := by
    intro n c hc
    simp [number, hc]
  have himage : {i | w.Alive i} = number '' {n | ∃ f, w.objects n = some f ∧ f.valid = true} := by
    ext i
    constructor
    · intro hi
      obtain ⟨n, c, hc, rfl⟩ := h.stored i hi
      exact ⟨n, (h.valid_iff n).mpr ⟨c, hc⟩, hnumber n c hc⟩
    · intro hsome
      obtain ⟨n, hn, rfl⟩ := hsome
      obtain ⟨c, hc⟩ := (h.valid_iff n).mp hn
      exact hnumber n c hc ▸ h.alive n c hc
  rw [himage]
  apply Set.InjOn.ncard_image
  intro n hn m hm heq
  obtain ⟨c, hc⟩ := (h.valid_iff n).mp hn
  obtain ⟨d, hd⟩ := (h.valid_iff m).mp hm
  exact h.distinct n m c d hc hd (by rw [← hnumber n c hc, ← hnumber m d hd, heq])

/-- **A `TaskFunction` owns one live callable or none**, after any operations on any objects, whichever
of the copies throw. -/
theorem task_function_owns (h : Reachable (system Name Fn) w) : w.Correct := by
  have hinv := inv h
  refine ⟨fun n f hf => ?_, ?_, hinv.ncard, fun i hi => ?_, fun a ha => ?_, fun n type w' hw' => ?_,
    fun n type a w' ha hw' => hinv.filled ha hw', fun n m a w' hne ha hw' => hinv.moved hne ha hw'⟩
  · obtain rfl | ⟨c, rfl⟩ := hinv.owned n f hf
    · exact .inl ⟨rfl, rfl⟩
    · exact .inr ⟨c, rfl, rfl⟩
  · exact (Set.finite_lt_nat w.account.constructed).subset fun i hi => hi.1
  · by_cases hmem : i ∈ w.account.destroyed
    · refine .inr ⟨List.count_eq_one_of_mem hinv.nodup hmem, ?_⟩
      intro n c hc heq
      obtain rfl := heq
      exact (hinv.alive n c hc).2 hmem
    · exact .inl ⟨List.count_eq_zero_of_not_mem hmem, hinv.stored i ⟨hi, hmem⟩⟩
  · obtain ⟨w', hw', _⟩ := hinv.next ha
    exact ⟨w', hw'⟩
  · obtain ⟨f, hf, hrest⟩ := Option.bind_eq_some_iff.mp hw'
    obtain ⟨a, hreset, _, _, hdestroyed⟩ := hinv.reset hf
    simp only [TaskFunction.emplace, hreset, init, Option.bind_eq_bind, Option.bind_some, if_true,
      Option.some.injEq] at hrest
    obtain rfl := hrest
    exact ⟨objects_set_self .., hdestroyed⟩

/-- One function moved into another, a second one over it; then the copy of a third throws. -/
theorem task_function_owns_throws : ∃ w : TaskFunctions (Fin 2) Bool,
    Reachable (system (Fin 2) Bool) w ∧ w.account = ⟨4, [0, 1, 2, 3]⟩ ∧ w.Correct := by
  have h : Reachable (system (Fin 2) Bool) initial := .initial rfl
  have h := h.step (l := Act.construct 0 false false) ⟨rfl, rfl⟩
  have h := h.step (l := Act.moveConstruct 1 0) ⟨⟨rfl, nofun⟩, rfl⟩
  have h := h.step (l := Act.emplace 0 true false) ⟨nofun, rfl⟩
  have h := h.step (l := Act.moveAssign 0 0) ⟨⟨nofun, nofun⟩, rfl⟩
  have h := h.step (l := Act.moveAssign 1 0) ⟨⟨nofun, nofun⟩, rfl⟩
  have h := h.step (l := Act.emplace 1 false true) ⟨nofun, rfl⟩
  exact ⟨_, h, rfl, task_function_owns h⟩

end TaskFunctions
end Thunderbolt
