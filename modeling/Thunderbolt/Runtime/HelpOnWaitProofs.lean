import Thunderbolt.Concurrent.Cycles
import Thunderbolt.Runtime.HelpOnWait

/-! No program in which nobody waits for himself gets stuck.

In a stuck state every call is quiet, so whatever is waited for waits itself for a body that has
been started. Of the started bodies take one that waits for no other (`Inv.not_stuck`): nothing above it on
its thread is a body, so it is waiting there for a task, and so for a body. What the stacks look like is
`Inv`; a step is one of the innermost call of a thread (`Inv.turn`), and makes nobody wait for another but
who begins to wait (`Turn.hangs`). -/
namespace Thunderbolt.Runtime.HelpOnWait
open Concurrent Lifecycle

variable {Thread Call : Type} [DecidableEq Thread] [DecidableEq Call] {cfg : PoolConfig}
  {base : Thread → Call} {a : Act Thread Call} {s s' : State Thread Call} {r : Lifecycle.State Call}
  {b : Lifecycle.Act Call} {c : Call} {t u : ℕ} {x : TaskHandle} {f g : Frame Call}
  {l rest : List (Frame Call)}

/-! ### The innermost call -/

/-- A task is being executed. -/
def Executing : Pc Call → Prop
  | .claimed _ | .exchanging _ | .calling _ | .running _ _ | .taking _ _ | .completing _ _ _ |
    .releasing _ _ _ | .looping _ _ | .subtracting _ _ _ _ | .driving _ _ _ _ | .passing _ _ _ _ |
    .retiring _ => True
  | _ => False

theorem executing_step {x r : Lifecycle.State Call} (hs : Lifecycle.Step cfg (.step c) x r)
    (h : Executing (x.pc c)) : Executing (r.pc c) ∨ r.pc c = .idle := by
  have hold : ∀ {p : Pc Call}, x.pc c = p → Executing p := fun hp => hp ▸ h
  have hnew : ∀ {p : Pc Call}, r.pc c = p → Executing p → Executing (r.pc c) ∨ r.pc c = .idle :=
    fun hp h => .inl (hp ▸ h)
  cases hs
  case retire hpc => exact .inr (Function.update_self ..)
  case executeStale hpc _ => exact .inr (Function.update_self ..)
  case execute | exchange | call | ends | take_successors | complete | destroy | bump | reset_successors |
      storeFree | looped | dependent | dependentStale | subtract | subtractLast | drive | pass | dequeue =>
    exact hnew (Function.update_self ..) trivial
  case list next _ =>
    refine hnew (Function.update_self ..) ?_
    cases next <;> trivial
  all_goals
    have hpc := ‹x.pc c = _›
    exact (hold hpc).elim

/-- The call asks for nobody else, or is about to. -/
def Polling (p : Pc Call) : Prop := p = .idle ∨ p.asked ≠ none ∧ p.awaits = none

theorem polling_step {x r : Lifecycle.State Call} (hs : Lifecycle.Step cfg (.step c) x r)
    (h : Polling (x.pc c)) (hbusy : x.pc c ≠ .idle) : Polling (r.pc c) := by
  have hold : ∀ {p : Pc Call}, x.pc c = p → p.asked ≠ none ∧ p.awaits = none :=
    fun hp => hp ▸ h.resolve_left hbusy
  have hnew : ∀ {p : Pc Call}, r.pc c = p → p.asked ≠ none → p.awaits = none → Polling (r.pc c) :=
    fun hp hasked hawaits => .inr (hp ▸ ⟨hasked, hawaits⟩)
  cases hs
  case askStale | askFound | recheckStale | recheck | read =>
    have hpc := ‹x.pc c = _›
    exact hnew (Function.update_self ..) nofun (hold hpc).2
  case answer =>
    have hpc := ‹x.pc c = _›
    cases (hold hpc).2
    exact .inl (Function.update_self ..)
  all_goals
    have hpc := ‹x.pc c = _›
    exact absurd rfl (hold hpc).1

/-- A call waits for its dependencies when it has found no slot. -/
theorem awaits_step {x r : Lifecycle.State Call} {k : ℕ} (hs : Lifecycle.Step cfg (.step c) x r)
    (h : (r.pc c).awaits = some (t, k)) :
    (∃ j, (x.pc c).awaits = some (t, j)) ∨ ∃ em, x.pc c = .acquiring t em ∧
      r.pc c = exhausted t (x.sub t).dependencies em := by
  have hnew : ∀ {p : Pc Call}, r.pc c = p → p.awaits = some (t, k) := fun hp => hp ▸ h
  have hold : ∀ {p : Pc Call} {j : ℕ}, x.pc c = p → p.awaits = some (t, j) →
      (∃ j, (x.pc c).awaits = some (t, j)) ∨ ∃ em, x.pc c = .acquiring t em ∧
        r.pc c = exhausted t (x.sub t).dependencies em := fun hp h => .inl ⟨_, hp ▸ h⟩
  cases hs
  case exhausted v em hpc =>
    have hv := hnew (Function.update_self ..)
    obtain rfl : v = t := by
      unfold exhausted at hv
      split_ifs at hv <;> cases hv
      rfl
    exact .inr ⟨em, hpc, Function.update_self ..⟩
  case await | askStale | askFound | read | recheckStale | recheck =>
    have hpc := ‹x.pc c = _›
    have hv := hnew (Function.update_self ..)
    exact hold hpc hv
  case answer o _ _ res _ =>
    have hpc := ‹x.pc c = _›
    have hv := hnew (Function.update_self ..)
    cases o with
    | none => cases hv
    | some q =>
      cases hv
      exact hold hpc rfl
  case create =>
    have hv := hnew (Function.update_self ..)
    split at hv <;> cases hv
  case open_successors em _ =>
    have hv := hnew (Function.update_self ..)
    cases em <;> cases hv
  case list next _ =>
    have hv := hnew (Function.update_self ..)
    cases next <;> cases hv
  all_goals cases hnew (Function.update_self ..)

/-- The submission that a call makes. -/
def inside : Pc Call → Option ℕ
  | .acquiring t _ | .opening t _ _ | .creating t _ | .constructing t _ | .publishing t _ | .holding t _ |
    .counting t _ | .registering t _ _ | .adding t _ _ | .refused t _ _ | .enqueueing t _ => some t
  | p => p.awaits.map Prod.fst

omit [DecidableEq Call] in
theorem inside_of_awaits {p : Pc Call} {k : ℕ} (h : p.awaits = some (t, k)) : inside p = some t := by
  cases p <;> first | exact congrArg (Option.map Prod.fst) h | cases h

/-- It is one and the same. -/
theorem inside_step {x r : Lifecycle.State Call} (hs : Lifecycle.Step cfg (.step c) x r)
    (h : inside (r.pc c) = some t) : inside (x.pc c) = some t := by
  have hnew : ∀ {p : Pc Call}, r.pc c = p → inside p = some t := fun hp => hp ▸ h
  have hold : ∀ {p : Pc Call}, x.pc c = p → inside p = some t → inside (x.pc c) = some t :=
    fun hp h => hp ▸ h
  cases hs
  case acquire | storeWaiting | storePending | stale | lookup | add | refuse | settle | publish | await |
      askStale | askFound | read | recheckStale | recheck | unguardLast =>
    have hpc := ‹x.pc c = _›
    have hv := hnew (Function.update_self ..)
    exact hold hpc hv
  case exhausted v em hpc =>
    have hv := hnew (Function.update_self ..)
    refine hold hpc ?_
    unfold Lifecycle.exhausted at hv
    split_ifs at hv
    · exact hv
    · cases hv
    · exact hv
  case open_successors em hpc =>
    have hv := hnew (Function.update_self ..)
    refine hold hpc ?_
    cases em <;> exact hv
  case create hpc =>
    have hv := hnew (Function.update_self ..)
    refine hold hpc ?_
    split at hv <;> exact hv
  case construct hpc =>
    have hv := hnew (Function.update_self ..)
    exact hold hpc hv
  case list next _ =>
    have hv := hnew (Function.update_self ..)
    cases next <;> cases hv
  case answer o _ _ _ _ =>
    have hpc := ‹x.pc c = _›
    have hv := hnew (Function.update_self ..)
    cases o with
    | none => cases hv
    | some q => exact hold hpc hv
  all_goals cases hnew (Function.update_self ..)

/-- A body is called once. -/
theorem body_step {x r : Lifecycle.State Call} (hs : Lifecycle.Step cfg (.step c) x r)
    (h : bodyOf (r.pc c) = some t) : (r.sub t).invoked ≠ (x.sub t).invoked := by
  have hnew : ∀ {p : Pc Call}, r.pc c = p → bodyOf p = some t := fun hp => hp ▸ h
  cases hs
  case run_inline =>
    cases hnew (Function.update_self ..)
    simp
  case call =>
    cases hnew (Function.update_self ..)
    simp
  case create =>
    have hv := hnew (Function.update_self ..)
    split at hv <;> cases hv
  case exhausted =>
    have hv := hnew (Function.update_self ..)
    unfold exhausted at hv
    split_ifs at hv <;> cases hv
  case open_successors em _ =>
    have hv := hnew (Function.update_self ..)
    cases em <;> cases hv
  case list next _ =>
    have hv := hnew (Function.update_self ..)
    cases next <;> cases hv
  case answer o _ _ _ _ =>
    have hv := hnew (Function.update_self ..)
    cases o <;> cases hv
  all_goals cases hnew (Function.update_self ..)

/-! ### Steps of the runtime -/

theorem sized_of_regular {x : Lifecycle.State Call} (h : Reachable (regular Call cfg) x) :
    Reachable (sized Call cfg) x := h.restrict_mono fun _ _ hregular => hregular.1

/-- A step in a run of the runtime in which nothing comes round. -/
structure Moves (cfg : PoolConfig) (b : Lifecycle.Act Call) (x r : Lifecycle.State Call) : Prop where
  reachable : Reachable (regular Call cfg) x
  step : Lifecycle.Step cfg b x r
  regular : b.Regular x

namespace Moves
variable {x r : Lifecycle.State Call} (m : Moves cfg b x r)
include m

theorem inv : Lifecycle.Inv cfg x := .reachable (sized_of_regular m.reachable)

theorem found : Found x := .reachable m.reachable

theorem after : Reachable (Lifecycle.regular Call cfg) r := m.reachable.step ⟨m.step, m.regular⟩

theorem inv_after : Lifecycle.Inv cfg r := .reachable (sized_of_regular m.after)

/-- A body that is being called was called before, or is called now. -/
theorem started (ht : Started r t) : Started x t ∨ (r.sub t).invoked ≠ (x.sub t).invoked := by
  obtain ⟨c, ht⟩ := ht
  obtain heq | hadv | ⟨_, _, _, _, heq⟩ := m.inv.advance m.step t
  · exact .inl ⟨c, heq ▸ ht⟩
  · generalize r.sub t = y at ht hadv
    cases hadv with
    | call => exact .inr (Nat.succ_ne_self _)
    | complete hst => cases hst.symm.trans ht
    | _ => cases ht
  · rw [heq] at ht
    cases ht

/-- A body that has been called is not called again. -/
theorem invoked (hlt : t < x.submitted) (ht : (x.sub t).invoked ≠ 0) :
    (r.sub t).invoked = (x.sub t).invoked := by
  obtain heq | hadv | ⟨rfl, _⟩ := m.inv.advance m.step t
  · rw [heq]
  · have hlog := m.inv.logged t hlt
    generalize r.sub t = y at hadv ⊢
    cases hadv with
    | call hst =>
      unfold Logged at hlog
      obtain hst | hst := hst <;> rw [hst] at hlog <;> exact absurd hlog ht
    | _ => rfl
  · exact absurd hlt (Nat.lt_irrefl _)

end Moves

theorem started_of_body {x : Lifecycle.State Call} (h : Lifecycle.Inv cfg x) (hbody : bodyOf (x.pc c) = some t) :
    Started x t := by
  cases hp : x.pc c with
  | running v y | inlined v =>
    rw [hp] at hbody
    cases hbody
    exact ⟨c, (h.at_pc hp).1⟩
  | _ =>
    rw [hp] at hbody
    cases hbody

/-! ### The stacks -/

/-- Why the call `f` is on top of `g`. -/
inductive Link (s : State Thread Call) (f g : Frame Call) (rest : List (Frame Call)) : Prop where
  | body {t : ℕ} : bodyOf (s.runtime.pc g.call) = some t → Link s f g rest
  | help : s.Helps g → f.target = none → Executing (s.runtime.pc f.call) → Link s f g rest
  | outside : rest = [] → s.runtime.pc g.call = .idle → f.target ≠ none → Link s f g rest

/-- Each call is on one stack, once, and not without reason. -/
structure Inv (s : State Thread Call) : Prop where
  nodup : ∀ θ, ((s.stack θ).map Frame.call).Nodup
  apart : ∀ θ θ' f g, f ∈ s.stack θ → g ∈ s.stack θ' → f.call = g.call → θ = θ'
  covered : ∀ c, s.runtime.pc c ≠ .idle → ∃ θ, ∃ f ∈ s.stack θ, f.call = c
  polling : ∀ θ, ∀ f ∈ s.stack θ, f.target ≠ none → Polling (s.runtime.pc f.call)
  wait_all : ∀ θ, ∀ f ∈ s.stack θ, f.target = some .all → s.runtime.pc f.call = .idle
  linked : ∀ θ f g rest, f :: g :: rest <:+ s.stack θ → Link s f g rest
  base : ∀ θ f, [f] <:+ s.stack θ → f.target = none

/-- A step of the thread `θ` is one of the call `f`, which is on top of `rest`, or comes there, or goes. -/
structure Turn (cfg : PoolConfig) (a : Act Thread Call) (s s' : State Thread Call) (θ : Thread) (f : Frame Call)
    (rest : List (Frame Call)) : Prop where
  others : ∀ θ', θ' ≠ θ → s'.stack θ' = s.stack θ'
  pc : ∀ c, c ≠ f.call → s'.runtime.pc c = s.runtime.pc c
  before : s.stack θ = f :: rest ∨ s.stack θ = rest ∧ s.Unused f.call
  after : s'.stack θ = f :: rest ∨ s'.stack θ = rest ∧ s'.runtime.pc f.call = .idle
  polling : s'.stack θ = f :: rest → f.target ≠ none → Polling (s'.runtime.pc f.call)
  wait_all : s'.stack θ = f :: rest → f.target = some .all → s'.runtime.pc f.call = .idle
  linked : s'.stack θ = f :: rest → ∀ g l, rest = g :: l → Link s' f g l
  base : s'.stack θ = f :: rest → rest = [] → f.target = none
  inside : s'.stack θ = f :: rest → rest ≠ [] → ∀ u, inside (s'.runtime.pc f.call) = some u →
    s.stack θ = f :: rest ∧ inside (s.runtime.pc f.call) = some u ∨
      s.stack θ = rest ∧ u = s.runtime.submitted ∧ ∃ deps, a = .call θ f.call deps
  target : s'.stack θ = f :: rest → ∀ y, f.target = some y →
    s.stack θ = f :: rest ∨ s.stack θ = rest ∧ ∃ c, a = .wait θ c y
  awaits : s'.stack θ = f :: rest → ∀ v x, s.body rest = some v → s'.Awaits f x →
    s.stack θ = f :: rest ∧ s.Awaits f x ∨ a.Begins s v x
  /-- If a body is called, it is the one of the call. -/
  body : ∀ t, bodyOf (s'.runtime.pc f.call) = some t → (s'.runtime.sub t).invoked ≠ (s.runtime.sub t).invoked
  moves : s'.runtime = s.runtime ∨ ∃ b, Moves cfg b s.runtime s'.runtime

namespace Turn
variable {θ θ' : Thread} (h : Inv s) (m : Turn cfg a s s' θ f rest)
include h m
omit [DecidableEq Thread]

theorem rest_ne {g : Frame Call} (hg : g ∈ rest) : g.call ≠ f.call := by
  obtain hbefore | ⟨hbefore, hunused⟩ := m.before
  · have hnodup := h.nodup θ
    rw [hbefore, List.map_cons, List.nodup_cons] at hnodup
    exact fun heq => hnodup.1 (heq ▸ List.mem_map_of_mem hg)
  · exact hunused θ g (hbefore ▸ hg)

theorem other_ne {g : Frame Call} (hne : θ' ≠ θ) (hg : g ∈ s.stack θ') : g.call ≠ f.call := by
  obtain hbefore | ⟨_, hunused⟩ := m.before
  · intro heq
    exact hne (h.apart θ' θ g f hg (hbefore ▸ List.mem_cons_self) heq)
  · exact hunused θ' g hg

omit h in
theorem rest_suffix : rest <:+ s.stack θ := by
  obtain hbefore | ⟨hbefore, _⟩ := m.before
  · exact hbefore ▸ List.suffix_cons f rest
  · exact hbefore ▸ List.suffix_rfl

/-- What is on a stack was there before, except for `f`. -/
theorem suffix {l : List (Frame Call)} (hl : l <:+ s'.stack θ') :
    θ' = θ ∧ s'.stack θ = f :: rest ∧ l = f :: rest ∨
      l <:+ s.stack θ' ∧ ∀ g ∈ l, g.call ≠ f.call := by
  rcases eq_or_ne θ' θ with rfl | hne
  · have hrest : l <:+ rest → l <:+ s.stack θ' ∧ ∀ g ∈ l, g.call ≠ f.call :=
      fun hl => ⟨hl.trans m.rest_suffix, fun g hg => m.rest_ne h (hl.subset hg)⟩
    obtain hafter | ⟨hafter, _⟩ := m.after
    · rw [hafter, List.suffix_cons_iff] at hl
      obtain rfl | hl := hl
      · exact .inl ⟨rfl, hafter, rfl⟩
      · exact .inr (hrest hl)
    · exact .inr (hrest (hafter ▸ hl))
  · rw [m.others θ' hne] at hl
    exact .inr ⟨hl, fun g hg => m.other_ne h hne (hl.subset hg)⟩

theorem mem {g : Frame Call} (hg : g ∈ s'.stack θ') :
    θ' = θ ∧ s'.stack θ = f :: rest ∧ g = f ∨ g ∈ s.stack θ' ∧ g.call ≠ f.call := by
  obtain ⟨l₁, l₂, heq⟩ := List.append_of_mem hg
  obtain ⟨rfl, hafter, hl⟩ | ⟨hl, hne⟩ := m.suffix h (heq ▸ List.suffix_append l₁ (g :: l₂))
  · cases hl
    exact .inl ⟨rfl, hafter, rfl⟩
  · exact .inr ⟨hl.subset List.mem_cons_self, hne g List.mem_cons_self⟩

omit h in
theorem keep {g : Frame Call} (hg : g ∈ s.stack θ') (hne : g.call ≠ f.call) : g ∈ s'.stack θ' := by
  rcases eq_or_ne θ' θ with rfl | hθ
  · have hrest : g ∈ rest := by
      obtain hbefore | ⟨hbefore, _⟩ := m.before
      · rw [hbefore, List.mem_cons] at hg
        exact hg.resolve_left fun heq => hne (heq ▸ rfl)
      · exact hbefore ▸ hg
    obtain hafter | ⟨hafter, _⟩ := m.after
    · exact hafter ▸ List.mem_cons_of_mem f hrest
    · exact hafter ▸ hrest
  · rwa [m.others θ' hθ]

omit h in
theorem link {g k : Frame Call} {l : List (Frame Call)} (hg : g.call ≠ f.call) (hk : k.call ≠ f.call)
    (hlink : Link s g k l) : Link s' g k l := by
  cases hlink with
  | body hbody => exact .body ((m.pc k.call hk).symm ▸ hbody)
  | help hhelps htarget hexec =>
    refine .help ?_ htarget ((m.pc g.call hg).symm ▸ hexec)
    unfold State.Helps at hhelps ⊢
    rwa [m.pc k.call hk]
  | outside hnil hidle htarget => exact .outside hnil ((m.pc k.call hk).symm ▸ hidle) htarget

/-- What is said of the stacks stays true. -/
theorem inv : Inv s' where
  nodup θ' := by
    rcases eq_or_ne θ' θ with rfl | hne
    · have hrest : (rest.map Frame.call).Nodup := (h.nodup θ').sublist (m.rest_suffix.sublist.map _)
      obtain hafter | ⟨hafter, _⟩ := m.after
      · rw [hafter, List.map_cons, List.nodup_cons]
        refine ⟨fun hmem => ?_, hrest⟩
        obtain ⟨g, hg, heq⟩ := List.mem_map.mp hmem
        exact m.rest_ne h hg heq
      · rwa [hafter]
    · rw [m.others θ' hne]
      exact h.nodup θ'
  apart θ₁ θ₂ g k hg hk heq := by
    obtain ⟨rfl, _, rfl⟩ | ⟨hg, hgf⟩ := m.mem h hg <;> obtain ⟨rfl, _, rfl⟩ | ⟨hk, hkf⟩ := m.mem h hk
    · rfl
    · exact absurd heq.symm hkf
    · exact absurd heq hgf
    · exact h.apart θ₁ θ₂ g k hg hk heq
  covered c hc := by
    rcases eq_or_ne c f.call with rfl | hne
    · obtain hafter | ⟨_, hidle⟩ := m.after
      · exact ⟨θ, f, hafter ▸ List.mem_cons_self, rfl⟩
      · exact absurd hidle hc
    · rw [m.pc c hne] at hc
      obtain ⟨θ', g, hg, rfl⟩ := h.covered c hc
      exact ⟨θ', g, m.keep hg hne, rfl⟩
  polling θ' g hg htarget := by
    obtain ⟨rfl, hafter, rfl⟩ | ⟨hg, hne⟩ := m.mem h hg
    · exact m.polling hafter htarget
    · rw [m.pc g.call hne]
      exact h.polling θ' g hg htarget
  wait_all θ' g hg htarget := by
    obtain ⟨rfl, hafter, rfl⟩ | ⟨hg, hne⟩ := m.mem h hg
    · exact m.wait_all hafter htarget
    · rw [m.pc g.call hne]
      exact h.wait_all θ' g hg htarget
  linked θ' g k l hl := by
    obtain ⟨rfl, hafter, heq⟩ | ⟨hl, hne⟩ := m.suffix h hl
    · cases heq
      exact m.linked hafter k l rfl
    · exact m.link (hne g List.mem_cons_self) (hne k (List.mem_cons_of_mem _ List.mem_cons_self))
        (h.linked θ' g k l hl)
  base θ' g hl := by
    obtain ⟨rfl, hafter, heq⟩ | ⟨hl, _⟩ := m.suffix h hl
    · cases heq
      exact m.base hafter rfl
    · exact h.base θ' g hl

end Turn

/-! ### Each step is one call's -/

omit [DecidableEq Thread] [DecidableEq Call] in
theorem Act.Bounded.fresh (h : a.Bounded s) : Fresh s.runtime := by
  cases a <;> first | exact h.1 | exact h

theorem moves_step {x r : Lifecycle.State Call} (hreach : Reachable (regular Call cfg) x) (hfresh : Fresh x)
    (hs : Lifecycle.Step cfg (.step c) x r) : Moves cfg (.step c) x r :=
  ⟨hreach, hs, trivial, fun _ => nofun, hfresh, fun _ _ => nofun⟩

theorem moves_submit {x r : Lifecycle.State Call} {deps : List TaskHandle}
    (hreach : Reachable (regular Call cfg) x) (hbound : Fresh x ∧ deps.length < word ∧ ∀ y ∈ deps, Recent x y)
    (hs : Lifecycle.Step cfg (.submit c deps) x r) : Moves cfg (.submit c deps) x r := by
  refine ⟨hreach, hs, hbound.2.1, fun _ => nofun, hbound.1, ?_⟩
  intro _ _ hnone
  cases hnone
  exact hbound.2.2

/-- A submission that has just been counted. -/
theorem pc_submit {x r : Lifecycle.State Call} {deps : List TaskHandle}
    (hs : Lifecycle.Step cfg (.submit c deps) x r) : ∃ em, r.pc c = .acquiring x.submitted em := by
  cases hs <;> exact ⟨_, Function.update_self ..⟩

omit [DecidableEq Thread] in
/-- What the innermost call waits for it waited for, or it has just found no slot. -/
theorem awaits_top (m : Moves cfg (.step f.call) s.runtime s'.runtime) (htarget : f.target = none)
    (hx : s'.Awaits f x) :
    s.Awaits f x ∨ ∃ u em, s.runtime.pc f.call = .acquiring u em ∧
      s'.runtime.pc f.call = Lifecycle.exhausted u (s.runtime.sub u).dependencies em ∧
      x ∈ (s.runtime.sub u).dependencies := by
  obtain hx | ⟨u, k, hawaits, hx⟩ := hx
  · cases htarget.symm.trans hx
  have hst : (s.runtime.sub u).stage = .entering f.call → x ∈ (s.runtime.sub u).dependencies := by
    intro hst
    rwa [m.inv.dependencies_step m.step (m.inv.submitted_of hst nofun)] at hx
  obtain ⟨j, hold⟩ | ⟨em, hacquiring, hpc⟩ := awaits_step m.step hawaits
  · exact .inl (.inr ⟨u, j, hold, hst (m.inv.awaits_entering hold)⟩)
  · exact .inr ⟨u, em, hacquiring, hpc, hst (m.inv.at_pc hacquiring).1⟩

/-- The innermost call returns. -/
theorem Turn.pops {θ : Thread} (hstack : s.stack θ = f :: rest) (hnew : s'.stack = Function.update s.stack θ rest)
    (hidle : s'.runtime.pc f.call = .idle)
    (hmoves : s'.runtime = s.runtime ∨ Moves cfg (.step f.call) s.runtime s'.runtime) :
    Turn cfg a s s' θ f rest := by
  have hgone : s'.stack θ ≠ f :: rest := by
    rw [hnew, Function.update_self]
    exact (List.cons_ne_self f rest).symm
  exact {
    others := fun θ' hne => by rw [hnew, Function.update_of_ne hne]
    pc := fun c hc => by
      obtain hsame | m := hmoves
      · rw [hsame]
      · exact Lifecycle.Inv.pc_other m.step hc
    before := .inl hstack
    after := .inr ⟨by rw [hnew, Function.update_self], hidle⟩
    polling := fun hafter => absurd hafter hgone
    wait_all := fun hafter => absurd hafter hgone
    linked := fun hafter => absurd hafter hgone
    base := fun hafter => absurd hafter hgone
    inside := fun hafter => absurd hafter hgone
    target := fun hafter => absurd hafter hgone
    awaits := fun hafter => absurd hafter hgone
    body := fun t hbody => by
      rw [hidle] at hbody
      cases hbody
    moves := hmoves.imp_right fun m => ⟨_, m⟩}

/-- The innermost call makes another. -/
theorem Turn.pushes {θ : Thread} (hunused : s.Unused f.call)
    (hnew : s'.stack = Function.update s.stack θ (f :: s.stack θ))
    (hpc : ∀ c, c ≠ f.call → s'.runtime.pc c = s.runtime.pc c)
    {p : Pc Call} (hp : s'.runtime.pc f.call = p) (hbody : bodyOf p = none) (hnone : p.awaits = none)
    (hinside : ∀ u, HelpOnWait.inside p = some u → u = s.runtime.submitted ∧ ∃ deps, a = .call θ f.call deps)
    (hidle : f.target ≠ none → p = .idle) (hlink : ∀ g l, s.stack θ = g :: l → Link s' f g l) (hbase : s.stack θ ≠ [])
    (hwait : ∀ y, f.target = some y → ∃ c, a = .wait θ c y)
    (hmoves : s'.runtime = s.runtime ∨ ∃ b, Moves cfg b s.runtime s'.runtime) :
    Turn cfg a s s' θ f (s.stack θ) where
  others θ' hne := by rw [hnew, Function.update_of_ne hne]
  pc := hpc
  before := .inr ⟨rfl, hunused⟩
  after := .inl (by rw [hnew, Function.update_self])
  polling _ htarget := .inl (hp.trans (hidle htarget))
  wait_all _ htarget := hp.trans (hidle (by rw [htarget]; exact nofun))
  linked _ := hlink
  base _ hnil := absurd hnil hbase
  inside _ _ u hu := .inr ⟨rfl, hinside u (hp ▸ hu)⟩
  target _ y hy := .inr ⟨rfl, hwait y hy⟩
  awaits _ v x hv hx := by
    obtain hx | ⟨u, k, hk, _⟩ := hx
    · obtain ⟨c, rfl⟩ := hwait _ hx
      exact .inr ⟨hv, rfl⟩
    · rw [hp] at hk
      cases hnone.symm.trans hk
  body t ht := by
    rw [hp] at ht
    cases hbody.symm.trans ht
  moves := hmoves

omit [DecidableEq Thread] [DecidableEq Call] in
theorem hand_stack (s : State Thread Call) (x : TaskHandle) (o : Option ℕ) : (s.hand x o).stack = s.stack := by
  cases o <;> rfl

omit [DecidableEq Thread] [DecidableEq Call] in
theorem hand_runtime (s : State Thread Call) (x : TaskHandle) (o : Option ℕ) :
    (s.hand x o).runtime = s.runtime := by
  cases o <;> rfl

namespace Inv
variable {θ : Thread} (h : Inv s)
include h

omit [DecidableEq Thread] [DecidableEq Call] in
/-- The link below the innermost call outlives its step. -/
theorem link_top (hstack : s.stack θ = f :: g :: rest)
    (hpc : ∀ c, c ≠ f.call → s'.runtime.pc c = s.runtime.pc c)
    (hexec : f.target = none → Executing (s.runtime.pc f.call) → Executing (s'.runtime.pc f.call)) :
    Link s' f g rest := by
  have hne : g.call ≠ f.call := by
    have hnodup := h.nodup θ
    rw [hstack, List.map_cons, List.nodup_cons] at hnodup
    exact fun heq => hnodup.1 (heq ▸ List.mem_cons_self)
  cases h.linked θ f g rest (hstack ▸ List.suffix_rfl) with
  | body hbody => exact .body ((hpc g.call hne).symm ▸ hbody)
  | help hhelps htarget hf =>
    refine .help ?_ htarget (hexec htarget hf)
    unfold State.Helps at hhelps ⊢
    rwa [hpc g.call hne]
  | outside hnil hidle htarget => exact .outside hnil ((hpc g.call hne).symm ▸ hidle) htarget

omit [DecidableEq Thread] [DecidableEq Call] in
theorem idle_of_unused (hunused : s.Unused c) : s.runtime.pc c = .idle := by
  by_contra hc
  obtain ⟨θ, g, hg, heq⟩ := h.covered c hc
  exact hunused θ g hg heq

omit [DecidableEq Thread] [DecidableEq Call] in
/-- A call of `wait` is about a handle, not about a submission. -/
theorem no_awaits (hf : f ∈ s.stack θ) (htarget : f.target ≠ none) : (s.runtime.pc f.call).awaits = none := by
  obtain hidle | ⟨_, hnone⟩ := h.polling θ f hf htarget
  · rw [hidle]
    rfl
  · exact hnone

omit [DecidableEq Thread] in
/-- The innermost call stays. -/
theorem stays (hstack : s.stack θ = f :: rest) (hsame : s'.stack = s.stack)
    (m : Moves cfg (.step f.call) s.runtime s'.runtime)
    (hpolling : f.target ≠ none → Polling (s'.runtime.pc f.call)) (hall : f.target ≠ some .all)
    (hexec : f.target = none → rest ≠ [] → Executing (s.runtime.pc f.call) → Executing (s'.runtime.pc f.call))
    (hawaits : f.target = none → ∀ v x, s.body rest = some v → s'.Awaits f x → s.Awaits f x ∨ a.Begins s v x) :
    Turn cfg a s s' θ f rest where
  others _ _ := by rw [hsame]
  pc _ hc := Lifecycle.Inv.pc_other m.step hc
  before := .inl hstack
  after := .inl (hsame ▸ hstack)
  polling _ := hpolling
  wait_all _ htarget := absurd htarget hall
  linked _ g l hrest := by
    subst hrest
    exact h.link_top hstack (fun c hc => Lifecycle.Inv.pc_other m.step hc) fun htarget => hexec htarget nofun
  base _ hnil := h.base θ f (hnil ▸ hstack ▸ List.suffix_rfl)
  inside _ _ u hu := .inl ⟨hstack, inside_step m.step hu⟩
  target _ _ _ := .inl hstack
  awaits _ v x hv hx := by
    by_cases htarget : f.target = none
    · exact (hawaits htarget v x hv hx).imp_left fun hx => ⟨hstack, hx⟩
    · obtain hx | ⟨u, k, hk, _⟩ := hx
      · exact .inl ⟨hstack, .inl hx⟩
      · obtain hidle | ⟨_, hnone⟩ := hpolling htarget
        · rw [hidle] at hk
          cases hk
        · cases hnone.symm.trans hk
  body _ := body_step m.step
  moves := .inr ⟨_, m⟩

/-- Each step is that of one call. -/
theorem turn (hreach : Reachable (regular Call cfg) s.runtime) (hs : Step cfg a s s') (hbound : a.Bounded s) :
    ∃ θ f rest, a.thread = θ ∧ Turn cfg a s s' θ f rest := by
  cases hs with
  | @step _ θ f rest r hstack htarget hbusy hs hstays hacquired =>
    have m := moves_step hreach hbound hs
    refine ⟨θ, f, rest, rfl, h.stays hstack rfl m (absurd htarget) (by simp [htarget]) ?_ ?_⟩
    · intro _ hrest hexec
      obtain hexec | hidle := executing_step hs hexec
      · exact hexec
      · exact absurd hidle (hstays.resolve_right hrest)
    · intro _ v x _ hx
      obtain hx | ⟨u, em, hacquiring, hpc, _⟩ := awaits_top m htarget hx
      · exact .inl hx
      · obtain ⟨i, hopening⟩ := hacquired u em hacquiring
        have hpc := hopening.symm.trans hpc
        unfold Lifecycle.exhausted at hpc
        split_ifs at hpc
  | @returns _ θ f rest r hstack _ _ _ hs hidle =>
    have m := moves_step hreach hbound hs
    refine ⟨θ, f, rest, rfl, .pops hstack ?_ ?_ (.inr ?_)⟩
    · exact hand_stack ..
    · rwa [hand_runtime]
    · rwa [hand_runtime]
  | @exhausted _ θ f rest u em hstack hacquiring =>
    have hs : Lifecycle.Step cfg _ s.runtime _ := .exhausted hacquiring
    have m := moves_step hreach hbound hs
    have htarget : f.target = none := by
      by_contra htarget
      obtain hidle | ⟨hasked, _⟩ := h.polling θ f (hstack ▸ List.mem_cons_self) htarget
      · cases hidle.symm.trans hacquiring
      · rw [hacquiring] at hasked
        exact hasked rfl
    refine ⟨θ, f, rest, rfl, h.stays hstack rfl m (absurd htarget) (by simp [htarget]) ?_ ?_⟩
    · intro _ _ hexec
      rw [hacquiring] at hexec
      exact hexec.elim
    · intro _ v x hv hx
      obtain hx | ⟨u', em', hacquiring', _, hx⟩ := awaits_top m htarget hx
      · exact .inl hx
      · exact .inr ⟨f, rest, u', em', hstack, hacquiring', hv, hx⟩
  | @submit _ θ f deps r hstack hs =>
    have m := moves_submit hreach hbound hs
    have htarget := h.base θ f (hstack ▸ List.suffix_rfl)
    obtain ⟨em, hpc⟩ := pc_submit hs
    have hbody : bodyOf (r.pc f.call) = none := by rw [hpc]; rfl
    exact ⟨θ, f, [], rfl, {
      others := fun _ _ => rfl
      pc := fun c hc => Lifecycle.Inv.pc_other hs hc
      before := .inl hstack
      after := .inl hstack
      polling := fun _ hwait => absurd htarget hwait
      wait_all := fun _ hall => by cases htarget.symm.trans hall
      linked := fun _ _ _ hnil => by cases hnil
      base := fun _ _ => htarget
      inside := fun _ hne => absurd rfl hne
      target := fun _ y hy => by cases htarget.symm.trans hy
      awaits := fun _ _ _ hv => by cases hv
      body := fun _ ht => by cases hbody.symm.trans ht
      moves := .inr ⟨_, m⟩}⟩
  | @call _ θ c deps r u hbody hunused hs =>
    have m := moves_submit hreach hbound hs
    obtain ⟨em, hpc⟩ := pc_submit hs
    refine ⟨θ, ⟨c, none⟩, _, rfl, .pushes hunused rfl (fun c hc => Lifecycle.Inv.pc_other hs hc) hpc rfl rfl ?_
      (absurd rfl) ?_ ?_ (fun _ => nofun) (.inr ⟨_, m⟩)⟩
    · intro v hnone
      cases hnone
      exact ⟨rfl, deps, rfl⟩
    · intro g l hstack
      rw [hstack] at hbody
      refine .body (t := u) ?_
      show bodyOf (r.pc g.call) = some u
      rw [Lifecycle.Inv.pc_other hs (hunused θ g (hstack ▸ List.mem_cons_self))]
      exact hbody
    · intro hnil
      rw [hnil] at hbody
      cases hbody
  | @wait _ θ c target hbody hunused =>
    have hidle := h.idle_of_unused hunused
    refine ⟨θ, ⟨c, some target⟩, _, rfl, .pushes hunused rfl (fun _ _ => rfl) hidle rfl rfl (fun _ => nofun)
      (fun _ => rfl) ?_ ?_ ?_ (.inl rfl)⟩
    · intro g l hstack
      obtain ⟨u, hu⟩ := Option.ne_none_iff_exists'.mp hbody
      rw [hstack] at hu
      exact .body hu
    · intro hnil
      rw [hnil] at hbody
      exact hbody rfl
    · intro _ hnone
      cases hnone
      exact ⟨c, rfl⟩
  | @waitOutside _ θ g c target hstack hg hunused =>
    have hidle := h.idle_of_unused hunused
    refine ⟨θ, ⟨c, some target⟩, _, rfl, .pushes hunused ?_ (fun _ _ => rfl) hidle rfl rfl (fun _ => nofun)
      (fun _ => rfl) ?_ ?_ ?_ (.inl rfl)⟩
    · rw [hstack]
      rfl
    · intro g' l hl
      cases hstack.symm.trans hl
      exact .outside rfl hg nofun
    · rw [hstack]
      exact nofun
    · intro _ hnone
      cases hnone
      exact ⟨c, rfl⟩
  | @poll _ θ f rest x r before hstack htarget hidle hs hpc =>
    have m := moves_step hreach hbound hs
    refine ⟨θ, f, rest, rfl, h.stays hstack rfl m (fun _ => .inr ?_) (by simp [htarget]) ?_ ?_⟩
    · show (r.pc f.call).asked ≠ none ∧ (r.pc f.call).awaits = none
      rw [hpc]
      exact ⟨nofun, rfl⟩
    · intro hnone
      cases htarget.symm.trans hnone
    · intro hnone
      cases htarget.symm.trans hnone
  | @polls _ θ f rest x r hstack htarget hbusy _ hs =>
    have m := moves_step hreach hbound hs
    have hpolling := h.polling θ f (hstack ▸ List.mem_cons_self) (by simp [htarget])
    refine ⟨θ, f, rest, rfl, h.stays hstack rfl m (fun _ => polling_step hs hpolling hbusy) (by simp [htarget]) ?_ ?_⟩
    · intro hnone
      cases htarget.symm.trans hnone
    · intro hnone
      cases htarget.symm.trans hnone
  | @waited _ θ f rest x r o y before hstack htarget hpc hs =>
    have m := moves_step hreach hbound hs
    have hnone := h.no_awaits (hstack ▸ List.mem_cons_self) (by simp [htarget])
    refine ⟨θ, f, rest, rfl, .pops hstack rfl ?_ (.inr m)⟩
    rw [hpc] at hnone
    obtain rfl : o = none := hnone
    cases hs <;> have hpc' := ‹s.runtime.pc f.call = _› <;> cases hpc.symm.trans hpc'
    exact Function.update_self ..
  | @waited_all _ θ f rest hstack htarget _ =>
    exact ⟨θ, f, rest, rfl, .pops hstack rfl (h.wait_all θ f (hstack ▸ List.mem_cons_self) htarget) (.inl rfl)⟩
  | @help _ θ g rest c x r hstack hhelps hunused hs hpc =>
    have m := moves_step hreach hbound hs
    refine ⟨θ, ⟨c, none⟩, _, rfl, .pushes hunused ?_ (fun c hc => Lifecycle.Inv.pc_other hs hc) hpc rfl rfl
      (fun _ => nofun) (absurd rfl) ?_ ?_ (fun _ => nofun) (.inr ⟨_, m⟩)⟩
    · rw [hstack]
      rfl
    · intro g' l hl
      cases hstack.symm.trans hl
      refine .help ?_ rfl ?_
      · unfold State.Helps at hhelps ⊢
        show _ ∧ r.pc g.call = _ ∨ ∃ t k, r.pc g.call = _
        rwa [Lifecycle.Inv.pc_other hs (hunused θ g (hstack ▸ List.mem_cons_self))]
      · show Executing (r.pc c)
        rw [hpc]
        trivial
    · rw [hstack]
      exact nofun

end Inv

/-! ### Runs -/

omit [DecidableEq Thread] [DecidableEq Call] in
theorem Inv.initial (base : Thread ↪ Call) : Inv (initial base) where
  nodup θ := List.nodup_singleton _
  apart θ θ' f g hf hg heq := by
    obtain rfl := List.mem_singleton.mp hf
    obtain rfl := List.mem_singleton.mp hg
    exact base.injective heq
  covered c hc := absurd rfl hc
  polling θ f hf htarget := by
    obtain rfl := List.mem_singleton.mp hf
    exact absurd rfl htarget
  wait_all θ f hf htarget := by
    obtain rfl := List.mem_singleton.mp hf
    cases htarget
  linked θ f g rest hl := absurd hl.length_le (by simp [HelpOnWait.initial])
  base θ f hf := by
    obtain rfl := List.mem_singleton.mp (hf.subset List.mem_cons_self)
    rfl

omit [DecidableEq Thread] in
theorem Turn.reachable {θ : Thread} (m : Turn cfg a s s' θ f rest)
    (hreach : Reachable (regular Call cfg) s.runtime) : Reachable (regular Call cfg) s'.runtime := by
  obtain hsame | ⟨b, m⟩ := m.moves
  · exact hsame ▸ hreach
  · exact m.after

theorem bounded (base : Thread ↪ Call) (h : Reachable ((system cfg base).restrict Act.Bounded) s) :
    Inv s ∧ Reachable (regular Call cfg) s.runtime := by
  induction h with
  | initial hs =>
    subst hs
    exact ⟨.initial base, .initial rfl⟩
  | step _ hs ih =>
    obtain ⟨θ, f, rest, _, m⟩ := ih.1.turn ih.2 hs.1 hs.2
    exact ⟨m.inv ih.1, m.reachable ih.2⟩

/-- A run of the runtime in which each thread makes its own calls only. -/
theorem outside {C : Lifecycle.Act Call → Lifecycle.State Call → Prop}
    {D : Act Thread Call → State Thread Call → Prop} (base : Thread ↪ Call)
    (hcall : ∀ b x, C b x → (∃ θ, b.call = base θ) ∧ ∀ c, b ≠ .reenter c)
    (hsubmit : ∀ θ deps s, Reachable ((Lifecycle.system Call cfg).restrict C) s.runtime →
      C (.submit (base θ) deps) s.runtime → D (.submit θ deps) s)
    (hstep : ∀ θ s, Reachable ((Lifecycle.system Call cfg).restrict C) s.runtime →
      (∀ θ, s.stack θ = [⟨base θ, none⟩]) → D (.step θ) s ∧ D (.exhausted θ) s)
    {x : Lifecycle.State Call} (h : Reachable ((Lifecycle.system Call cfg).restrict C) x) :
    ∃ s, Reachable ((system cfg base).restrict D) s ∧ s.runtime = x ∧ ∀ θ, s.stack θ = [⟨base θ, none⟩] := by
  induction h with
  | initial hx =>
    subst hx
    exact ⟨initial base, .initial rfl, rfl, fun _ => rfl⟩
  | @step b x r hreach hs ih =>
    obtain ⟨s, h, rfl, hstack⟩ := ih
    obtain ⟨⟨θ, hθ⟩, hplain⟩ := hcall b _ hs.2
    obtain ⟨hs, hC⟩ := hs
    cases b with
    | submit c deps =>
      obtain rfl : c = base θ := hθ
      exact ⟨_, h.step ⟨.submit (hstack θ) hs, hsubmit θ deps s hreach hC⟩, rfl, hstack⟩
    | reenter c => exact absurd rfl (hplain c)
    | step c =>
      obtain rfl : c = base θ := hθ
      obtain ⟨hgoes, hexhausted⟩ := hstep θ s hreach hstack
      by_cases hopens : ∀ t em, s.runtime.pc (base θ) = .acquiring t em → ∃ i, r.pc (base θ) = .opening t i em
      · exact ⟨_, h.step ⟨.step (hstack θ) rfl (.inr rfl) hs (.inr rfl) hopens, hgoes⟩, rfl, hstack⟩
      · push Not at hopens
        obtain ⟨t, em, hacquiring, hopens⟩ := hopens
        cases hs
        case acquire =>
          have hpc := ‹s.runtime.pc (base θ) = _›
          cases hacquiring.symm.trans hpc
          exact (hopens _ (Function.update_self ..)).elim
        case exhausted =>
          have hpc := ‹s.runtime.pc (base θ) = _›
          cases hacquiring.symm.trans hpc
          exact ⟨_, h.step ⟨.exhausted (hstack θ) hacquiring, hexhausted⟩, rfl, hstack⟩
        all_goals
          have hpc := ‹s.runtime.pc (base θ) = _›
          cases hacquiring.symm.trans hpc

/-! ### Who waits for whom -/

omit [DecidableEq Thread] [DecidableEq Call] in
theorem Act.Begins.unique {v w : ℕ} {y : TaskHandle} (hx : a.Begins s v x) (hy : a.Begins s w y) : v = w := by
  cases a with
  | wait θ c target => exact Option.some.inj (hx.1.symm.trans hy.1)
  | exhausted θ =>
    obtain ⟨f, rest, _, _, hstack, _, hv, _⟩ := hx
    obtain ⟨g, l, _, _, hstack', _, hw, _⟩ := hy
    cases hstack.symm.trans hstack'
    exact Option.some.inj (hv.symm.trans hw)
  | _ => exact hx.elim

/-- The handles that bodies wait for are recent. -/
def Watched (s : State Thread Call) : Prop :=
  ∀ θ f g rest v x, f :: g :: rest <:+ s.stack θ → bodyOf (s.runtime.pc g.call) = some v → s.Awaits f x →
    Recent s.runtime x

namespace Turn
variable {θ : Thread} {v w : ℕ} (h : Inv s) (hinv : Lifecycle.Inv cfg s.runtime) (m : Turn cfg a s s' θ f rest)
include m
omit [DecidableEq Thread]

theorem started (ht : Started s'.runtime t) :
    Started s.runtime t ∨ (s'.runtime.sub t).invoked ≠ (s.runtime.sub t).invoked := by
  obtain hsame | ⟨b, m⟩ := m.moves
  · exact .inl (hsame ▸ ht)
  · exact m.started ht

theorem holds_back (hx : Recent s.runtime x) (ht : Holds s'.runtime x t) : Holds s.runtime x t := by
  obtain hsame | ⟨b, m⟩ := m.moves
  · exact hsame ▸ ht
  · exact hx.holds_back m.inv m.inv_after m.step ht

theorem needs_back (hfresh : Fresh s.runtime) (ht : t < s.runtime.submitted)
    (hu : Relation.ReflTransGen (Needs s'.runtime) t u) : Relation.ReflTransGen (Needs s.runtime) t u := by
  obtain hsame | ⟨b, m⟩ := m.moves
  · exact hsame ▸ hu
  · exact Needs.back hfresh m.inv m.inv_after m.step ht hu

theorem dependencies (ht : t < s.runtime.submitted) :
    (s'.runtime.sub t).dependencies = (s.runtime.sub t).dependencies := by
  obtain hsame | ⟨b, m⟩ := m.moves
  · rw [hsame]
  · exact m.inv.dependencies_step m.step ht

include h hinv

/-- Someone waits for a body that has just been called, for what was waited for, or begins to wait. -/
theorem hangs (hwatched : Watched s) (hfresh : Fresh s.runtime)
    (hrecent : ∀ v x, a.Begins s v x → Recent s.runtime x) (hvw : Hangs s' v w) :
    (Hangs s v w ∨ ∃ x t, a.Begins s v x ∧ Holds s.runtime x t ∧
      Relation.ReflTransGen (Needs s.runtime) t w ∧ Started s.runtime w) ∨
      (s'.runtime.sub w).invoked ≠ (s.runtime.sub w).invoked := by
  cases hvw with
  | @beneath θ' g k l _ _ hl hk hv hw =>
    obtain ⟨rfl, _, heq⟩ | ⟨hl, hne⟩ := m.suffix h hl
    · cases heq
      exact .inr (m.body w hw)
    · rw [m.pc k.call (hne k (List.mem_cons_of_mem _ hk))] at hv
      rw [m.pc g.call (hne g List.mem_cons_self)] at hw
      exact .inl (.inl (.beneath hl hk hv hw))
  | @waits θ' g k l x t _ _ hl hv hx ht hneeds hw =>
    obtain hw | hnew := m.started hw
    · have hgoes : Recent s.runtime x → Holds s.runtime x t ∧ Relation.ReflTransGen (Needs s.runtime) t w := by
        intro hrecent
        have ht := m.holds_back hrecent ht
        exact ⟨ht, m.needs_back hfresh (ht.submitted hinv) hneeds⟩
      refine .inl ?_
      obtain ⟨rfl, hafter, heq⟩ | ⟨hl, hne⟩ := m.suffix h hl
      · cases heq
        have hk : k.call ≠ f.call := m.rest_ne h List.mem_cons_self
        rw [m.pc k.call hk] at hv
        obtain ⟨hbefore, hx⟩ | hbegins := m.awaits hafter v x hv hx
        · have hl : f :: k :: l <:+ s.stack θ' := hbefore ▸ List.suffix_rfl
          obtain ⟨ht, hneeds⟩ := hgoes (hwatched θ' f k l v x hl hv hx)
          exact .inl (.waits hl hv hx ht hneeds hw)
        · obtain ⟨ht, hneeds⟩ := hgoes (hrecent v x hbegins)
          exact .inr ⟨x, t, hbegins, ht, hneeds, hw⟩
      · rw [m.pc k.call (hne k (List.mem_cons_of_mem _ List.mem_cons_self))] at hv
        have hx : s.Awaits g x := by
          obtain hx | ⟨u, j, hu, hx⟩ := hx
          · exact .inl hx
          · rw [m.pc g.call (hne g List.mem_cons_self)] at hu
            rw [m.dependencies (hinv.submitted_of (hinv.awaits_entering hu) nofun)] at hx
            exact .inr ⟨u, j, hu, hx⟩
        obtain ⟨ht, hneeds⟩ := hgoes (hwatched θ' g k l v x hl hv hx)
        exact .inl (.waits hl hv hx ht hneeds hw)
    · exact .inr hnew

/-- A body that has just been called waits for nobody. -/
theorem hangs_new (hnew : (s'.runtime.sub v).invoked ≠ (s.runtime.sub v).invoked) : ¬Hangs s' v w := by
  have hcalled : ∀ {θ' g k l}, g :: l <:+ s'.stack θ' → k ∈ l → bodyOf (s'.runtime.pc k.call) = some v → False := by
    intro θ' g k l hl hk hv
    have hne : k.call ≠ f.call := by
      obtain ⟨rfl, _, heq⟩ | ⟨_, hne⟩ := m.suffix h hl
      · cases heq
        exact m.rest_ne h hk
      · exact hne k (List.mem_cons_of_mem _ hk)
    rw [m.pc k.call hne] at hv
    have hstarted := started_of_body hinv hv
    obtain hsame | ⟨b, m⟩ := m.moves
    · exact hnew (by rw [hsame])
    · exact hnew (m.invoked (hstarted.submitted hinv) (hstarted.invoked hinv))
  intro hvw
  cases hvw with
  | beneath hl hk hv => exact hcalled hl hk hv
  | waits hl hv => exact hcalled hl List.mem_cons_self hv

/-- A step closes no cycle, unless a body begins to wait for itself. -/
theorem acyclic (hwatched : Watched s) (hfresh : Fresh s.runtime) (hacyclic : Acyclic (Hangs s))
    (hbegins : ∀ v x, a.Begins s v x → Recent s.runtime x ∧ ¬Closes s v x) : Acyclic (Hangs s') := by
  have hedge : ∀ v w, Hangs s' v w → _ := fun v w =>
    m.hangs h hinv hwatched hfresh fun v x hx => (hbegins v x hx).1
  have hleaf : ∀ w, (s'.runtime.sub w).invoked ≠ (s.runtime.sub w).invoked → ∀ v, ¬Hangs s' w v :=
    fun w hw v => m.hangs_new h hinv hw
  by_cases hsome : ∃ v x, a.Begins s v x
  · obtain ⟨t, y, hy⟩ := hsome
    refine hacyclic.step t (fun w => ∃ x u, a.Begins s t x ∧ Holds s.runtime x u ∧
      Relation.ReflTransGen (Needs s.runtime) u w ∧ Started s.runtime w) ?_ hleaf ?_
    · intro v w hvw
      refine (hedge v w hvw).imp_left fun hvw => hvw.imp_right ?_
      intro hsome
      obtain ⟨x, u, hx, hu⟩ := hsome
      obtain rfl := hx.unique hy
      exact ⟨rfl, x, u, hx, hu⟩
    · intro w hsome hback
      obtain ⟨x, u, hx, hu, hneeds, hw⟩ := hsome
      exact (hbegins t x hx).2 ⟨u, w, hu, hneeds, hw, hback⟩
  · refine hacyclic.step 0 (fun _ => False) ?_ hleaf (fun _ => False.elim)
    intro v w hvw
    refine (hedge v w hvw).imp_left fun hvw => .inl (hvw.resolve_right ?_)
    intro hsome
    obtain ⟨x, _, hx, _⟩ := hsome
    exact hsome ⟨v, x, hx⟩

end Turn

/-! ### No deadlock -/

/-- Bodies wait for single tasks, by handles of which none is out of date. -/
def Aimed (s : State Thread Call) : Prop :=
  ∀ θ f g rest v y, f :: g :: rest <:+ s.stack θ → bodyOf (s.runtime.pc g.call) = some v → f.target = some y →
    ∃ x, y = .handle x ∧ Current s.runtime x

/-- What is not all of a list is below something. -/
theorem eq_or_below {α : Type*} {l m : List α} (h : l <:+ m) : m = l ∨ ∃ x, x :: l <:+ m := by
  obtain ⟨p, rfl⟩ := h
  obtain rfl | ⟨q, x, rfl⟩ := List.eq_nil_or_concat' p
  · exact .inl rfl
  · exact .inr ⟨x, q, by simp⟩

section
omit [DecidableEq Call]
variable {p : Pc Call}

theorem quiet_of_body (h : bodyOf p = some t) : p.Quiet := by
  cases p <;> trivial

theorem quiet_of_awaits {k : ℕ} (h : p.awaits = some (t, k)) : p.Quiet := by
  cases p <;> trivial

theorem Polling.quiet (h : Polling p) : p.Quiet := by
  obtain rfl | ⟨hasked, _⟩ := h
  · trivial
  · cases p <;> trivial

/-- Who executes a task, and is not on the way, is in its body. -/
theorem Executing.body (h : Executing p) (hquiet : p.Quiet) : ∃ t, bodyOf p = some t := by
  cases p with
  | running t y => exact ⟨t, rfl⟩
  | _ => first | exact h.elim | exact hquiet.elim

end

namespace Inv
variable (h : Inv s)
include h
omit [DecidableEq Thread]

omit [DecidableEq Call] in
/-- A body does not wait itself. -/
theorem no_body {θ : Thread} (hblocked : Blocked cfg s (f :: rest)) (hf : f ∈ s.stack θ) :
    bodyOf (s.runtime.pc f.call) = none := by
  have hwaits : f.target ≠ none → bodyOf (s.runtime.pc f.call) = none := by
    intro htarget
    obtain hidle | ⟨hasked, _⟩ := h.polling θ f hf htarget
    · rw [hidle]
      rfl
    · cases hp : s.runtime.pc f.call <;> first | rfl | exact absurd (hp ▸ rfl) hasked
  cases hblocked with
  | idle _ hidle =>
    rw [hidle]
    rfl
  | wait htarget _ => exact hwaits (by simp [htarget])
  | wait_all htarget _ => exact hwaits (by simp [htarget])
  | submit_after _ hawaits _ _ =>
    cases hp : s.runtime.pc f.call <;> first | rfl | (rw [hp] at hawaits; cases hawaits)

omit [DecidableEq Call] in
/-- Where every thread waits no call is on its way. -/
theorem quiet (hblocked : ∀ θ, Blocked cfg s (s.stack θ)) (c : Call) : (s.runtime.pc c).Quiet := by
  by_cases hc : s.runtime.pc c = .idle
  · rw [hc]
    trivial
  obtain ⟨θ, f, hf, rfl⟩ := h.covered c hc
  obtain ⟨p, l, heq⟩ := List.append_of_mem hf
  obtain htop | ⟨g, hg⟩ := eq_or_below (heq ▸ List.suffix_append p (f :: l))
  · have hblocked := hblocked θ
    rw [htop] at hblocked
    cases hblocked with
    | idle _ hidle => exact absurd hidle hc
    | wait htarget _ => exact (h.polling θ f hf (by simp [htarget])).quiet
    | wait_all htarget _ => exact (h.polling θ f hf (by simp [htarget])).quiet
    | submit_after _ hawaits _ _ => exact quiet_of_awaits hawaits
  · cases h.linked θ g f l (heq ▸ hg) with
    | body hbody => exact quiet_of_body hbody
    | help hhelps _ _ =>
      obtain ⟨_, hidle⟩ | ⟨_, _, hawaiting⟩ := hhelps
      · exact absurd hidle hc
      · rw [hawaiting]
        trivial
    | outside _ hidle _ => exact absurd hidle hc

variable (hstuck : Stuck cfg s) (hreach : Reachable (regular Call cfg) s.runtime)
include hstuck hreach

/-- Some body has been started, and has not ended. -/
theorem exists_started : ∃ v, Started s.runtime v := by
  have hinv : Lifecycle.Inv cfg s.runtime := .reachable (sized_of_regular hreach)
  have hfound := Found.reachable hreach
  have hquiet := h.quiet hstuck.blocked
  obtain ⟨t, ht, hended, hthrew⟩ := hstuck.unfinished
  by_cases hholding : (s.runtime.sub t).stage.Holding
  · obtain ⟨v, _, hv⟩ := hfound.started hinv hquiet hstuck.ready hholding
    exact ⟨v, hv⟩
  have hlog := hinv.logged t ht
  unfold Logged at hlog
  cases hst : (s.runtime.sub t).stage with
  | entering c =>
    -- Its `submit_after` waits, by itself or with a task on top.
    obtain ⟨hrunning, _⟩ | ⟨_, k, hk⟩ := hfound.holder_of_quiet hinv hquiet (congrArg Stage.holder hst)
    · cases hst.symm.trans hrunning
    have hbusy : s.runtime.pc c ≠ .idle := fun hidle => by
      rw [hidle] at hk
      cases hk
    obtain ⟨θ, f, hf, rfl⟩ := h.covered c hbusy
    obtain ⟨p, l, heq⟩ := List.append_of_mem hf
    obtain htop | ⟨g, hg⟩ := eq_or_below (heq ▸ List.suffix_append p (f :: l))
    · have hblocked := hstuck.blocked θ
      rw [htop] at hblocked
      cases hblocked with
      | idle _ hidle => exact absurd hidle hbusy
      | wait htarget _ => cases (h.no_awaits hf (by simp [htarget])).symm.trans hk
      | wait_all htarget _ => cases (h.no_awaits hf (by simp [htarget])).symm.trans hk
      | submit_after _ hawaits hx hpending =>
        cases hk.symm.trans hawaits
        have hcurrent := hfound.current (by rw [hst]; trivial) (List.mem_of_getElem? hx)
        obtain ⟨_, _, v, _, hv⟩ := hfound.started_of_pending hinv hquiet hstuck.ready hcurrent hpending
        exact ⟨v, hv⟩
    · cases h.linked θ g f l (heq ▸ hg) with
      | body hbody => cases hp : s.runtime.pc f.call <;> rw [hp] at hbody hk <;> contradiction
      | help _ _ hexec =>
        obtain ⟨v, hv⟩ := hexec.body (hquiet g.call)
        exact ⟨v, started_of_body hinv hv⟩
      | outside _ hidle _ => exact absurd hidle hbusy
  | left c | thrown c | retired => simp [hst, hended, hthrew] at hlog
  | _ =>
    rw [hst] at hholding
    exact absurd trivial hholding

/-- **Where nobody waits for himself, somebody can go on.** -/
theorem not_stuck (haimed : Aimed s) (hacyclic : Acyclic (Hangs s)) : False := by
  have hinv : Lifecycle.Inv cfg s.runtime := .reachable (sized_of_regular hreach)
  have hfound := Found.reachable hreach
  have hquiet := h.quiet hstuck.blocked
  have hfinite : {v | Started s.runtime v}.Finite :=
    (Set.finite_lt_nat s.runtime.submitted).subset fun v hv => hv.submitted hinv
  obtain ⟨v, hv, hlast⟩ := hacyclic.exists_last hfinite (h.exists_started hstuck hreach)
  have hnot : ∀ w, Hangs s v w → ¬Started s.runtime w := fun w hvw hw => hlast w hw hvw
  obtain ⟨c, hbody⟩ : ∃ c, bodyOf (s.runtime.pc c) = some v := by
    obtain ⟨c, hst⟩ := hv
    refine ⟨c, ?_⟩
    obtain ⟨_, ⟨_, hpc⟩ | hpc⟩ | ⟨hentering, _⟩ := hfound.holder_of_quiet hinv hquiet (congrArg Stage.holder hst)
    · rw [hpc]
      rfl
    · rw [hpc]
      rfl
    · cases hst.symm.trans hentering
  have hbusy : s.runtime.pc c ≠ .idle := fun hidle => by
    rw [hidle] at hbody
    cases hbody
  obtain ⟨θ, f, hf, rfl⟩ := h.covered c hbusy
  obtain ⟨p, l, heq⟩ := List.append_of_mem hf
  -- What is on top of the body waits.
  obtain htop | ⟨g, hg⟩ := eq_or_below (heq ▸ List.suffix_append p (f :: l))
  · have hblocked := hstuck.blocked θ
    rw [htop] at hblocked
    cases (h.no_body hblocked hf).symm.trans hbody
  have hg : g :: f :: l <:+ s.stack θ := heq ▸ hg
  obtain htop | ⟨k, hk⟩ := eq_or_below hg
  · have hpending : ∀ {x}, s.Awaits g x → Current s.runtime x → Pending cfg s.runtime x → False := by
      intro x hx hcurrent hpending
      obtain ⟨t, ht, w, hneeds, hw⟩ := hfound.started_of_pending hinv hquiet hstuck.ready hcurrent hpending
      exact hnot w (.waits hg hbody hx ht hneeds hw) hw
    have hblocked := hstuck.blocked θ
    rw [htop] at hblocked
    cases hblocked with
    | @wait _ _ x htarget hx =>
      obtain ⟨y, heq, hcurrent⟩ := haimed θ g f l v _ hg hbody htarget
      cases heq
      exact hpending (.inl htarget) hcurrent hx
    | wait_all htarget _ =>
      obtain ⟨y, heq, _⟩ := haimed θ g f l v _ hg hbody htarget
      cases heq
    | @submit_after _ _ t k x _ hawaits hx hpends =>
      have hmem := List.mem_of_getElem? hx
      have hst := hinv.awaits_entering hawaits
      exact hpending (.inr ⟨t, k, hawaits, hmem⟩) (hfound.current (by rw [hst]; trivial) hmem) hpends
  -- A task on top of that has been started later.
  · cases h.linked θ k g (f :: l) hk with
    | @body w hw => exact hnot w (.beneath hg List.mem_cons_self hbody hw) (started_of_body hinv hw)
    | help _ _ hexec =>
      obtain ⟨w, hw⟩ := hexec.body (hquiet k.call)
      exact hnot w (.beneath hk (List.mem_cons_of_mem _ List.mem_cons_self) hbody hw) (started_of_body hinv hw)
    | outside hnil _ _ => cases hnil

end Inv

end Thunderbolt.Runtime.HelpOnWait
