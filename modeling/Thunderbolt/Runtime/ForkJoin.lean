import Thunderbolt.Runtime.HelpOnWaitProofs

/-! Programs whose bodies wait for what they have submitted.

`parallel_for` and `submit_and_wait` do, wherever they are called. A task that a body has submitted is started
after that body (`Parented.later`), and so is what comes on top of it while it waits. Who waits for whom is thus
ordered by the time of the start, and no such program gets stuck (`fork_join`). Threads outside may wait for
anything. -/
namespace Thunderbolt.Runtime.HelpOnWait
open Concurrent Lifecycle

variable {Thread Call : Type} [DecidableEq Thread] [DecidableEq Call] {cfg : PoolConfig}
  {a : Act Thread Call} {s s' : State Thread Call} {t u v w : ℕ} {x : TaskHandle} {f g : Frame Call}
  {rest : List (Frame Call)}

/-- A body waits for, and has tasks depend on, what it was handed; no handle in use is issued again. -/
def Act.ForkJoin (a : Act Thread Call) (s : State Thread Call) : Prop :=
  a.Bounded s ∧ (∀ t, Started s.runtime t → ∀ x ∈ s.own t, Recent s.runtime x) ∧
    match a with
    | .call θ _ deps => ∀ t, s.body (s.stack θ) = some t → ∀ d ∈ deps, d.valid = false ∨ d ∈ s.own t
    | .wait θ _ y => ∀ t, s.body (s.stack θ) = some t → ∃ x, y = .handle x ∧ (x.valid = false ∨ x ∈ s.own t)
    | _ => True

/-- `x` is the handle of a task that the body of `t` has submitted. -/
def Child (s : State Thread Call) (t : ℕ) (x : TaskHandle) : Prop :=
  x.valid = false ∨ ∃ u e, IssuedAt s.runtime x u e ∧ (s.runtime.slots x.index).releases < e + word ∧
    s.parent u = some t

/-- A body has been called. -/
def Called (s : State Thread Call) (t : ℕ) : Prop :=
  t < s.runtime.submitted ∧ (s.runtime.sub t).invoked ≠ 0

/-- Who has submitted what, and when bodies were called. -/
structure Parented (cfg : PoolConfig) (s : State Thread Call) : Prop where
  inv : Inv s
  reachable : Reachable (regular Call cfg) s.runtime
  fresh : ∀ u, s.runtime.submitted ≤ u → s.parent u = none
  called : ∀ t u, s.parent u = some t → Called s t
  owner : ∀ t, s.own t ≠ [] → Called s t
  start : ∀ t, Called s t → s.start t < s.clock
  later : ∀ t u, s.parent u = some t → Called s u → s.start t < s.start u
  own : ∀ t, Started s.runtime t → ∀ x ∈ s.own t, Child s t x
  dependencies : ∀ t u, s.parent u = some t → (s.runtime.sub u).stage.Depends →
    ∀ d ∈ (s.runtime.sub u).dependencies, Child s t d
  inside : ∀ θ f g rest t u, f :: g :: rest <:+ s.stack θ → bodyOf (s.runtime.pc g.call) = some t →
    HelpOnWait.inside (s.runtime.pc f.call) = some u → s.parent u = some t
  target : ∀ θ f g rest t y, f :: g :: rest <:+ s.stack θ → bodyOf (s.runtime.pc g.call) = some t →
    f.target = some y → ∃ x, y = .handle x ∧ (x.valid = false ∨ x ∈ s.own t)
  order : ∀ θ f g rest v w, f :: rest <:+ s.stack θ → g ∈ rest → bodyOf (s.runtime.pc g.call) = some v →
    bodyOf (s.runtime.pc f.call) = some w → s.start v < s.start w

/-! ### Nobody waits for what is older -/

namespace Parented
variable (h : Parented cfg s)
include h
omit [DecidableEq Thread]

theorem lifecycle : Lifecycle.Inv cfg s.runtime := .reachable (sized_of_regular h.reachable)

theorem called_of_body {c : Call} (hbody : bodyOf (s.runtime.pc c) = some t) : Called s t := by
  have hstarted := started_of_body h.lifecycle hbody
  exact ⟨hstarted.submitted h.lifecycle, hstarted.invoked h.lifecycle⟩

theorem called_of_stack (hbody : s.body rest = some t) : Called s t := by
  cases rest with
  | nil => cases hbody
  | cons g l => exact h.called_of_body hbody

theorem started_of_stack (hbody : s.body rest = some t) : Started s.runtime t := by
  cases rest with
  | nil => cases hbody
  | cons g l => exact started_of_body h.lifecycle hbody

/-- What a body waits for. -/
theorem awaited {θ : Thread} {y : Target} (hl : f :: g :: rest <:+ s.stack θ)
    (hbody : bodyOf (s.runtime.pc g.call) = some t) (hy : f.target = some y) :
    ∃ x, y = .handle x ∧ Child s t x := by
  obtain ⟨x, rfl, hx⟩ := h.target θ f g rest t y hl hbody hy
  exact ⟨x, rfl, hx.elim .inl (h.own t (started_of_body h.lifecycle hbody) x)⟩

/-- What a body's submissions wait for are submissions of the same body. -/
theorem needs (ht : s.parent u = some t) (hneeds : Relation.ReflTransGen (Needs s.runtime) u w) :
    s.parent w = some t := by
  induction hneeds with
  | refl => exact ht
  | tail _ hedge ih =>
    obtain ⟨hdepends, d, hd, hholds⟩ := hedge
    obtain hinvalid | ⟨v, e, hissued, hwin, hv⟩ := h.dependencies t _ ih hdepends d hd
    · cases hinvalid.symm.trans (hholds.valid h.lifecycle)
    · obtain ⟨rfl, _⟩ := hholds.issued h.lifecycle hissued hwin
      exact hv

/-- Who waits was started before whom he waits for. -/
theorem hangs (hvw : Hangs s v w) : s.start v < s.start w := by
  cases hvw with
  | beneath hl hg hv hw => exact h.order _ _ _ _ v w hl hg hv hw
  | @waits θ f g rest x u _ _ hl hv hx hholds hneeds hw =>
    have hchild : Child s v x := by
      obtain htarget | ⟨p, k, hawaits, hx⟩ := hx
      · obtain ⟨y, heq, hy⟩ := h.awaited hl hv htarget
        cases heq
        exact hy
      · have hst := h.lifecycle.awaits_entering hawaits
        have hparent := h.inside θ f g rest v p hl hv (inside_of_awaits hawaits)
        exact h.dependencies v p hparent (by rw [hst]; trivial) x hx
    obtain hinvalid | ⟨p, e, hissued, hwin, hparent⟩ := hchild
    · cases hinvalid.symm.trans (hholds.valid h.lifecycle)
    obtain ⟨rfl, _⟩ := hholds.issued h.lifecycle hissued hwin
    exact h.later v w (h.needs hparent hneeds) ⟨hw.submitted h.lifecycle, hw.invoked h.lifecycle⟩

theorem aimed : Aimed s := by
  intro θ f g rest v y hl hv hy
  obtain ⟨x, rfl, hchild⟩ := h.awaited hl hv hy
  refine ⟨x, rfl, hchild.imp_right ?_⟩
  intro hsome
  obtain ⟨u, e, hissued, hwin, _⟩ := hsome
  exact ⟨u, e, hissued, hwin⟩

end Parented

/-! ### What a step records -/

/-- What a step does to the records of times, submitters and handles. -/
structure Records (a : Act Thread Call) (s s' : State Thread Call) : Prop where
  start : ∀ t, s'.start t =
    if (s'.runtime.sub t).invoked = (s.runtime.sub t).invoked then s.start t else s.clock
  clock : s.clock ≤ s'.clock
  tick : ∀ t, (s'.runtime.sub t).invoked ≠ (s.runtime.sub t).invoked → s.clock < s'.clock
  parent : ∀ u, s'.parent u = s.parent u ∨
    u = s.runtime.submitted ∧ ∃ θ c deps t, a = .call θ c deps ∧ s.body (s.stack θ) = some t ∧
      s'.parent u = some t ∧ s'.runtime.submitted = u + 1 ∧ (s'.runtime.sub u).dependencies = deps
  called : ∀ θ c deps, a = .call θ c deps → ∀ t, s.body (s.stack θ) = some t →
    s'.parent s.runtime.submitted = some t
  kept : ∀ t, ∀ x ∈ s.own t, x ∈ s'.own t
  own : ∀ t, ∀ x ∈ s'.own t, x ∈ s.own t ∨ ∃ θ f rest, s.stack θ = f :: rest ∧ s.body rest = some t ∧
    x = (s.runtime.pc f.call).handle

omit [DecidableEq Thread] [DecidableEq Call] in
/-- A step of the runtime, other than a submission by a body. -/
theorem Records.of_after (hstart : s'.start = (s.after s'.runtime).start) (hclock : s'.clock = s.clock + 1)
    (hparent : s'.parent = s.parent) (hkept : ∀ t, ∀ x ∈ s.own t, x ∈ s'.own t)
    (hown : ∀ t, ∀ x ∈ s'.own t, x ∈ s.own t ∨
      ∃ θ f rest, s.stack θ = f :: rest ∧ s.body rest = some t ∧ x = (s.runtime.pc f.call).handle)
    (ha : ∀ θ c deps, a ≠ .call θ c deps) : Records a s s' where
  start t := by
    rw [hstart]
    rfl
  clock := hclock ▸ Nat.le_succ _
  tick _ _ := hclock ▸ Nat.lt_succ_self _
  parent u := .inl (congrFun hparent u)
  called θ c deps heq := absurd heq (ha θ c deps)
  kept := hkept
  own := hown

omit [DecidableEq Thread] [DecidableEq Call] in
theorem Records.of_same (hruntime : s'.runtime = s.runtime) (hstart : s'.start = s.start)
    (hclock : s'.clock = s.clock) (hparent : s'.parent = s.parent) (hown : s'.own = s.own)
    (ha : ∀ θ c deps, a ≠ .call θ c deps) : Records a s s' where
  start t := by rw [hstart, hruntime, if_pos rfl]
  clock := hclock.ge
  tick t ht := by
    rw [hruntime] at ht
    exact absurd rfl ht
  parent u := .inl (congrFun hparent u)
  called θ c deps heq := absurd heq (ha θ c deps)
  kept t x hx := hown ▸ hx
  own t x hx := .inl (hown ▸ hx)

omit [DecidableEq Thread] in
theorem sub_submit {x r : Lifecycle.State Call} {c : Call} {deps : List TaskHandle}
    (hs : Lifecycle.Step cfg (.submit c deps) x r) :
    r.submitted = x.submitted + 1 ∧ r.sub x.submitted = .enter c deps := by
  cases hs <;> exact ⟨rfl, Function.update_self ..⟩

theorem records (hs : Step cfg a s s') : Records a s s' := by
  cases hs with
  | step | exhausted | submit | poll | polls | waited | help =>
    exact .of_after rfl rfl rfl (fun _ _ hx => hx) (fun _ _ hx => .inl hx) fun _ _ _ => nofun
  | wait | waitOutside | waited_all => exact .of_same rfl rfl rfl rfl rfl fun _ _ _ => nofun
  | @returns _ θ f rest r hstack _ _ _ _ _ =>
    cases hbody : s.body rest with
    | none => exact .of_after rfl rfl rfl (fun _ _ hx => hx) (fun _ _ hx => .inl hx) fun _ _ _ => nofun
    | some v =>
      refine .of_after rfl rfl rfl (fun t x hx => ?_) (fun t x hx => ?_) fun _ _ _ => nofun
      · show x ∈ Function.update s.own v ((s.runtime.pc f.call).handle :: s.own v) t
        rcases eq_or_ne t v with rfl | hne
        · rw [Function.update_self]
          exact List.mem_cons_of_mem _ hx
        · rwa [Function.update_of_ne hne]
      have hx : x ∈ Function.update s.own v ((s.runtime.pc f.call).handle :: s.own v) t := hx
      rcases eq_or_ne t v with rfl | hne
      · rw [Function.update_self, List.mem_cons] at hx
        obtain rfl | hx := hx
        · exact .inr ⟨θ, f, rest, hstack, hbody, rfl⟩
        · exact .inl hx
      · rw [Function.update_of_ne hne] at hx
        exact .inl hx
  | @call _ θ c deps r v hbody _ hs =>
    obtain ⟨hsubmitted, hsub⟩ := sub_submit hs
    exact {
      start := fun _ => rfl
      clock := Nat.le_succ _
      tick := fun _ _ => Nat.lt_succ_self _
      parent := fun u => by
        rcases eq_or_ne u s.runtime.submitted with rfl | hne
        · exact .inr ⟨rfl, θ, c, deps, v, rfl, hbody, Function.update_self .., hsubmitted,
            congrArg Submission.dependencies hsub⟩
        · exact .inl (Function.update_of_ne hne ..)
      called := fun θ' c' deps' heq t ht => by
        cases heq
        cases hbody.symm.trans ht
        exact Function.update_self ..
      kept := fun _ _ hx => hx
      own := fun _ _ hx => .inl hx}

namespace Turn
variable {θ : Thread} (m : Turn cfg a s s' θ f rest)
include m
omit [DecidableEq Thread]

theorem invoked (ht : Called s t) : (s'.runtime.sub t).invoked = (s.runtime.sub t).invoked := by
  obtain hsame | ⟨b, m⟩ := m.moves
  · rw [hsame]
  · exact m.invoked ht.1 ht.2

theorem submitted : s'.runtime.submitted = s.runtime.submitted ∨
    s'.runtime.submitted = s.runtime.submitted + 1 := by
  obtain hsame | ⟨b, m⟩ := m.moves
  · exact .inl (by rw [hsame])
  · exact (Lifecycle.Inv.submitted_step m.step).imp_right And.left

theorem called (ht : Called s t) : Called s' t := by
  refine ⟨?_, by rw [m.invoked ht]; exact ht.2⟩
  have hlt := ht.1
  obtain heq | heq := m.submitted <;> omega

/-- A body that has been called was called before, or is called now. -/
theorem called_or (ht : Called s' t) :
    Called s t ∨ (s'.runtime.sub t).invoked ≠ (s.runtime.sub t).invoked := by
  obtain hsame | ⟨b, m⟩ := m.moves
  · rw [Called, hsame] at ht
    exact .inl ht
  · by_cases heq : (s'.runtime.sub t).invoked = (s.runtime.sub t).invoked
    · refine .inl ⟨?_, heq ▸ ht.2⟩
      by_contra hle
      have hlt := ht.1
      obtain hsame | ⟨hnew, deps, henter⟩ := Lifecycle.Inv.submitted_step m.step
      · omega
      · obtain rfl : t = s.runtime.submitted := by omega
        exact ht.2 (by rw [henter]; rfl)
    · exact .inr heq

theorem depends (ht : t < s.runtime.submitted) (hdepends : (s'.runtime.sub t).stage.Depends) :
    (s.runtime.sub t).stage.Depends := by
  obtain hsame | ⟨b, m⟩ := m.moves
  · exact hsame ▸ hdepends
  · obtain ⟨hst, _⟩ | ⟨_, _, _, rfl, _⟩ := Found.depends_step m.inv m.step hdepends
    · exact hst
    · exact absurd ht (Nat.lt_irrefl _)

theorem issued {e : ℕ} (hx : IssuedAt s.runtime x t e) : IssuedAt s'.runtime x t e := by
  obtain hsame | ⟨b, m⟩ := m.moves
  · exact hsame ▸ hx
  · exact hx.step m.inv m.step

theorem releases (i : ℕ) : (s'.runtime.slots i).releases ≤ (s.runtime.slots i).releases + 1 := by
  obtain hsame | ⟨b, m⟩ := m.moves
  · rw [hsame]
    exact Nat.le_succ _
  · obtain ⟨_, heq⟩ | ⟨_, _, heq⟩ := Lifecycle.Inv.releases_step m.step i <;> omega

end Turn

namespace Records
variable (k : Records a s s')
include k
omit [DecidableEq Thread]

theorem start_same {θ : Thread} (m : Turn cfg a s s' θ f rest) (ht : Called s t) : s'.start t = s.start t := by
  rw [k.start, if_pos (m.invoked ht)]

omit [DecidableEq Call]

theorem start_new (ht : (s'.runtime.sub t).invoked ≠ (s.runtime.sub t).invoked) : s'.start t = s.clock := by
  rw [k.start, if_neg ht]

theorem parent_old (hu : u < s.runtime.submitted) : s'.parent u = s.parent u := by
  obtain heq | ⟨rfl, _⟩ := k.parent u
  · exact heq
  · exact absurd hu (Nat.lt_irrefl _)

end Records

namespace Parented
variable {θ : Thread} (h : Parented cfg s) (m : Turn cfg a s s' θ f rest) (k : Records a s s')
include h m k
omit [DecidableEq Thread]

/-- A handle in use stays that of the same task. -/
theorem child_step (hx : Child s t x) (hrecent : Recent s.runtime x) : Child s' t x := by
  obtain hinvalid | ⟨u, e, hissued, hwin, hparent⟩ := hx
  · exact .inl hinvalid
  cases hvalid : x.valid with
  | false => exact .inl hvalid
  | true =>
    have hwin := hrecent.window h.lifecycle hvalid hissued hwin
    have hreleases := m.releases x.index
    refine .inr ⟨u, e, m.issued hissued, by omega, ?_⟩
    rw [k.parent_old (h.lifecycle.issued_submitted hissued), hparent]

theorem called_step (t u : ℕ) (hu : s'.parent u = some t) : Called s' t := by
  obtain heq | ⟨_, _, _, _, v, _, hbody, hv, _⟩ := k.parent u
  · exact m.called (h.called t u (heq ▸ hu))
  · cases hu.symm.trans hv
    exact m.called (h.called_of_stack hbody)

theorem fresh_step (u : ℕ) (hu : s'.runtime.submitted ≤ u) : s'.parent u = none := by
  obtain heq | ⟨_, _, _, _, _, _, _, _, hnew, _⟩ := k.parent u
  · rw [heq]
    refine h.fresh u ?_
    obtain hsame | hnew := m.submitted <;> omega
  · omega

theorem owner_step (t : ℕ) (ht : s'.own t ≠ []) : Called s' t := by
  obtain ⟨x, hx⟩ := List.exists_mem_of_ne_nil _ ht
  obtain hold | ⟨_, _, _, _, hbody, _⟩ := k.own t x hx
  · exact m.called (h.owner t (List.ne_nil_of_mem hold))
  · exact m.called (h.called_of_stack hbody)

theorem start_step (t : ℕ) (ht : Called s' t) : s'.start t < s'.clock := by
  obtain hold | hnew := m.called_or ht
  · rw [k.start_same m hold]
    exact (h.start t hold).trans_le k.clock
  · rw [k.start_new hnew]
    exact k.tick t hnew

theorem later_step (t u : ℕ) (hu : s'.parent u = some t) (hcalled : Called s' u) : s'.start t < s'.start u := by
  have hparent : Called s t ∧ (Called s u → s.parent u = some t) := by
    obtain heq | ⟨rfl, _, _, _, v, _, hbody, hv, _⟩ := k.parent u
    · exact ⟨h.called t u (heq ▸ hu), fun _ => heq ▸ hu⟩
    · cases hu.symm.trans hv
      exact ⟨h.called_of_stack hbody, fun hnew => absurd hnew.1 (Nat.lt_irrefl _)⟩
  rw [k.start_same m hparent.1]
  obtain hold | hnew := m.called_or hcalled
  · rw [k.start_same m hold]
    exact h.later t u (hparent.2 hold) hold
  · rw [k.start_new hnew]
    exact h.start t hparent.1

theorem order_step (θ' : Thread) (f' g : Frame Call) (l : List (Frame Call)) (v w : ℕ)
    (hl : f' :: l <:+ s'.stack θ') (hg : g ∈ l) (hv : bodyOf (s'.runtime.pc g.call) = some v)
    (hw : bodyOf (s'.runtime.pc f'.call) = some w) : s'.start v < s'.start w := by
  obtain ⟨rfl, _, heq⟩ | ⟨hl, hne⟩ := m.suffix h.inv hl
  · cases heq
    rw [m.pc g.call (m.rest_ne h.inv hg)] at hv
    have hcalled := h.called_of_body hv
    rw [k.start_same m hcalled, k.start_new (m.body w hw)]
    exact h.start v hcalled
  · rw [m.pc g.call (hne g (List.mem_cons_of_mem _ hg))] at hv
    rw [m.pc f'.call (hne f' List.mem_cons_self)] at hw
    rw [k.start_same m (h.called_of_body hv), k.start_same m (h.called_of_body hw)]
    exact h.order θ' f' g l v w hl hg hv hw

omit m in
theorem parent_step (hu : s.parent u = some t) : s'.parent u = some t := by
  rw [k.parent_old ?_, hu]
  by_contra hle
  cases (h.fresh u (Nat.le_of_not_lt hle)).symm.trans hu

theorem inside_step (θ' : Thread) (f' g : Frame Call) (l : List (Frame Call)) (t u : ℕ)
    (hl : f' :: g :: l <:+ s'.stack θ') (hbody : bodyOf (s'.runtime.pc g.call) = some t)
    (hu : HelpOnWait.inside (s'.runtime.pc f'.call) = some u) : s'.parent u = some t := by
  obtain ⟨rfl, hafter, heq⟩ | ⟨hl, hne⟩ := m.suffix h.inv hl
  · cases heq
    rw [m.pc g.call (m.rest_ne h.inv List.mem_cons_self)] at hbody
    obtain ⟨hbefore, hu⟩ | ⟨hbefore, rfl, deps, ha⟩ := m.inside hafter (List.cons_ne_nil g l) u hu
    · exact h.parent_step k (h.inside θ' f g l t u (hbefore ▸ List.suffix_rfl) hbody hu)
    · exact k.called θ' f.call deps ha t (by rw [hbefore]; exact hbody)
  · rw [m.pc g.call (hne g (List.mem_cons_of_mem _ List.mem_cons_self))] at hbody
    rw [m.pc f'.call (hne f' List.mem_cons_self)] at hu
    exact h.parent_step k (h.inside θ' f' g l t u hl hbody hu)

/-- What is returned to a body is the handle of what it submitted. -/
theorem handed {θ' : Thread} (hstack : s.stack θ' = g :: l) (hbody : s.body l = some t) :
    Child s' t (s.runtime.pc g.call).handle := by
  have hof : ∀ u x, Of s.runtime x u → (s.runtime.sub u).stage.Holding →
      HelpOnWait.inside (s.runtime.pc g.call) = some u → Child s' t x := by
    intro u x hsome hholding hu
    obtain ⟨e, hissued⟩ := hsome
    cases l with
    | nil => cases hbody
    | cons g' l =>
      have hparent := h.inside θ' g g' l t u (hstack ▸ List.suffix_rfl) hbody hu
      have he : e = (s.runtime.slots x.index).releases := by
        obtain ⟨_, _, he⟩ | ⟨hover, _⟩ := h.lifecycle.issued u _ e hissued.1
        · exact he
        · exact absurd hholding hover.not_holding
      have hword : 1 < word := by decide
      exact h.child_step m k (.inr ⟨u, e, hissued, by omega, hparent⟩) (.inr ⟨u, e, hissued, by omega⟩)
  cases hp : s.runtime.pc g.call with
  | enqueueing u x =>
    have hok := h.lifecycle.at_pc hp
    exact hof u x hok.2 (by rw [hok.1]; trivial) (by rw [hp]; rfl)
  | registering u x j =>
    have hok := h.lifecycle.at_pc hp
    exact hof u x hok.2.1 (by rw [hok.1]; trivial) (by rw [hp]; rfl)
  | _ => exact .inl rfl

variable (hfork : a.ForkJoin s)
include hfork

theorem own_step (t : ℕ) (ht : Started s'.runtime t) (x : TaskHandle) (hx : x ∈ s'.own t) : Child s' t x := by
  obtain hold | ⟨θ', g, l, hstack, hbody, rfl⟩ := k.own t x hx
  · have hstarted : Started s.runtime t := by
      refine (m.started ht).resolve_right fun hnew => ?_
      exact hnew (m.invoked (h.owner t (List.ne_nil_of_mem hold)))
    exact h.child_step m k (h.own t hstarted x hold) (hfork.2.1 t hstarted x hold)
  · exact h.handed m k hstack hbody

theorem dependencies_step (t u : ℕ) (hu : s'.parent u = some t) (hdepends : (s'.runtime.sub u).stage.Depends)
    (d : TaskHandle) (hd : d ∈ (s'.runtime.sub u).dependencies) : Child s' t d := by
  obtain heq | ⟨rfl, θ', c, deps, v, rfl, hbody, hv, _, hdeps⟩ := k.parent u
  · have hu := heq ▸ hu
    have hlt : u < s.runtime.submitted := by
      by_contra hle
      cases (h.fresh u (Nat.le_of_not_lt hle)).symm.trans hu
    have hdepends := m.depends hlt hdepends
    rw [m.dependencies hlt] at hd
    exact h.child_step m k (h.dependencies t u hu hdepends d hd) (hfork.1.fresh u hdepends d hd)
  · cases hu.symm.trans hv
    have hstarted := h.started_of_stack hbody
    obtain hinvalid | hown := hfork.2.2 t hbody d (hdeps ▸ hd)
    · exact .inl hinvalid
    · exact h.child_step m k (h.own t hstarted d hown) (hfork.2.1 t hstarted d hown)

theorem target_step (θ' : Thread) (f' g : Frame Call) (l : List (Frame Call)) (t : ℕ) (y : Target)
    (hl : f' :: g :: l <:+ s'.stack θ') (hbody : bodyOf (s'.runtime.pc g.call) = some t)
    (hy : f'.target = some y) : ∃ x, y = .handle x ∧ (x.valid = false ∨ x ∈ s'.own t) := by
  have hkept : (∃ x, y = .handle x ∧ (x.valid = false ∨ x ∈ s.own t)) →
      ∃ x, y = .handle x ∧ (x.valid = false ∨ x ∈ s'.own t) := by
    intro hsome
    obtain ⟨x, rfl, hx⟩ := hsome
    exact ⟨x, rfl, hx.imp_right (k.kept t x)⟩
  refine hkept ?_
  obtain ⟨rfl, hafter, heq⟩ | ⟨hl, hne⟩ := m.suffix h.inv hl
  · cases heq
    rw [m.pc g.call (m.rest_ne h.inv List.mem_cons_self)] at hbody
    obtain hbefore | ⟨hbefore, c, rfl⟩ := m.target hafter y hy
    · exact h.target θ' f g l t y (hbefore ▸ List.suffix_rfl) hbody hy
    · exact hfork.2.2 t (by rw [hbefore]; exact hbody)
  · rw [m.pc g.call (hne g (List.mem_cons_of_mem _ List.mem_cons_self))] at hbody
    exact h.target θ' f' g l t y hl hbody hy

end Parented

namespace Parented

omit [DecidableEq Thread] in
theorem initial (base : Thread ↪ Call) : Parented cfg (initial base) where
  inv := .initial base
  reachable := .initial rfl
  fresh _ _ := rfl
  called _ _ := nofun
  owner _ ht := absurd rfl ht
  start _ ht := absurd ht.1 (Nat.not_lt_zero _)
  later _ _ := nofun
  own _ _ _ := nofun
  dependencies _ _ := nofun
  inside _ _ _ _ _ _ _ := nofun
  target _ _ _ _ _ _ _ := nofun
  order _ _ _ _ _ _ _ _ := nofun

theorem step (h : Parented cfg s) (hs : Step cfg a s s') (hfork : a.ForkJoin s) : Parented cfg s' := by
  obtain ⟨θ, f, rest, _, m⟩ := h.inv.turn h.reachable hs hfork.1
  have k := records hs
  exact {
    inv := m.inv h.inv
    reachable := m.reachable h.reachable
    fresh := h.fresh_step m k
    called := h.called_step m k
    owner := h.owner_step m k
    start := h.start_step m k
    later := h.later_step m k
    own := h.own_step m k hfork
    dependencies := h.dependencies_step m k hfork
    inside := h.inside_step m k
    target := h.target_step m k hfork
    order := h.order_step m k}

theorem reachable_of (base : Thread ↪ Call)
    (h : Reachable ((system cfg base).restrict Act.ForkJoin) s) : Parented cfg s := by
  induction h with
  | initial hs =>
    subst hs
    exact initial base
  | step _ hs ih => exact ih.step hs.1 hs.2

omit [DecidableEq Thread] in
theorem not_stuck (h : Parented cfg s) : ¬Stuck cfg s := fun hstuck =>
  h.inv.not_stuck hstuck h.reachable h.aimed (.of_rank s.start fun _ _ => h.hangs)

end Parented

/-- Nothing has been returned to a body yet, and nothing depends on anything. -/
structure Bare (s : State Thread Call) : Prop where
  own : ∀ t, s.own t = []
  dependencies : ∀ t, (s.runtime.sub t).dependencies = []

namespace Bare
variable (hs : Bare s)
include hs
omit [DecidableEq Thread] [DecidableEq Call]

theorem fresh : Fresh s.runtime := by
  intro t _ d hd
  rw [hs.dependencies t] at hd
  cases hd

theorem recent (t : ℕ) (_ : Started s.runtime t) (x : TaskHandle) (hx : x ∈ s.own t) : Recent s.runtime x := by
  rw [hs.own t] at hx
  cases hx

theorem step (θ : Thread) : Act.ForkJoin (.step θ) s := ⟨hs.fresh, hs.recent, trivial⟩

theorem exhausted (θ : Thread) : Act.ForkJoin (.exhausted θ) s := ⟨hs.fresh, hs.recent, trivial⟩

theorem submit (θ : Thread) : Act.ForkJoin (.submit θ []) s := ⟨⟨hs.fresh, by decide, nofun⟩, hs.recent, trivial⟩

theorem call (θ : Thread) (c : Call) : Act.ForkJoin (.call θ c []) s :=
  ⟨⟨hs.fresh, by decide, nofun⟩, hs.recent, fun _ _ => nofun⟩

end Bare

namespace Inlined

/-- One thread; the other calls are made by the body it runs inline. -/
def thread : Unit ↪ Fin 3 := ⟨fun _ => ⟨0, Nat.succ_pos 2⟩, fun _ _ _ => rfl⟩

abbrev Run (s : State Unit (Fin 3)) : Prop := Reachable ((system singleSlot thread).restrict Act.ForkJoin) s

variable {s s' : State Unit (Fin 3)} {a : Act Unit (Fin 3)}

def Early (s : State Unit (Fin 3)) : Prop := Run s ∧ Bare s

theorem Early.run (h : Early s) (hs : Step singleSlot (.step ()) s s') : Run s' :=
  Reachable.step h.1 ⟨hs, h.2.step ()⟩

theorem Early.step (h : Early s) (hs : Step singleSlot (.step ()) s s') (hbare : Bare s') : Early s' :=
  ⟨h.run hs, hbare⟩

def child : TaskHandle := ⟨0, 0⟩

theorem Early.exhausted (h : Early s) (hs : Step singleSlot (.exhausted ()) s s') (hbare : Bare s') : Early s' :=
  ⟨Reachable.step h.1 ⟨hs, h.2.exhausted ()⟩, hbare⟩

theorem Early.call (h : Early s) (c : Fin 3) (hs : Step singleSlot (.call () c []) s s') (hbare : Bare s') :
    Early s' :=
  ⟨Reachable.step h.1 ⟨hs, h.2.call () c⟩, hbare⟩

/-- The body has called `submit`, which has returned. -/
theorem submitted : ∃ s : State Unit (Fin 3), Run s ∧ s.stack () = [⟨0, none⟩] ∧ s.body (s.stack ()) = some 0 ∧
    s.own = Function.update (fun _ => []) 0 [child] ∧ (∀ t, (s.runtime.sub t).dependencies = []) ∧
    IssuedAt s.runtime child 1 0 ∧ (s.runtime.slots 0).releases = 0 ∧ s.parent 1 = some 0 := by
  have h0 : Early (initial thread) := ⟨.initial rfl, fun _ => rfl, fun _ => rfl⟩
  have h1 : Early _ :=
    ⟨Reachable.step h0.1 ⟨(.submit rfl (.submit [] rfl) : Step _ (.submit () []) _ _), h0.2.submit ()⟩,
      fun _ => rfl, by rintro (_ | t) <;> rfl⟩
  have h2 := h1.exhausted (.exhausted rfl (by rfl : _ = Pc.acquiring 0 false))
    ⟨fun _ => rfl, by rintro (_ | t) <;> rfl⟩
  have h3 := h2.step (.step rfl rfl (.inr rfl) (.run_inline (t := 0) (by rfl)) (.inr rfl) (fun _ _ => nofun))
    ⟨fun _ => rfl, by rintro (_ | t) <;> rfl⟩
  have hunused : ∀ f ∈ [(⟨0, none⟩ : Frame (Fin 3))], f.call ≠ 1 := by
    intro f hf
    rw [List.mem_singleton.mp hf]
    exact fun heq => by cases heq
  have h4 := h3.call 1 (.call (t := 0) (by rfl) (fun _ => hunused) (.submit [] (by rfl)))
    ⟨fun _ => rfl, by rintro (_ | _ | t) <;> rfl⟩
  have h5 := h4.step (.step rfl rfl (.inl nofun) (.acquire (t := 1) 0 (by rfl) (by decide) (by rfl)) (.inl nofun)
    (fun _ _ hpc => ⟨0, by cases hpc; rfl⟩)) ⟨fun _ => rfl, by rintro (_ | _ | t) <;> rfl⟩
  have h6 := h5.step (.step rfl rfl (.inl nofun) (.open_successors (by rfl : _ = Pc.opening 1 0 false)) (.inl nofun)
    (fun _ _ => nofun)) ⟨fun _ => rfl, by rintro (_ | _ | t) <;> rfl⟩
  have h7 := h6.step (.step rfl rfl (.inl nofun) (.create (t := 1) (by rfl)) (.inl nofun) (fun _ _ => nofun))
    ⟨fun _ => rfl, by rintro (_ | _ | t) <;> rfl⟩
  have h8 := h7.step (.step rfl rfl (.inl nofun) (.publish (t := 1) (by rfl)) (.inl nofun) (fun _ _ => nofun))
    ⟨fun _ => rfl, by rintro (_ | _ | t) <;> rfl⟩
  have h9 := h8.run (.returns (f := ⟨1, none⟩) rfl rfl nofun nofun
    (.enqueue_ready (t := 1) (h := child) (by rfl)) (by rfl))
  exact ⟨_, h9, by rfl, by rfl, by rfl, by rintro (_ | _ | t) <;> rfl, ⟨by rfl, by rfl⟩, by rfl, by rfl⟩

end Inlined

end Thunderbolt.Runtime.HelpOnWait
