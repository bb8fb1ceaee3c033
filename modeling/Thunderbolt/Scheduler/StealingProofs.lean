import Thunderbolt.Concurrent.Steps
import Thunderbolt.Executor.AbpDequeProofs
import Thunderbolt.Scheduler.Stealing

/-! Why parking never strands work in the stealing modes.

A deque is filled by its owner only, so a worker that found its own deques empty
and parks leaves them empty (`Seen`). A task in the global queue either has a
worker that has not read the counter yet, or was not counted when the last one
did, and then the thread about to count it will wake a worker (`Served`). -/
namespace Thunderbolt.Scheduler.Stealing
open Concurrent Executor

variable {n : ℕ} {External : Type} [DecidableEq External] {cfg : RuntimeConfig} {a : Act n External}
  {s s' : State n External}

section Accessors
variable (s : State n External) (v w : Fin n) (p : Work n) (x y : DequeId n)
  (d : AbpDeque.State (Fin n) TaskHandle) (t : Fin n ⊕ External) (g : GlobalQueue.Pc)
  (q : Parking.State (Fin n) (Fin n ⊕ External) (Look n))

omit [DecidableEq External]

@[simp] theorem park_workAt : (s.workAt w p).park = s.park := rfl
@[simp] theorem deques_workAt : (s.workAt w p).deques = s.deques := rfl
@[simp] theorem global_workAt : (s.workAt w p).global = s.global := rfl
@[simp] theorem work_workAt : (s.workAt w p).work = Function.update s.work w p := rfl

@[simp] theorem park_dequeAt : (s.dequeAt x d).park = s.park := rfl
@[simp] theorem deques_dequeAt : (s.dequeAt x d).deques = Function.update s.deques x d := rfl
@[simp] theorem global_dequeAt : (s.dequeAt x d).global = s.global := rfl
@[simp] theorem work_dequeAt : (s.dequeAt x d).work = s.work := rfl

@[simp] theorem park_parkAt : (s.parkAt q).park = q := rfl
@[simp] theorem deques_parkAt : (s.parkAt q).deques = s.deques := rfl
@[simp] theorem global_parkAt : (s.parkAt q).global = s.global := rfl
@[simp] theorem work_parkAt : (s.parkAt q).work = s.work := rfl

@[simp] theorem park_popped : (s.popped w).park = s.park := rfl
@[simp] theorem deques_popped : (s.popped w).deques = s.deques := rfl
@[simp] theorem global_popped : (s.popped w).global = s.global := rfl
@[simp] theorem work_popped : (s.popped w).work = s.work := rfl

end Accessors

section Accessors
variable (s : State n External) (t : Fin n ⊕ External) (g : GlobalQueue.Pc)

@[simp] theorem park_globalAt : (s.globalAt t g).park = s.park := rfl
@[simp] theorem deques_globalAt : (s.globalAt t g).deques = s.deques := rfl
@[simp] theorem global_globalAt : (s.globalAt t g).global = s.global.pcAt t g := rfl
@[simp] theorem work_globalAt : (s.globalAt t g).work = s.work := rfl

end Accessors

/-! ### What a step does to each part -/

theorem busy_of_pushes {p : Work n} {h : TaskHandle} {r : TaskPriority}
    (hp : p.pushes = some (h, r)) : p.busy = some r := by
  cases p <;> simp_all [Work.pushes, Work.busy]

/-- At most one deque moves, and by its owner only while that is inside an operation. -/
theorem deque_step (hs : Step cfg a s s') (x : DequeId n) :
    s'.deques x = s.deques x ∨
      ∃ m, AbpDeque.Step cfg.capacityBits m (s.deques x) (s'.deques x) ∧
        (m = .owner → (s.work x.1).busy = some x.2) := by
  have hmove : ∀ {y : DequeId n} {d : AbpDeque.State (Fin n) TaskHandle}
      {m : AbpDeque.Mover (Fin n)}, AbpDeque.Step cfg.capacityBits m (s.deques y) d →
      (m = .owner → (s.work y.1).busy = some y.2) →
      Function.update s.deques y d x = s.deques x ∨
        ∃ m, AbpDeque.Step cfg.capacityBits m (s.deques x) (Function.update s.deques y d x) ∧
          (m = .owner → (s.work x.1).busy = some x.2) := by
    intro y d m hd hm
    rcases eq_or_ne x y with rfl | hne
    · exact .inr ⟨m, by rwa [Function.update_self], hm⟩
    · exact .inl (Function.update_of_ne hne ..)
  cases hs
  case pop _ hw hd | popTook _ hw hd _ | popMiss _ hw hd _ | stocked _ hw hd _ |
      stockFull _ hw hd _ | queued _ hw hd _ _ | overflow _ hw hd _ =>
    exact hmove hd fun _ => by rw [hw]; rfl
  case push w h p d _ hw hd =>
    exact hmove hd fun _ => busy_of_pushes hw
  case steal _ _ hd | stole _ _ hd _ | stealMiss _ _ hd _ => exact hmove hd fun h => nomatch h
  all_goals exact .inl rfl

/-- Every step either leaves the parking protocol alone or is one of its steps. -/
theorem park_step (hs : Step cfg a s s') :
    s'.park = s.park ∨ ∃ b, Parking.Step (look s) .global b s.park s'.park := by
  cases hs
  case park hp | queued hp | overflowed hp | submitted hp | parking hp => exact .inr ⟨_, hp⟩
  all_goals exact .inl rfl

/-! ### A sleeping worker is inside no operation -/

/-- A worker inside `park_worker` is at the head of its loop. -/
def Asleep (s : State n External) : Prop :=
  ∀ w, s.park.sleeper w ≠ .awake → ∃ k, s.work w = .looking k

/-- A deque no operation of its owner is in progress on. -/
def Idle (s : State n External) : Prop :=
  ∀ x : DequeId n, (s.work x.1).busy ≠ some x.2 → (s.deques x).owner = .idle

/-- A worker moves on only while it is awake. -/
theorem work_step (h : Asleep s) (hs : Step cfg a s s') {v : Fin n}
    (hv : s.park.sleeper v ≠ .awake) : s'.work v = s.work v := by
  obtain ⟨k, hk⟩ := h v hv
  cases hs
  case stop hw hawake _ | loop hw hawake _ =>
    refine Function.update_of_ne ?_ _ _
    intro heq
    subst heq
    exact hv hawake
  case pop | push | steal | submit | submitted | global | parking => rfl
  all_goals
    refine Function.update_of_ne ?_ _ _
    intro heq
    subst heq
    cases hk.symm.trans ‹s.work _ = _›

theorem asleep_step (h : Asleep s) (hs : Step cfg a s s') : Asleep s' := by
  intro v hv
  by_cases hbefore : s.park.sleeper v = .awake
  · cases hs
    case park w spins q _ _ hpark =>
      rcases eq_or_ne v w with rfl | hne
      · exact ⟨0, by simp⟩
      · exact absurd (Parking.awake_step hpark (by simpa using hne.symm) hbefore) hv
    case queued hpark | overflowed hpark | submitted hpark =>
      exact absurd (Parking.awake_step hpark (by simp) hbefore) hv
    case parking hb _ hpark => exact absurd (Parking.awake_step hpark (hb v) hbefore) hv
    all_goals exact absurd hbefore hv
  · rw [work_step h hs hbefore]
    exact h v hbefore

theorem idle_step (h : Idle s) (hs : Step cfg a s s') : Idle s' := by
  intro x hx
  by_cases hbefore : (s.work x.1).busy = some x.2
  · -- The operation ends with this step.
    have hmine : ∀ {w : Fin n} {p : Work n},
        (Function.update s.work w p x.1).busy ≠ some x.2 → x.1 = w := by
      intro w p hne
      by_contra hother
      rw [Function.update_of_ne hother] at hne
      exact hne hbefore
    obtain ⟨v, r⟩ := x
    cases hs
    case popTook hidle hw _ _ | popMiss hidle hw _ _ | stocked hidle hw _ _ | stockFull hidle hw _ _ |
        queued hidle hw _ _ _ | overflow hidle hw _ _ =>
      obtain rfl : v = _ := hmine hx
      simp only [hw, Work.busy, Option.some.injEq] at hbefore
      subst hbefore
      show AbpDeque.State.owner (Function.update s.deques _ _ _) = .idle
      rw [Function.update_self, hidle]
    case pop | push | steal | submit | submitted | global | parking => exact absurd hbefore hx
    all_goals
      obtain rfl : v = _ := hmine hx
      have hbusy := hbefore.symm.trans (congrArg Work.busy ‹s.work _ = _›)
      cases hbusy
  · have hx' := h x hbefore
    rcases deque_step hs x with hd | ⟨m, hd, hm⟩
    · rw [hd, hx']
    · rw [(AbpDeque.owner_other hd fun h => hbefore (hm h)).1, hx']

theorem bounds_deques (h : ∀ x, AbpDeque.Bounds cfg.capacityBits (s.deques x))
    (hs : Step cfg a s s') (x : DequeId n) : AbpDeque.Bounds cfg.capacityBits (s'.deques x) := by
  rcases deque_step hs x with hd | ⟨m, hd, _⟩
  · rw [hd]
    exact h x
  · exact AbpDeque.bounds_step (h x) hd

/-! ### A sleeping worker's own deques -/

/-- The deque is empty, as `empty_hint` says it. -/
def Empty (s : State n External) (x : DequeId n) : Prop := (s.deques x).bottom ≤ (s.deques x).top

/-- The own deques that worker `w` has looked at are empty. -/
def Seen (s : State n External) (w : Fin n) : Parking.Sleeper (Look n) → Prop
  | .checking (.deques rest) => ∀ p, (w, p) ∉ rest → Empty s (w, p)
  | .checking (.top x bottom rest) =>
      (∀ p, (w, p) ∉ x :: rest → Empty s (w, p)) ∧ (x.1 = w → bottom = (s.deques x).bottom)
  | .blocking | .blocked => ∀ p, Empty s (w, p)
  | _ => True

/-- While a worker sleeps its deques only lose elements. -/
theorem empties_only (hb : ∀ x, AbpDeque.Bounds cfg.capacityBits (s.deques x)) (h : Asleep s)
    (hs : Step cfg a s s') {w : Fin n} (hw : s.park.sleeper w ≠ .awake) (p : TaskPriority) :
    (s'.deques (w, p)).bottom = (s.deques (w, p)).bottom ∧
      (s.deques (w, p)).top ≤ (s'.deques (w, p)).top := by
  obtain ⟨k, hk⟩ := h w hw
  rcases deque_step hs (w, p) with hd | ⟨m, hd, hm⟩
  · rw [hd]
    exact ⟨rfl, le_rfl⟩
  · have hthief : m ≠ .owner := by
      intro howner
      have hbusy := hm howner
      rw [hk] at hbusy
      cases hbusy
    exact ⟨(AbpDeque.owner_other hd hthief).2, AbpDeque.top_step (hb _) hd⟩

omit [DecidableEq External] in
theorem Seen.mono {w : Fin n} {c : Parking.Sleeper (Look n)} (h : Seen s w c)
    (hd : ∀ p, (s'.deques (w, p)).bottom = (s.deques (w, p)).bottom ∧
      (s.deques (w, p)).top ≤ (s'.deques (w, p)).top) : Seen s' w c := by
  have hempty : ∀ p, Empty s (w, p) → Empty s' (w, p) := by
    intro p hp
    unfold Empty at hp ⊢
    have := hd p
    omega
  cases c with
  | checking l =>
    cases l with
    | global => trivial
    | deques rest => exact fun p hp => hempty p (h p hp)
    | top x bottom rest =>
      refine ⟨fun p hp => hempty p (h.1 p hp), fun hx => ?_⟩
      obtain ⟨v, p⟩ := x
      obtain rfl : v = w := hx
      rw [h.2 rfl, (hd p).1]
  | blocking | blocked => exact fun p => hempty p (h p)
  | _ => trivial

omit [DecidableEq External] in
theorem mem_allDeques (x : DequeId n) : x ∈ allDeques n := by
  obtain ⟨w, p⟩ := x
  refine List.mem_product.mpr ⟨List.mem_finRange w, ?_⟩
  cases p <;> decide

omit [DecidableEq External] in
/-- What a read that goes on to the next one has seen. -/
theorem look_next {c c' : Look n} (h : look s c = .next c') :
    (c = .global ∧ s.global.count = 0 ∧ c' = .deques (allDeques n)) ∨
    (∃ x rest, c = .deques (x :: rest) ∧ c' = .top x (s.deques x).bottom rest) ∨
    ∃ x b rest, c = .top x b rest ∧ b ≤ (s.deques x).top ∧ c' = .deques rest := by
  cases c with
  | global =>
    simp only [look] at h
    split at h
    · cases h
    case isFalse hcount =>
      cases h
      exact .inl ⟨rfl, by omega, rfl⟩
  | deques rest =>
    cases rest with
    | nil => cases h
    | cons x rest =>
      cases h
      exact .inr (.inl ⟨x, rest, rfl, rfl⟩)
  | top x b rest =>
    simp only [look] at h
    split at h
    · cases h
    case isFalse hle =>
      cases h
      exact .inr (.inr ⟨x, b, rest, rfl, by omega, rfl⟩)

omit [DecidableEq External] in
theorem look_nothing {c : Look n} (h : look s c = .nothing) : c = .deques [] := by
  cases c with
  | deques rest =>
    cases rest with
    | nil => rfl
    | cons x rest => cases h
  | _ =>
    simp only [look] at h
    split at h <;> cases h

/-- A worker's own read tells what it then relies on. -/
theorem seen_own {w : Fin n} {q : Parking.State (Fin n) (Fin n ⊕ External) (Look n)}
    (h : Seen s w (s.park.sleeper w)) (hs : Parking.Step (look s) .global (.sleeper w) s.park q) :
    Seen s w (q.sleeper w) := by
  cases hs
  case next c c' hlook hc =>
    rw [hc] at h
    show Seen s w (Function.update s.park.sleeper w (.checking c') w)
    rw [Function.update_self]
    obtain ⟨rfl, _, rfl⟩ | ⟨x, rest, rfl, rfl⟩ | ⟨x, b, rest, rfl, hle, rfl⟩ := look_next hlook
    · exact fun p hp => absurd (mem_allDeques (w, p)) hp
    · exact ⟨h, fun _ => rfl⟩
    · intro p hp
      by_cases hx : (w, p) = x
      · subst hx
        have hbottom := h.2 rfl
        unfold Empty
        omega
      · exact h.1 p (by simp [hx, hp])
  case nothing c hlook hc =>
    rw [hc, look_nothing hlook] at h
    show Seen s w (Function.update s.park.sleeper w .blocking w)
    rw [Function.update_self]
    exact fun p => h p (by simp)
  case block hc =>
    rw [hc] at h
    show Seen s w (Function.update s.park.sleeper w .blocked w)
    rw [Function.update_self]
    exact h
  all_goals
    show Seen s w (Function.update s.park.sleeper w _ w)
    rw [Function.update_self]
    trivial

/-- Any step of the parking protocol. -/
theorem seen_park {b : Parking.Act (Fin n) (Fin n ⊕ External)}
    {q : Parking.State (Fin n) (Fin n ⊕ External) (Look n)} {w : Fin n}
    (h : Seen s w (s.park.sleeper w)) (hs : Parking.Step (look s) .global b s.park q) :
    Seen s w (q.sleeper w) := by
  rcases eq_or_ne b (.sleeper w) with rfl | hne
  · exact seen_own h hs
  · rcases eq_or_ne b (.park w) with rfl | hne'
    · cases hs
      simp [Parking.State.sleeperAt, Seen]
    · rcases Parking.sleeper_other hs hne' hne with heq | ⟨_, heq⟩
      · rwa [heq]
      · rw [heq]
        trivial

theorem seen_step (hb : ∀ x, AbpDeque.Bounds cfg.capacityBits (s.deques x)) (h : Asleep s)
    {w : Fin n} (hseen : Seen s w (s.park.sleeper w)) (hs : Step cfg a s s') :
    Seen s' w (s'.park.sleeper w) := by
  by_cases hw : s.park.sleeper w = .awake
  · have hdrowsy : s'.park.sleeper w = .awake ∨ s'.park.sleeper w = .locking := by
      rcases park_step hs with hp | ⟨b, hp⟩
      · exact .inl (hp ▸ hw)
      · exact Parking.drowsy_step hp hw
    rcases hdrowsy with hc | hc <;> rw [hc] <;> trivial
  · have hmono : ∀ c, Seen s w c → Seen s' w c := fun c hc => hc.mono (empties_only hb h hs hw)
    apply hmono
    rcases park_step hs with hp | ⟨b, hp⟩
    · rwa [hp]
    · exact seen_park hseen hp

/-! ### The global queue -/

/-- Inside an operation on the global queue. -/
def Work.calls : Work n → Bool
  | aging _ | draining _ | pulling _ | restocking | overflowing => true
  | _ => false

/-- A worker's operation on the global queue belongs to where the worker stands. -/
def Calls (s : State n External) : Prop :=
  ∀ w, (s.work w).calls = false → s.global.pc (.inl w) = .idle

/-- A step on the global queue is a call, a return, or a step inside an operation. -/
theorem global_step (h : Calls s) (hs : Step cfg a s s') :
    s'.global = s.global ∨ (∃ t, GlobalQueue.Step t s.global s'.global) ∨
      ∃ t g, s'.global = s.global.pcAt t g ∧ (s.global.pc t).holds = false ∧ g.holds = false := by
  have hcall : ∀ {w : Fin n} {p : Work n}, s.work w = p → p.calls = false →
      (s.global.pc (.inl w)).holds = false := by
    intro w p hw hp
    rw [h w (by rwa [hw])]
    rfl
  cases hs
  case age hw _ => exact .inr (.inr ⟨_, _, rfl, hcall hw rfl, rfl⟩)
  case drain hw => exact .inr (.inr ⟨_, _, rfl, hcall hw rfl, rfl⟩)
  case pull _ hw => exact .inr (.inr ⟨_, _, rfl, hcall hw rfl, rfl⟩)
  case stockFull hw _ _ | overflow hw _ _ => exact .inr (.inr ⟨_, _, rfl, hcall hw rfl, rfl⟩)
  case submit hpc _ => exact .inr (.inr ⟨_, _, rfl, by rw [hpc]; rfl, rfl⟩)
  case aged hpc | ageMiss hpc | drainMiss hpc | drained hpc | pullMiss hpc | pulled hpc |
      restocked hpc | overflowed hpc _ | submitted hpc _ =>
    exact .inr (.inr ⟨_, _, rfl, by rw [hpc]; rfl, rfl⟩)
  case global t g hg => exact .inr (.inl ⟨t, hg⟩)
  all_goals exact .inl rfl

/-- Another worker's step leaves a worker where it is. -/
theorem work_other (hs : Step cfg a s s') {v : Fin n} (hv : a ≠ .work v) : s'.work v = s.work v := by
  cases hs
  case pop | push | steal | submit | submitted | global | parking => rfl
  all_goals
    refine Function.update_of_ne ?_ _ _
    intro heq
    obtain rfl := heq
    exact hv rfl

/-- So it does a worker's operation on the global queue. -/
theorem global_other (hs : Step cfg a s s') {v : Fin n} (hv : a ≠ .work v)
    (hv' : a ≠ .global (.inl v)) : s'.global.pc (.inl v) = s.global.pc (.inl v) := by
  cases hs
  case global hg =>
    refine GlobalQueue.pc_other hg ?_
    intro heq
    exact hv' (congrArg Act.global heq.symm)
  case age | aged | ageMiss | drain | drainMiss | drained | pull | pullMiss | pulled | stockFull |
      restocked | overflow | overflowed =>
    refine Function.update_of_ne ?_ _ _
    intro heq
    exact hv (congrArg Act.work (Sum.inl.inj heq).symm)
  case submit | submitted => simp [GlobalQueue.State.pcAt]
  all_goals rfl

theorem calls_step (h : Calls s) (hs : Step cfg a s s') : Calls s' := by
  intro v hv
  by_cases ha : a = .work v
  · subst ha
    cases hs
    case aged | ageMiss | drainMiss | drained | pullMiss | pulled | restocked | overflowed =>
      exact Function.update_self ..
    case age | drain | pull | stockFull | overflow => simp [Work.calls] at hv
    case pop | push | steal => exact h v hv
    all_goals
      refine h v ?_
      rw [‹s.work v = _›]
      rfl
  · rw [work_other hs ha] at hv
    by_cases hg : a = .global (.inl v)
    · subst hg
      cases hs
      case global hg => exact absurd (h v hv) (GlobalQueue.pc_mover hg)
    · exact (global_other hs ha hg).trans (h v hv)

theorem balanced_step (hc : Calls s) (h : GlobalQueue.Balanced s.global) (hs : Step cfg a s s') :
    GlobalQueue.Balanced s'.global := by
  obtain heq | ⟨t, hg⟩ | ⟨t, g, heq, hold, hnew⟩ := global_step hc hs
  · rwa [heq]
  · exact GlobalQueue.balanced_step h hg
  · rw [heq]
    exact h.pcAt hold hnew

/-! ### Work in the global queue -/

/-- Worker `w` has read the counter of the global queue for the last time before it
blocks. -/
def Past : Parking.Sleeper (Look n) → Prop
  | .checking .global => False
  | .checking _ | .blocking | .blocked => True
  | _ => False

/-- Between a push on the global queue and the notification that follows, which finds a
worker to wake. -/
def Coming (s : State n External) (t : Fin n ⊕ External) : Prop :=
  (s.global.pc t).announcing = true ∨ s.park.waker t = .published ∨ s.park.waker t = .locking ∨
    s.park.waker t = .notifying ∧ ∃ w, s.park.sleeper w = .blocked

/-- A task in the global queue has a worker that will look there, or a thread that will
wake one. -/
def Served (s : State n External) : Prop :=
  s.global.queues.total ≠ 0 → (∃ w, ¬Past (s.park.sleeper w)) ∨ ∃ t, Coming s t

omit [DecidableEq External] in
theorem registered_of_past {c : Parking.Sleeper (Look n)} (h : Past c) : c.registered = true := by
  cases c <;> first | rfl | exact h.elim

/-- A worker gets past the global queue by reading its counter as zero. -/
theorem past_back {b : Parking.Act (Fin n) (Fin n ⊕ External)}
    {q : Parking.State (Fin n) (Fin n ⊕ External) (Look n)}
    (hs : Parking.Step (look s) .global b s.park q) {w : Fin n} (hw : Past (q.sleeper w)) :
    Past (s.park.sleeper w) ∨ s.global.count = 0 := by
  rcases eq_or_ne b (.sleeper w) with rfl | hne
  · cases hs
    case next c c' hlook hc =>
      obtain ⟨_, hcount, _⟩ | ⟨x, rest, rfl, _⟩ | ⟨x, i, rest, rfl, _⟩ := look_next hlook
      · exact .inr hcount
      · exact .inl (by rw [hc]; trivial)
      · exact .inl (by rw [hc]; trivial)
    case nothing c hlook hc => exact .inl (by rw [hc, look_nothing hlook]; trivial)
    case block hc => exact .inl (by rw [hc]; trivial)
    all_goals simp [Parking.State.sleeperAt, Past] at hw
  · rcases eq_or_ne b (.park w) with rfl | hne'
    · cases hs
      simp [Parking.State.sleeperAt, Past] at hw
    · rcases Parking.sleeper_other hs hne' hne with h | ⟨_, h⟩
      · exact .inl (h ▸ hw)
      · rw [h] at hw
        exact hw.elim

/-- A blocked worker stays blocked until it is notified. -/
theorem blocked_stays {b : Parking.Act (Fin n) (Fin n ⊕ External)}
    {q : Parking.State (Fin n) (Fin n ⊕ External) (Look n)}
    (hs : Parking.Step (look s) .global b s.park q) {w : Fin n} (hw : s.park.sleeper w = .blocked)
    (hpast : Past (q.sleeper w)) : q.sleeper w = .blocked := by
  have hmine : b ≠ .sleeper w := by
    intro h
    subst h
    cases hs <;> simp_all
  have hpark : b ≠ .park w := by
    intro h
    subst h
    cases hs
    simp_all
  rcases Parking.sleeper_other hs hpark hmine with h | ⟨_, h⟩
  · exact h.trans hw
  · rw [h] at hpast
    exact hpast.elim

/-- With every worker past the global queue, a coming notification stays coming. -/
theorem coming_park [NeZero n] (hx : Parking.Exclusive s.park) (hc : Parking.Counted s.park)
    {b : Parking.Act (Fin n) (Fin n ⊕ External)}
    {q : Parking.State (Fin n) (Fin n ⊕ External) (Look n)}
    (hs : Parking.Step (look s) .global b s.park q) (hbefore : ∀ w, Past (s.park.sleeper w))
    (hafter : ∀ w, Past (q.sleeper w)) {t : Fin n ⊕ External} (ht : Coming s t) :
    Coming (s.parkAt q) t := by
  have hreg := registered_of_past (hbefore 0)
  by_cases hmove : b = .wake t ∨ b = .waker t ∨ ∃ v, b = .notify t v
  · obtain rfl | rfl | ⟨v, rfl⟩ := hmove
    · cases hs
      exact .inr (.inl (Function.update_self ..))
    · cases hs
      case nobody h0 _ =>
        have := Parking.awake_of_nobody hc h0 0
        rw [hreg] at this
        cases this
      case somebody => exact .inr (.inr (.inl (Function.update_self ..)))
      case pass hpc hfree =>
        -- Nobody holds the mutex: a worker past its look is blocked.
        refine .inr (.inr (.inr ⟨Function.update_self .., 0, ?_⟩))
        have hpast := hbefore 0
        have hholds := hx 0
        cases hw : s.park.sleeper 0 <;> simp_all [Past, Parking.Sleeper.holds, Parking.State.wakerAt]
    · cases hs
      case notifyNone hnone hpc =>
        obtain h | h | h | ⟨_, w, hw⟩ := ht
        · exact .inl h
        · rw [hpc] at h
          cases h
        · rw [hpc] at h
          cases h
        · exact absurd hw (hnone w)
      case notifyOne w hw hpc =>
        have := hafter w
        simp [Parking.State.sleeperAt, Parking.State.wakerAt, Past] at this
  · have hsame : q.waker t = s.park.waker t :=
      Parking.waker_other hs (fun h => hmove (.inl h)) (fun h => hmove (.inr (.inl h)))
        fun v h => hmove (.inr (.inr ⟨v, h⟩))
    unfold Coming
    rw [park_parkAt, hsame]
    obtain h | h | h | ⟨h, w, hw⟩ := ht
    · exact .inl h
    · exact .inr (.inl h)
    · exact .inr (.inr (.inl h))
    · exact .inr (.inr (.inr ⟨h, w, blocked_stays hs hw (hafter w)⟩))

theorem served_park [NeZero n] (hx : Parking.Exclusive s.park) (hc : Parking.Counted s.park)
    (hg : GlobalQueue.Balanced s.global) (h : Served s) {b : Parking.Act (Fin n) (Fin n ⊕ External)}
    {q : Parking.State (Fin n) (Fin n ⊕ External) (Look n)}
    (hs : Parking.Step (look s) .global b s.park q) : Served (s.parkAt q) := by
  intro htotal
  by_cases hafter : ∀ w, Past (q.sleeper w)
  · right
    by_cases hbefore : ∀ w, Past (s.park.sleeper w)
    · obtain ⟨w, hw⟩ | ⟨t, ht⟩ := h htotal
      · exact absurd (hbefore w) hw
      · exact ⟨t, coming_park hx hc hs hbefore hafter ht⟩
    · -- The last worker got past: what is in the queue is not counted yet.
      obtain ⟨w, hw⟩ := not_forall.mp hbefore
      have hcount := (past_back hs (hafter w)).resolve_left hw
      obtain ⟨t, ht⟩ := hg.counting_of_hidden hcount htotal
      exact ⟨t, .inl (by rw [global_parkAt, ht]; rfl)⟩
  · exact .inl (not_forall.mp hafter)

/-- A call of an operation, or a return that announces nothing. -/
theorem served_call (h : Served s) {t : Fin n ⊕ External} {g : GlobalQueue.Pc}
    (ht : (s.global.pc t).announcing = false) : Served (s.globalAt t g) := by
  intro htotal
  obtain hw | ⟨u, hu⟩ := h htotal
  · exact .inl hw
  · refine .inr ⟨u, hu.imp_left fun hu => ?_⟩
    have hne : u ≠ t := by
      intro heq
      rw [heq, ht] at hu
      cases hu
    simpa [GlobalQueue.State.pcAt, hne] using hu

theorem served_global (h : Served s) {t : Fin n ⊕ External}
    {g : GlobalQueue.State (Fin n ⊕ External)} (hs : GlobalQueue.Step t s.global g) :
    Served {s with global := g} := by
  intro htotal
  obtain hbefore | hann := GlobalQueue.total_step hs htotal
  · obtain hw | ⟨u, hu⟩ := h hbefore
    · exact .inl hw
    · exact .inr ⟨u, hu.imp_left (GlobalQueue.announcing_step hs)⟩
  · exact .inr ⟨t, .inl hann⟩

/-- What every reachable state satisfies. -/
structure Inv (cfg : RuntimeConfig) (s : State n External) : Prop where
  exclusive : Parking.Exclusive s.park
  counted : Parking.Counted s.park
  balanced : GlobalQueue.Balanced s.global
  bounds : ∀ x, AbpDeque.Bounds cfg.capacityBits (s.deques x)
  asleep : Asleep s
  idle : Idle s
  calls : Calls s
  seen : ∀ w, Seen s w (s.park.sleeper w)
  served : Served s

theorem served_step [NeZero n] (h : Inv cfg s) (hs : Step cfg a s s') : Served s' := by
  have hpark : ∀ {b q}, Parking.Step (look s) .global b s.park q → Served (s.parkAt q) :=
    served_park h.exclusive h.counted h.balanced h.served
  have hcall : ∀ {w : Fin n} {p : Work n} {g}, s.work w = p → p.calls = false →
      Served (s.globalAt (.inl w) g) := by
    intro w p g hw hp
    refine served_call h.served ?_
    rw [h.calls w (by rwa [hw])]
    rfl
  have hreturn : ∀ {t r g}, s.global.pc t = .popped r → Served (s.globalAt t g) :=
    fun hpc => served_call h.served (by rw [hpc]; rfl)
  cases hs
  case park hp | queued hp | parking hp => exact hpark hp
  case age hw _ => exact hcall hw rfl
  case drain hw | pull hw => exact hcall hw rfl
  case stockFull hw _ _ | overflow hw _ _ => exact hcall hw rfl
  case aged hpc | ageMiss hpc | drainMiss hpc | drained hpc | pullMiss hpc | pulled hpc =>
    exact hreturn hpc
  case submit hpc _ => exact served_call h.served (by rw [hpc]; rfl)
  case restocked w hw _ =>
    -- No notification: but this worker is awake.
    intro _
    refine .inl ⟨w, ?_⟩
    have hawake : s.park.sleeper w = .awake := by
      by_contra hne
      obtain ⟨k, hk⟩ := h.asleep w hne
      cases hk.symm.trans hw
    show ¬Past (s.park.sleeper w)
    rw [hawake]
    exact id
  case overflowed hq | submitted hq =>
    cases hq
    exact fun _ => .inr ⟨_, .inr (.inl (Function.update_self ..))⟩
  case global hg => exact served_global h.served hg
  all_goals exact h.served

theorem inv_step [NeZero n] (h : Inv cfg s) (hs : Step cfg a s s') : Inv cfg s' where
  exclusive := by
    rcases park_step hs with hp | ⟨b, hp⟩
    · exact hp ▸ h.exclusive
    · exact Parking.exclusive_step h.exclusive hp
  counted := by
    rcases park_step hs with hp | ⟨b, hp⟩
    · exact hp ▸ h.counted
    · exact Parking.counted_step h.counted hp
  balanced := balanced_step h.calls h.balanced hs
  bounds := bounds_deques h.bounds hs
  asleep := asleep_step h.asleep hs
  idle := idle_step h.idle hs
  calls := calls_step h.calls hs
  seen w := seen_step h.bounds h.asleep (h.seen w) hs
  served := served_step h hs

omit [DecidableEq External] in
theorem inv_initial (h : Initial s) : Inv cfg s where
  exclusive w hw := by
    rw [h.park] at hw
    cases hw
  counted := h.park ▸ Parking.counted_initial
  balanced := h.global ▸ GlobalQueue.balanced_initial
  bounds x := AbpDeque.bounds_initial (h.deques x)
  asleep w hw := ⟨0, h.work w⟩
  idle x _ := (h.deques x).owner
  calls w _ := by rw [h.global]; rfl
  seen w := by rw [h.park]; trivial
  served htotal := by
    rw [h.global] at htotal
    exact absurd rfl htotal

/-! ### A worker that finds nothing -/

/-- Before a task is found, the worker parks or the runtime ends; what it moves in a batch is on the way. -/
def Work.searches : Work n → Bool
  | executing | enqueueing _ _ | overflowing | exited => false
  | _ => true

def Searching (w : Fin n) (s : State n External) : Prop :=
  s.park.sleeper w = .awake ∧ (s.work w).searches = true

/-- The worker searches, and has no task. -/
def Work.hunts : Work n → Bool
  | batching _ | pulling _ | stocking _ _ _ | restocking => false
  | p => p.searches

def Hunting (w : Fin n) (s : State n External) : Prop :=
  s.park.sleeper w = .awake ∧ (s.work w).hunts = true

omit [DecidableEq External] in
theorem Hunting.searching {w : Fin n} (h : Hunting w s) : Searching w s := by
  refine ⟨h.1, ?_⟩
  have hhunts := h.2
  cases hw : s.work w <;> rw [hw] at hhunts <;> first | rfl | cases hhunts

/-- The worker's own steps outside `park_worker`. -/
def Own (w : Fin n) (a : Act n External) : Prop := a = .work w ∨ a = .global (.inl w)

/-- The worker is at `p`, and its call on the global queue at `g`. -/
def State.facing (s : State n External) (w : Fin n) (p : Work n) (g : GlobalQueue.Pc) : State n External :=
  (s.workAt w p).globalAt (.inl w) g

section Facing
variable (x : State n External) (w : Fin n) (p q : Work n) (g f : GlobalQueue.Pc)

@[simp] theorem park_facing : (x.facing w p g).park = x.park := rfl
@[simp] theorem deques_facing : (x.facing w p g).deques = x.deques := rfl
@[simp] theorem count_facing : (x.facing w p g).global.count = x.global.count := rfl
@[simp] theorem work_facing : (x.facing w p g).work w = p := by simp [State.facing]
@[simp] theorem pc_facing : (x.facing w p g).global.pc (.inl w) = g := by
  simp [State.facing, GlobalQueue.State.pcAt]

@[simp] theorem facing_workAt : (x.facing w p g).workAt w q = x.facing w q g := by
  simp [State.facing, State.workAt, State.globalAt]

@[simp] theorem facing_globalAt : (x.facing w p g).globalAt (.inl w) f = x.facing w p f := by
  simp [State.facing, State.workAt, State.globalAt, GlobalQueue.State.pcAt]

@[simp] theorem facing_facing : (x.facing w p g).facing w q f = x.facing w q f := by
  rw [State.facing, facing_workAt, facing_globalAt]

theorem facing_self (hw : x.work w = p) (hg : x.global.pc (.inl w) = g) : x.facing w p g = x := by
  simp [State.facing, State.workAt, State.globalAt, GlobalQueue.State.pcAt, ← hw, ← hg]

end Facing

/-- The one worker is awake, and its deques are empty. -/
structure Starved (x : State 1 External) : Prop where
  awake : x.park.sleeper 0 = .awake
  running : x.park.running = true
  empty : ∀ p, ¬(x.deques (0, p)).bottom - (x.deques (0, p)).top > 0

section Runs
variable {x : State 1 External} {b : Act 1 External} {c : Caller} {j k : ℕ} (h : Starved x)
  (hmode : cfg.scheduler = .WorkStealing) (hprobe : cfg.skipEmptyDeques = true)

/-- The worker makes its own steps only. -/
abbrev solo (cfg : RuntimeConfig) (External : Type) [DecidableEq External] {m : ℕ} (w : Fin (m + 1)) :
    System (State (m + 1) External) (Act (m + 1) External) :=
  (system cfg m External).restrict fun b _ => Own w b

variable (cfg) in
/-- One step of the worker, while it hunts. -/
theorem own_step {p q : Work 1} {g f : GlobalQueue.Pc} (h : Starved x) (hp : p.hunts = true)
    (hs : Step cfg b (x.facing 0 p g) (x.facing 0 q f)) (hown : Own 0 b) :
    Steps (solo cfg External 0) (Own 0) (Hunting 0) (x.facing 0 p g) 1 (x.facing 0 q f) :=
  .own .none ⟨h.awake, by rwa [work_facing]⟩ ⟨hs, hown⟩ hown

include h hprobe in
theorem scan_run (rest : List TaskPriority) :
    Steps (solo cfg External 0) (Own 0) (Hunting 0) (x.facing 0 (.scanning c rest) .idle) (2 * rest.length)
      (x.facing 0 (.scanning c []) .idle) := by
  induction rest with
  | nil => exact .none
  | cons p rest ih =>
    have hprobes := own_step cfg h rfl
      (by simpa using Step.probe (work_facing x 0 (.scanning c (p :: rest)) .idle) hprobe) (.inl rfl)
    have hmisses := own_step cfg h rfl
      (by simpa using Step.probeEmpty (work_facing x 0 (.probing c p _ rest) .idle) (h.empty p)) (.inl rfl)
    have hall := (hprobes.trans hmisses).trans ih
    rwa [show 2 * (p :: rest).length = 1 + 1 + 2 * rest.length by simp; omega]

include h hmode hprobe in
/-- From the head of the loop to the global queue. -/
theorem drain_run (hw : x.work 0 = .looking k) (hg : x.global.pc (.inl 0) = .idle) :
    Steps (solo cfg External 0) (Own 0) (Hunting 0) x 13
      (x.facing 0 (.draining (.loop k)) (.reading false)) := by
  have hturn : ∀ y : State 1 External, y.lowestFirst cfg 0 = false := by
    intro y
    simp [State.lowestFirst, aging_pop_favours_lowest, hmode]
  have hloops := own_step cfg h rfl
    (by simpa using Step.loop (work_facing x 0 (.looking k) .idle) h.awake h.running) (.inl rfl)
  have hstrict := own_step cfg h rfl
    (by simpa using Step.strict (work_facing x 0 (.acquiring (.loop k)) .idle) (hturn _)) (.inl rfl)
  have hdrains := own_step cfg h rfl
    (by simpa using Step.drain (work_facing x 0 (.scanning (.loop k) []) .idle)) (.inl rfl)
  rw [hturn] at hdrains
  rw [facing_self x 0 _ _ hw hg] at hloops
  exact ((hloops.trans hstrict).trans (scan_run h hprobe (scan false))).trans hdrains

include h hmode hprobe in
/-- With one worker there is nobody to steal from. -/
theorem miss_run (hw : x.work 0 = .looking k) (hg : x.global.pc (.inl 0) = .idle) (hcount : x.global.count = 0) :
    Steps (solo cfg External 0) (Own 0) (Hunting 0) x 15 (x.facing 0 (.stealing (.loop k) []) .idle) := by
  have hreads : Step cfg (.global (.inl 0)) (x.facing 0 (.draining (.loop k)) (.reading false))
      (x.facing 0 (.draining (.loop k)) (.popped none)) :=
    facing_globalAt x 0 _ _ (.popped none) ▸ Step.global (.none (pc_facing ..) hcount)
  have hmisses := own_step cfg h rfl
    (by simpa using Step.drainMiss 0 (work_facing x 0 (.draining (.loop k)) (.popped none)) (pc_facing ..)) (.inl rfl)
  exact ((drain_run h hmode hprobe hw hg).trans (own_step cfg h rfl hreads (.inr rfl))).trans hmisses

include h hmode hprobe in
/-- Missing `j` times, the worker comes back to the head of its loop. -/
theorem spin_run (hw : x.work 0 = .looking k) (hg : x.global.pc (.inl 0) = .idle) (hcount : x.global.count = 0)
    (hj : k + j < kSpinsBeforePark) :
    Steps (solo cfg External 0) (Own 0) (Hunting 0) x (16 * j) (x.facing 0 (.looking (k + j)) .idle) := by
  induction j with
  | zero =>
    rw [facing_self x 0 (.looking (k + 0)) .idle hw hg]
    exact .none
  | succ j ih =>
    have hmisses := miss_run (x := x.facing 0 (.looking (k + j)) .idle) ⟨h.awake, h.running, h.empty⟩ hmode hprobe
      (work_facing ..) (pc_facing ..) hcount
    rw [facing_facing] at hmisses
    have hspins := own_step cfg h rfl
      (by simpa using Step.spin (work_facing x 0 (.stealing (.loop (k + j)) []) .idle) hj) (.inl rfl)
    exact ((ih (by omega)).trans hmisses).trans hspins

omit [DecidableEq External] in
/-- The last look for work finds nothing. -/
theorem looks_empty (h : Starved x) (hcount : x.global.count = 0) :
    Relation.ReflTransGen (fun l l' => look x l = .next l') .global (.deques []) := by
  have hrest : ∀ rest : List (DequeId 1), Relation.ReflTransGen (fun l l' => look x l = .next l')
      (.deques rest) (.deques []) := by
    intro rest
    induction rest with
    | nil => exact .refl
    | cons y rest ih =>
      obtain ⟨w, p⟩ := y
      obtain rfl : w = 0 := Subsingleton.elim ..
      exact .head rfl (.head (if_neg (h.empty p)) ih)
  exact .head (if_neg (by simp [hcount])) (hrest _)

/-- Steps of the parking worker are steps of the whole. -/
theorem parking_run {q r : Parking.State (Fin 1) (Fin 1 ⊕ External) (Look 1)}
    (hreach : Reachable (system cfg 0 External) (x.parkAt q))
    (hq : Relation.ReflTransGen (Parking.Step (look x) .global (.sleeper 0)) q r) :
    Reachable (system cfg 0 External) (x.parkAt r) := by
  induction hq with
  | refl => exact hreach
  | @tail q r _ hs ih =>
    have hstep : Step cfg (.park (.sleeper 0)) (x.parkAt q) (x.parkAt r) :=
      Step.parking (s := x.parkAt q) (by simp) (by simp) hs
    exact ih.step hstep

include h hmode hprobe in
/-- A worker that finds nothing often enough blocks. -/
theorem block_run (hreach : Reachable (system cfg 0 External) x) (hw : x.work 0 = .looking 0)
    (hg : x.global.pc (.inl 0) = .idle) (hcount : x.global.count = 0) (hfree : x.park.mutex = none) :
    Reachable (system cfg 0 External)
      (x.parkAt {x.park with
        sleeping := x.park.sleeping + 1, sleeper := Function.update x.park.sleeper 0 .blocked}) := by
  have hself := facing_self x 0 _ _ hw hg
  have hspins := spin_run h hmode hprobe hw hg hcount (by decide : 0 + 63 < _)
  have hmisses := miss_run (x := x.facing 0 (.looking (0 + 63)) .idle) ⟨h.awake, h.running, h.empty⟩ hmode hprobe
    (work_facing ..) (pc_facing ..) hcount
  have hspun := (hspins.trans hmisses).of_restrict.reachable hreach
  rw [facing_facing] at hspun
  have hparks : Step cfg (.work 0) (x.facing 0 (.stealing (.loop (0 + 63)) []) .idle) _ :=
    .park (work_facing ..) (by decide) (.park h.awake)
  have hlocking : Reachable (system cfg 0 External) (x.parkAt (x.park.sleeperAt 0 .locking)) := by
    rw [facing_workAt, hself] at hparks
    exact hspun.step hparks
  have hblocks := Parking.blocks (s := x.park.sleeperAt 0 .locking) (w := 0) hfree h.running
    (by simp [Parking.State.sleeperAt]) (looks_empty h hcount) rfl
  have hblocked : Reachable (system cfg 0 External) (x.parkAt _) := parking_run hlocking hblocks
  simpa [Parking.State.sleeperAt] using hblocked

end Runs

/-! ### One worker -/

namespace Single

def config : RuntimeConfig := ⟨.WorkStealing, true, 10⟩

def idle : State 1 External where
  park := Parking.initial
  deques _ := ⟨0, 0, fun _ => .none, .idle, fun _ => .idle, [], fun _ => 0, []⟩
  global := GlobalQueue.initial
  work _ := .looking 0
  pop_index _ := 0

omit [DecidableEq External] in
theorem initial : Initial (idle : State 1 External) :=
  ⟨rfl, fun _ => ⟨rfl, rfl, rfl, fun _ => rfl, rfl, rfl⟩, rfl, fun _ => rfl⟩

theorem looking : Reachable (system config 0 External) idle := .initial initial

omit [DecidableEq External] in
theorem starved : Starved (idle : State 1 External) := ⟨rfl, rfl, fun _ => Int.lt_irrefl 0⟩

def asleep : State 1 External := {idle with park := ⟨1, none, true, fun _ => .blocked, fun _ => .idle⟩}

theorem sleeping : Reachable (system config 0 External) asleep := by
  have hblocked : Function.update (fun _ => Parking.Sleeper.awake) 0 .blocked =
      fun _ : Fin 1 => (.blocked : Parking.Sleeper (Look 1)) := by
    funext w
    rw [Subsingleton.elim w 0, Function.update_self]
  have h : Reachable (system config 0 External)
      (idle.parkAt ⟨1, none, true, Function.update (fun _ => .awake) 0 .blocked, fun _ => .idle⟩) :=
    block_run starved rfl rfl looking rfl rfl rfl rfl
  rw [hblocked] at h
  exact h

end Single

/-! ### Over every run -/

/-- Nobody is between publishing a task and its wakeup. -/
def Quiet (s : State n External) (t : Fin n ⊕ External) : Prop :=
  (s.global.pc t).announcing = false ∧ s.park.waker t = .idle

/-- A task in the global queue or in a deque, with every worker blocked and nobody
about to wake one. -/
def Stranded (s : State n External) : Prop :=
  s.park.running = true ∧
    (s.global.queues.total ≠ 0 ∨ ∃ x, (s.deques x).top < (s.deques x).logicalBottom) ∧
    (∀ w, s.park.sleeper w = .blocked) ∧ ∀ t, Quiet s t

/-- **No stranded work in the stealing modes.** -/
theorem stealing_not_stranded {m : ℕ} {s : State (m + 1) External}
    (h : Reachable (system cfg m External) s) : ¬Stranded s := by
  have hinv : Inv cfg s := h.invariant (P := Inv cfg) (fun _ hi => inv_initial hi)
    fun _ _ _ _ hi hs => inv_step hi hs
  intro hsome
  obtain ⟨_, hwork, hblocked, hquiet⟩ := hsome
  obtain htotal | ⟨⟨w, p⟩, hlt⟩ := hwork
  · obtain ⟨w, hw⟩ | ⟨t, ht⟩ := hinv.served htotal
    · rw [hblocked w] at hw
      exact hw trivial
    · have := hquiet t
      unfold Coming at ht
      simp [this.1, this.2] at ht
  · have hseen := hinv.seen w
    rw [hblocked w] at hseen
    have hempty : (s.deques (w, p)).bottom ≤ (s.deques (w, p)).top := hseen p
    obtain ⟨k, hk⟩ := hinv.asleep w (by simp [hblocked w])
    have hidle := hinv.idle (w, p) (by simp [hk, Work.busy])
    simp only [AbpDeque.State.logicalBottom, hidle, AbpDeque.OwnerPc.logicalBottom] at hlt
    omega

open Single in
/-- The worker sleeps, and the thread that has put a task into the global queue is about to wake it. -/
theorem stealing_not_stranded_asleep : ∃ s : State 1 Unit, Reachable (system config 0 Unit) s ∧
    s.global.queues.total = 1 ∧ s.park.sleeper 0 = .blocked ∧ ¬Stranded s := by
  have h : Reachable (system config 0 Unit) asleep := sleeping
  have h := h.step (l := Act.submit ()) (.submit ⟨0, 0⟩ .Normal rfl rfl)
  have h := h.step (l := Act.global (.inr ())) (.global (.append (h := ⟨0, 0⟩) (p := .Normal) rfl rfl))
  have h := h.step (l := Act.global (.inr ())) (.global (.count rfl))
  have h := h.step (l := Act.submit ()) (.submitted rfl (.wake rfl))
  exact ⟨_, h, rfl, rfl, stealing_not_stranded h⟩

end Thunderbolt.Scheduler.Stealing
