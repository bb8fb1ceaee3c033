import Thunderbolt.Concurrent.Threads
import Thunderbolt.Runtime.Lifecycle

/-! What every reachable state of the lifecycle satisfies.

A submission is in one place: with the call that has it, waiting for its edges, or
on the ready queue (`Stage`). What a call's program counter says of its own
submissions and slots (`Ok`) other calls cannot change (`Frame`). The counter of
a waiting task is its guard and its open edges, modulo `2^32` (`Counters`). -/
namespace Thunderbolt.Runtime.Lifecycle
open Concurrent

variable {Call : Type} [DecidableEq Call] {cfg : PoolConfig} {a : Act Call} {s s' : State Call}

namespace Stage

/-- The call that has the submission. -/
def holder : Stage Call → Option Call
  | entering c | created c | registering c | driven c | claimed c | running c | ended c | left c
  | thrown c => some c
  | waiting | queued | retired => none

/-- Nothing has been done about its dependencies. -/
def Early : Stage Call → Prop
  | entering _ | created _ => True
  | _ => False

/-- Its counter may still be lowered. -/
def Waits : Stage Call → Prop
  | registering _ | waiting => True
  | _ => False

/-- It has a slot, and its body is still to be called. -/
def Uncalled : Stage Call → Prop
  | created _ | registering _ | waiting | driven _ | queued | claimed _ => True
  | _ => False

/-- If it has got a slot, it has it still. -/
def Holding : Stage Call → Prop
  | created _ | registering _ | waiting | driven _ | queued | claimed _ | running _ | ended _ => True
  | _ => False

/-- Its body has ended, and it has no slot. -/
def Over : Stage Call → Prop
  | left _ | retired => True
  | _ => False

end Stage

/-- `h` is the handle issued for the submission `t`. -/
def Of (s : State Call) (h : TaskHandle) (t : ℕ) : Prop :=
  ∃ e, (s.sub t).issued = some (h.index, e) ∧ h.generation = e % word

/-- The submission a call is at with its result to come back to. -/
def CallerOk (s : State Call) (c : Call) : Option (ℕ × ℕ) → Prop
  | none => True
  | some (t, _) => (s.sub t).stage = .entering c

/-- The task and the slot being released. -/
def ReleaseOk (s : State Call) (c : Call) (i : ℕ) : Release → Next → Prop
  | .destroying, .dependents t _ | .bumping, .dependents t _ =>
    (s.sub t).stage = .ended c ∧ ∃ e, (s.sub t).issued = some (i, e)
  | _, .dependents t _ => (s.sub t).stage = .left c ∧ (s.slots i).place = .inHands c
  | _, .rethrow t => (s.sub t).stage = .thrown c ∧ (s.slots i).place = .inHands c

/-- What the program counter of `c` says of the submissions and slots it has. -/
def Ok (s : State Call) (c : Call) : Pc Call → Prop
  | .idle => True
  | .acquiring t em => (s.sub t).stage = .entering c ∧ (em = true → (s.sub t).dependencies = [])
  | .opening t i em =>
    (s.sub t).stage = .entering c ∧ (em = true → (s.sub t).dependencies = []) ∧
      (s.slots i).place = .inHands c ∧ (em = false → (s.slots i).function = some t)
  | .creating t i =>
    (s.sub t).stage = .entering c ∧ (s.slots i).place = .inHands c ∧ (s.slots i).function = some t
  | .constructing t (some i) =>
    (s.sub t).stage = .entering c ∧ (s.sub t).dependencies = [] ∧ (s.slots i).place = .inHands c
  | .constructing t none | .awaiting t _ | .inlining t => (s.sub t).stage = .entering c
  | .publishing t h =>
    ((s.sub t).stage = .created c ∧ (s.sub t).dependencies = [] ∨ (s.sub t).stage = .driven c) ∧ Of s h t
  | .holding t h | .counting t h => (s.sub t).stage = .created c ∧ Of s h t
  | .registering t h k =>
    (s.sub t).stage = .registering c ∧ Of s h t ∧ k ≤ (s.sub t).dependencies.length ∧
      ∀ j < (s.sub t).dependencies.length, s.edge ⟨t, j⟩ = .unprocessed ↔ k ≤ j
  | .adding t h k | .refused t h k =>
    (s.sub t).stage = .registering c ∧ Of s h t ∧ k < (s.sub t).dependencies.length ∧
      ∀ j < (s.sub t).dependencies.length, s.edge ⟨t, j⟩ = .unprocessed ↔ k ≤ j
  | .enqueueing t h => (s.sub t).stage = .driven c ∧ Of s h t
  | .inlined t => (s.sub t).stage = .running c ∧ (s.sub t).issued = none
  | .retiring t => (s.sub t).stage = .left c ∨ (s.sub t).stage = .thrown c
  | .claimed h | .exchanging h | .calling h => ∃ t, (s.sub t).stage = .claimed c ∧ Of s h t
  | .running t h => (s.sub t).stage = .running c ∧ Of s h t
  | .taking t h | .completing t h _ => (s.sub t).stage = .ended c ∧ Of s h t
  | .releasing at_ i next => ReleaseOk s c i at_ next
  | .looping t _ | .subtracting t _ _ _ => (s.sub t).stage = .left c
  | .driving t d u _ | .passing t d u _ =>
    (s.sub t).stage = .left c ∧ (s.sub u).stage = .driven c ∧ Of s d u
  | .asking o _ _ | .reading o _ _ | .rechecking o _ _ _ | .answered o _ _ _ => CallerOk s c o

/-- What a step of another call leaves to `c`. -/
structure Frame (c : Call) (s s' : State Call) : Prop where
  sub : ∀ t, (s.sub t).stage.holder = some c → s'.sub t = s.sub t
  hands : ∀ i, (s.slots i).place = .inHands c →
    (s'.slots i).place = .inHands c ∧ (s'.slots i).function = (s.slots i).function
  edge : ∀ t j, (s.sub t).stage.holder = some c →
    (s'.edge ⟨t, j⟩ = .unprocessed ↔ s.edge ⟨t, j⟩ = .unprocessed)

omit [DecidableEq Call] in
theorem Of.frame {h : TaskHandle} {t : ℕ} (ht : Of s h t) (hsub : s'.sub t = s.sub t) : Of s' h t := by
  unfold Of
  rwa [hsub]

omit [DecidableEq Call] in
theorem Ok.frame {c : Call} (hf : Frame c s s') {p : Pc Call} (h : Ok s c p) : Ok s' c p := by
  have hsub : ∀ {t st}, (s.sub t).stage = st → st.holder = some c → s'.sub t = s.sub t :=
    fun hst hc => hf.sub _ (hst ▸ hc)
  cases p with
  | idle => trivial
  | acquiring t em =>
    simp only [Ok] at h ⊢
    rwa [hsub h.1 rfl]
  | opening t i em =>
    simp only [Ok] at h ⊢
    have hhands := hf.hands i h.2.2.1
    rw [hsub h.1 rfl, hhands.2]
    exact ⟨h.1, h.2.1, hhands.1, h.2.2.2⟩
  | creating t i =>
    simp only [Ok] at h ⊢
    have hhands := hf.hands i h.2.1
    rw [hsub h.1 rfl, hhands.2]
    exact ⟨h.1, hhands.1, h.2.2⟩
  | constructing t i =>
    cases i with
    | none =>
      simp only [Ok] at h ⊢
      rwa [hsub h rfl]
    | some i =>
      simp only [Ok] at h ⊢
      rw [hsub h.1 rfl]
      exact ⟨h.1, h.2.1, (hf.hands i h.2.2).1⟩
  | awaiting t _ | inlining t | looping t _ | subtracting t _ _ _ =>
    simp only [Ok] at h ⊢
    rwa [hsub h rfl]
  | inlined t =>
    simp only [Ok] at h ⊢
    rwa [hsub h.1 rfl]
  | publishing t h' =>
    simp only [Ok] at h ⊢
    have hsame : s'.sub t = s.sub t := by
      obtain ⟨h1, _⟩ | h1 := h.1
      · exact hsub h1 rfl
      · exact hsub h1 rfl
    exact ⟨by rw [hsame]; exact h.1, h.2.frame hsame⟩
  | holding t h' | counting t h' | enqueueing t h' | running t h' | taking t h'
  | completing t h' _ =>
    simp only [Ok] at h ⊢
    have hsame := hsub h.1 rfl
    exact ⟨by rw [hsame]; exact h.1, h.2.frame hsame⟩
  | registering t h' k | adding t h' k | refused t h' k =>
    simp only [Ok] at h ⊢
    have hsame := hsub h.1 rfl
    refine ⟨by rw [hsame]; exact h.1, h.2.1.frame hsame, by rw [hsame]; exact h.2.2.1, ?_⟩
    intro j hj
    rw [hsame] at hj
    rw [hf.edge t j (by rw [h.1]; rfl)]
    exact h.2.2.2 j hj
  | retiring t =>
    simp only [Ok] at h ⊢
    have hsame : s'.sub t = s.sub t := by
      obtain h1 | h1 := h
      · exact hsub h1 rfl
      · exact hsub h1 rfl
    rwa [hsame]
  | claimed h' | exchanging h' | calling h' =>
    simp only [Ok] at h ⊢
    obtain ⟨t, hst, hof⟩ := h
    have hsame := hsub hst rfl
    exact ⟨t, by rw [hsame]; exact hst, hof.frame hsame⟩
  | releasing r i next =>
    simp only [Ok] at h ⊢
    cases r <;> cases next <;> simp only [ReleaseOk] at h ⊢ <;> rw [hsub h.1 rfl] <;>
      first | exact h | exact ⟨h.1, (hf.hands i h.2).1⟩
  | driving t d u _ | passing t d u _ =>
    simp only [Ok] at h ⊢
    have hsame := hsub h.2.1 rfl
    rw [hsub h.1 rfl, hsame]
    exact ⟨h.1, h.2.1, h.2.2.frame hsame⟩
  | asking o _ _ | reading o _ _ | rechecking o _ _ _ | answered o _ _ _ =>
    simp only [Ok] at h ⊢
    cases o with
    | none => trivial
    | some x =>
      simp only [CallerOk] at h ⊢
      rwa [hsub h rfl]

/-- The slot a call has in its hands. -/
def Pc.hands : Pc Call → Option ℕ
  | opening _ i _ | creating _ i | constructing _ (some i) => some i
  | releasing .destroying i (.rethrow _) | releasing .bumping i (.rethrow _) => some i
  | releasing .resetting i _ | releasing .freeing i _ | releasing .listing i _ => some i
  | _ => none

/-- The entries a completing call has still to release. -/
def Pc.entries : Pc Call → Taken
  | completing _ _ l | releasing _ _ (.dependents _ l) | looping _ l => l
  | subtracting _ d e rest => (d, e) :: rest
  | driving _ _ _ rest | passing _ _ _ rest => rest
  | _ => []

/-- A list of entries whose edges are all at `x`. -/
structure Entries (s : State Call) (x : EdgeState Call) (l : Taken) : Prop where
  nodup : (l.map Prod.snd).Nodup
  edge : ∀ p ∈ l, s.edge p.2 = x
  position : ∀ p ∈ l, p.2.position < (s.sub p.2.task).dependencies.length
  of : ∀ p ∈ l, Of s p.1 p.2.task

/-- The edges of the submission `t` that count. -/
def openEdges (s : State Call) (t : ℕ) : ℕ :=
  Nat.count (fun k => s.edge ⟨t, k⟩ ≠ .settled) (s.sub t).dependencies.length

/-- The guard of a submission that registers its dependencies. -/
def Stage.guard : Stage Call → ℕ
  | registering _ => 1
  | _ => 0

/-- Still counted in `outstanding_`. -/
def Stage.counts : Stage Call → Bool
  | retired => false
  | _ => true

namespace Stage
variable {st : Stage Call}

omit [DecidableEq Call]

theorem Waits.holding (h : st.Waits) : st.Holding := by cases st <;> trivial

theorem Uncalled.holding (h : st.Uncalled) : st.Holding := by cases st <;> trivial

theorem Over.not_holding (h : st.Over) : ¬st.Holding := by cases st <;> first | exact id | exact h.elim

theorem Waits.eq_waiting (h : st.Waits) (hguard : st.guard = 0) : st = .waiting := by
  cases st <;> first | rfl | exact h.elim | cases hguard

end Stage

/-- What is recorded of a submission at its stage. -/
def Logged (x : Submission Call) : Prop :=
  match x.stage with
  | .running _ => x.invoked = 1
  | .ended _ | .left _ => x.invoked = 1 ∧ x.ended = true
  | .thrown _ => x.invoked = 0 ∧ x.threw = true
  | .retired => x.invoked = 0 ∧ x.threw = true ∨ x.invoked = 1 ∧ x.ended = true
  | _ => x.invoked = 0

/-- Slots, the calls that have them, and the submissions they are handed out to. -/
structure Inv (cfg : PoolConfig) (s : State Call) : Prop where
  ok : ∀ c, Ok s c (s.pc c)
  fresh : ∀ t, s.submitted ≤ t → (s.sub t).stage = .retired ∧ (s.sub t).issued = none ∧
    ∀ k, s.edge ⟨t, k⟩ = .unprocessed
  length : ∀ t, (s.sub t).dependencies.length < word
  generation : ∀ i, (s.slots i).generation = (s.slots i).releases % word
  hands : ∀ i c, (s.slots i).place = .inHands c → (s.pc c).hands = some i
  held : ∀ i t, (s.slots i).place = .held t →
    (s.sub t).issued = some (i, (s.slots i).releases) ∧ (s.sub t).stage.Holding
  capacity : ∀ i, (s.slots i).place ≠ .free → i < cfg.capacity
  issued : ∀ t i e, (s.sub t).issued = some (i, e) →
    (s.sub t).stage.Holding ∧ (s.slots i).place = .held t ∧ e = (s.slots i).releases ∨
      (s.sub t).stage.Over ∧ e < (s.slots i).releases
  function : ∀ i t, (s.slots i).place = .held t → (s.sub t).stage.Uncalled →
    (s.slots i).function = some t
  nodup : s.ready.Nodup
  ready : ∀ h ∈ s.ready, ∃ t, (s.sub t).stage = .queued ∧ Of s h t
  logged : ∀ t < s.submitted, Logged (s.sub t)
  outstanding : s.outstanding = Nat.count (fun t => (s.sub t).stage.counts = true) s.submitted
  listed : ∀ i, Entries s (.listed i) (s.slots i).successors.entries
  taken : ∀ c, Entries s (.taken c) (s.pc c).entries
  early : ∀ t, (s.sub t).stage.Early → ∀ k, s.edge ⟨t, k⟩ = .unprocessed
  waits : ∀ e, s.edge e ≠ .unprocessed → s.edge e ≠ .settled →
    (s.sub e.task).stage.Waits ∧ e.position < (s.sub e.task).dependencies.length
  pending : ∀ i t, (s.slots i).place = .held t → (s.sub t).stage.Waits →
    (s.slots i).pending_dependencies = ((s.sub t).stage.guard + openEdges s t) % word

/-- What a step of the call `c` can make of a submission. -/
inductive Advance (c : Call) (x : Submission Call) : Submission Call → Prop where
  | issue (i e : ℕ) : x.stage = .entering c →
      Advance c x {x with issued := some (i, e), stage := .created c}
  | register : x.stage = .created c → Advance c x {x with stage := .registering c}
  | unguard : x.stage = .registering c → Advance c x {x with stage := .waiting}
  | drive : (x.stage = .created c ∧ x.dependencies = [] ∨ x.stage = .registering c ∨
      x.stage = .waiting ∨ x.stage = .driven c) → Advance c x {x with stage := .driven c}
  | queue : x.stage = .driven c → Advance c x {x with stage := .queued}
  | claim : x.stage = .queued → Advance c x {x with stage := .claimed c}
  | call : x.stage = .claimed c ∨ x.stage = .entering c →
      Advance c x {x with invoked := x.invoked + 1, stage := .running c}
  | ends : x.stage = .running c → Advance c x {x with ended := true, stage := .ended c}
  | endsInline : x.stage = .running c → x.issued = none →
      Advance c x {x with ended := true, stage := .left c}
  | complete : x.stage = .ended c → Advance c x {x with completed := true}
  | leave : x.stage = .ended c → Advance c x {x with stage := .left c}
  | throw : x.stage = .entering c → Advance c x {x with threw := true, stage := .thrown c}
  | retire : x.stage = .left c ∨ x.stage = .thrown c → Advance c x {x with stage := .retired}

namespace Advance
variable {c : Call} {x y : Submission Call}

omit [DecidableEq Call]

/-- The submission is the call's, or nobody's. -/
theorem holder (h : Advance c x y) :
    x.stage.holder = some c ∨ x.stage = .waiting ∨ x.stage = .queued := by
  cases h
  case drive hst =>
    obtain ⟨hst, _⟩ | hst | hst | hst := hst <;> simp [hst, Stage.holder]
  case call hst | retire hst => obtain hst | hst := hst <;> simp [hst, Stage.holder]
  all_goals simp_all [Stage.holder]

theorem dependencies (h : Advance c x y) : y.dependencies = x.dependencies := by
  cases h <;> rfl

theorem issued (h : Advance c x y) : y.issued = x.issued ∨ x.stage = .entering c := by
  cases h
  case issue hst => exact .inr hst
  all_goals exact .inl rfl

/-- A task keeps its slot until it leaves it. -/
theorem holding (h : Advance c x y) (hx : x.stage.Holding) {p : ℕ × ℕ} (hp : x.issued = some p) :
    y.stage.Holding ∨ x.stage = .ended c ∧ y.stage = .left c := by
  cases h
  case endsInline hnone => simp [hnone] at hp
  case leave hst => exact .inr ⟨hst, rfl⟩
  case throw hst =>
    rw [hst] at hx
    exact hx.elim
  case retire hst =>
    obtain hst | hst := hst <;> rw [hst] at hx <;> exact hx.elim
  case complete => exact .inl hx
  all_goals exact .inl trivial

theorem of_queued (h : Advance c x y) (hx : x.stage = .queued) : y.stage = .claimed c := by
  cases h
  case claim => rfl
  case drive hst => obtain ⟨hst, _⟩ | hst | hst | hst := hst <;> cases hx.symm.trans hst
  case call hst | retire hst => obtain hst | hst := hst <;> cases hx.symm.trans hst
  all_goals simp_all

theorem uncalled (h : Advance c x y) (hy : y.stage.Uncalled) :
    x.stage.Uncalled ∨ x.stage = .entering c := by
  cases h
  case issue hst => exact .inr hst
  case complete hst =>
    rw [show (_ : Submission Call).stage = _ from hst] at hy
    exact hy.elim
  case drive hst =>
    obtain ⟨hst, _⟩ | hst | hst | hst := hst <;> rw [hst] <;> exact .inl trivial
  case call | ends | endsInline | leave | throw | retire => exact hy.elim
  all_goals
    left
    simp_all [Stage.Uncalled]

theorem stays_over (h : Advance c x y) (hx : x.stage.Over) : y.stage.Over := by
  cases h
  case retire => trivial
  case complete => exact hx
  case drive hst =>
    obtain ⟨hst, _⟩ | hst | hst | hst := hst <;> rw [hst] at hx <;> exact hx.elim
  case call hst => obtain hst | hst := hst <;> rw [hst] at hx <;> exact hx.elim
  all_goals simp_all [Stage.Over]

theorem logged (h : Advance c x y) (hx : Logged x) : Logged y := by
  cases h
  case drive hst => obtain ⟨hst, _⟩ | hst | hst | hst := hst <;> simpa [Logged, hst] using hx
  case call hst => obtain hst | hst := hst <;> simpa [Logged, hst] using hx
  case retire hst =>
    obtain hst | hst := hst
    · exact .inr (by simpa [Logged, hst] using hx)
    · exact .inl (by simpa [Logged, hst] using hx)
  all_goals simp_all [Logged]

end Advance

/-! ### Handles and slots -/

namespace Inv

/-- A submission that still has its slot. -/
theorem place (h : Inv cfg s) {x : TaskHandle} {t : ℕ} (hx : Of s x t)
    (hst : (s.sub t).stage.Holding) : (s.slots x.index).place = .held t := by
  obtain ⟨e, he, _⟩ := hx
  obtain ⟨_, hplace, _⟩ | ⟨hover, _⟩ := h.issued t _ e he
  · exact hplace
  · exact absurd hst hover.not_holding

/-- One task is waiting in a slot. -/
theorem counter (h : Inv cfg s) {x : TaskHandle} {t : ℕ} (hx : Of s x t)
    (hst : (s.sub t).stage.Waits) : (s.slots x.index).pending_dependencies =
      ((s.sub t).stage.guard + openEdges s t) % word :=
  h.pending _ t (h.place hx hst.holding) hst

theorem openEdges_le (s : State Call) (t : ℕ) :
    openEdges s t ≤ (s.sub t).dependencies.length := Nat.count_le _

/-- The edge a completing call is about to subtract. -/
theorem subtracting (h : Inv cfg s) {c : Call} {t : ℕ} {d : TaskHandle} {e : Edge} {rest : Taken}
    (hpc : s.pc c = .subtracting t d e rest) :
    s.edge e = .taken c ∧ e.position < (s.sub e.task).dependencies.length ∧ Of s d e.task ∧
      (s.sub e.task).stage.Waits := by
  have htaken := h.taken c
  rw [hpc] at htaken
  have hedge := htaken.edge (d, e) (by simp [Pc.entries])
  refine ⟨hedge, htaken.position (d, e) (by simp [Pc.entries]),
    htaken.of (d, e) (by simp [Pc.entries]), ?_⟩
  exact (h.waits e (by simp [hedge]) (by simp [hedge])).1

/-- A counter that drops from one to zero is the last edge of a task without its guard. -/
theorem last (h : Inv cfg s) {c : Call} {t : ℕ} {d : TaskHandle} {e : Edge} {rest : Taken}
    (hpc : s.pc c = .subtracting t d e rest) (hone : (s.slots d.index).pending_dependencies = 1) :
    (s.sub e.task).stage = .waiting ∧ openEdges s e.task = 1 := by
  obtain ⟨hedge, hpos, hof, hwaits⟩ := h.subtracting hpc
  have hcount := h.counter hof hwaits
  rw [hone] at hcount
  have hopen : 0 < openEdges s e.task := by
    apply Nat.pos_of_ne_zero
    intro h0
    exact Nat.count_iff_forall_not.mp h0 _ hpos (by simp [hedge])
  have hle := openEdges_le s e.task
  have hlen := h.length e.task
  have hguard : (s.sub e.task).stage.guard ≤ 1 := by
    cases (s.sub e.task).stage <;> simp [Stage.guard]
  have hsum : (s.sub e.task).stage.guard + openEdges s e.task = 1 := by
    rcases Nat.lt_or_ge ((s.sub e.task).stage.guard + openEdges s e.task) word with hlt | hge
    · rw [Nat.mod_eq_of_lt hlt] at hcount
      exact hcount.symm
    · have : (s.sub e.task).stage.guard + openEdges s e.task = word := by omega
      rw [this, Nat.mod_self] at hcount
      omega
  have hzero : (s.sub e.task).stage.guard = 0 := by omega
  exact ⟨hwaits.eq_waiting hzero, by omega⟩

/-- What the program counter of the caller says. -/
theorem at_pc (h : Inv cfg s) {c : Call} {p : Pc Call} (hpc : s.pc c = p) : Ok s c p := hpc ▸ h.ok c

/-- The task a ready handle names. -/
theorem claim_eq (h : Inv cfg s) (c : Call) {x : TaskHandle} (hx : x ∈ s.ready) :
    ∃ t, (s.sub t).stage = .queued ∧ Of s x t ∧
      s.claim c x = Function.update s.sub t {s.sub t with stage := .claimed c} := by
  obtain ⟨t, hst, hof⟩ := h.ready x hx
  refine ⟨t, hst, hof, ?_⟩
  have hplace := h.place hof (by rw [hst]; trivial)
  unfold State.claim
  rw [hplace]
  rfl

/-- The body in the slot of a claimed task is its own. -/
theorem body (h : Inv cfg s) {c : Call} {x : TaskHandle} (hpc : s.pc c = .calling x) {u : ℕ}
    (hu : (s.slots x.index).function = some u) : (s.sub u).stage = .claimed c ∧ Of s x u := by
  obtain ⟨t, hst, hof⟩ := h.at_pc hpc
  have hbody := h.function _ t (h.place hof (by rw [hst]; trivial)) (by rw [hst]; trivial)
  obtain rfl : t = u := Option.some.inj (hbody.symm.trans hu)
  exact ⟨hst, hof⟩

/-- A submission without a handle has no slot. -/
theorem unissued (h : Inv cfg s) {t : ℕ} {c : Call} (hst : (s.sub t).stage = .entering c) :
    (s.sub t).issued = none := by
  cases hi : (s.sub t).issued with
  | none => rfl
  | some p =>
    obtain ⟨hh, _⟩ | ⟨hh, _⟩ := h.issued t p.1 p.2 hi <;> rw [hst] at hh <;> exact hh.elim

/-- A step changes at most one submission, or makes a new one. -/
theorem sub_step (h : Inv cfg s) (hs : Step cfg a s s') : s'.sub = s.sub ∨
    (∃ t x, s'.sub = Function.update s.sub t x ∧ Advance a.call (s.sub t) x) ∨
    ∃ deps, a = .submit a.call deps ∧ s'.submitted = s.submitted + 1 ∧
      s'.sub = Function.update s.sub s.submitted (.enter a.call deps) := by
  cases hs
  case submit | submit_emplace => exact .inr (.inr ⟨_, rfl, rfl, rfl⟩)
  case create hpc | construct hpc =>
    exact .inr (.inl ⟨_, _, rfl, .issue _ _ (h.at_pc hpc).1⟩)
  case constructThrows hpc => exact .inr (.inl ⟨_, _, rfl, .throw (h.at_pc hpc).1⟩)
  case constructInlineThrows hpc => exact .inr (.inl ⟨_, _, rfl, .throw (h.at_pc hpc)⟩)
  case publish hpc =>
    refine .inr (.inl ⟨_, _, rfl, .drive ?_⟩)
    exact (h.at_pc hpc).1.imp_right fun hst => .inr (.inr hst)
  case enqueue_ready hpc => exact .inr (.inl ⟨_, _, rfl, .queue (h.at_pc hpc).1⟩)
  case storePending hpc => exact .inr (.inl ⟨_, _, rfl, .register (h.at_pc hpc).1⟩)
  case unguardLast hpc _ => exact .inr (.inl ⟨_, _, rfl, .drive (.inr (.inl (h.at_pc hpc).1))⟩)
  case unguard hpc _ => exact .inr (.inl ⟨_, _, rfl, .unguard (h.at_pc hpc).1⟩)
  case run_inline hpc => exact .inr (.inl ⟨_, _, rfl, .call (.inr (h.at_pc hpc))⟩)
  case inlineEnds hpc =>
    exact .inr (.inl ⟨_, _, rfl, .endsInline (h.at_pc hpc).1 (h.at_pc hpc).2⟩)
  case retire hpc => exact .inr (.inl ⟨_, _, rfl, .retire (h.at_pc hpc)⟩)
  case dequeue c x _ hx =>
    obtain ⟨t, hst, _, heq⟩ := h.claim_eq c hx
    exact .inr (.inl ⟨t, _, heq, .claim hst⟩)
  case call hpc hbody => exact .inr (.inl ⟨_, _, rfl, .call (.inl (h.body hpc hbody).1)⟩)
  case ends hpc => exact .inr (.inl ⟨_, _, rfl, .ends (h.at_pc hpc).1⟩)
  case complete hpc => exact .inr (.inl ⟨_, _, rfl, .complete (h.at_pc hpc).1⟩)
  case bump next hpc =>
    cases next with
    | dependents t l => exact .inr (.inl ⟨_, _, rfl, .leave (h.at_pc hpc).1⟩)
    | rethrow t => exact .inl rfl
  case subtractLast hpc hone =>
    exact .inr (.inl ⟨_, _, rfl, .drive (.inr (.inr (.inl (h.last hpc hone).1)))⟩)
  case pass hpc => exact .inr (.inl ⟨_, _, rfl, .queue (h.at_pc hpc).2.1⟩)
  all_goals exact .inl rfl

/-- What a step makes of one submission. -/
theorem advance (h : Inv cfg s) (hs : Step cfg a s s') (t : ℕ) : s'.sub t = s.sub t ∨
    Advance a.call (s.sub t) (s'.sub t) ∨
    t = s.submitted ∧ s'.submitted = s.submitted + 1 ∧
      ∃ deps, a = .submit a.call deps ∧ s'.sub t = .enter a.call deps := by
  obtain heq | ⟨u, x, heq, hadv⟩ | ⟨deps, ha, hnew, heq⟩ := h.sub_step hs
  · exact .inl (by rw [heq])
  · rcases eq_or_ne t u with rfl | hne
    · exact .inr (.inl (by rwa [heq, Function.update_self]))
    · exact .inl (by rw [heq, Function.update_of_ne hne])
  · rcases eq_or_ne t s.submitted with rfl | hne
    · exact .inr (.inr ⟨rfl, hnew, deps, ha, by rw [heq, Function.update_self]⟩)
    · exact .inl (by rw [heq, Function.update_of_ne hne])

/-- A step changes the edges of the submission its call registers, or edges already
registered. -/
theorem edge_step (h : Inv cfg s) (hs : Step cfg a s s') {t : ℕ}
    (ht : (s.sub t).stage.holder ≠ some a.call) (j : ℕ) :
    (s'.edge ⟨t, j⟩ = .unprocessed ↔ s.edge ⟨t, j⟩ = .unprocessed) := by
  have hother : ∀ {u k : ℕ} {x : EdgeState Call}, (s.sub u).stage = .registering a.call →
      Function.update s.edge ⟨u, k⟩ x ⟨t, j⟩ = s.edge ⟨t, j⟩ := by
    intro u k x hst
    refine Function.update_of_ne ?_ _ _
    intro heq
    obtain ⟨rfl, rfl⟩ : t = u ∧ j = k := by simpa using heq
    exact ht (by rw [hst]; rfl)
  have htaken : ∀ {e : Edge} {x y : EdgeState Call}, s.edge e = x → x ≠ .unprocessed →
      y ≠ .unprocessed →
      (Function.update s.edge e y ⟨t, j⟩ = .unprocessed ↔ s.edge ⟨t, j⟩ = .unprocessed) := by
    intro e x y he hx hy
    rcases eq_or_ne (⟨t, j⟩ : Edge) e with rfl | hne
    · rw [Function.update_self, he]
      exact iff_of_false hy hx
    · rw [Function.update_of_ne hne]
  cases hs
  case add hpc _ _ => exact iff_of_eq (congrArg (· = _) (hother (h.at_pc hpc).1))
  case settle hpc => exact iff_of_eq (congrArg (· = _) (hother (h.at_pc hpc).1))
  case take_successors c u x hpc =>
    show (if (⟨t, j⟩ : Edge) ∈ _ then _ else _) = _ ↔ _
    split
    case isTrue hmem =>
      obtain ⟨p, hp, heq⟩ := List.mem_map.mp hmem
      have hedge := (h.listed x.index).edge p hp
      rw [heq] at hedge
      simp [hedge]
    case isFalse => exact Iff.rfl
  case subtract hpc _ | subtractLast hpc _ =>
    exact htaken (h.subtracting hpc).1 (by simp) (by simp)
  all_goals exact Iff.rfl

/-- The slot being released is handed out to the task that ran, or in the call's hands. -/
theorem releasing_place (h : Inv cfg s) {c : Call} {r : Release} {i : ℕ} {next : Next}
    (hpc : s.pc c = .releasing r i next) :
    (s.slots i).place = .inHands c ∨ ∃ t, (s.slots i).place = .held t := by
  have hok : ReleaseOk s c i r next := h.at_pc hpc
  have hended : ∀ {t}, (s.sub t).stage = .ended c → (∃ e, (s.sub t).issued = some (i, e)) →
      (s.slots i).place = .held t := by
    intro t hst hsome
    obtain ⟨e, he⟩ := hsome
    obtain ⟨_, hplace, _⟩ | ⟨hover, _⟩ := h.issued t i e he
    · exact hplace
    · rw [hst] at hover
      exact hover.elim
  cases r <;> cases next <;> simp only [ReleaseOk] at hok <;>
    first | exact .inl hok.2 | exact .inr ⟨_, hended hok.1 hok.2⟩

/-- A step changes no slot in the hands of another call. -/
theorem hands_step (h : Inv cfg s) (hs : Step cfg a s s') {c : Call} (hc : c ≠ a.call) {i : ℕ}
    (hi : (s.slots i).place = .inHands c) :
    (s'.slots i).place = .inHands c ∧ (s'.slots i).function = (s.slots i).function := by
  have hslot : ∀ {j : ℕ} {x : Slot Call}, (i = j → x.place = .inHands c ∧
      x.function = (s.slots j).function) → (Function.update s.slots j x i).place = .inHands c ∧
        (Function.update s.slots j x i).function = (s.slots i).function := by
    intro j x hx
    rcases eq_or_ne i j with rfl | hne
    · rw [Function.update_self]
      exact hx rfl
    · rw [Function.update_of_ne hne]
      exact ⟨hi, rfl⟩
  have hmine : ∀ {j : ℕ}, (s.slots j).place = .inHands a.call → i ≠ j := by
    intro j hj heq
    subst heq
    rw [hi] at hj
    cases hj
    exact hc rfl
  have hheld : ∀ {j t : ℕ}, (s.slots j).place = .held t → i ≠ j := by
    intro j t hj heq
    subst heq
    rw [hi] at hj
    cases hj
  cases hs
  case acquire hfree =>
    refine hslot fun heq => ?_
    subst heq
    rw [hi] at hfree
    cases hfree
  case create hpc => exact hslot fun heq => absurd heq (hmine (h.at_pc hpc).2.1)
  case construct hpc => exact hslot fun heq => absurd heq (hmine (h.at_pc hpc).2.2)
  case publish | storeWaiting | storePending | add | settle | unguardLast | unguard | exchange |
      take_successors | complete | subtract | subtractLast | drive | open_successors |
      reset_successors | storeFree =>
    exact hslot fun heq => ⟨heq ▸ hi, rfl⟩
  case destroy hpc | reenter hpc | bump hpc | list hpc =>
    refine hslot fun heq => ?_
    obtain hplace | ⟨t, hplace⟩ := h.releasing_place hpc
    · exact absurd heq (hmine hplace)
    · exact absurd heq (hheld hplace)
  all_goals exact ⟨hi, rfl⟩

theorem frame_step (h : Inv cfg s) (hs : Step cfg a s s') {c : Call} (hc : c ≠ a.call) :
    Frame c s s' where
  sub t ht := by
    obtain heq | hadv | ⟨rfl, _⟩ := h.advance hs t
    · exact heq
    · exfalso
      obtain hh | hh | hh := hadv.holder
      · exact hc (Option.some.inj (ht.symm.trans hh))
      · rw [hh] at ht
        cases ht
      · rw [hh] at ht
        cases ht
    · rw [(h.fresh _ le_rfl).1] at ht
      cases ht
  hands i hi := h.hands_step hs hc hi
  edge t j ht := by
    refine h.edge_step hs ?_ j
    rw [ht]
    intro heq
    exact hc (Option.some.inj heq)

theorem pc_other (hs : Step cfg a s s') {c : Call} (hc : c ≠ a.call) : s'.pc c = s.pc c := by
  cases hs <;> exact Function.update_of_ne hc _ _

omit [DecidableEq Call] in
theorem of_issued {x : TaskHandle} {t : ℕ} (hx : Of s x t) (heq : (s'.sub t).issued = (s.sub t).issued) :
    Of s' x t := by
  unfold Of
  rwa [heq]

/-- The program counter is not among what `Ok` looks at. -/
theorem ok_pcAt {c : Call} {p : Pc Call} (hp : Ok s c p) : Ok (s.pcAt c p) c ((s.pcAt c p).pc c) := by
  rw [show (s.pcAt c p).pc c = p from Function.update_self ..]
  exact Ok.frame ⟨fun _ _ => rfl, fun _ hi => ⟨hi, rfl⟩, fun _ _ _ => Iff.rfl⟩ hp

omit [DecidableEq Call] in
/-- Dependency `k` is processed: the next is `k + 1`. -/
theorem edges_next {t k n : ℕ} {x : EdgeState Call} (hx : x ≠ .unprocessed)
    (hedge : ∀ j < n, s.edge ⟨t, j⟩ = .unprocessed ↔ k ≤ j) (j : ℕ) (hj : j < n) :
    Function.update s.edge ⟨t, k⟩ x ⟨t, j⟩ = .unprocessed ↔ k + 1 ≤ j := by
  rcases eq_or_ne j k with rfl | hne
  · rw [Function.update_self]
    exact iff_of_false hx (by omega)
  · rw [Function.update_of_ne (by simpa using hne), hedge j hj]
    omega

theorem ok_own (h : Inv cfg s) (hs : Step cfg a s s') : Ok s' a.call (s'.pc a.call) := by
  cases hs
  case submit | submit_emplace =>
    refine ok_pcAt ?_
    simp [Ok, Submission.enter]
  case acquire hpc _ =>
    obtain ⟨hst, hdeps⟩ := h.at_pc hpc
    exact ok_pcAt ⟨hst, hdeps, by simp, fun hem => by simp [hem]⟩
  case exhausted t em hpc =>
    obtain ⟨hst, hdeps⟩ := h.at_pc hpc
    refine ok_pcAt ?_
    unfold exhausted
    split
    · exact hst
    · split <;> exact hst
  case open_successors t i em hpc =>
    obtain ⟨hst, hdeps, hplace, hbody⟩ := h.at_pc hpc
    refine ok_pcAt ?_
    cases em
    · exact ⟨hst, by simpa using hplace, by simpa using hbody rfl⟩
    · exact ⟨hst, hdeps rfl, by simpa using hplace⟩
  case create c t i hpc =>
    have hof : Of (s.issue c t i {s.slots i with state := .Created} .idle) (s.handleTo i) t :=
      ⟨_, by simp, h.generation i⟩
    refine ok_pcAt ?_
    split
    case isTrue hnil => exact ⟨.inl ⟨by simp, by simpa using hnil⟩, hof⟩
    case isFalse => exact ⟨by simp, hof⟩
  case construct t i hpc =>
    obtain ⟨hst, hdeps, hplace⟩ := h.at_pc hpc
    exact ok_pcAt ⟨.inl ⟨by simp, by simpa using hdeps⟩, _, by simp, h.generation i⟩
  case constructInline hpc | awaited hpc | ask hpc | askStale hpc _ | askFound hpc _ | read hpc |
      recheckStale hpc _ | recheck hpc _ | execute hpc _ | refuse hpc _ _ | await hpc _ |
      dependent hpc _ | dependentStale hpc _ =>
    have hok := h.at_pc hpc
    exact ok_pcAt hok
  case looped hpc =>
    have hok := h.at_pc hpc
    exact ok_pcAt (.inl hok)
  case constructThrows hpc =>
    obtain ⟨hst, hdeps, hplace⟩ := h.at_pc hpc
    exact ok_pcAt ⟨by simp, by simpa using hplace⟩
  case constructInlineThrows hpc => exact ok_pcAt (.inr (by simp))
  case publish hpc => exact ok_pcAt ⟨by simp, of_issued (h.at_pc hpc).2 (by simp)⟩
  case enqueue_ready | unguard | retire | executeStale => exact ok_pcAt trivial
  case storeWaiting hpc =>
    have hok := h.at_pc hpc
    exact ok_pcAt hok
  case storePending c t x hpc =>
    obtain ⟨hst, hof⟩ := h.at_pc hpc
    refine ok_pcAt ⟨by simp, of_issued hof (by simp), Nat.zero_le _, fun j _ => ?_⟩
    have hearly := h.early t (by rw [hst]; trivial) j
    simpa using hearly
  case stale hpc hd _ | lookup hpc hd _ =>
    obtain ⟨hst, hof, _, hedge⟩ := h.at_pc hpc
    exact ok_pcAt ⟨hst, hof, (List.getElem?_eq_some_iff.mp hd).1, hedge⟩
  case add t x k d l hpc hd _ =>
    obtain ⟨hst, hof, hlt, hedge⟩ := h.at_pc hpc
    exact ok_pcAt ⟨hst, hof, hlt, edges_next (by simp) hedge⟩
  case settle t x k hpc =>
    obtain ⟨hst, hof, hlt, hedge⟩ := h.at_pc hpc
    exact ok_pcAt ⟨hst, hof, hlt, edges_next (by simp) hedge⟩
  case unguardLast hpc _ => exact ok_pcAt ⟨.inr (by simp), of_issued (h.at_pc hpc).2.1 (by simp)⟩
  case run_inline hpc => exact ok_pcAt ⟨by simp, by simpa using h.unissued (h.at_pc hpc)⟩
  case inlineEnds hpc => exact ok_pcAt (.inl (by simp))
  case dequeue c x _ hx =>
    obtain ⟨t, hst, hof, heq⟩ := h.claim_eq c hx
    refine ok_pcAt ⟨t, ?_, of_issued hof ?_⟩ <;> simp [heq]
  case exchange hpc =>
    have hok := h.at_pc hpc
    exact ok_pcAt hok
  case call hpc hbody => exact ok_pcAt ⟨by simp, of_issued (h.body hpc hbody).2 (by simp)⟩
  case ends hpc => exact ok_pcAt ⟨by simp, of_issued (h.at_pc hpc).2 (by simp)⟩
  case take_successors hpc =>
    have hok := h.at_pc hpc
    exact ok_pcAt hok
  case complete hpc =>
    obtain ⟨hst, e, he, _⟩ := h.at_pc hpc
    exact ok_pcAt ⟨by simpa using hst, e, by simpa using he⟩
  case destroy r i next hpc =>
    have hok : ReleaseOk s _ _ _ _ := h.at_pc hpc
    refine ok_pcAt ?_
    cases next <;> simpa [Ok, ReleaseOk] using hok
  case reenter next hpc =>
    have hok : ReleaseOk s _ _ _ _ := h.at_pc hpc
    refine ok_pcAt ?_
    cases next <;> simpa [Ok, ReleaseOk, Next.reentered] using hok
  case bump next hpc =>
    have hok : ReleaseOk s _ _ _ _ := h.at_pc hpc
    refine ok_pcAt ?_
    cases next with
    | dependents t l => simp [Ok, ReleaseOk, State.leave]
    | rethrow t => simpa [Ok, ReleaseOk, State.leave] using hok.1
  case reset_successors next hpc | storeFree next hpc =>
    have hok : ReleaseOk s _ _ _ _ := h.at_pc hpc
    refine ok_pcAt ?_
    cases next <;> simpa [Ok, ReleaseOk] using hok
  case list next hpc =>
    have hok : ReleaseOk s _ _ _ _ := h.at_pc hpc
    refine ok_pcAt ?_
    cases next with
    | dependents t l => exact hok.1
    | rethrow t => exact .inr hok.1
  case subtract hpc _ =>
    have hok := h.at_pc hpc
    exact ok_pcAt hok
  case subtractLast t d e rest hpc hone =>
    have hok : (s.sub t).stage = _ := h.at_pc hpc
    have hwaiting := (h.last hpc hone).1
    have hne : t ≠ e.task := by
      intro heq
      rw [heq, hwaiting] at hok
      cases hok
    refine ok_pcAt ⟨?_, by simp, of_issued (h.subtracting hpc).2.2.1 (by simp)⟩
    simpa [hne] using hok
  case drive hpc =>
    have hok := h.at_pc hpc
    exact ok_pcAt hok
  case pass t d u rest hpc =>
    obtain ⟨hst, hu, _⟩ := h.at_pc hpc
    have hne : t ≠ u := by
      intro heq
      rw [heq, hu] at hst
      cases hst
    exact ok_pcAt (by simpa [Ok, hne] using hst)
  case answer o _ _ r hpc =>
    have hok : CallerOk s _ o := h.at_pc hpc
    refine ok_pcAt ?_
    cases o with
    | none => trivial
    | some x => exact hok

theorem ok_step (h : Inv cfg s) (hs : Step cfg a s s') (c : Call) : Ok s' c (s'.pc c) := by
  rcases eq_or_ne c a.call with rfl | hc
  · exact h.ok_own hs
  · rw [pc_other hs hc]
    exact (h.ok c).frame (h.frame_step hs hc)

omit [DecidableEq Call] in
/-- A field that the new value shares with the old one. -/
theorem proj_update {α β : Type} (f : α → β) (g : ℕ → α) {i : ℕ} {x : α} (hx : f x = f (g i)) (j : ℕ) :
    f (Function.update g i x j) = f (g j) := by
  rcases eq_or_ne j i with rfl | hne
  · rw [Function.update_self, hx]
  · rw [Function.update_of_ne hne]

theorem submitted_step (hs : Step cfg a s s') : s'.submitted = s.submitted ∨
    s'.submitted = s.submitted + 1 ∧ ∃ deps, s'.sub s.submitted = .enter a.call deps := by
  cases hs
  case submit | submit_emplace => exact .inr ⟨rfl, _, Function.update_self ..⟩
  all_goals exact .inl rfl

theorem fresh_step (h : Inv cfg s) (hs : Step cfg a s s') (t : ℕ) (ht : s'.submitted ≤ t) :
    (s'.sub t).stage = .retired ∧ (s'.sub t).issued = none ∧ ∀ k, s'.edge ⟨t, k⟩ = .unprocessed := by
  have hold : s.submitted ≤ t := by
    obtain heq | ⟨heq, _⟩ := submitted_step hs <;> omega
  obtain ⟨hst, hissued, hedge⟩ := h.fresh t hold
  have hsame : s'.sub t = s.sub t := by
    obtain heq | hadv | ⟨rfl, hnew, _⟩ := h.advance hs t
    · exact heq
    · obtain hh | hh | hh := hadv.holder <;> rw [hst] at hh <;> cases hh
    · omega
  rw [hsame]
  refine ⟨hst, hissued, fun k => (h.edge_step hs ?_ k).mpr (hedge k)⟩
  rw [hst]
  exact nofun

/-- A handle stays with its submission. -/
theorem issued_step (h : Inv cfg s) (hs : Step cfg a s s') {t : ℕ} {p : ℕ × ℕ}
    (ht : (s.sub t).issued = some p) : (s'.sub t).issued = some p := by
  obtain heq | hadv | ⟨rfl, _⟩ := h.advance hs t
  · rwa [heq]
  · obtain heq | hst := hadv.issued
    · rwa [heq]
    · rw [h.unissued hst] at ht
      cases ht
  · rw [(h.fresh _ le_rfl).2.1] at ht
    cases ht

theorem of_step (h : Inv cfg s) (hs : Step cfg a s s') {x : TaskHandle} {t : ℕ} (hx : Of s x t) :
    Of s' x t := by
  obtain ⟨e, he, hg⟩ := hx
  exact ⟨e, h.issued_step hs he, hg⟩

/-- A slot keeps its generation, or is released by the call that has it. -/
theorem releases_step (hs : Step cfg a s s') (i : ℕ) :
    (s'.slots i).generation = (s.slots i).generation ∧ (s'.slots i).releases = (s.slots i).releases ∨
      (∃ next, s.pc a.call = .releasing .bumping i next) ∧
        (s'.slots i).generation = ((s.slots i).generation + 1) % word ∧
          (s'.slots i).releases = (s.slots i).releases + 1 := by
  have hold : ∀ {j : ℕ} {x : Slot Call},
      x.generation = (s.slots j).generation ∧ x.releases = (s.slots j).releases →
      (Function.update s.slots j x i).generation = (s.slots i).generation ∧
        (Function.update s.slots j x i).releases = (s.slots i).releases :=
    fun hx => ⟨proj_update _ _ hx.1 i, proj_update _ _ hx.2 i⟩
  cases hs
  case bump c j next hpc =>
    rcases eq_or_ne i j with rfl | hne
    · exact .inr ⟨⟨next, hpc⟩, by simp, by simp⟩
    · exact .inl (by simp [hne])
  all_goals first | exact .inl ⟨rfl, rfl⟩ | exact .inl (hold ⟨by rfl, by rfl⟩)

theorem generation_step (h : Inv cfg s) (hs : Step cfg a s s') (i : ℕ) :
    (s'.slots i).generation = (s'.slots i).releases % word := by
  obtain ⟨hg, hr⟩ | ⟨_, hg, hr⟩ := releases_step hs i
  · rw [hg, hr, h.generation i]
  · rw [hg, hr, h.generation i, Nat.mod_add_mod]

theorem logged_step (h : Inv cfg s) (hs : Step cfg a s s') (t : ℕ) (ht : t < s'.submitted) :
    Logged (s'.sub t) := by
  by_cases hold : t < s.submitted
  · obtain heq | hadv | ⟨rfl, _⟩ := h.advance hs t
    · rw [heq]
      exact h.logged t hold
    · exact hadv.logged (h.logged t hold)
    · omega
  · obtain heq | ⟨_, deps, heq⟩ := submitted_step hs
    · omega
    · obtain rfl : t = s.submitted := by omega
      rw [heq]
      rfl

/-- What a step of the call `c` can make of the place of slot `i`. -/
inductive Moved (cfg : PoolConfig) (s s' : State Call) (c : Call) (i : ℕ) : Prop where
  | stays : (s'.slots i).place = (s.slots i).place →
      ((s'.slots i).releases = (s.slots i).releases ∨ (s.slots i).place = .inHands c) →
      ((s'.slots i).function = (s.slots i).function ∨ (s.slots i).place = .inHands c ∨
        ∃ t, (s.slots i).place = .held t ∧ (s.sub t).stage = .ended c) →
      ((s.slots i).place = .inHands c → (s'.pc c).hands = some i) → Moved cfg s s' c i
  | acquired : (s.slots i).place = .free → (s'.slots i).place = .inHands c → i < cfg.capacity →
      (s'.pc c).hands = some i → Moved cfg s s' c i
  | issued (t : ℕ) : (s.slots i).place = .inHands c → (s'.slots i).place = .held t →
      (s.sub t).stage = .entering c →
      (s'.sub t).issued = some (i, (s'.slots i).releases) → (s'.sub t).stage = .created c →
      (s'.slots i).function = some t →
      (s.pc c = .creating t i ∨ s.pc c = .constructing t (some i)) → Moved cfg s s' c i
  | left (t : ℕ) : (s.slots i).place = .held t → (s'.slots i).place = .inHands c →
      (s'.pc c).hands = some i → (s'.sub t).stage = .left c →
      (s'.slots i).releases = (s.slots i).releases + 1 →
      (∃ l, s.pc c = .releasing .bumping i (.dependents t l)) → Moved cfg s s' c i
  | freed : (s.slots i).place = .inHands c → (s'.slots i).place = .free →
      (∃ next, s.pc c = .releasing .listing i next) → Moved cfg s s' c i

theorem moved_step (h : Inv cfg s) (hs : Step cfg a s s') (i : ℕ) : Moved cfg s s' a.call i := by
  have hstay : (s'.slots i).place = (s.slots i).place ∧ (s'.slots i).releases = (s.slots i).releases ∧
      (s'.slots i).function = (s.slots i).function → (s'.pc a.call).hands = (s.pc a.call).hands →
      Moved cfg s s' a.call i := by
    intro ⟨hplace, hrel, hbody⟩ hpc
    exact .stays hplace (.inl hrel) (.inl hbody) fun hi => hpc.trans (h.hands i _ hi)
  have hwrite : ∀ {j : ℕ} {x : Slot Call}, x.place = (s.slots j).place ∧
      x.releases = (s.slots j).releases ∧ x.function = (s.slots j).function →
      (Function.update s.slots j x i).place = (s.slots i).place ∧
        (Function.update s.slots j x i).releases = (s.slots i).releases ∧
        (Function.update s.slots j x i).function = (s.slots i).function :=
    fun hx => ⟨proj_update Slot.place _ hx.1 i, proj_update Slot.releases _ hx.2.1 i,
      proj_update Slot.function _ hx.2.2 i⟩
  -- A slot other than the one the step is about.
  have hother : ∀ {j : ℕ}, i ≠ j → ((s.pc a.call).hands = none ∨ (s.pc a.call).hands = some j) →
      s'.slots i = s.slots i → Moved cfg s s' a.call i := by
    intro j hne hpc hslot
    refine .stays (by rw [hslot]) (.inl (by rw [hslot])) (.inl (by rw [hslot])) fun hi => ?_
    have hhands := h.hands i _ hi
    obtain hpc | hpc := hpc <;> rw [hhands] at hpc
    · cases hpc
    · exact absurd (Option.some.inj hpc) hne
  cases hs
  case acquire c t em j hlt hpc hfree =>
    rcases eq_or_ne i j with rfl | hne
    · exact .acquired hfree (by simp) hlt (by simp [Pc.hands])
    · exact hother hne (.inl (by simp [hpc, Pc.hands])) (by simp [hne])
  case create c t j hpc =>
    obtain ⟨hst, hplace, hbody⟩ := h.at_pc hpc
    rcases eq_or_ne i j with rfl | hne
    · exact .issued t hplace (by simp) hst (by simp) (by simp) (by simpa using hbody) (.inl hpc)
    · exact hother hne (.inr (by simp [hpc, Pc.hands])) (by simp [hne])
  case construct c t j hpc =>
    obtain ⟨hst, _, hplace⟩ := h.at_pc hpc
    rcases eq_or_ne i j with rfl | hne
    · exact .issued t hplace (by simp) hst (by simp) (by simp) (by simp) (.inr hpc)
    · exact hother hne (.inr (by simp [hpc, Pc.hands])) (by simp [hne])
  case bump c j next hpc =>
    have hok : ReleaseOk s c j _ next := h.at_pc hpc
    rcases eq_or_ne i j with rfl | hne
    · cases next with
      | dependents t l =>
        obtain ⟨hst, e, he⟩ := hok
        have hplace := (h.issued t i e he).resolve_right (by simp [hst, Stage.Over])
        exact .left t hplace.2.1 (by simp) (by simp [Pc.hands]) (by simp [State.leave]) (by simp) ⟨l, hpc⟩
      | rethrow t => exact .stays (by simp [hok.2]) (.inr hok.2) (.inr (.inl hok.2)) fun _ => by simp [Pc.hands]
    · refine hother hne ?_ (by simp [hne])
      cases next <;> simp [hpc, Pc.hands]
  case list c j next hpc =>
    have hok : ReleaseOk s c j _ next := h.at_pc hpc
    rcases eq_or_ne i j with rfl | hne
    · refine .freed ?_ (by simp) ⟨next, hpc⟩
      cases next <;> exact hok.2
    · exact hother hne (.inr (by simp [hpc, Pc.hands])) (by simp [hne])
  case open_successors em hpc =>
    refine hstay (hwrite ⟨by rfl, by rfl, by rfl⟩) ?_
    cases em <;> simp [hpc, Pc.hands]
  case destroy c j next hpc | reenter c j next hpc =>
    have hok : ReleaseOk s c j _ next := h.at_pc hpc
    rcases eq_or_ne i j with rfl | hne
    · refine .stays (by simp) (.inl (by simp)) (.inr ?_) ?_
      · cases next with
        | dependents t l =>
          obtain ⟨hst, e, he⟩ := hok
          have hplace := (h.issued t i e he).resolve_right (by simp [hst, Stage.Over])
          exact .inr ⟨t, hplace.2.1, hst⟩
        | rethrow t => exact .inl hok.2
      · intro hi
        have hhands := h.hands i _ hi
        cases next <;> simp_all [Pc.hands, Next.reentered]
    · refine hother hne ?_ (by simp [hne])
      cases next <;> simp [hpc, Pc.hands]
  case publish hpc | storeWaiting hpc | storePending hpc | settle hpc | exchange hpc |
      take_successors hpc | complete hpc | drive hpc | reset_successors hpc | storeFree hpc =>
    exact hstay (hwrite ⟨by rfl, by rfl, by rfl⟩) (by simp [hpc, Pc.hands])
  case unguardLast hpc _ | unguard hpc _ | subtract hpc _ | subtractLast hpc _ =>
    exact hstay (hwrite ⟨by rfl, by rfl, by rfl⟩) (by simp [hpc, Pc.hands])
  case add hpc _ _ =>
    exact hstay (hwrite ⟨by rfl, by rfl, by rfl⟩) (by simp [hpc, Pc.hands])
  case exhausted hpc =>
    refine hstay ⟨rfl, rfl, rfl⟩ ?_
    simp only [State.pcAt, Act.call, Function.update_self, hpc]
    unfold exhausted
    split
    · rfl
    · split <;> rfl
  case answer o _ _ _ hpc =>
    refine hstay ⟨rfl, rfl, rfl⟩ ?_
    cases o <;> simp [hpc, returned, Pc.hands]
  case submit hpc | submit_emplace hpc | constructInline hpc | constructThrows hpc |
      constructInlineThrows hpc | enqueue_ready hpc | awaited hpc | run_inline hpc | inlineEnds hpc |
      retire hpc | ends hpc | looped hpc | pass hpc | ask hpc | read hpc =>
    exact hstay ⟨rfl, rfl, rfl⟩ (by simp [hpc, Pc.hands])
  case stale hpc _ _ | lookup hpc _ _ | refuse hpc _ _ =>
    exact hstay ⟨rfl, rfl, rfl⟩ (by simp [hpc, Pc.hands])
  case await hpc _ | dequeue hpc _ | execute hpc _ | executeStale hpc _ | call hpc _ |
      dependent hpc _ | dependentStale hpc _ | askStale hpc _ | askFound hpc _ |
      recheckStale hpc _ | recheck hpc _ =>
    exact hstay ⟨rfl, rfl, rfl⟩ (by simp [hpc, Pc.hands])

theorem hands_of_place (h : Inv cfg s) (hs : Step cfg a s s') (i : ℕ) (c : Call)
    (hi : (s'.slots i).place = .inHands c) : (s'.pc c).hands = some i := by
  have hkeep : (s.slots i).place = .inHands c → c ≠ a.call → (s'.pc c).hands = some i := by
    intro hplace hc
    rw [pc_other hs hc]
    exact h.hands i c hplace
  rcases h.moved_step hs i with ⟨hplace, _, _, hmine⟩ | ⟨_, hplace, _, hmine⟩ | ⟨t, _, hplace, _⟩ |
    ⟨t, _, hplace, hmine, _⟩ | ⟨_, hplace⟩
  · rw [hplace] at hi
    by_cases hc : c = a.call
    · subst hc
      exact hmine hi
    · exact hkeep hi hc
  · rw [hplace] at hi
    cases hi
    exact hmine
  · rw [hplace] at hi
    cases hi
  · rw [hplace] at hi
    cases hi
    exact hmine
  · rw [hplace] at hi
    cases hi

omit [DecidableEq Call] in
/-- The submission a step changes is the one it writes. -/
theorem hit {t u : ℕ} {x : Submission Call} (heq : s'.sub = Function.update s.sub u x)
    (hne : s'.sub t ≠ s.sub t) : t = u ∧ s'.sub t = x := by
  rw [heq] at hne ⊢
  rcases eq_or_ne t u with rfl | htu
  · exact ⟨rfl, Function.update_self ..⟩
  · exact absurd (Function.update_of_ne htu _ _) hne

/-- A task leaves its slot when the generation of the slot is advanced. -/
theorem leaves (h : Inv cfg s) (hs : Step cfg a s s') {t : ℕ}
    (hst : (s.sub t).stage = .ended a.call) (hover : (s'.sub t).stage = .left a.call) :
    ∃ i l, s.pc a.call = .releasing .bumping i (.dependents t l) ∧
      (s'.slots i).place = .inHands a.call := by
  have hne : s'.sub t ≠ s.sub t := by
    intro heq
    rw [heq, hst] at hover
    cases hover
  cases hs
  case bump c j next hpc =>
    cases next with
    | rethrow u => exact absurd rfl hne
    | dependents u l =>
      obtain ⟨rfl, _⟩ := hit (by rfl) hne
      exact ⟨j, l, hpc, by simp⟩
  case inlineEnds hpc =>
    obtain ⟨rfl, _⟩ := hit (by rfl) hne
    rw [(h.at_pc hpc).1] at hst
    cases hst
  case dequeue c x _ hx =>
    obtain ⟨u, _, _, heq⟩ := h.claim_eq c hx
    rw [(hit heq hne).2] at hover
    cases hover
  case complete =>
    obtain ⟨rfl, heq⟩ := hit (by rfl) hne
    rw [heq] at hover
    cases hst.symm.trans hover
  case submit | submit_emplace | create | construct | constructThrows | constructInlineThrows |
      publish | enqueue_ready | storePending | unguardLast | unguard | run_inline | retire | call |
      ends | subtractLast | pass =>
    rw [(hit (by rfl) hne).2] at hover
    cases hover
  all_goals exact absurd rfl hne

theorem held_step (h : Inv cfg s) (hs : Step cfg a s s') (i t : ℕ)
    (hi : (s'.slots i).place = .held t) :
    (s'.sub t).issued = some (i, (s'.slots i).releases) ∧ (s'.sub t).stage.Holding := by
  rcases h.moved_step hs i with ⟨hplace, hrel, _⟩ | ⟨_, hplace, _⟩ | ⟨u, _, hplace, _, hu, hst, _⟩ |
    ⟨u, _, hplace, _⟩ | ⟨_, hplace⟩
  · rw [hplace] at hi
    obtain ⟨hissued, hhold⟩ := h.held i t hi
    have hrel : (s'.slots i).releases = (s.slots i).releases := by
      rw [hi] at hrel
      exact hrel.resolve_right nofun
    refine ⟨by rw [hrel]; exact h.issued_step hs hissued, ?_⟩
    obtain heq | hadv | ⟨rfl, _⟩ := h.advance hs t
    · rwa [heq]
    · -- A task that leaves leaves its slot.
      obtain hh | ⟨hended, hover⟩ := hadv.holding hhold hissued
      · exact hh
      · obtain ⟨j, l, hpc, hhands⟩ := h.leaves hs hended hover
        obtain ⟨_, e, he⟩ : ReleaseOk s a.call j .bumping (.dependents t l) := h.at_pc hpc
        rw [he] at hissued
        cases hissued
        rw [hhands, hi] at hplace
        cases hplace
    · rw [(h.fresh _ le_rfl).1] at hhold
      exact hhold.elim
  · rw [hplace] at hi
    cases hi
  · rw [hplace] at hi
    cases hi
    exact ⟨hu, by rw [hst]; trivial⟩
  · rw [hplace] at hi
    cases hi
  · rw [hplace] at hi
    cases hi

/-- A handle is new when the slot is handed out. -/
theorem issues (h : Inv cfg s) (hs : Step cfg a s s') {t i e : ℕ}
    (hst : (s.sub t).stage = .entering a.call) (hissued : (s'.sub t).issued = some (i, e)) :
    (s'.slots i).place = .held t ∧ e = (s'.slots i).releases := by
  have hkeeps : (s'.sub t).issued ≠ (s.sub t).issued := by
    rw [hissued, h.unissued hst]
    exact nofun
  have hne : s'.sub t ≠ s.sub t := fun heq => hkeeps (by rw [heq])
  cases hs
  case create | construct =>
    obtain ⟨rfl, heq⟩ := hit (by rfl) hne
    rw [heq] at hissued
    cases hissued
    simp
  case submit | submit_emplace =>
    rw [(hit (by rfl) hne).2] at hissued
    cases hissued
  case dequeue c x _ hx =>
    obtain ⟨u, _, _, heq⟩ := h.claim_eq c hx
    refine absurd ?_ hkeeps
    show (s.claim c x t).issued = _
    rw [heq]
    exact proj_update Submission.issued _ (by rfl) t
  case bump next _ =>
    cases next with
    | dependents u l => exact absurd (proj_update Submission.issued _ (by rfl) t) hkeeps
    | rethrow u => exact absurd rfl hkeeps
  all_goals first | exact absurd rfl hkeeps
                  | exact absurd (proj_update Submission.issued _ (by rfl) t) hkeeps

theorem releases_le (hs : Step cfg a s s') (i : ℕ) : (s.slots i).releases ≤ (s'.slots i).releases := by
  obtain ⟨_, hr⟩ | ⟨_, _, hr⟩ := releases_step hs i <;> omega

theorem issued_field (h : Inv cfg s) (hs : Step cfg a s s') (t i e : ℕ)
    (hissued : (s'.sub t).issued = some (i, e)) :
    (s'.sub t).stage.Holding ∧ (s'.slots i).place = .held t ∧ e = (s'.slots i).releases ∨
      (s'.sub t).stage.Over ∧ e < (s'.slots i).releases := by
  by_cases hold : (s.sub t).issued = some (i, e)
  · obtain ⟨hhold, hplace, he⟩ | ⟨hover, he⟩ := h.issued t i e hold
    · rcases h.moved_step hs i with ⟨hplace', hrel, _⟩ | ⟨hfree, _⟩ | ⟨u, hhands, _⟩ |
        ⟨u, hu, _, _, hst, hrel⟩ | ⟨hhands, _⟩
      · rw [hplace] at hplace' hrel
        exact .inl ⟨(h.held_step hs i t hplace').2, hplace',
          he.trans (hrel.resolve_right nofun).symm⟩
      · rw [hplace] at hfree
        cases hfree
      · rw [hplace] at hhands
        cases hhands
      · rw [hplace] at hu
        cases hu
        exact .inr ⟨by rw [hst]; trivial, by omega⟩
      · rw [hplace] at hhands
        cases hhands
    · right
      refine ⟨?_, he.trans_le (releases_le hs i)⟩
      obtain heq | hadv | ⟨rfl, _⟩ := h.advance hs t
      · rwa [heq]
      · exact hadv.stays_over hover
      · rw [(h.fresh _ le_rfl).2.1] at hold
        cases hold
  · left
    have hst : (s.sub t).stage = .entering a.call := by
      obtain heq | hadv | ⟨rfl, _, deps, _, heq⟩ := h.advance hs t
      · rw [heq] at hissued
        exact absurd hissued hold
      · obtain heq | hst := hadv.issued
        · rw [heq] at hissued
          exact absurd hissued hold
        · exact hst
      · rw [heq] at hissued
        cases hissued
    obtain ⟨hplace, he⟩ := h.issues hs hst hissued
    exact ⟨(h.held_step hs i t hplace).2, hplace, he⟩

theorem capacity_step (h : Inv cfg s) (hs : Step cfg a s s') (i : ℕ)
    (hi : (s'.slots i).place ≠ .free) : i < cfg.capacity := by
  rcases h.moved_step hs i with ⟨hplace, _⟩ | ⟨_, _, hlt, _⟩ | ⟨t, hplace, _⟩ | ⟨t, hplace, _⟩ |
    ⟨_, hplace⟩
  · exact h.capacity i (by rwa [← hplace])
  · exact hlt
  · exact h.capacity i (by rw [hplace]; exact nofun)
  · exact h.capacity i (by rw [hplace]; exact nofun)
  · exact absurd hplace hi

theorem function_step (h : Inv cfg s) (hs : Step cfg a s s') (i t : ℕ)
    (hi : (s'.slots i).place = .held t) (huncalled : (s'.sub t).stage.Uncalled) :
    (s'.slots i).function = some t := by
  rcases h.moved_step hs i with ⟨hplace, _, hbody, _⟩ | ⟨_, hplace, _⟩ | ⟨u, _, hplace, _, _, _, hbody⟩ |
    ⟨u, _, hplace, _⟩ | ⟨_, hplace⟩
  · rw [hplace] at hi
    obtain ⟨hissued, hhold⟩ := h.held i t hi
    have hbefore : (s.sub t).stage.Uncalled := by
      obtain heq | hadv | ⟨rfl, _⟩ := h.advance hs t
      · rwa [← heq]
      · obtain hh | hst := hadv.uncalled huncalled
        · exact hh
        · rw [h.unissued hst] at hissued
          cases hissued
      · rw [(h.fresh _ le_rfl).1] at hhold
        exact hhold.elim
    obtain hbody | hhands | ⟨u, hu, hended⟩ := hbody
    · rw [hbody]
      exact h.function i t hi hbefore
    · rw [hi] at hhands
      cases hhands
    · rw [hi] at hu
      cases hu
      rw [hended] at hbefore
      exact hbefore.elim
  · rw [hplace] at hi
    cases hi
  · rw [hplace] at hi
    cases hi
    exact hbody
  · rw [hplace] at hi
    cases hi
  · rw [hplace] at hi
    cases hi

/-! ### The ready queues and the counter of tasks -/

/-- A task is on the ready queue until it is taken off. -/
theorem queued_step (h : Inv cfg s) (hs : Step cfg a s s') {t : ℕ} (hst : (s.sub t).stage = .queued) :
    (s'.sub t).stage = .queued ∨ ∃ x ∈ s.ready, Of s x t ∧ s'.ready = s.ready.erase x := by
  by_cases hne : s'.sub t = s.sub t
  · exact .inl (by rw [hne, hst])
  · have hclaimed : (s'.sub t).stage = .claimed a.call := by
      obtain heq | hadv | ⟨rfl, _⟩ := h.advance hs t
      · exact absurd heq hne
      · exact hadv.of_queued hst
      · rw [(h.fresh _ le_rfl).1] at hst
        cases hst
    cases hs
    case dequeue c x _ hx =>
      obtain ⟨u, _, hof, heq⟩ := h.claim_eq c hx
      obtain ⟨rfl, _⟩ := hit heq hne
      exact .inr ⟨x, hx, hof, rfl⟩
    case complete hpc =>
      obtain ⟨rfl, heq⟩ := hit (by rfl) hne
      rw [(h.at_pc hpc).1] at hst
      cases hst
    case bump next _ =>
      cases next with
      | dependents u l =>
        rw [(hit (by rfl) hne).2] at hclaimed
        cases hclaimed
      | rethrow u => exact absurd rfl hne
    case submit | submit_emplace | create | construct | constructThrows | constructInlineThrows |
        publish | enqueue_ready | storePending | unguardLast | unguard | run_inline | inlineEnds |
        retire | call | ends | subtractLast | pass =>
      rw [(hit (by rfl) hne).2] at hclaimed
      cases hclaimed
    all_goals exact absurd rfl hne

/-- A handle is enqueued when its task has been driven. -/
theorem ready_step (h : Inv cfg s) (hs : Step cfg a s s') : s'.ready = s.ready ∨
    (∃ x t, s'.ready = x ::ₘ s.ready ∧ (s.sub t).stage = .driven a.call ∧ Of s x t ∧
      (s'.sub t).stage = .queued) ∨
    ∃ x ∈ s.ready, s'.ready = s.ready.erase x := by
  cases hs
  case enqueue_ready hpc =>
    obtain ⟨hst, hof⟩ := h.at_pc hpc
    exact .inr (.inl ⟨_, _, rfl, hst, hof, by simp⟩)
  case pass hpc =>
    obtain ⟨_, hst, hof⟩ := h.at_pc hpc
    exact .inr (.inl ⟨_, _, rfl, hst, hof, by simp⟩)
  case dequeue hx => exact .inr (.inr ⟨_, hx, rfl⟩)
  all_goals exact .inl rfl

/-- A live task has one handle. -/
theorem of_unique (h : Inv cfg s) {x : TaskHandle} {t u : ℕ} (ht : Of s x t) (hu : Of s x u)
    (htst : (s.sub t).stage.Holding) (hust : (s.sub u).stage.Holding) : t = u := by
  have hplace := (h.place ht htst).symm.trans (h.place hu hust)
  cases hplace
  rfl

theorem nodup_step (h : Inv cfg s) (hs : Step cfg a s s') : s'.ready.Nodup := by
  obtain heq | ⟨x, t, heq, hst, hof, _⟩ | ⟨x, _, heq⟩ := h.ready_step hs
  · rw [heq]
    exact h.nodup
  · rw [heq]
    refine Multiset.nodup_cons.mpr ⟨fun hx => ?_, h.nodup⟩
    obtain ⟨u, hu, hof'⟩ := h.ready x hx
    obtain rfl := h.of_unique hof hof' (by rw [hst]; trivial) (by rw [hu]; trivial)
    cases hst.symm.trans hu
  · rw [heq]
    exact h.nodup.erase x

theorem ready_field (h : Inv cfg s) (hs : Step cfg a s s') (x : TaskHandle) (hx : x ∈ s'.ready) :
    ∃ t, (s'.sub t).stage = .queued ∧ Of s' x t := by
  have hold : x ∈ s.ready → (∀ y ∈ s.ready, s'.ready = s.ready.erase y → x ≠ y) →
      ∃ t, (s'.sub t).stage = .queued ∧ Of s' x t := by
    intro hx hne
    obtain ⟨t, hst, hof⟩ := h.ready x hx
    refine ⟨t, (h.queued_step hs hst).resolve_right ?_, h.of_step hs hof⟩
    intro hsome
    obtain ⟨y, hy, hofy, heq⟩ := hsome
    refine hne y hy heq ?_
    -- Two handles of one task are equal.
    obtain ⟨e, he, hg⟩ := hof
    obtain ⟨e', he', hg'⟩ := hofy
    rw [he] at he'
    obtain ⟨hindex, rfl⟩ : x.index = y.index ∧ e = e' := by simpa using he'
    cases x
    cases y
    simp_all
  obtain heq | ⟨y, t, heq, _, hof, hst⟩ | ⟨y, hy, heq⟩ := h.ready_step hs
  · rw [heq] at hx
    refine hold hx fun y hy hready _ => ?_
    rw [heq] at hready
    have hlt := Multiset.card_erase_lt_of_mem hy
    rw [← hready] at hlt
    exact lt_irrefl _ hlt
  · rw [heq] at hx
    obtain rfl | hx := Multiset.mem_cons.mp hx
    · exact ⟨t, hst, h.of_step hs hof⟩
    · refine hold hx fun z hz hready _ => ?_
      rw [heq] at hready
      have hlt := Multiset.card_erase_lt_of_mem hz
      rw [← hready, Multiset.card_cons] at hlt
      omega
  · rw [heq] at hx
    have hne := (h.nodup.mem_erase_iff.mp hx).1
    refine hold (Multiset.mem_of_mem_erase hx) fun z hz hready hxz => ?_
    subst hxz
    rw [hready] at heq
    have hmem : x ∈ s.ready.erase x := by
      rw [heq]
      exact hx
    exact (h.nodup.mem_erase_iff.mp hmem).1 rfl

end Inv

end Thunderbolt.Runtime.Lifecycle
