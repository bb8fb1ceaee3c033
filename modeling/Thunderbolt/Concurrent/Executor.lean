import Mathlib.Data.Set.Basic
import Mathlib.Logic.Function.Basic
import Thunderbolt.Concurrent.Trace

/-! What an executor of tasks that depend on each other is for.

A task is submitted with the tasks it needs, which have been submitted before it. Its
body starts when theirs have ended, once; or the task is dropped before it starts. What a run
shows says no more than that (`Lawful`). -/
namespace Thunderbolt.Concurrent.Executor

variable {Task : Type*}

inductive Status where
  | absent
  | pending
  | running
  | ended
  | dropped
  deriving DecidableEq

inductive Event (Task : Type*) where
  | submit (task : Task) (needs : Set Task)
  | start (task : Task)
  | finish (task : Task)
  | drop (task : Task)

structure State (Task : Type*) where
  status : Task → Status
  needs : Task → Set Task

def initial : State Task := ⟨fun _ => .absent, fun _ => ∅⟩

section Step
variable [DecidableEq Task]

/-- The task has come to this. -/
def State.mark (s : State Task) (t : Task) (st : Status) : State Task :=
  {s with status := Function.update s.status t st}

inductive Step : Option (Event Task) → State Task → State Task → Prop where
  | submit {s t} (needs : Set Task) : s.status t = .absent → (∀ u ∈ needs, s.status u ≠ .absent) →
      Step (some (.submit t needs)) s
        ({s with needs := Function.update s.needs t needs}.mark t .pending)
  | start {s t} : s.status t = .pending → (∀ u ∈ s.needs t, s.status u = .ended) →
      Step (some (.start t)) s (s.mark t .running)
  | finish {s t} : s.status t = .running → Step (some (.finish t)) s (s.mark t .ended)
  | drop {s t} : s.status t = .pending → Step (some (.drop t)) s (s.mark t .dropped)

end Step

/-- What may come after these events. -/
inductive Follows (before : List (Event Task)) : Event Task → Prop where
  | submit (t : Task) (needs : Set Task) : (∀ n, .submit t n ∉ before) →
      (∀ u ∈ needs, ∃ n, .submit u n ∈ before) → Follows before (.submit t needs)
  | start (t : Task) (needs : Set Task) : .submit t needs ∈ before → .start t ∉ before →
      .drop t ∉ before → (∀ u ∈ needs, .finish u ∈ before) → Follows before (.start t)
  | finish (t : Task) : .start t ∈ before → .finish t ∉ before → Follows before (.finish t)
  | drop (t : Task) (needs : Set Task) : .submit t needs ∈ before → .start t ∉ before →
      .drop t ∉ before → Follows before (.drop t)

/-- Each event may come after those before it. -/
inductive Lawful : List (Event Task) → Prop where
  | nil : Lawful []
  | snoc {before : List (Event Task)} {e : Event Task} : Lawful before → Follows before e →
      Lawful (before ++ [e])

/-! ### What a run shows -/

/-- The state is what these events say. -/
structure Says (events : List (Event Task)) (s : State Task) : Prop where
  submitted : ∀ t, s.status t ≠ .absent ↔ ∃ n, .submit t n ∈ events
  needs : ∀ t, s.status t ≠ .absent → .submit t (s.needs t) ∈ events
  started : ∀ t, .start t ∈ events ↔ s.status t = .running ∨ s.status t = .ended
  finished : ∀ t, .finish t ∈ events ↔ s.status t = .ended
  dropped : ∀ t, .drop t ∈ events ↔ s.status t = .dropped

section Runs
variable [DecidableEq Task] {s s' : State Task} {events : List (Event Task)} {e : Event Task}

theorem Says.follows (h : Says events s) (hs : Step (some e) s s') : Follows events e := by
  cases hs with
  | submit needs hnew hneeds =>
    refine .submit _ _ (fun n hn => ?_) fun u hu => (h.submitted u).mp (hneeds u hu)
    exact (h.submitted _).mpr ⟨n, hn⟩ hnew
  | @start _ t hpending hneeds =>
    refine .start t _ (h.needs t (by simp [hpending])) ?_ ?_ fun u hu => (h.finished u).mpr (hneeds u hu)
    · simp [h.started, hpending]
    · simp [h.dropped, hpending]
  | @finish _ t hrunning =>
    refine .finish t ((h.started t).mpr (.inl hrunning)) ?_
    simp [h.finished, hrunning]
  | @drop _ t hpending =>
    refine .drop t _ (h.needs t (by simp [hpending])) ?_ ?_
    · simp [h.started, hpending]
    · simp [h.dropped, hpending]

theorem Says.step (h : Says events s) (hs : Step (some e) s s') : Says (events ++ [e]) s' := by
  cases hs with
  | @submit _ t needs hnew hneeds =>
    refine ⟨fun u => ?_, fun u hu => ?_, fun u => ?_, fun u => ?_, fun u => ?_⟩
    case refine_2 =>
      rcases eq_or_ne u t with rfl | hne
      · simp [State.mark]
      · have hold : s.status u ≠ .absent := by simpa [State.mark, hne] using hu
        simpa [State.mark, hne] using h.needs u hold
    all_goals
      rcases eq_or_ne u t with rfl | hne
      · simp [State.mark, h.started, h.finished, h.dropped, hnew]
      · simp [State.mark, hne, h.started, h.finished, h.dropped, h.submitted]
  | @start _ t hst | @finish _ t hst | @drop _ t hst =>
    have hthere : s.status t ≠ .absent := by simp [hst]
    have hsubmitted := (h.submitted t).mp hthere
    refine ⟨fun u => ?_, fun u hu => ?_, fun u => ?_, fun u => ?_, fun u => ?_⟩
    case refine_2 =>
      rcases eq_or_ne u t with rfl | hne
      · simpa [State.mark] using h.needs u hthere
      · have hold : s.status u ≠ .absent := by simpa [State.mark, hne] using hu
        simpa [State.mark] using h.needs u hold
    all_goals
      rcases eq_or_ne u t with rfl | hne
      · simp [State.mark, hsubmitted, h.started, h.finished, h.dropped, hst]
      · simp [State.mark, hne, h.started, h.finished, h.dropped, h.submitted]

omit [DecidableEq Task] in
theorem says_initial : Says [] (initial : State Task) where
  submitted t := by simp [initial]
  needs t ht := absurd rfl ht
  started t := by simp [initial]
  finished t := by simp [initial]
  dropped t := by simp [initial]

/-- **A run shows lawful events**, and its state is what they say. -/
theorem lawful (h : Trace Step initial events s) : Lawful events ∧ Says events s := by
  refine h.invariant (P := fun events s => Lawful events ∧ Says events s) ?_ [] ⟨.nil, says_initial⟩
  intro before e s s' hboth hs
  obtain ⟨hlawful, hshown⟩ := hboth
  cases e with
  | none => cases hs
  | some e => exact ⟨hlawful.snoc (hshown.follows hs), hshown.step hs⟩

end Runs

end Thunderbolt.Concurrent.Executor
