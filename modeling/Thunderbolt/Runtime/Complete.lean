import Thunderbolt.Task.Handle
import Thunderbolt.Task.Successors

/-! `complete()` on one worker, and what destroying a task's body does to it.

The taken successors sit in a `thread_local` vector while `TaskPool::release`
destroys the body. A destructor that waits runs other ready tasks on this very
thread, and each of those passes through `complete()` itself and leaves the
vector empty. An `Execution` is one task run to completion on the worker: the
tasks its body ran while it waited, the slot as `complete()` finds it, and the
tasks its destructor ran. -/
namespace Thunderbolt.Runtime.Complete

/-- What `complete()` uses of a task slot. -/
structure Task where
  generation : ℕ
  state : TaskState
  successors : Successors TaskHandle

/-- `TaskPool::release` after the body is destroyed. -/
def Task.release (task : Task) : Task where
  generation := (task.generation + 1) % word
  state := .Free
  successors := task.successors.reset

/-- What one call of `complete()` leaves: the slot, the thread's vector, and the
handles it passed to `release_dependent`, in order. -/
structure Outcome where
  task : Task
  successors : List TaskHandle
  released : List TaskHandle

/-- `complete()` on the thread whose vector is `successors`; `destroy` is what
destroying the body does to that vector. -/
def complete (task : Task) (destroy : List TaskHandle → List TaskHandle)
    (successors : List TaskHandle) : Outcome :=
  let (list, successors) := task.successors.take successors
  let task := {task with state := .Completed, successors := list}
  let successors := destroy successors
  {task := task.release, successors := [], released := successors}

/-- A task executed to completion on the worker. `found` is its slot when
`complete()` takes the successors, with every registration made by then. -/
inductive Execution where
  | task (body : List Execution) (found : Task) (destructor : List Execution)

mutual

/-- `execute()`: what it does to the thread's vector. -/
def Execution.execute (successors : List TaskHandle) : Execution → List TaskHandle
  | .task body found destructor =>
    (complete found (fun out => executeAll out destructor) (executeAll successors body)).successors

/-- The tasks one or several `wait()` calls execute, one after the other. -/
def executeAll (successors : List TaskHandle) : List Execution → List TaskHandle
  | [] => successors
  | e :: es => executeAll (e.execute successors) es

end

/-- Whatever ran, the vector is left empty. -/
theorem execute_empties (successors : List TaskHandle) (e : Execution) :
    e.execute successors = [] := by
  cases e
  simp [Execution.execute, complete]

theorem executeAll_nonempty (successors : List TaskHandle) {es : List Execution} (h : es ≠ []) :
    executeAll successors es = [] := by
  induction es generalizing successors with
  | nil => exact absurd rfl h
  | cons e es ih =>
    rw [executeAll, execute_empties]
    rcases es with _ | ⟨e', es⟩
    · rfl
    · exact ih [] (by simp)

/-- Each handle `take_successors` returned is passed on as often as it was returned. -/
def ReleasesEach (task : Task) (successors : List TaskHandle) (destructor : List Execution) : Prop :=
  ∀ h ∈ (task.successors.take successors).2,
    (complete task (executeAll · destructor) successors).released.count h =
      (task.successors.take successors).2.count h

/-- What is released is what was taken, until the destructor runs a task here. -/
theorem released_eq (task : Task) (successors : List TaskHandle) (destructor : List Execution) :
    (complete task (executeAll · destructor) successors).released =
      if destructor = [] then task.successors.entries else [] := by
  split
  case isTrue h => simp [complete, h, executeAll]
  case isFalse h => simp [complete, executeAll_nonempty _ h]

/-- **`complete()` releases what it took** exactly when destroying the body ran no
task to completion on this thread, or nothing was registered. -/
theorem complete_releases_iff (task : Task) (successors : List TaskHandle)
    (destructor : List Execution) :
    ReleasesEach task successors destructor ↔
      destructor = [] ∨ task.successors.entries = [] := by
  unfold ReleasesEach
  rw [released_eq, Successors.take_out]
  constructor
  · intro h
    by_contra hn
    obtain ⟨hd, hs⟩ := not_or.mp hn
    obtain ⟨x, hx⟩ := List.exists_mem_of_ne_nil _ hs
    have hcount := h x hx
    rw [if_neg hd, List.count_nil] at hcount
    exact (List.count_pos_iff.mpr hx).ne hcount
  · rintro (hd | hs) x hx
    · rw [if_pos hd]
    · simp [hs] at hx

/-- One dependent is registered, and the destructor waits for a task without any:
the dependent is dropped. -/
theorem complete_drops_dependent :
    ¬∀ (task : Task) (successors : List TaskHandle) (destructor : List Execution),
      ReleasesEach task successors destructor := by
  intro h
  let fresh : Successors TaskHandle := .initial .none
  let dependent : TaskHandle := ⟨1, 0⟩
  have hdrop := h ⟨0, .Executing, fresh.push dependent⟩ [] [.task [] ⟨0, .Executing, fresh⟩ []]
    dependent (by decide)
  exact absurd hdrop (by decide)

end Thunderbolt.Runtime.Complete
