import Thunderbolt.Runtime.Whereabouts

/-! Threads that wait and help.

A thread has a stack of calls, the innermost first, and only the innermost makes steps. A body
that calls `submit`, `submit_after`, `wait` or `wait_all` has the call on top of the `execute` or the
`run_inline` it is called by. While `wait` polls, and while a `submit_after` without a slot does, a
worker takes ready tasks and has their `execute` on top of it; what is below comes
back when what is above has returned.

The last call of a stack is the thread itself: the loop of a worker, or the code of a
thread outside. Which threads are workers is not said. Any may take tasks where a worker may, and may
as well not; one that blocks on `completion_cv_` polls, or does not. A body's own `is_complete` is left out, and
so is a body that calls the runtime where it is destroyed (`Lifecycle.Step.reenter` has that). A handle passed as a
dependency is invalid, or was returned by a `submit`. -/
namespace Thunderbolt.Runtime.HelpOnWait
open Concurrent Lifecycle

/-- What is waited for. -/
inductive Target where
  | handle (x : TaskHandle)
  | all

structure Frame (Call : Type) where
  call : Call
  /-- The call is `wait`, or `wait_all`. -/
  target : Option Target

structure State (Thread Call : Type) where
  runtime : Lifecycle.State Call
  stack : Thread → List (Frame Call)
  /-- When the body of a submission was called. -/
  start : ℕ → ℕ
  clock : ℕ
  /-- The submission whose body made a submission. -/
  parent : ℕ → Option ℕ
  /-- The handles that were returned to the body of a submission. -/
  own : ℕ → List TaskHandle

inductive Act (Thread Call : Type) where
  /-- The innermost call goes on, or returns. -/
  | step (θ : Thread)
  /-- The innermost call finds the pool exhausted. -/
  | exhausted (θ : Thread)
  /-- The thread itself calls `submit` or `submit_after`. -/
  | submit (θ : Thread) (dependencies : List TaskHandle)
  /-- A body does. -/
  | call (θ : Thread) (c : Call) (dependencies : List TaskHandle)
  | wait (θ : Thread) (c : Call) (target : Target)
  /-- `try_execute_one`. -/
  | help (θ : Thread) (c : Call)

/-- Who makes the step. -/
@[simp] def Act.thread {Thread Call : Type} : Act Thread Call → Thread
  | step θ | exhausted θ | submit θ _ | call θ _ _ | wait θ _ _ | help θ _ => θ

/-- The submission whose body is being called. -/
def bodyOf {Call : Type} : Pc Call → Option ℕ
  | .running t _ | .inlined t => some t
  | _ => none

variable {Thread Call : Type} [DecidableEq Thread] [DecidableEq Call]

namespace State

/-- The runtime has taken a step; a body may have been called. -/
def after (s : State Thread Call) (r : Lifecycle.State Call) : State Thread Call :=
  {s with
    runtime := r, clock := s.clock + 1
    start := fun t => if (r.sub t).invoked = (s.runtime.sub t).invoked then s.start t else s.clock}

def stackAt (s : State Thread Call) (θ : Thread) (l : List (Frame Call)) : State Thread Call :=
  {s with stack := Function.update s.stack θ l}

/-- The body at the top of these calls. -/
def body (s : State Thread Call) : List (Frame Call) → Option ℕ
  | [] => none
  | f :: _ => bodyOf (s.runtime.pc f.call)

/-- A handle is returned, to a body if one has called. -/
def hand (s : State Thread Call) (x : TaskHandle) : Option ℕ → State Thread Call
  | none => s
  | some t => {s with own := Function.update s.own t (x :: s.own t)}

/-- No thread is in the call. -/
def Unused (s : State Thread Call) (c : Call) : Prop := ∀ θ, ∀ f ∈ s.stack θ, f.call ≠ c

/-- The thread is in the loop of `wait`, of `wait_all`, or of a `submit_after` without a slot. -/
def Helps (s : State Thread Call) (f : Frame Call) : Prop :=
  f.target ≠ none ∧ s.runtime.pc f.call = .idle ∨ ∃ t k, s.runtime.pc f.call = .awaiting t k

end State

open State in
inductive Step (cfg : PoolConfig) : Act Thread Call → State Thread Call → State Thread Call → Prop where
  | step {s θ f rest r} : s.stack θ = f :: rest → f.target = none →
      (s.runtime.pc f.call ≠ .idle ∨ rest = []) →
      Lifecycle.Step cfg (.step f.call) s.runtime r → (r.pc f.call ≠ .idle ∨ rest = []) →
      (∀ t em, s.runtime.pc f.call = .acquiring t em → ∃ i, r.pc f.call = .opening t i em) →
      Step cfg (.step θ) s (s.after r)
  | returns {s θ f rest r} : s.stack θ = f :: rest → f.target = none → rest ≠ [] →
      s.runtime.pc f.call ≠ .idle → Lifecycle.Step cfg (.step f.call) s.runtime r → r.pc f.call = .idle →
      Step cfg (.step θ) s
        (((s.after r).stackAt θ rest).hand (s.runtime.pc f.call).handle (s.body rest))
  | exhausted {s θ f rest t em} : s.stack θ = f :: rest → s.runtime.pc f.call = .acquiring t em →
      Step cfg (.exhausted θ) s
        (s.after (s.runtime.pcAt f.call (exhausted t (s.runtime.sub t).dependencies em)))
  | submit {s θ f deps r} : s.stack θ = [f] → Lifecycle.Step cfg (.submit f.call deps) s.runtime r →
      Step cfg (.submit θ deps) s (s.after r)
  | call {s θ c deps r t} : s.body (s.stack θ) = some t → s.Unused c →
      Lifecycle.Step cfg (.submit c deps) s.runtime r →
      Step cfg (.call θ c deps) s
        {(s.after r).stackAt θ (⟨c, none⟩ :: s.stack θ) with
          parent := Function.update s.parent s.runtime.submitted (some t)}
  | wait {s θ c} (target : Target) : s.body (s.stack θ) ≠ none → s.Unused c →
      Step cfg (.wait θ c target) s (s.stackAt θ (⟨c, some target⟩ :: s.stack θ))
  /-- The thread itself waits. -/
  | waitOutside {s θ f c} (target : Target) : s.stack θ = [f] → s.runtime.pc f.call = .idle → s.Unused c →
      Step cfg (.wait θ c target) s (s.stackAt θ [⟨c, some target⟩, f])
  | poll {s θ f rest x r before} : s.stack θ = f :: rest → f.target = some (.handle x) →
      s.runtime.pc f.call = .idle → Lifecycle.Step cfg (.step f.call) s.runtime r →
      r.pc f.call = .asking none x before →
      Step cfg (.step θ) s (s.after r)
  | polls {s θ f rest x r} : s.stack θ = f :: rest → f.target = some (.handle x) →
      s.runtime.pc f.call ≠ .idle → (∀ o y b, s.runtime.pc f.call ≠ .answered o y b true) →
      Lifecycle.Step cfg (.step f.call) s.runtime r →
      Step cfg (.step θ) s (s.after r)
  | waited {s θ f rest x r o y b} : s.stack θ = f :: rest → f.target = some (.handle x) →
      s.runtime.pc f.call = .answered o y b true → Lifecycle.Step cfg (.step f.call) s.runtime r →
      Step cfg (.step θ) s ((s.after r).stackAt θ rest)
  | waited_all {s θ f rest} : s.stack θ = f :: rest → f.target = some .all → s.runtime.outstanding = 0 →
      Step cfg (.step θ) s (s.stackAt θ rest)
  | help {s θ f rest c x r} : s.stack θ = f :: rest → s.Helps f → s.Unused c →
      Lifecycle.Step cfg (.step c) s.runtime r → r.pc c = .claimed x →
      Step cfg (.help θ c) s ((s.after r).stackAt θ (⟨c, none⟩ :: f :: rest))

/-- Each thread is in one call. -/
def initial (base : Thread → Call) : State Thread Call where
  runtime := Lifecycle.initial
  stack θ := [⟨base θ, none⟩]
  start _ := 0
  clock := 0
  parent _ := none
  own _ := []

def system (cfg : PoolConfig) (base : Thread → Call) : System (State Thread Call) (Act Thread Call) :=
  ⟨fun s => s = initial base, Step cfg⟩

/-! ### Stuck -/

/-- The thread is idle, or in the loop of `wait` or `wait_all` and will not leave it by itself. -/
inductive Blocked (cfg : PoolConfig) (s : State Thread Call) : List (Frame Call) → Prop where
  | idle {f} : f.target = none → s.runtime.pc f.call = .idle → Blocked cfg s [f]
  | wait {f rest x} : f.target = some (.handle x) → Pending cfg s.runtime x → Blocked cfg s (f :: rest)
  | wait_all {f rest} : f.target = some .all → s.runtime.outstanding ≠ 0 → Blocked cfg s (f :: rest)
  | submit_after {f rest t k x} : f.target = none → (s.runtime.pc f.call).awaits = some (t, k) →
      (s.runtime.sub t).dependencies[k]? = some x → Pending cfg s.runtime x → Blocked cfg s (f :: rest)

/-- A task has not ended, none is ready, and every thread is idle or waits. -/
structure Stuck (cfg : PoolConfig) (s : State Thread Call) : Prop where
  unfinished : ∃ t < s.runtime.submitted, (s.runtime.sub t).ended = false ∧ (s.runtime.sub t).threw = false
  ready : s.runtime.ready = 0
  hands : ∀ c x, s.runtime.pc c ≠ .claimed x ∧ s.runtime.pc c ≠ .exchanging x ∧ s.runtime.pc c ≠ .calling x
  blocked : ∀ θ, Blocked cfg s (s.stack θ)

/-! ### Who waits for whom -/

/-- The call waits for the task of `x`. -/
def State.Awaits (s : State Thread Call) (f : Frame Call) (x : TaskHandle) : Prop :=
  f.target = some (.handle x) ∨
    ∃ t k, (s.runtime.pc f.call).awaits = some (t, k) ∧ x ∈ (s.runtime.sub t).dependencies

/-- The body of `v` does not end before that of `w`, which has been started: it is beneath it, or waits
for a task that is to start after it. -/
inductive Hangs (s : State Thread Call) : ℕ → ℕ → Prop where
  | beneath {θ f g rest v w} : f :: rest <:+ s.stack θ → g ∈ rest → bodyOf (s.runtime.pc g.call) = some v →
      bodyOf (s.runtime.pc f.call) = some w → Hangs s v w
  | waits {θ f g rest x t v w} : f :: g :: rest <:+ s.stack θ → bodyOf (s.runtime.pc g.call) = some v →
      s.Awaits f x → Holds s.runtime x t → Relation.ReflTransGen (Needs s.runtime) t w →
      Started s.runtime w → Hangs s v w

/-- If the body of `t` waits for the task of `x`, it waits for itself. -/
def Closes (s : State Thread Call) (t : ℕ) (x : TaskHandle) : Prop :=
  ∃ u w, Holds s.runtime x u ∧ Relation.ReflTransGen (Needs s.runtime) u w ∧ Started s.runtime w ∧
    Relation.ReflTransGen (Hangs s) w t

/-- The body of `t` begins to wait for the task of `x`. -/
def Act.Begins : Act Thread Call → State Thread Call → ℕ → TaskHandle → Prop
  | .wait θ _ target, s, t, x => s.body (s.stack θ) = some t ∧ target = .handle x
  | .exhausted θ, s, t, x => ∃ f rest u em, s.stack θ = f :: rest ∧ s.runtime.pc f.call = .acquiring u em ∧
      s.body rest = some t ∧ x ∈ (s.runtime.sub u).dependencies
  | _, _, _, _ => False

/-- What the runtime is asked to count, it counts, and no handle in use is issued again. -/
def Act.Bounded : Act Thread Call → State Thread Call → Prop
  | .submit _ deps, s | .call _ _ deps, s =>
    Fresh s.runtime ∧ deps.length < word ∧ ∀ x ∈ deps, Recent s.runtime x
  | _, s => Fresh s.runtime

end Thunderbolt.Runtime.HelpOnWait
