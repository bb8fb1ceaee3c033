import Mathlib.Data.Multiset.AddSub
import Thunderbolt.Concurrent.System
import Thunderbolt.Task.Handle
import Thunderbolt.Task.Successors

/-! The life of a task in `RuntimeBase`, from `submit` to the end of `complete()`.

Every access to a slot's atomics, every operation on a successor list, every
access to the ready queues and to `outstanding_` is a step of its own. A call in
progress is an element of `Call`; a call made from a task's body or from a wait
has its own, so the steps of a nested call and of the one around it may come in
any order here. Which queue a ready task is in, where the pool keeps its free
slots and who is woken are other modules' business: a slot is on the free list,
in the hands of a call, or handed out, and a call may find no slot at any time.

Submissions are numbered, and a body is known by the number of its submission.
What is recorded of a submission, of an edge, and `place` and `releases` of a
slot, is history: of these a step reads only whether a slot is on the free list. -/
namespace Thunderbolt.Runtime.Lifecycle
open Concurrent

structure PoolConfig where
  capacity : ℕ
  /-- The last index is `kInvalidIndex - 1` at most. -/
  fits : capacity ≤ TaskHandle.kInvalidIndex

/-- One entry of a submission's dependency list. -/
structure Edge where
  task : ℕ
  position : ℕ
  deriving DecidableEq

/-- What became of a dependency. -/
inductive EdgeState (Call : Type) where
  /-- `submit_after` has not registered it, nor accounted for it. -/
  | unprocessed
  /-- In the successor list of the slot `index`. -/
  | listed (index : ℕ)
  /-- Taken by the call that completes the predecessor. -/
  | taken (c : Call)
  /-- Subtracted from the counter. -/
  | settled
  deriving DecidableEq

/-- How far a submission got, and which call has it. -/
inductive Stage (Call : Type) where
  /-- Counted, without a handle. -/
  | entering (c : Call)
  /-- Has its slot, and nobody knows of it. -/
  | created (c : Call)
  /-- Its dependencies are being registered. -/
  | registering (c : Call)
  | waiting
  /-- Ready: about to be enqueued. -/
  | driven (c : Call)
  | queued
  /-- Off the ready queue, about to run. -/
  | claimed (c : Call)
  | running (c : Call)
  /-- Its body has ended; it has its slot still. -/
  | ended (c : Call)
  /-- Its body has ended; it has no slot. -/
  | left (c : Call)
  /-- Its construction threw. -/
  | thrown (c : Call)
  /-- Subtracted from `outstanding_`. -/
  | retired
  deriving DecidableEq

structure Submission (Call : Type) where
  dependencies : List TaskHandle
  /-- The slot its handle names, and how often that had been released then. -/
  issued : Option (ℕ × ℕ)
  stage : Stage Call
  /-- How often its body was called. -/
  invoked : ℕ
  /-- A call of its body returned or threw. -/
  ended : Bool
  /-- `Completed` was stored for it. -/
  completed : Bool
  /-- Its construction threw: there is no body to run. -/
  threw : Bool

inductive Place (Call : Type) where
  | free
  | inHands (c : Call)
  | held (task : ℕ)

/-- `Task`. -/
structure Slot (Call : Type) where
  function : Option ℕ
  generation : ℕ
  state : TaskState
  pending_dependencies : ℕ
  /-- Each entry with the edge it stands for. -/
  successors : Successors (TaskHandle × Edge)
  place : Place Call
  releases : ℕ

abbrev Taken := List (TaskHandle × Edge)

/-- What follows `TaskPool::release`. -/
inductive Next where
  /-- `complete()`: the dependents of the task. -/
  | dependents (task : ℕ) (successors : Taken)
  /-- `submit_emplace`: the exception. -/
  | rethrow (task : ℕ)

/-- The steps of `TaskPool::release`. -/
inductive Release where
  /-- About to destroy the body. -/
  | destroying
  /-- About to advance the generation. -/
  | bumping
  /-- About to reset the successor list. -/
  | resetting
  /-- About to store `Free`. -/
  | freeing
  /-- About to put the slot on the free list. -/
  | listing

/-- Where a call stands. `h` is the handle of the task it is about. -/
inductive Pc (Call : Type) where
  | idle
  -- `submit`, `submit_emplace`, `submit_after`
  /-- About to ask the pool for a slot. -/
  | acquiring (task : ℕ) (emplace : Bool)
  /-- Has slot `i`, about to open its successor list. -/
  | opening (task i : ℕ) (emplace : Bool)
  /-- `acquire`: about to store `Created`. -/
  | creating (task i : ℕ)
  /-- `submit_emplace`: about to construct the body, in slot `i` if it has one. -/
  | constructing (task : ℕ) (i : Option ℕ)
  /-- About to store `Queued`. -/
  | publishing (task : ℕ) (h : TaskHandle)
  /-- `submit_after`: about to store `Waiting`. -/
  | holding (task : ℕ) (h : TaskHandle)
  /-- `submit_after`: about to store the counter. -/
  | counting (task : ℕ) (h : TaskHandle)
  /-- `submit_after`: at the head of the loop. -/
  | registering (task : ℕ) (h : TaskHandle) (k : ℕ)
  /-- `submit_after`: `get` found the predecessor's slot. -/
  | adding (task : ℕ) (h : TaskHandle) (k : ℕ)
  /-- `submit_after`: not registered, about to subtract the edge. -/
  | refused (task : ℕ) (h : TaskHandle) (k : ℕ)
  /-- `enqueue_ready`. -/
  | enqueueing (task : ℕ) (h : TaskHandle)
  /-- `submit_after`, without a slot: about to wait for dependency `k`. -/
  | awaiting (task k : ℕ)
  -- `run_inline`
  | inlining (task : ℕ)
  | inlined (task : ℕ)
  /-- About to subtract the task from `outstanding_`: after its body, or without one. -/
  | retiring (task : ℕ)
  -- `execute`
  | claimed (h : TaskHandle)
  /-- About to exchange the state. -/
  | exchanging (h : TaskHandle)
  | calling (h : TaskHandle)
  | running (task : ℕ) (h : TaskHandle)
  -- `complete`
  /-- About to take the successors. -/
  | taking (task : ℕ) (h : TaskHandle)
  /-- About to store `Completed`. -/
  | completing (task : ℕ) (h : TaskHandle) (successors : Taken)
  | releasing (at_ : Release) (i : ℕ) (next : Next)
  /-- At the head of the loop over the dependents. -/
  | looping (task : ℕ) (successors : Taken)
  /-- `release_dependent`: `get` found the first one's slot. -/
  | subtracting (task : ℕ) (dependent : TaskHandle) (edge : Edge) (rest : Taken)
  /-- `release_dependent`: about to store `Queued`. -/
  | driving (task : ℕ) (dependent : TaskHandle) (driven : ℕ) (rest : Taken)
  /-- `release_dependent`: about to enqueue it. -/
  | passing (task : ℕ) (dependent : TaskHandle) (driven : ℕ) (rest : Taken)
  -- `is_complete_internal`, called by a user, or by `wait` for dependency `k` of `task`
  /-- About to read the generation in `get`. `before`: the submissions for which `Completed`
  had been stored when the call began. -/
  | asking (caller : Option (ℕ × ℕ)) (h : TaskHandle) (before : ℕ → Bool)
  /-- About to read the state. -/
  | reading (caller : Option (ℕ × ℕ)) (h : TaskHandle) (before : ℕ → Bool)
  /-- About to read the generation again. -/
  | rechecking (caller : Option (ℕ × ℕ)) (h : TaskHandle) (before : ℕ → Bool) (state : TaskState)
  | answered (caller : Option (ℕ × ℕ)) (h : TaskHandle) (before : ℕ → Bool) (result : Bool)

structure State (Call : Type) where
  slots : ℕ → Slot Call
  /-- The ready queues. -/
  ready : Multiset TaskHandle
  /-- `outstanding_`, 64 bits in the code. -/
  outstanding : ℤ
  pc : Call → Pc Call
  /-- How many submissions were made. -/
  submitted : ℕ
  sub : ℕ → Submission Call
  edge : Edge → EdgeState Call

inductive Act (Call : Type) where
  | submit (c : Call) (dependencies : List TaskHandle)
  /-- Destroying the body runs other tasks to completion on the same thread. -/
  | reenter (c : Call)
  | step (c : Call)

@[simp] def Act.call {Call : Type} : Act Call → Call
  | submit c _ | reenter c | step c => c

variable {Call : Type} [DecidableEq Call]

namespace State

@[simp] def pcAt (s : State Call) (c : Call) (p : Pc Call) : State Call :=
  {s with pc := Function.update s.pc c p}

@[simp] def slotAt (s : State Call) (i : ℕ) (x : Slot Call) : State Call :=
  {s with slots := Function.update s.slots i x}

@[simp] def subAt (s : State Call) (t : ℕ) (x : Submission Call) : State Call :=
  {s with sub := Function.update s.sub t x}

@[simp] def edgeAt (s : State Call) (e : Edge) (x : EdgeState Call) : State Call :=
  {s with edge := Function.update s.edge e x}

/-- The submission `t` gets to `st`. -/
@[simp] def stageAt (s : State Call) (t : ℕ) (st : Stage Call) : State Call :=
  s.subAt t {s.sub t with stage := st}

/-- `pool_.get(h)` finds the slot. -/
def Resolves (cfg : PoolConfig) (s : State Call) (h : TaskHandle) : Prop :=
  h.valid = true ∧ h.index < cfg.capacity ∧ (s.slots h.index).generation = h.generation

/-- The handle to slot `i` as it is. -/
@[simp] def handleTo (s : State Call) (i : ℕ) : TaskHandle := ⟨i, (s.slots i).generation⟩

/-- Slot `i` becomes the slot of the submission `t`, which goes on to `p`. -/
@[simp] def issue (s : State Call) (c : Call) (t i : ℕ) (x : Slot Call) (p : Pc Call) : State Call :=
  ((s.slotAt i {x with place := .held t}).subAt t
    {s.sub t with issued := some (i, x.releases), stage := .created c}).pcAt c p

/-- The body of the submission `t` is called. -/
@[simp] def invoke (s : State Call) (c : Call) (t : ℕ) : State Call :=
  s.subAt t {s.sub t with invoked := (s.sub t).invoked + 1, stage := .running c}

/-- The body of the submission `t` has returned, or has thrown. -/
@[simp] def finish (s : State Call) (t : ℕ) (st : Stage Call) : State Call :=
  s.subAt t {s.sub t with ended := true, stage := st}

/-- The construction of the submission `t` throws. -/
@[simp] def throw (s : State Call) (c : Call) (t : ℕ) : State Call :=
  s.subAt t {s.sub t with threw := true, stage := .thrown c}

/-- `c` has the task in the slot of `h`, taken off the ready queue. -/
def claim (s : State Call) (c : Call) (h : TaskHandle) : ℕ → Submission Call :=
  match (s.slots h.index).place with
  | .held t => (s.stageAt t (.claimed c)).sub
  | _ => s.sub

/-- The task whose slot is released, if it ran, has none now. -/
def leave (s : State Call) (c : Call) : Next → ℕ → Submission Call
  | .dependents t _ => (s.stageAt t (.left c)).sub
  | .rethrow _ => s.sub

/-- The successor list is in the hands of `c`. -/
@[simp] def takeEdges (s : State Call) (c : Call) (l : Taken) : State Call :=
  {s with edge := fun e => if e ∈ l.map Prod.snd then .taken c else s.edge e}

end State

/-- `(x + 2^32 - 1) % 2^32`: a 32-bit counter, less one. -/
def lowered (x : ℕ) : ℕ := (x + (word - 1)) % word

/-- A submission that has just been counted. -/
def Submission.enter (c : Call) (dependencies : List TaskHandle) : Submission Call :=
  ⟨dependencies, none, .entering c, 0, false, false, false⟩

/-- Where `submit_after`, or `submit`, goes on without a slot. -/
def exhausted (t : ℕ) (dependencies : List TaskHandle) (emplace : Bool) : Pc Call :=
  if emplace then .constructing t none
  else if dependencies = [] then .inlining t
  else .awaiting t 0

/-- What follows the release of a slot. -/
def Next.pc : Next → Pc Call
  | dependents t l => .looping t l
  | rethrow t => .retiring t

/-- The taken list after destructors that ran other tasks: `complete()` of each of
those has used and cleared the same vector. -/
def Next.reentered : Next → Next
  | dependents t _ => .dependents t []
  | rethrow t => .rethrow t

/-- What `is_complete_internal` goes back to. -/
def returned (caller : Option (ℕ × ℕ)) (result : Bool) : Pc Call :=
  match caller with
  | none => .idle
  | some (t, k) => .awaiting t (if result then k + 1 else k)

/-- What `submit_after` returns: a submission that was run inline has no handle. -/
def Pc.handle : Pc Call → TaskHandle
  | enqueueing _ h | registering _ h _ => h
  | _ => .none

open State in
inductive Step (cfg : PoolConfig) : Act Call → State Call → State Call → Prop where
  -- submitting
  | submit {s c} (deps : List TaskHandle) : s.pc c = .idle →
      Step cfg (.submit c deps) s
        ({s with
          outstanding := s.outstanding + 1, submitted := s.submitted + 1
          sub := Function.update s.sub s.submitted (.enter c deps)}.pcAt c
            (.acquiring s.submitted false))
  | submit_emplace {s c} : s.pc c = .idle →
      Step cfg (.submit c []) s
        ({s with
          outstanding := s.outstanding + 1, submitted := s.submitted + 1
          sub := Function.update s.sub s.submitted (.enter c [])}.pcAt c
            (.acquiring s.submitted true))
  /-- The slot's plain fields, which nobody reads yet, are written with it. -/
  | acquire {s c t em} (i : ℕ) : s.pc c = .acquiring t em → i < cfg.capacity →
      (s.slots i).place = .free →
      Step cfg (.step c) s
        ((s.slotAt i {s.slots i with
          place := .inHands c, pending_dependencies := 0
          function := if em then (s.slots i).function else some t}).pcAt c (.opening t i em))
  | exhausted {s c t em} : s.pc c = .acquiring t em →
      Step cfg (.step c) s (s.pcAt c (exhausted t (s.sub t).dependencies em))
  | open_successors {s c t i em} : s.pc c = .opening t i em →
      Step cfg (.step c) s
        ((s.slotAt i {s.slots i with successors := (s.slots i).successors.reopen}).pcAt c
          (if em then .constructing t (some i) else .creating t i))
  | create {s c t i} : s.pc c = .creating t i →
      Step cfg (.step c) s
        (s.issue c t i {s.slots i with state := .Created}
          (if (s.sub t).dependencies = [] then .publishing t (s.handleTo i)
            else .holding t (s.handleTo i)))
  | construct {s c t i} : s.pc c = .constructing t (some i) →
      Step cfg (.step c) s
        (s.issue c t i {s.slots i with function := some t} (.publishing t (s.handleTo i)))
  | constructInline {s c t} : s.pc c = .constructing t none →
      Step cfg (.step c) s (s.pcAt c (.inlining t))
  | constructThrows {s c t i} : s.pc c = .constructing t (some i) →
      Step cfg (.step c) s ((s.throw c t).pcAt c (.releasing .destroying i (.rethrow t)))
  | constructInlineThrows {s c t} : s.pc c = .constructing t none →
      Step cfg (.step c) s ((s.throw c t).pcAt c (.retiring t))
  | publish {s c t h} : s.pc c = .publishing t h →
      Step cfg (.step c) s
        (((s.slotAt h.index {s.slots h.index with state := .Queued}).stageAt t (.driven c)).pcAt c
          (.enqueueing t h))
  | enqueue_ready {s c t h} : s.pc c = .enqueueing t h →
      Step cfg (.step c) s (({s with ready := h ::ₘ s.ready}.stageAt t .queued).pcAt c .idle)
  -- `submit_after`
  | storeWaiting {s c t h} : s.pc c = .holding t h →
      Step cfg (.step c) s
        ((s.slotAt h.index {s.slots h.index with state := .Waiting}).pcAt c (.counting t h))
  /-- `static_cast<std::uint32_t>(dependency_count) + 1`. -/
  | storePending {s c t h} : s.pc c = .counting t h →
      Step cfg (.step c) s
        (((s.slotAt h.index {s.slots h.index with
          pending_dependencies := ((s.sub t).dependencies.length % word + 1) % word}).stageAt t
            (.registering c)).pcAt c (.registering t h 0))
  | stale {s c t h k d} : s.pc c = .registering t h k → (s.sub t).dependencies[k]? = some d →
      ¬s.Resolves cfg d → Step cfg (.step c) s (s.pcAt c (.refused t h k))
  | lookup {s c t h k d} : s.pc c = .registering t h k → (s.sub t).dependencies[k]? = some d →
      s.Resolves cfg d → Step cfg (.step c) s (s.pcAt c (.adding t h k))
  | add {s c t h k d l} : s.pc c = .adding t h k → (s.sub t).dependencies[k]? = some d →
      (s.slots d.index).successors.tryAdd (s.slots d.index).generation d.generation (h, ⟨t, k⟩) =
        (l, true) →
      Step cfg (.step c) s
        (((s.slotAt d.index {s.slots d.index with successors := l}).edgeAt ⟨t, k⟩
          (.listed d.index)).pcAt c (.registering t h (k + 1)))
  | refuse {s c t h k d l} : s.pc c = .adding t h k → (s.sub t).dependencies[k]? = some d →
      (s.slots d.index).successors.tryAdd (s.slots d.index).generation d.generation (h, ⟨t, k⟩) =
        (l, false) →
      Step cfg (.step c) s (s.pcAt c (.refused t h k))
  | settle {s c t h k} : s.pc c = .refused t h k →
      Step cfg (.step c) s
        (((s.slotAt h.index {s.slots h.index with
          pending_dependencies := lowered (s.slots h.index).pending_dependencies}).edgeAt ⟨t, k⟩
            .settled).pcAt c (.registering t h (k + 1)))
  /-- The guard was all that was left. -/
  | unguardLast {s c t h} : s.pc c = .registering t h (s.sub t).dependencies.length →
      (s.slots h.index).pending_dependencies = 1 →
      Step cfg (.step c) s
        (((s.slotAt h.index {s.slots h.index with
          pending_dependencies := lowered (s.slots h.index).pending_dependencies}).stageAt t
            (.driven c)).pcAt c (.publishing t h))
  | unguard {s c t h} : s.pc c = .registering t h (s.sub t).dependencies.length →
      (s.slots h.index).pending_dependencies ≠ 1 →
      Step cfg (.step c) s
        (((s.slotAt h.index {s.slots h.index with
          pending_dependencies := lowered (s.slots h.index).pending_dependencies}).stageAt t
            .waiting).pcAt c .idle)
  | await {s c t k d} : s.pc c = .awaiting t k → (s.sub t).dependencies[k]? = some d →
      Step cfg (.step c) s (s.pcAt c (.asking (some (t, k)) d fun u => (s.sub u).completed))
  | awaited {s c t} : s.pc c = .awaiting t (s.sub t).dependencies.length →
      Step cfg (.step c) s (s.pcAt c (.inlining t))
  -- `run_inline`
  | run_inline {s c t} : s.pc c = .inlining t →
      Step cfg (.step c) s ((s.invoke c t).pcAt c (.inlined t))
  | inlineEnds {s c t} : s.pc c = .inlined t →
      Step cfg (.step c) s ((s.finish t (.left c)).pcAt c (.retiring t))
  | retire {s c t} : s.pc c = .retiring t →
      Step cfg (.step c) s
        (({s with outstanding := s.outstanding - 1}.stageAt t .retired).pcAt c .idle)
  -- `execute`
  | dequeue {s c} (h : TaskHandle) : s.pc c = .idle → h ∈ s.ready →
      Step cfg (.step c) s
        ({s with ready := s.ready.erase h, sub := s.claim c h}.pcAt c (.claimed h))
  | execute {s c h} : s.pc c = .claimed h → s.Resolves cfg h →
      Step cfg (.step c) s (s.pcAt c (.exchanging h))
  /-- The assertion, compiled out. -/
  | executeStale {s c h} : s.pc c = .claimed h → ¬s.Resolves cfg h →
      Step cfg (.step c) s (s.pcAt c .idle)
  | exchange {s c h} : s.pc c = .exchanging h →
      Step cfg (.step c) s
        ((s.slotAt h.index {s.slots h.index with state := .Executing}).pcAt c (.calling h))
  | call {s c h t} : s.pc c = .calling h → (s.slots h.index).function = some t →
      Step cfg (.step c) s ((s.invoke c t).pcAt c (.running t h))
  | ends {s c t h} : s.pc c = .running t h →
      Step cfg (.step c) s ((s.finish t (.ended c)).pcAt c (.taking t h))
  -- `complete`
  | take_successors {s c t h} : s.pc c = .taking t h →
      Step cfg (.step c) s
        (((s.slotAt h.index {s.slots h.index with
          successors := ((s.slots h.index).successors.take []).1}).takeEdges c
            ((s.slots h.index).successors.take []).2).pcAt c
              (.completing t h ((s.slots h.index).successors.take []).2))
  | complete {s c t h l} : s.pc c = .completing t h l →
      Step cfg (.step c) s
        (((s.slotAt h.index {s.slots h.index with state := .Completed}).subAt t
          {s.sub t with completed := true}).pcAt c
            (.releasing .destroying h.index (.dependents t l)))
  | destroy {s c i next} : s.pc c = .releasing .destroying i next →
      Step cfg (.step c) s
        ((s.slotAt i {s.slots i with function := none}).pcAt c (.releasing .bumping i next))
  | reenter {s c i next} : s.pc c = .releasing .destroying i next →
      Step cfg (.reenter c) s
        ((s.slotAt i {s.slots i with function := none}).pcAt c
          (.releasing .bumping i next.reentered))
  | bump {s c i next} : s.pc c = .releasing .bumping i next →
      Step cfg (.step c) s
        (({s with sub := s.leave c next}.slotAt i {s.slots i with
          generation := ((s.slots i).generation + 1) % word
          releases := (s.slots i).releases + 1, place := .inHands c}).pcAt c
            (.releasing .resetting i next))
  | reset_successors {s c i next} : s.pc c = .releasing .resetting i next →
      Step cfg (.step c) s
        ((s.slotAt i {s.slots i with successors := (s.slots i).successors.reset}).pcAt c
          (.releasing .freeing i next))
  | storeFree {s c i next} : s.pc c = .releasing .freeing i next →
      Step cfg (.step c) s
        ((s.slotAt i {s.slots i with state := .Free}).pcAt c (.releasing .listing i next))
  | list {s c i next} : s.pc c = .releasing .listing i next →
      Step cfg (.step c) s ((s.slotAt i {s.slots i with place := .free}).pcAt c next.pc)
  | looped {s c t} : s.pc c = .looping t [] → Step cfg (.step c) s (s.pcAt c (.retiring t))
  -- `release_dependent`
  | dependent {s c t d e rest} : s.pc c = .looping t ((d, e) :: rest) → s.Resolves cfg d →
      Step cfg (.step c) s (s.pcAt c (.subtracting t d e rest))
  | dependentStale {s c t d e rest} : s.pc c = .looping t ((d, e) :: rest) → ¬s.Resolves cfg d →
      Step cfg (.step c) s (s.pcAt c (.looping t rest))
  | subtract {s c t d e rest} : s.pc c = .subtracting t d e rest →
      (s.slots d.index).pending_dependencies ≠ 1 →
      Step cfg (.step c) s
        (((s.slotAt d.index {s.slots d.index with
          pending_dependencies := lowered (s.slots d.index).pending_dependencies}).edgeAt e
            .settled).pcAt c (.looping t rest))
  /-- We drove it to zero. -/
  | subtractLast {s c t d e rest} : s.pc c = .subtracting t d e rest →
      (s.slots d.index).pending_dependencies = 1 →
      Step cfg (.step c) s
        ((((s.slotAt d.index {s.slots d.index with
          pending_dependencies := lowered (s.slots d.index).pending_dependencies}).edgeAt e
            .settled).stageAt e.task (.driven c)).pcAt c (.driving t d e.task rest))
  | drive {s c t d u rest} : s.pc c = .driving t d u rest →
      Step cfg (.step c) s
        ((s.slotAt d.index {s.slots d.index with state := .Queued}).pcAt c (.passing t d u rest))
  | pass {s c t d u rest} : s.pc c = .passing t d u rest →
      Step cfg (.step c) s
        (({s with ready := d ::ₘ s.ready}.stageAt u .queued).pcAt c (.looping t rest))
  -- `is_complete_internal`
  | ask {s c} (h : TaskHandle) : s.pc c = .idle →
      Step cfg (.step c) s (s.pcAt c (.asking none h fun u => (s.sub u).completed))
  | askStale {s c o h before} : s.pc c = .asking o h before → ¬s.Resolves cfg h →
      Step cfg (.step c) s (s.pcAt c (.answered o h before true))
  | askFound {s c o h before} : s.pc c = .asking o h before → s.Resolves cfg h →
      Step cfg (.step c) s (s.pcAt c (.reading o h before))
  | read {s c o h before} : s.pc c = .reading o h before →
      Step cfg (.step c) s
        (s.pcAt c (.rechecking o h before (s.slots h.index).state))
  | recheckStale {s c o h before st} : s.pc c = .rechecking o h before st →
      (s.slots h.index).generation ≠ h.generation →
      Step cfg (.step c) s (s.pcAt c (.answered o h before true))
  | recheck {s c o h before st} : s.pc c = .rechecking o h before st →
      (s.slots h.index).generation = h.generation →
      Step cfg (.step c) s (s.pcAt c (.answered o h before (st == .Completed)))
  | answer {s c o h before r} : s.pc c = .answered o h before r →
      Step cfg (.step c) s (s.pcAt c (returned o r))

/-- An unused slot. -/
def Slot.initial : Slot Call where
  function := none
  generation := 0
  state := .Free
  pending_dependencies := 0
  successors := .initial (.none, ⟨0, 0⟩)
  place := .free
  releases := 0

def initial : State Call where
  slots _ := .initial
  ready := 0
  outstanding := 0
  pc _ := .idle
  submitted := 0
  sub _ := ⟨[], none, .retired, 0, false, false, false⟩
  edge _ := .unprocessed

def system (Call : Type) [DecidableEq Call] (cfg : PoolConfig) : System (State Call) (Act Call) :=
  ⟨fun s => s = initial, Step cfg⟩

end Thunderbolt.Runtime.Lifecycle
