import Mathlib.Data.Set.Card
import Thunderbolt.Concurrent.System

/-! `TaskFunction`: raw storage for one callable, and two function pointers.

The storage is bytes: that a callable is alive in it, and of which type, is something only the
language knows. Here the storage remembers it, each callable constructed in a storage gets a
number of its own, and a pointer is known by the type `manage_impl` or the trampoline was
instantiated for. Destroying or moving what is not alive, or not of that type, is undefined
behaviour: `none`. -/
namespace Thunderbolt
open Concurrent

/-- A callable alive in some storage. -/
structure Callable (Fn : Type) where
  number : ℕ
  type : Fn
  deriving DecidableEq

structure TaskFunction (Fn : Type) where
  storage_ : Option (Callable Fn)
  invoke_ : Option Fn
  manage_ : Option Fn
  deriving DecidableEq

/-- The callables constructed so far have the numbers below `constructed`. -/
structure Account where
  constructed : ℕ
  destroyed : List ℕ
  deriving DecidableEq

namespace TaskFunction
variable {Fn : Type} [DecidableEq Fn]

/-- `TaskFunction()`. -/
def empty : TaskFunction Fn := ⟨none, none, none⟩

/-- Holds this callable, and the pointers are for it. -/
def holding (c : Callable Fn) : TaskFunction Fn := ⟨some c, some c.type, some c.type⟩

def valid (f : TaskFunction Fn) : Bool := f.invoke_.isSome

/-- `new (storage) Fn`. -/
def construct (a : Account) (f : TaskFunction Fn) (type : Fn) : Account × TaskFunction Fn :=
  ({a with constructed := a.constructed + 1}, {f with storage_ := some ⟨a.constructed, type⟩})

/-- `manage_impl<Fn>`, for `ManageOp::Destroy`. -/
def manageDestroy (a : Account) (self : TaskFunction Fn) (type : Fn) : Option (Account × TaskFunction Fn) :=
  match self.storage_ with
  | none => none
  | some c =>
    if c.type = type then
      some ({a with destroyed := a.destroyed ++ [c.number]}, {self with storage_ := none})
    else none

/-- `manage_impl<Fn>`, for `ManageOp::MoveTo`: the moved-from callable stays alive. -/
def manageMoveTo (a : Account) (self other : TaskFunction Fn) (type : Fn) :
    Option (Account × TaskFunction Fn) :=
  match self.storage_ with
  | none => none
  | some c => if c.type = type then some (construct a other type) else none

def reset (a : Account) (f : TaskFunction Fn) : Option (Account × TaskFunction Fn) := do
  let (a, f) ← match f.manage_ with
    | some type => manageDestroy a f type
    | none => some (a, f)
  some (a, {f with invoke_ := none, manage_ := none})

/-- The copy into the storage may throw; then nothing has been constructed. -/
def init (a : Account) (f : TaskFunction Fn) (type : Fn) (throws : Bool) : Account × TaskFunction Fn :=
  if throws then (a, f)
  else
    let (a, f) := construct a f type
    (a, {f with invoke_ := some type, manage_ := some type})

def emplace (a : Account) (f : TaskFunction Fn) (type : Fn) (throws : Bool) :
    Option (Account × TaskFunction Fn) := do
  let (a, f) ← f.reset a
  some (f.init a type throws)

/-- This object and the other after the move. -/
def move_from (a : Account) (f other : TaskFunction Fn) :
    Option (Account × TaskFunction Fn × TaskFunction Fn) := do
  let (a, f, other) ← match other.manage_ with
    | some type => do
      let (a, f) ← manageMoveTo a other f type
      let (a, other) ← manageDestroy a other type
      some (a, f, other)
    | none => some (a, f, other)
  some (a, {f with invoke_ := other.invoke_, manage_ := other.manage_},
    {other with invoke_ := none, manage_ := none})

end TaskFunction

/-- The objects that exist, and the account of all their callables. -/
structure TaskFunctions (Name Fn : Type) where
  objects : Name → Option (TaskFunction Fn)
  account : Account

namespace TaskFunctions
open TaskFunction
variable {Name Fn : Type} [DecidableEq Name] [DecidableEq Fn]

inductive Act (Name Fn : Type) where
  | default (n : Name)
  /-- From a callable, whose copy into the storage may throw. -/
  | construct (n : Name) (type : Fn) (throws : Bool)
  | emplace (n : Name) (type : Fn) (throws : Bool)
  | moveConstruct (n other : Name)
  | moveAssign (n other : Name)
  | reset (n : Name)
  | destroy (n : Name)

/-- What the caller sees to: an object is constructed where there is none, and used where there is. -/
def Applies (w : TaskFunctions Name Fn) : Act Name Fn → Prop
  | .default n | .construct n _ _ => w.objects n = none
  | .emplace n _ _ | .reset n | .destroy n => w.objects n ≠ none
  | .moveConstruct n other => w.objects n = none ∧ w.objects other ≠ none
  | .moveAssign n other => w.objects n ≠ none ∧ w.objects other ≠ none

/-- Object `n` is now this. -/
def set (w : TaskFunctions Name Fn) (n : Name) (f : Option (TaskFunction Fn)) : TaskFunctions Name Fn :=
  {w with objects := Function.update w.objects n f}

def charge (w : TaskFunctions Name Fn) (a : Account) : TaskFunctions Name Fn := {w with account := a}

def next (w : TaskFunctions Name Fn) : Act Name Fn → Option (TaskFunctions Name Fn)
  | .default n => some (w.set n (some .empty))
  | .construct n type throws =>
    -- An object whose constructor throws has never been.
    if throws then some w
    else
      let (a, f) := TaskFunction.empty.init w.account type false
      some ((w.set n (some f)).charge a)
  | .emplace n type throws => do
    let f ← w.objects n
    let (a, f) ← f.emplace w.account type throws
    some ((w.set n (some f)).charge a)
  | .moveConstruct n other => do
    let g ← w.objects other
    let (a, f, g) ← TaskFunction.empty.move_from w.account g
    some (((w.set n (some f)).set other (some g)).charge a)
  | .moveAssign n other =>
    if n ≠ other then do
      let f ← w.objects n
      let g ← w.objects other
      let (a, f) ← f.reset w.account
      let (a, f, g) ← f.move_from a g
      some (((w.set n (some f)).set other (some g)).charge a)
    else some w
  | .reset n => do
    let f ← w.objects n
    let (a, f) ← f.reset w.account
    some ((w.set n (some f)).charge a)
  | .destroy n => do
    let f ← w.objects n
    let (a, _) ← f.reset w.account
    some ((w.set n none).charge a)

def initial : TaskFunctions Name Fn := ⟨fun _ => none, ⟨0, []⟩⟩

/-- Any operations, one after another. -/
def system (Name Fn : Type) [DecidableEq Name] [DecidableEq Fn] :
    System (TaskFunctions Name Fn) (Act Name Fn) :=
  ⟨fun w => w = initial, fun a w w' => w.Applies a ∧ w.next a = some w'⟩

/-- The callable in object `n`. -/
def stored (w : TaskFunctions Name Fn) (n : Name) : Option (Callable Fn) :=
  (w.objects n).bind TaskFunction.storage_

/-- The callable with this number has been constructed and not destroyed. -/
def Alive (w : TaskFunctions Name Fn) (i : ℕ) : Prop :=
  i < w.account.constructed ∧ i ∉ w.account.destroyed

/-- Each object is empty or holds one callable, and every callable is in one object or has been
destroyed once. -/
structure Correct (w : TaskFunctions Name Fn) : Prop where
  holds : ∀ n f, w.objects n = some f →
    f = .empty ∧ f.valid = false ∨ ∃ c, f = ⟨some c, some c.type, some c.type⟩ ∧ f.valid = true
  finite : Set.Finite {i | w.Alive i}
  alive : {i | w.Alive i}.ncard = {n | ∃ f, w.objects n = some f ∧ f.valid = true}.ncard
  once : ∀ i < w.account.constructed, w.account.destroyed.count i = 0 ∧
      (∃ n c, w.stored n = some c ∧ c.number = i) ∨
    w.account.destroyed.count i = 1 ∧ ∀ n c, w.stored n = some c → c.number ≠ i
  /-- Whatever the caller may do is defined. -/
  defined : ∀ a, w.Applies a → ∃ w', w.next a = some w'
  /-- An `emplace` that throws leaves the object empty, and what it held destroyed. -/
  emplace : ∀ n type w', w.next (.emplace n type true) = some w' → w'.objects n = some .empty ∧
    ∀ c, w.stored n = some c → w'.account.destroyed = w.account.destroyed ++ [c.number]
  /-- Otherwise the object holds the newest callable, of the type asked for. -/
  filled : ∀ n type a w', a = .construct n type false ∨ a = .emplace n type false → w.next a = some w' →
    w'.objects n = some (holding ⟨w.account.constructed, type⟩)
  /-- A move leaves the other object empty, and in this one what that held. -/
  moved : ∀ n m a w', n ≠ m → a = .moveConstruct n m ∨ a = .moveAssign n m → w.next a = some w' →
    w'.objects m = some .empty ∧ w'.objects n =
      some ((w.stored m).elim .empty fun c => holding ⟨w.account.constructed, c.type⟩)

end TaskFunctions
end Thunderbolt
