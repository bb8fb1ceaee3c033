import Mathlib.Logic.Function.Basic
import Thunderbolt.World.State

/-! The simulation's arithmetic, over any floating-point operations.

Nothing is asked of the operations: each result is a function of its arguments, and
that is all the simulation's determinism needs. -/
namespace Thunderbolt.World

/-- Single-precision numbers and the operations the simulation uses. -/
class FloatOps (Float : Type) extends
    Add Float, Sub Float, Mul Float, Div Float, Neg Float, OfScientific Float where
  lt : Float → Float → Bool
  le : Float → Float → Bool
  sqrt : Float → Float
  cos : Float → Float
  sin : Float → Float
  abs : Float → Float
  pow : Float → Float → Float
  fmod : Float → Float → Float
  /-- `static_cast<float>` of an integer. -/
  ofNat : ℕ → Float

variable {Float : Type} [FloatOps Float]
open FloatOps

def kWorldSize : Float := 5000.0

def kFixedTimestep : Float := 1.0 / 60.0

namespace Vec3

/-- `Vec3{}`. -/
def zero : Vec3 Float := ⟨0.0, 0.0, 0.0⟩

def add (a b : Vec3 Float) : Vec3 Float := ⟨a.x + b.x, a.y + b.y, a.z + b.z⟩

def sub (a b : Vec3 Float) : Vec3 Float := ⟨a.x - b.x, a.y - b.y, a.z - b.z⟩

def scale (v : Vec3 Float) (s : Float) : Vec3 Float := ⟨v.x * s, v.y * s, v.z * s⟩

def dot (a b : Vec3 Float) : Float := (a.x * b.x) + (a.y * b.y) + (a.z * b.z)

def length_squared (v : Vec3 Float) : Float := dot v v

def length (v : Vec3 Float) : Float := sqrt (length_squared v)

def normalized_or_zero (v : Vec3 Float) : Vec3 Float :=
  let len := length v
  if le len 1e-6 then zero else scale v (1.0 / len)

end Vec3

def clampf (value low high : Float) : Float :=
  if lt value low then low else if lt high value then high else value

/-- Into `[0, limit)`. -/
def wrapf (value limit : Float) : Float :=
  let wrapped := fmod value limit
  if lt wrapped 0.0 then wrapped + limit else wrapped

end Thunderbolt.World
