import Mathlib.Data.Nat.Notation

/-! The simulation state.

Structure of arrays: every attribute is an array of its own, all of one size, which
is a parameter of the type. `Float` stands for the type of the single-precision
numbers: their bit patterns where bits matter, anything where only the operations do. -/
namespace Thunderbolt.World

structure Vec3 (Float : Type) where
  x : Float
  y : Float
  z : Float
  deriving DecidableEq

/-- The level of detail: any byte is a value of the enumeration's type. -/
abbrev SimLod := BitVec 8

namespace SimLod

def Full : SimLod := 0
def Reduced : SimLod := 1
def Simple : SimLod := 2
def Distant : SimLod := 3

end SimLod

structure VehicleArrays (Float : Type) (count : ℕ) where
  position : Fin count → Vec3 Float
  velocity : Fin count → Vec3 Float
  heading : Fin count → Float
  steer : Fin count → Float
  throttle : Fin count → Float
  engine_rpm : Fin count → Float
  wheel_load : Fin count → Float
  mass : Fin count → Float
  lod : Fin count → SimLod
  lane : Fin count → BitVec 32

structure NpcArrays (Float : Type) (count : ℕ) where
  position : Fin count → Vec3 Float
  velocity : Fin count → Vec3 Float
  target : Fin count → Vec3 Float
  speed : Fin count → Float
  behaviour : Fin count → BitVec 32
  lod : Fin count → SimLod
  nearest_distance : Fin count → Float
  nearest_index : Fin count → BitVec 32

structure AircraftArrays (Float : Type) (count : ℕ) where
  position : Fin count → Vec3 Float
  velocity : Fin count → Vec3 Float
  heading : Fin count → Float
  pitch : Fin count → Float
  throttle : Fin count → Float
  altitude : Fin count → Float
  air_density : Fin count → Float
  lift : Fin count → Float
  drag : Fin count → Float
  thrust : Fin count → Float
  mass : Fin count → Float

/-- One complete simulation state, with so many vehicles, NPCs and aircraft. -/
structure WorldState (Float : Type) (v n a : ℕ) where
  vehicles : VehicleArrays Float v
  npcs : NpcArrays Float n
  aircraft : AircraftArrays Float a
  player_position : Vec3 Float

/-! ### States one value apart -/

/-- One component is another. -/
inductive Vec3.Differ {Float : Type} (v w : Vec3 Float) : Prop where
  | x : v.x ≠ w.x → v.y = w.y → v.z = w.z → Differ v w
  | y : v.x = w.x → v.y ≠ w.y → v.z = w.z → Differ v w
  | z : v.x = w.x → v.y = w.y → v.z ≠ w.z → Differ v w

/-- One element is another, in the sense of `R`. -/
def ArrayDiffer {α : Type} {count : ℕ} (R : α → α → Prop) (a b : Fin count → α) : Prop :=
  ∃ i, R (a i) (b i) ∧ ∀ j, j ≠ i → a j = b j

section Differ
variable {Float : Type} {count v n a : ℕ}

inductive VehicleArrays.Differ (a : VehicleArrays Float count) : VehicleArrays Float count → Prop where
  | position {b} : ArrayDiffer Vec3.Differ a.position b → Differ a {a with position := b}
  | velocity {b} : ArrayDiffer Vec3.Differ a.velocity b → Differ a {a with velocity := b}
  | heading {b} : ArrayDiffer (· ≠ ·) a.heading b → Differ a {a with heading := b}
  | steer {b} : ArrayDiffer (· ≠ ·) a.steer b → Differ a {a with steer := b}
  | throttle {b} : ArrayDiffer (· ≠ ·) a.throttle b → Differ a {a with throttle := b}
  | engine_rpm {b} : ArrayDiffer (· ≠ ·) a.engine_rpm b → Differ a {a with engine_rpm := b}
  | wheel_load {b} : ArrayDiffer (· ≠ ·) a.wheel_load b → Differ a {a with wheel_load := b}
  | mass {b} : ArrayDiffer (· ≠ ·) a.mass b → Differ a {a with mass := b}
  | lod {b} : ArrayDiffer (· ≠ ·) a.lod b → Differ a {a with lod := b}
  | lane {b} : ArrayDiffer (· ≠ ·) a.lane b → Differ a {a with lane := b}

inductive NpcArrays.Differ (a : NpcArrays Float count) : NpcArrays Float count → Prop where
  | position {b} : ArrayDiffer Vec3.Differ a.position b → Differ a {a with position := b}
  | velocity {b} : ArrayDiffer Vec3.Differ a.velocity b → Differ a {a with velocity := b}
  | target {b} : ArrayDiffer Vec3.Differ a.target b → Differ a {a with target := b}
  | speed {b} : ArrayDiffer (· ≠ ·) a.speed b → Differ a {a with speed := b}
  | behaviour {b} : ArrayDiffer (· ≠ ·) a.behaviour b → Differ a {a with behaviour := b}
  | lod {b} : ArrayDiffer (· ≠ ·) a.lod b → Differ a {a with lod := b}
  | nearest_distance {b} : ArrayDiffer (· ≠ ·) a.nearest_distance b → Differ a {a with nearest_distance := b}
  | nearest_index {b} : ArrayDiffer (· ≠ ·) a.nearest_index b → Differ a {a with nearest_index := b}

inductive AircraftArrays.Differ (a : AircraftArrays Float count) : AircraftArrays Float count → Prop where
  | position {b} : ArrayDiffer Vec3.Differ a.position b → Differ a {a with position := b}
  | velocity {b} : ArrayDiffer Vec3.Differ a.velocity b → Differ a {a with velocity := b}
  | heading {b} : ArrayDiffer (· ≠ ·) a.heading b → Differ a {a with heading := b}
  | pitch {b} : ArrayDiffer (· ≠ ·) a.pitch b → Differ a {a with pitch := b}
  | throttle {b} : ArrayDiffer (· ≠ ·) a.throttle b → Differ a {a with throttle := b}
  | altitude {b} : ArrayDiffer (· ≠ ·) a.altitude b → Differ a {a with altitude := b}
  | air_density {b} : ArrayDiffer (· ≠ ·) a.air_density b → Differ a {a with air_density := b}
  | lift {b} : ArrayDiffer (· ≠ ·) a.lift b → Differ a {a with lift := b}
  | drag {b} : ArrayDiffer (· ≠ ·) a.drag b → Differ a {a with drag := b}
  | thrust {b} : ArrayDiffer (· ≠ ·) a.thrust b → Differ a {a with thrust := b}
  | mass {b} : ArrayDiffer (· ≠ ·) a.mass b → Differ a {a with mass := b}

/-- One value of one array, or of the player's position, is another. -/
inductive WorldState.Differ (s : WorldState Float v n a) : WorldState Float v n a → Prop where
  | vehicles {b} : s.vehicles.Differ b → Differ s {s with vehicles := b}
  | npcs {b} : s.npcs.Differ b → Differ s {s with npcs := b}
  | aircraft {b} : s.aircraft.Differ b → Differ s {s with aircraft := b}
  | player_position {p} : s.player_position.Differ p → Differ s {s with player_position := p}

end Differ

end Thunderbolt.World
