import Thunderbolt.World.Simulation

/-! The world a simulation starts from.

Every initial value is drawn from the seed and the index of its entity alone: a scene with
more entities begins with the same ones. -/
namespace Thunderbolt.World
open FloatOps Vec3

variable {Float : Type} [FloatOps Float]

/-! ### The draws -/

/-- splitmix64. -/
def mix64 (x : BitVec 64) : BitVec 64 :=
  let x := x + 0x9E3779B97F4A7C15
  let x := (x ^^^ x >>> 30) * 0xBF58476D1CE4E5B9
  let x := (x ^^^ x >>> 27) * 0x94D049BB133111EB
  x ^^^ x >>> 31

/-- In `[0, 1)`: 24 bits of the word. -/
def random_unit (seed index stream : BitVec 64) : Float :=
  let bits := mix64 (seed ^^^ mix64 (index ^^^ stream * 0x2545F4914F6CDD1D))
  ofNat (bits >>> 40).toNat * (1.0 / 16777216.0)

def random_range (seed index : BitVec 64) (low high : Float) (stream : BitVec 64) : Float :=
  low + (high - low) * random_unit seed index stream

/-! ### The arrays -/

def VehicleArrays.resize (count : ℕ) : VehicleArrays Float count where
  position _ := zero
  velocity _ := zero
  heading _ := 0.0
  steer _ := 0.0
  throttle _ := 0.0
  engine_rpm _ := 0.0
  wheel_load _ := 0.0
  mass _ := 1500.0
  lod _ := .Full
  lane _ := 0

def NpcArrays.resize (count : ℕ) : NpcArrays Float count where
  position _ := zero
  velocity _ := zero
  target _ := zero
  speed _ := 0.0
  behaviour _ := 0
  lod _ := .Full
  nearest_distance _ := 0.0
  nearest_index _ := 0

def AircraftArrays.resize (count : ℕ) : AircraftArrays Float count where
  position _ := zero
  velocity _ := zero
  heading _ := 0.0
  pitch _ := 0.0
  throttle _ := 0.0
  altitude _ := 0.0
  air_density _ := 1.225
  lift _ := 0.0
  drag _ := 0.0
  thrust _ := 0.0
  mass _ := 60000.0

def WorldState.resize (v n a : ℕ) : WorldState Float v n a where
  vehicles := .resize v
  npcs := .resize n
  aircraft := .resize a
  player_position := zero

/-- The loop over the vehicles of `seed_initial_state`, and so for the others. -/
def VehicleArrays.seed {count : ℕ} (seed : BitVec 64) (vehicles : VehicleArrays Float count) :
    VehicleArrays Float count :=
  {vehicles with
    position := fun i =>
      ⟨random_range seed (.ofNat 64 i) 0.0 kWorldSize 1, 0.0, random_range seed (.ofNat 64 i) 0.0 kWorldSize 2⟩
    heading := fun i => random_range seed (.ofNat 64 i) 0.0 6.2831853 3
    throttle := fun i => random_range seed (.ofNat 64 i) 0.2 1.0 4
    mass := fun i => random_range seed (.ofNat 64 i) 900.0 2600.0 5
    lane := fun i => .ofNat 32 (i % 4)
    engine_rpm := fun _ => 800.0}

def NpcArrays.seed {count : ℕ} (seed : BitVec 64) (npcs : NpcArrays Float count) : NpcArrays Float count :=
  {npcs with
    position := fun i =>
      ⟨random_range seed (.ofNat 64 i) 0.0 kWorldSize 11, 0.0, random_range seed (.ofNat 64 i) 0.0 kWorldSize 12⟩
    target := fun i =>
      ⟨random_range seed (.ofNat 64 i) 0.0 kWorldSize 13, 0.0, random_range seed (.ofNat 64 i) 0.0 kWorldSize 14⟩
    speed := fun i => random_range seed (.ofNat 64 i) 0.8 2.2 15
    behaviour := fun i => .ofNat 32 (i % 3)}

def AircraftArrays.seed {count : ℕ} (seed : BitVec 64) (aircraft : AircraftArrays Float count) :
    AircraftArrays Float count :=
  {aircraft with
    position := fun i =>
      ⟨random_range seed (.ofNat 64 i) 0.0 kWorldSize 21, random_range seed (.ofNat 64 i) 300.0 9000.0 22,
        random_range seed (.ofNat 64 i) 0.0 kWorldSize 23⟩
    altitude := fun i => random_range seed (.ofNat 64 i) 300.0 9000.0 22
    heading := fun i => random_range seed (.ofNat 64 i) 0.0 6.2831853 24
    throttle := fun i => random_range seed (.ofNat 64 i) 0.5 1.0 25
    mass := fun i => random_range seed (.ofNat 64 i) 1200.0 250000.0 26
    velocity := fun i => ⟨random_range seed (.ofNat 64 i) 60.0 240.0 27, 0.0, 0.0⟩}

def seed_initial_state {v n a : ℕ} (seed : BitVec 64) (state : WorldState Float v n a) :
    WorldState Float v n a where
  vehicles := state.vehicles.seed seed
  npcs := state.npcs.seed seed
  aircraft := state.aircraft.seed seed
  player_position := ⟨kWorldSize * 0.5, 0.0, kWorldSize * 0.5⟩

set_option linter.dupNamespace false in
/-- The constructor: the second buffer starts as a copy. -/
def World.seeded (v n a : ℕ) (seed : BitVec 64) : World Float v n a where
  current := seed_initial_state seed (.resize v n a)
  next := seed_initial_state seed (.resize v n a)
  tick := 0

end Thunderbolt.World
