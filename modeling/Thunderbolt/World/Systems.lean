import Mathlib.Data.List.FinRange
import Thunderbolt.World.Math

/-! The simulation's systems.

Each stage function runs one loop body over a range of entities: it reads the previous
frame `inp`, and writes the frame `out` at the entity's own index, where a later stage
of the same chain may read what an earlier one wrote. The bodies stand here under
the stage functions' names; a `Stage` names one of them, and a chain runs its stages one
after the other over one batch. -/
namespace Thunderbolt.World
open FloatOps Vec3 Function

variable {Float : Type} [FloatOps Float] {v n a : ℕ}

def lod_for_distance (distance : Float) : SimLod :=
  if lt distance 50.0 then .Full
  else if lt distance 250.0 then .Reduced
  else if lt distance 1000.0 then .Simple
  else .Distant

def substeps_for (lod : SimLod) : ℕ :=
  if lod = .Full then 4 else if lod = .Reduced then 2 else 1

def kPerceptionWindow : ℕ := 24

/-! ### Level of detail -/

def update_vehicle_lod (inp out : WorldState Float v n a) (i : Fin v) : WorldState Float v n a :=
  let offset := sub (inp.vehicles.position i) inp.player_position
  let distance := length offset
  {out with vehicles := {out.vehicles with
    lod := update out.vehicles.lod i (lod_for_distance distance)}}

def update_npc_lod (inp out : WorldState Float v n a) (i : Fin n) : WorldState Float v n a :=
  let offset := sub (inp.npcs.position i) inp.player_position
  let distance := length offset
  {out with npcs := {out.npcs with lod := update out.npcs.lod i (lod_for_distance distance)}}

/-! ### NPCs -/

/-- The nearest of the neighbours in the window, by squared distance and index. -/
def nearest (inp : WorldState Float v n a) (i : Fin n) : Float × BitVec 32 :=
  let self := inp.npcs.position i
  (List.range' 1 kPerceptionWindow).foldl (fun (nearest_sq, nearest_index) k =>
    let j : Fin n := ⟨(i + k) % n, Nat.mod_lt _ i.pos⟩
    let offset := sub (inp.npcs.position j) self
    let distance_sq := length_squared offset
    if lt distance_sq nearest_sq then (distance_sq, BitVec.ofNat 32 j)
    else (nearest_sq, nearest_index)) (1e30, BitVec.ofNat 32 i)

def update_npc_perception (inp out : WorldState Float v n a) (i : Fin n) : WorldState Float v n a :=
  let (nearest_sq, nearest_index) := nearest inp i
  {out with npcs := {out.npcs with
    nearest_distance := update out.npcs.nearest_distance i (sqrt nearest_sq)
    nearest_index := update out.npcs.nearest_index i nearest_index}}

/-- The position of the NPC with this index; perception stores only indices that exist. -/
def positionOf (inp : WorldState Float v n a) (other : BitVec 32) : Vec3 Float :=
  if h : other.toNat < n then inp.npcs.position ⟨other.toNat, h⟩ else zero

def update_npc_decision (inp out : WorldState Float v n a) (i : Fin n) : WorldState Float v n a :=
  let nearest := out.npcs.nearest_distance i
  let to_target := sub (inp.npcs.target i) (inp.npcs.position i)
  let heading := normalized_or_zero to_target
  let heading :=
    if lt nearest 3.0 then
      let other := out.npcs.nearest_index i
      let away := normalized_or_zero (sub (inp.npcs.position i) (positionOf inp other))
      normalized_or_zero (add (scale heading 0.4) (scale away 0.6))
    else heading
  let speed := inp.npcs.speed i
  let speed :=
    if inp.npcs.behaviour i = 1 then speed * 1.35
    else if inp.npcs.behaviour i = 2 then speed * 0.7
    else speed
  let distance := length to_target
  let speed := if lt distance 5.0 then speed * clampf (distance * 0.2) 0.1 1.0 else speed
  {out with npcs := {out.npcs with
    velocity := update out.npcs.velocity i (scale heading speed)
    speed := update out.npcs.speed i (inp.npcs.speed i)}}

def update_npc_movement (inp out : WorldState Float v n a) (i : Fin n) : WorldState Float v n a :=
  let velocity := out.npcs.velocity i
  let position := add (inp.npcs.position i) (scale velocity kFixedTimestep)
  let position := {position with x := wrapf position.x kWorldSize, z := wrapf position.z kWorldSize}
  let target := inp.npcs.target i
  let distance := length (sub target position)
  let target :=
    if lt distance 2.0 then
      ⟨wrapf (target.z * 1.37 + 137.0) kWorldSize, 0.0, wrapf (target.x * 1.19 + 71.0) kWorldSize⟩
    else target
  {out with npcs := {out.npcs with
    position := update out.npcs.position i position
    target := update out.npcs.target i target
    behaviour := update out.npcs.behaviour i (inp.npcs.behaviour i)}}

/-! ### Vehicles -/

/-- What a substep of the vehicle physics changes. -/
structure Motion (Float : Type) where
  position : Vec3 Float
  velocity : Vec3 Float
  heading : Float
  rpm : Float
  wheel_load : Float

/-- One substep. -/
def substep (mass throttle steer dt : Float) (m : Motion Float) : Motion Float :=
  let speed := length m.velocity
  let normalized_rpm := clampf (m.rpm / 6500.0) 0.0 1.2
  let torque := 320.0 * throttle * (1.0 - (normalized_rpm - 0.55) * (normalized_rpm - 0.55) * 2.2)
  let wheel_force := clampf torque 0.0 400.0 * 3.4 / 0.32
  let slip := clampf (wheel_force / (mass * 9.81)) (-1.0) 1.0
  let grip_force := slip * mass * 9.81 * 0.95
  let drag := 0.5 * 1.225 * 0.31 * 2.2 * speed * speed
  let rolling := 0.015 * mass * 9.81
  let net_force := grip_force - drag - rolling
  let acceleration := net_force / mass
  let heading := m.heading + steer * dt * 0.6
  let heading := wrapf heading 6.2831853
  let forward := ⟨cos heading, 0.0, sin heading⟩
  let velocity := add m.velocity (scale forward (acceleration * dt))
  let velocity := scale velocity 0.999
  let position := add m.position (scale velocity dt)
  { position, velocity, heading
    wheel_load := mass * 9.81 * 0.25 + acceleration * mass * 0.08
    rpm := clampf (abs (length velocity) * 3.4 / 0.32 * 9.549) 800.0 7200.0 }

def update_vehicle_physics (inp out : WorldState Float v n a) (i : Fin v) : WorldState Float v n a :=
  let steps := substeps_for (out.vehicles.lod i)
  let mass := inp.vehicles.mass i
  let throttle := inp.vehicles.throttle i
  let dt := kFixedTimestep / ofNat steps
  let m := (substep mass throttle (inp.vehicles.steer i) dt)^[steps]
    { position := inp.vehicles.position i
      velocity := inp.vehicles.velocity i
      heading := inp.vehicles.heading i
      rpm := inp.vehicles.engine_rpm i
      wheel_load := out.vehicles.wheel_load i }
  let position :=
    {m.position with x := wrapf m.position.x kWorldSize, z := wrapf m.position.z kWorldSize}
  {out with vehicles := {out.vehicles with
    wheel_load := update out.vehicles.wheel_load i m.wheel_load
    position := update out.vehicles.position i position
    velocity := update out.vehicles.velocity i m.velocity
    heading := update out.vehicles.heading i m.heading
    engine_rpm := update out.vehicles.engine_rpm i m.rpm
    throttle := update out.vehicles.throttle i throttle
    mass := update out.vehicles.mass i mass
    lane := update out.vehicles.lane i (inp.vehicles.lane i)
    steer := update out.vehicles.steer i
      (clampf (sin (position.x * 0.01 + ofNat (inp.vehicles.lane i).toNat) * 0.25) (-0.5) 0.5)}}

/-! ### Aircraft -/

def update_aircraft_atmosphere (inp out : WorldState Float v n a) (i : Fin a) :
    WorldState Float v n a :=
  let altitude := (inp.aircraft.position i).y
  let temperature := 288.15 - 0.0065 * altitude
  let ratio := clampf (temperature / 288.15) 0.1 1.5
  let density := 1.225 * pow ratio 4.2561
  {out with aircraft := {out.aircraft with
    air_density := update out.aircraft.air_density i density
    altitude := update out.aircraft.altitude i altitude}}

def update_aircraft_aerodynamics (inp out : WorldState Float v n a) (i : Fin a) :
    WorldState Float v n a :=
  let density := out.aircraft.air_density i
  let velocity := inp.aircraft.velocity i
  let speed := length velocity
  let wing_area := 0.0006 * inp.aircraft.mass i + 16.0
  let angle := inp.aircraft.pitch i
  let lift_coeff := clampf (0.2 + 5.7 * angle) (-1.6) 1.6
  let drag_coeff := 0.021 + (lift_coeff * lift_coeff) / (3.1416 * 8.0 * 0.8)
  let dynamic_pressure := 0.5 * density * speed * speed
  {out with aircraft := {out.aircraft with
    lift := update out.aircraft.lift i (dynamic_pressure * wing_area * lift_coeff)
    drag := update out.aircraft.drag i (dynamic_pressure * wing_area * drag_coeff)}}

def update_aircraft_propulsion (inp out : WorldState Float v n a) (i : Fin a) :
    WorldState Float v n a :=
  let density := out.aircraft.air_density i
  let throttle := inp.aircraft.throttle i
  let sea_level_thrust := inp.aircraft.mass i * 0.30
  {out with aircraft := {out.aircraft with
    thrust := update out.aircraft.thrust i (sea_level_thrust * throttle * (density / 1.225))
    throttle := update out.aircraft.throttle i throttle}}

def update_aircraft_integrate (inp out : WorldState Float v n a) (i : Fin a) :
    WorldState Float v n a :=
  let mass := inp.aircraft.mass i
  let lift := out.aircraft.lift i
  let drag := out.aircraft.drag i
  let thrust := out.aircraft.thrust i
  let heading := inp.aircraft.heading i
  let velocity := inp.aircraft.velocity i
  let position := inp.aircraft.position i
  let forward := ⟨cos heading, 0.0, sin heading⟩
  let along := (thrust - drag) / mass
  let vertical := (lift - mass * 9.81) / mass
  let velocity := add velocity (scale forward (along * kFixedTimestep))
  let velocity := {velocity with y := velocity.y + vertical * kFixedTimestep}
  let velocity := {velocity with y := clampf velocity.y (-60.0) 60.0}
  let position := add position (scale velocity kFixedTimestep)
  let position := {position with y := clampf position.y 150.0 12000.0}
  let position := {position with x := wrapf position.x kWorldSize, z := wrapf position.z kWorldSize}
  let heading := wrapf (heading + sin (position.x * 0.0005) * 0.004) 6.2831853
  let pitch := clampf (inp.aircraft.pitch i - vertical * 0.0006) (-0.28) 0.28
  {out with aircraft := {out.aircraft with
    position := update out.aircraft.position i position
    velocity := update out.aircraft.velocity i velocity
    heading := update out.aircraft.heading i heading
    pitch := update out.aircraft.pitch i pitch
    mass := update out.aircraft.mass i mass}}

end Thunderbolt.World
