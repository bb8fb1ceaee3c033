import Thunderbolt.Hash.Fnv
import Thunderbolt.World.State

/-! The hash of a simulation state.

It walks the raw bits of every array, in index order, through FNV-1a. A number is
its bit pattern here, and a 32-bit value is fed as it lies in memory, low byte first. -/
namespace Thunderbolt.World
open Hash

/-- A 32-bit value, or the bits of a float. -/
abbrev Word := BitVec 32

namespace StateHasher

/-- `feed(std::uint32_t)`, and `feed(float)` on the bits. -/
def feed (h : BitVec 64) (w : Word) : BitVec 64 :=
  feedBytes h [w.extractLsb' 0 8, w.extractLsb' 8 8, w.extractLsb' 16 8, w.extractLsb' 24 8]

def feedVec3 (h : BitVec 64) (v : Vec3 Word) : BitVec 64 := feed (feed (feed h v.x) v.y) v.z

def feedLod (h : BitVec 64) (l : SimLod) : BitVec 64 := feed h (l.setWidth 32)

/-- `feed_array`, with the `feed` of its elements. -/
def feed_array {α : Type} {count : ℕ} (feedElement : BitVec 64 → α → BitVec 64) (h : BitVec 64)
    (values : Fin count → α) : BitVec 64 :=
  (List.ofFn values).foldl feedElement h

end StateHasher

open StateHasher

def hash_state {v n a : ℕ} (state : WorldState Word v n a) : BitVec 64 :=
  let h := offsetBasis
  let h := feed_array feedVec3 h state.vehicles.position
  let h := feed_array feedVec3 h state.vehicles.velocity
  let h := feed_array feed h state.vehicles.heading
  let h := feed_array feed h state.vehicles.steer
  let h := feed_array feed h state.vehicles.throttle
  let h := feed_array feed h state.vehicles.engine_rpm
  let h := feed_array feed h state.vehicles.wheel_load
  let h := feed_array feed h state.vehicles.mass
  let h := feed_array feedLod h state.vehicles.lod
  let h := feed_array feed h state.vehicles.lane
  let h := feed_array feedVec3 h state.npcs.position
  let h := feed_array feedVec3 h state.npcs.velocity
  let h := feed_array feedVec3 h state.npcs.target
  let h := feed_array feed h state.npcs.speed
  let h := feed_array feed h state.npcs.behaviour
  let h := feed_array feedLod h state.npcs.lod
  let h := feed_array feed h state.npcs.nearest_distance
  let h := feed_array feed h state.npcs.nearest_index
  let h := feed_array feedVec3 h state.aircraft.position
  let h := feed_array feedVec3 h state.aircraft.velocity
  let h := feed_array feed h state.aircraft.heading
  let h := feed_array feed h state.aircraft.pitch
  let h := feed_array feed h state.aircraft.throttle
  let h := feed_array feed h state.aircraft.altitude
  let h := feed_array feed h state.aircraft.air_density
  let h := feed_array feed h state.aircraft.lift
  let h := feed_array feed h state.aircraft.drag
  let h := feed_array feed h state.aircraft.thrust
  let h := feed_array feed h state.aircraft.mass
  feedVec3 h state.player_position

end Thunderbolt.World
