import Thunderbolt.World.Fields
import Thunderbolt.World.Perception
import Thunderbolt.World.Seed

/-! Any number of ticks.

`advance` is what a tick is for: each entity's next values, from the previous frame and
with no other entity of the new frame in sight. The two buffers, the batches, the runtime and
its workers are how a tick computes it: ticks of any kind one after the other are
`advance` as often (`frames`). In it vehicles and aircraft see nobody, and an NPC sees NPCs only: so
scenes made from one seed agree on the entities that they share, after any number of ticks
(`scenes_agree`). -/
namespace Thunderbolt.World
open Concurrent

variable {Float : Type} [FloatOps Float] {v n a v' n' a' : ℕ}

/-! ### The purpose of a tick -/

def VehicleArrays.ofRows {count : ℕ} (r : Fin count → VehicleArrays Float 1) : VehicleArrays Float count where
  position i := (r i).position 0
  velocity i := (r i).velocity 0
  heading i := (r i).heading 0
  steer i := (r i).steer 0
  throttle i := (r i).throttle 0
  engine_rpm i := (r i).engine_rpm 0
  wheel_load i := (r i).wheel_load 0
  mass i := (r i).mass 0
  lod i := (r i).lod 0
  lane i := (r i).lane 0

def NpcArrays.ofRows {count : ℕ} (r : Fin count → NpcArrays Float 1) : NpcArrays Float count where
  position i := (r i).position 0
  velocity i := (r i).velocity 0
  target i := (r i).target 0
  speed i := (r i).speed 0
  behaviour i := (r i).behaviour 0
  lod i := (r i).lod 0
  nearest_distance i := (r i).nearest_distance 0
  nearest_index i := (r i).nearest_index 0

def AircraftArrays.ofRows {count : ℕ} (r : Fin count → AircraftArrays Float 1) :
    AircraftArrays Float count where
  position i := (r i).position 0
  velocity i := (r i).velocity 0
  heading i := (r i).heading 0
  pitch i := (r i).pitch 0
  throttle i := (r i).throttle 0
  altitude i := (r i).altitude 0
  air_density i := (r i).air_density 0
  lift i := (r i).lift 0
  drag i := (r i).drag 0
  thrust i := (r i).thrust 0
  mass i := (r i).mass 0

section Rows
omit [FloatOps Float]
variable {count : ℕ} {i : Fin count}

@[simp] theorem VehicleArrays.row_ofRows (r : Fin count → VehicleArrays Float 1) : (ofRows r).row i = r i :=
  ext_row fun k => by rw [Fin.fin_one_eq_zero k]; rfl

@[simp] theorem NpcArrays.row_ofRows (r : Fin count → NpcArrays Float 1) : (ofRows r).row i = r i :=
  ext_row fun k => by rw [Fin.fin_one_eq_zero k]; rfl

@[simp] theorem AircraftArrays.row_ofRows (r : Fin count → AircraftArrays Float 1) : (ofRows r).row i = r i :=
  ext_row fun k => by rw [Fin.fin_one_eq_zero k]; rfl

end Rows

/-- What the stages of its chain make of an entity. -/
def next_row (inp : WorldState Float v n a) (k : Entity v n a) : Row Float k.1 :=
  (k.1.stages.foldl (fun out stage => stage.update inp k.2 out) inp).row k

/-- The next frame, entity by entity. -/
def advance (inp : WorldState Float v n a) : WorldState Float v n a where
  vehicles := .ofRows fun i => next_row inp ⟨.vehicles, i⟩
  npcs := .ofRows fun i => next_row inp ⟨.npcs, i⟩
  aircraft := .ofRows fun i => next_row inp ⟨.aircraft, i⟩
  player_position := inp.player_position

theorem row_advance (inp : WorldState Float v n a) (k : Entity v n a) :
    (advance inp).row k = next_row inp k := by
  obtain ⟨c, i⟩ := k
  cases c with
  | vehicles => exact VehicleArrays.row_ofRows _
  | npcs => exact NpcArrays.row_ofRows _
  | aircraft => exact AircraftArrays.row_ofRows _

/-- The batches one by one compute the next frame, whatever the buffer held. -/
theorem run_advance {inp out : WorldState Float v n a} (hplayer : out.player_position = inp.player_position) :
    (serial_ops v n a).foldl (fun out o => o.act inp out) out = advance inp := by
  rw [run_same hplayer]
  apply WorldState.ext_row
  · intro k
    rw [row_advance, (local_act inp).row_run k _ rfl, filter_serial_ops, work, List.foldl_map]
    rfl
  · exact (local_act inp).rest_run _ _

/-! ### Ticks -/

/-- One tick: serial, or over a runtime with so many workers, in some order. -/
inductive Ticked (w : World Float v n a) : World Float v n a → Prop where
  | serial : Ticked w (tick_serial w)
  | parallel {worker_count} {s : TickState Float v n a worker_count} :
      Reachable (tick w worker_count) s → s.Returned → Ticked w (w.finish_tick s.claims.mem)

/-- So many ticks, each of its own kind. -/
inductive Ticks (w : World Float v n a) : ℕ → World Float v n a → Prop where
  | start : Ticks w 0 w
  | tick {k w' w''} : Ticks w k w' → Ticked w' w'' → Ticks w (k + 1) w''

theorem out_advance (w : World Float v n a) :
    (serial_ops v n a).foldl (fun out o => o.act w.current out) w.out = advance w.current :=
  run_advance rfl

theorem Ticked.eq {w w' : World Float v n a} (h : Ticked w w') : w' = w.finish_tick (advance w.current) := by
  cases h with
  | serial => rw [tick_serial_eq, out_advance]
  | parallel h hret => rw [mem_finished (claims_reachable h) (returned_finished h hret), out_advance]

theorem Ticks.current {w w' : World Float v n a} {k : ℕ} (h : Ticks w k w') :
    w'.current = advance^[k] w.current := by
  induction h with
  | start => rfl
  | tick _ htick ih => rw [htick.eq, Function.iterate_succ_apply', ← ih]; rfl

theorem Ticks.counted {w w' : World Float v n a} {k : ℕ} (h : Ticks w k w') :
    w'.tick = w.tick + BitVec.ofNat 64 k := by
  induction h with
  | start => exact (BitVec.add_zero w.tick).symm
  | @tick k _ _ _ htick ih =>
    have hcount : BitVec.ofNat 64 (k + 1) = BitVec.ofNat 64 k + 1 := BitVec.ofNat_add k 1
    rw [htick.eq, hcount, ← BitVec.add_assoc, ← ih]
    rfl

/-- **The simulation is `advance` iterated**: however each tick was run, the current frame is
as many steps from the first, the other buffer holds the frame before, and the ticks are
counted. -/
theorem frames {w w' : World Float v n a} {k : ℕ} (h : Ticks w (k + 1) w') :
    w'.current = advance^[k + 1] w.current ∧ w'.next = advance^[k] w.current ∧
      w'.tick = w.tick + BitVec.ofNat 64 (k + 1) := by
  refine ⟨h.current, ?_, h.counted⟩
  cases h with
  | tick h htick => rw [htick.eq, ← h.current]; rfl

section Integers
attribute [local instance] integers

/-- A serial tick, and one over two workers. -/
theorem frames_mixed : ∃ w w' : World ℤ 1 2 1, Ticks w 2 w' ∧ w'.next = advance w.current := by
  have hstart : Reachable (tick (tick_serial (World.seeded 1 2 1 7 : World ℤ 1 2 1)) 2) _ := .initial rfl
  obtain ⟨s, hs, hret⟩ := returns hstart
  have hticks := (Ticks.start.tick .serial).tick (.parallel (hstart.trans hs) hret)
  exact ⟨_, _, hticks, (frames hticks).2.1⟩

end Integers

/-! ### What an entity sees -/

section Sight
variable {inp : WorldState Float v n a} {inp' : WorldState Float v' n' a'}

/-- A vehicle sees the player. -/
theorem vehicle_next {i : Fin v} {j : Fin v'} (hrow : inp.vehicles.row i = inp'.vehicles.row j)
    (hplayer : inp.player_position = inp'.player_position) :
    (advance inp).vehicles.row i = (advance inp').vehicles.row j := by
  have hi := row_advance inp ⟨.vehicles, i⟩
  have hj := row_advance inp' ⟨.vehicles, j⟩
  simp only [WorldState.row] at hi hj
  rw [hi, hj]
  obtain ⟨hposition, hvelocity, hheading, hsteer, hthrottle, hrpm, hload, hmass, hlod, hlane⟩ :=
    VehicleArrays.row_inj.mp hrow
  simp only [next_row, Chain.stages, List.foldl_cons, List.foldl_nil, Stage.update, WorldState.row,
    VehicleArrays.row_inj, update_vehicle_lod, update_vehicle_physics, Function.update_self, hposition,
    hvelocity, hheading, hsteer, hthrottle, hrpm, hload, hmass, hlane, hplayer, and_self]

/-- An aircraft sees nothing. -/
theorem aircraft_next {i : Fin a} {j : Fin a'} (hrow : inp.aircraft.row i = inp'.aircraft.row j) :
    (advance inp).aircraft.row i = (advance inp').aircraft.row j := by
  have hi := row_advance inp ⟨.aircraft, i⟩
  have hj := row_advance inp' ⟨.aircraft, j⟩
  simp only [WorldState.row] at hi hj
  rw [hi, hj]
  obtain ⟨hposition, hvelocity, hheading, hpitch, hthrottle, -, -, -, -, -, hmass⟩ :=
    AircraftArrays.row_inj.mp hrow
  simp only [next_row, Chain.stages, List.foldl_cons, List.foldl_nil, Stage.update, WorldState.row,
    AircraftArrays.row_inj, update_aircraft_atmosphere, update_aircraft_aerodynamics,
    update_aircraft_propulsion, update_aircraft_integrate, Function.update_self, hposition, hvelocity,
    hheading, hpitch, hthrottle, hmass, and_self]

/-- NPC `i` looks at itself, at those within the window behind it, and at any that the low
half of one of their indices names. -/
def Sees (i j : Fin n) : Prop :=
  ∃ d ≤ kPerceptionWindow, j.val = (i + d) % n ∨ j.val = (i + d) % n % 0x100000000

omit [FloatOps Float] in
theorem sees_self (i : Fin n) : Sees i i := ⟨0, Nat.zero_le _, .inl (Nat.mod_eq_of_lt i.isLt).symm⟩

/-- What perception stores is in sight. -/
theorem nearest_seen (inp : WorldState Float v n a) (i : Fin n) :
    ∃ d ≤ kPerceptionWindow, (nearest inp i).2 = BitVec.ofNat 32 ((i + d) % n) := by
  refine List.foldlRecOn (motive := fun (p : Float × BitVec 32) =>
    ∃ d ≤ kPerceptionWindow, p.2 = BitVec.ofNat 32 ((i + d) % n)) _ _ ?_ ?_
  · exact ⟨0, Nat.zero_le _, by rw [Nat.add_zero, Nat.mod_eq_of_lt i.isLt]⟩
  · intro nearest hseen k hk
    obtain ⟨nearest_sq, nearest_index⟩ := nearest
    dsimp only
    split
    · exact ⟨k, by simp only [List.mem_range'_1] at hk; omega, rfl⟩
    · exact hseen

theorem nearest_congr {inp : WorldState Float v n a} {inp' : WorldState Float v' n a'} {i : Fin n}
    (h : ∀ j, Sees i j → inp.npcs.position j = inp'.npcs.position j) : nearest inp i = nearest inp' i := by
  unfold nearest
  apply List.foldl_ext
  intro nearest k hk
  obtain ⟨nearest_sq, nearest_index⟩ := nearest
  have hseen : Sees i ⟨(i + k) % n, behind_lt i k⟩ := by
    refine ⟨k, ?_, .inl rfl⟩
    simp only [List.mem_range'_1] at hk
    omega
  simp only [h _ hseen, h i (sees_self i)]

/-- An NPC sees the player and those NPCs. -/
theorem npc_next {inp : WorldState Float v n a} {inp' : WorldState Float v' n a'} {i : Fin n}
    (hrow : ∀ j, Sees i j → inp.npcs.row j = inp'.npcs.row j)
    (hplayer : inp.player_position = inp'.player_position) :
    (advance inp).npcs.row i = (advance inp').npcs.row i := by
  have hi := row_advance inp ⟨.npcs, i⟩
  have hj := row_advance inp' ⟨.npcs, i⟩
  simp only [WorldState.row] at hi hj
  rw [hi, hj]
  have hpositions : ∀ j, Sees i j → inp.npcs.position j = inp'.npcs.position j := by
    intro j hj
    exact (NpcArrays.row_inj.mp (hrow j hj)).1
  obtain ⟨hposition, hvelocity, htarget, hspeed, hbehaviour, -⟩ := NpcArrays.row_inj.mp (hrow i (sees_self i))
  have hother : positionOf inp (nearest inp' i).2 = positionOf inp' (nearest inp' i).2 := by
    obtain ⟨d, hd, hindex⟩ := nearest_seen inp' i
    have hvalue : (nearest inp' i).2.toNat = (i + d) % n % 0x100000000 := by
      rw [hindex, BitVec.toNat_ofNat]
    unfold positionOf
    split
    · exact hpositions _ ⟨d, hd, .inr hvalue⟩
    · rfl
  simp only [next_row, Chain.stages, List.foldl_cons, List.foldl_nil, Stage.update, WorldState.row,
    NpcArrays.row_inj, update_npc_lod, update_npc_perception, update_npc_decision, update_npc_movement,
    Function.update_self, nearest_congr hpositions, hother, hposition, htarget, hspeed, hbehaviour,
    hplayer, and_self]

end Sight

/-! ### Scenes -/

section Scenes
variable {seed : BitVec 64} {k : ℕ} {w : World Float v n a} {w' : World Float v' n' a'}

theorem player_iterate (inp : WorldState Float v n a) (k : ℕ) :
    (advance^[k] inp).player_position = inp.player_position := by
  induction k with
  | zero => rfl
  | succ k ih => rw [Function.iterate_succ_apply', ← ih]; rfl

theorem vehicle_iterate {inp : WorldState Float v n a} {inp' : WorldState Float v' n' a'} {i : Fin v}
    {j : Fin v'} (hrow : inp.vehicles.row i = inp'.vehicles.row j)
    (hplayer : inp.player_position = inp'.player_position) (k : ℕ) :
    (advance^[k] inp).vehicles.row i = (advance^[k] inp').vehicles.row j := by
  induction k with
  | zero => exact hrow
  | succ k ih =>
    rw [Function.iterate_succ_apply', Function.iterate_succ_apply']
    exact vehicle_next ih (by rw [player_iterate, player_iterate, hplayer])

theorem aircraft_iterate {inp : WorldState Float v n a} {inp' : WorldState Float v' n' a'} {i : Fin a}
    {j : Fin a'} (hrow : inp.aircraft.row i = inp'.aircraft.row j) (k : ℕ) :
    (advance^[k] inp).aircraft.row i = (advance^[k] inp').aircraft.row j := by
  induction k with
  | zero => exact hrow
  | succ k ih =>
    rw [Function.iterate_succ_apply', Function.iterate_succ_apply']
    exact aircraft_next ih

theorem npc_iterate {inp : WorldState Float v n a} {inp' : WorldState Float v' n a'}
    (hrow : ∀ i, inp.npcs.row i = inp'.npcs.row i) (hplayer : inp.player_position = inp'.player_position)
    (k : ℕ) (i : Fin n) : (advance^[k] inp).npcs.row i = (advance^[k] inp').npcs.row i := by
  induction k generalizing i with
  | zero => exact hrow i
  | succ k ih =>
    rw [Function.iterate_succ_apply', Function.iterate_succ_apply']
    exact npc_next (fun j _ => ih j) (by rw [player_iterate, player_iterate, hplayer])

/-- **Scenes of one seed agree**: after as many ticks, whichever way these were run, a vehicle or an aircraft
is where it is in any other scene that has it, and an NPC where it is in any other scene with as
many NPCs. -/
theorem scenes_agree (h : Ticks (.seeded v n a seed) k w) (h' : Ticks (.seeded v' n' a' seed) k w') :
    (∀ (i : Fin v) (j : Fin v'), i.val = j.val → w.current.vehicles.row i = w'.current.vehicles.row j) ∧
      (∀ (i : Fin a) (j : Fin a'), i.val = j.val → w.current.aircraft.row i = w'.current.aircraft.row j) ∧
      (n = n' → ∀ (i : Fin n) (j : Fin n'), i.val = j.val →
        w.current.npcs.row i = w'.current.npcs.row j) := by
  have hplayer : (World.seeded v n a seed : World Float v n a).current.player_position =
      (World.seeded v' n' a' seed).current.player_position := rfl
  rw [h.current, h'.current]
  refine ⟨fun i j hij => vehicle_iterate ?_ hplayer k, fun i j hij => aircraft_iterate ?_ k, ?_⟩
  · simp [VehicleArrays.row, World.seeded, seed_initial_state, VehicleArrays.seed, VehicleArrays.resize,
      WorldState.resize, hij]
  · simp [AircraftArrays.row, World.seeded, seed_initial_state, AircraftArrays.seed,
      AircraftArrays.resize, WorldState.resize, hij]
  · rintro rfl i j hij
    obtain rfl := Fin.ext hij
    have hrow : ∀ l, (World.seeded v n a seed : World Float v n a).current.npcs.row l =
        (World.seeded v' n a' seed).current.npcs.row l := fun _ => rfl
    exact npc_iterate hrow hplayer k i

/-- **News travels by the window**: with no more than `2 ^ 32` NPCs, what an NPC is after `k` ticks is settled
by the player and the NPCs less than `k` windows behind it. -/
theorem horizon {w₀ : World Float v n a} {w₀' : World Float v' n a'} {w : World Float v n a}
    {w' : World Float v' n a'} {i : Fin n} (hn : n ≤ 0x100000000)
    (hplayer : w₀.current.player_position = w₀'.current.player_position)
    (hrow : ∀ d ≤ kPerceptionWindow * k, ∀ j : Fin n, j.val = (i + d) % n →
      w₀.current.npcs.row j = w₀'.current.npcs.row j)
    (h : Ticks w₀ k w) (h' : Ticks w₀' k w') : w.current.npcs.row i = w'.current.npcs.row i := by
  rw [h.current, h'.current]
  clear h h'
  induction k generalizing i with
  | zero => exact hrow 0 (Nat.zero_le _) i (Nat.mod_eq_of_lt i.isLt).symm
  | succ k ih =>
    rw [Function.iterate_succ_apply', Function.iterate_succ_apply']
    refine npc_next (fun j hj => ih fun d hd l hl => ?_) (by rw [player_iterate, player_iterate, hplayer])
    have hseen : ∃ e ≤ kPerceptionWindow, j.val = (i + e) % n := by
      obtain ⟨e, he, hj | hj⟩ := hj
      · exact ⟨e, he, hj⟩
      · have hlt : (i + e) % n < 0x100000000 := (behind_lt i e).trans_le hn
        exact ⟨e, he, hj.trans (Nat.mod_eq_of_lt hlt)⟩
    obtain ⟨e, he, hje⟩ := hseen
    refine hrow (e + d) (by rw [Nat.mul_succ]; omega) l ?_
    rw [hl, hje, Nat.mod_add_mod, Nat.add_assoc]

section Integers
attribute [local instance] integers

theorem scenes_agree_player : ∃ (w : World ℤ 1 2 1) (w' : World ℤ 3 2 0),
    w.current.vehicles.row 0 = w'.current.vehicles.row 0 ∧ w.current.npcs.row 1 = w'.current.npcs.row 1 := by
  have h : Ticks (World.seeded 1 2 1 7 : World ℤ 1 2 1) 1 _ := Ticks.start.tick .serial
  have h' : Ticks (World.seeded 3 2 0 7 : World ℤ 3 2 0) 1 _ := Ticks.start.tick .serial
  exact ⟨_, _, (scenes_agree h h').1 0 0 rfl, (scenes_agree h h').2.2 rfl 1 1 rfl⟩

/-- NPC 0 does not see NPC 30. -/
theorem horizon_far : ∃ inp inp' : WorldState ℤ 0 32 0, inp.npcs.row 30 ≠ inp'.npcs.row 30 ∧
    (tick_serial ⟨inp, inp, 0⟩).current.npcs.row 0 = (tick_serial ⟨inp', inp', 0⟩).current.npcs.row 0 := by
  let inp : WorldState ℤ 0 32 0 := .resize 0 32 0
  let inp' : WorldState ℤ 0 32 0 :=
    {inp with npcs := {inp.npcs with position := Function.update inp.npcs.position 30 ⟨1, 0, 0⟩}}
  have hrow : ∀ d ≤ kPerceptionWindow * 1, ∀ j : Fin 32, j.val = ((0 : Fin 32) + d) % 32 →
      inp.npcs.row j = inp'.npcs.row j := by
    intro d hd j hj
    have hne : j ≠ 30 := by
      intro heq
      obtain rfl := heq
      have hd : d ≤ 24 := hd
      have hj : 30 = (0 + d) % 32 := hj
      omega
    simp [NpcArrays.row_inj, inp', hne]
  have htick : ∀ inp : WorldState ℤ 0 32 0, Ticks ⟨inp, inp, 0⟩ 1 (tick_serial ⟨inp, inp, 0⟩) :=
    fun _ => Ticks.start.tick .serial
  have hplayer : inp.player_position = inp'.player_position := rfl
  refine ⟨inp, inp', fun heq => ?_, horizon (by decide) hplayer hrow (htick inp) (htick inp')⟩
  have hposition := (NpcArrays.row_inj.mp heq).1
  revert hposition
  decide

end Integers

end Scenes

/-! ### Decision stays in the array -/

section Bounds
variable {worker_count : ℕ} {w : World Float v n a} {s : TickState Float v n a worker_count}

theorem nearest_lt (inp : WorldState Float v n a) (i : Fin n) : (nearest inp i).2.toNat < n := by
  obtain ⟨d, _, hindex⟩ := nearest_seen inp i
  rw [hindex, BitVec.toNat_ofNat]
  exact (Nat.mod_le _ _).trans_lt (behind_lt i d)

/-- Only perception writes the index. -/
theorem act_nearest_index (inp out : WorldState Float v n a) (o : Op v n a) (i : Fin n) :
    (o.act inp out).npcs.nearest_index i = out.npcs.nearest_index i ∨
      (o.act inp out).npcs.nearest_index i = (nearest inp i).2 := by
  obtain ⟨c, stage, j⟩ := o
  cases stage with
  | npc_perception =>
    change Fin n at j
    by_cases hij : i = j
    · subst hij
      exact .inr (by simp [Op.act, Stage.update, update_npc_perception])
    · exact .inl (by simp [Op.act, Stage.update, update_npc_perception, hij])
  | _ => exact .inl rfl

/-- If the operation is perception of NPC `i`, the index stored there is in bounds. -/
def Stored (i : Fin n) (o : Op v n a) (out : WorldState Float v n a) : Prop :=
  o = ⟨.npcs, .npc_perception, i⟩ → (out.npcs.nearest_index i).toNat < n

theorem stored_act (inp out : WorldState Float v n a) (o : Op v n a) (i : Fin n) :
    Stored i o (o.act inp out) := by
  intro heq
  obtain rfl := heq
  have hindex : (Op.act inp ⟨.npcs, .npc_perception, i⟩ out).npcs.nearest_index i = (nearest inp i).2 := by
    simp [Op.act, Stage.update, update_npc_perception]
  rw [hindex]
  exact nearest_lt inp i

theorem Stored.act {inp out : WorldState Float v n a} {o : Op v n a} {i : Fin n} (h : Stored i o out)
    (p : Op v n a) : Stored i o (p.act inp out) := by
  intro ho
  obtain hsame | hnew := act_nearest_index inp out p i
  · rw [hsame]
    exact h ho
  · rw [hnew]
    exact nearest_lt inp i

/-- **Decision looks up an NPC that exists**: in every state of a parallel tick, the index that a
claimant is about to look up is in bounds. -/
theorem decision_in_bounds {t : Claimant v n a worker_count} {k : ℕ} {i : Fin n} {left : List (Op v n a)}
    (h : Reachable (tick w worker_count) s)
    (hpc : s.claims.pc t = .running k (⟨.npcs, .npc_decision, i⟩ :: left)) :
    (s.claims.mem.npcs.nearest_index i).toNat < n := by
  obtain ⟨x, hx, _, hops⟩ := (Claims.bodies (claims_reachable h)).running t k _ hpc
  obtain ⟨earlier, hwrite, hdone⟩ := ops_written hops.symm .nearest_index (by simp [Stage.reads])
  have hperception : earlier = .npc_perception := by
    cases earlier <;> first | rfl | simp [Stage.writes] at hwrite
  have hmem := List.mem_flatMap.mpr ⟨x, List.mem_of_getElem? hx, hdone⟩
  have hstored := Claims.established (P := Stored i) (fun o out => stored_act w.current out o i)
    (fun _ p _ h => h.act p) (claims_reachable h) _ hmem
  exact hstored (by rw [hperception])

section Integers
attribute [local instance] integers

def couple : World ℤ 0 2 0 := ⟨.resize 0 2 0, .resize 0 2 0, 0⟩

/-- The second of two NPCs looks the first one up. -/
theorem decision_in_bounds_couple : ∃ s : TickState ℤ 0 2 0 1, Reachable (tick couple 1) s ∧
    (s.claims.mem.npcs.nearest_index 1).toNat < 2 := by
  let t : Claimant 0 2 0 1 := ⟨.npcs, ⟨0, by decide⟩⟩
  have h : Reachable (tick couple 1) _ := .initial rfl
  have h := h.step (.submit rfl)
  have h := h.step (.claimant (t := t) nofun (.claim rfl (by decide)))
  have h := h.step (.claimant (t := t) nofun (.act rfl))
  have h := h.step (.claimant (t := t) nofun (.act rfl))
  have h := h.step (.claimant (t := t) nofun (.act rfl))
  have h := h.step (.claimant (t := t) nofun (.act rfl))
  have h := h.step (.claimant (t := t) nofun (.act rfl))
  let o : Op 0 2 0 := ⟨.npcs, .npc_decision, (1 : Fin 2)⟩
  exact ⟨_, h, decision_in_bounds (t := t) h (by rfl : _ = Claims.Pc.running 0 (o :: _))⟩

end Integers

end Bounds

end Thunderbolt.World
