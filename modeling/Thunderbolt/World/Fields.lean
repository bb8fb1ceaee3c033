import Thunderbolt.World.SimulationProofs

/-! What each stage reads and writes, array by array.

`Stage.writes` lists the arrays a stage writes, `Stage.reads` those of the frame being
written that it reads. Every array is written by one of the stages, and none is read
before (`reads_written`): so nothing of what the buffer held before the tick is left, or
has any effect. -/
namespace Thunderbolt.World
open Concurrent

variable {Float : Type} {v n a : ℕ}

/-- The arrays. -/
inductive Field : Chain → Type where
  | vehicle_position : Field .vehicles
  | vehicle_velocity : Field .vehicles
  | vehicle_heading : Field .vehicles
  | steer : Field .vehicles
  | vehicle_throttle : Field .vehicles
  | engine_rpm : Field .vehicles
  | wheel_load : Field .vehicles
  | vehicle_mass : Field .vehicles
  | vehicle_lod : Field .vehicles
  | lane : Field .vehicles
  | npc_position : Field .npcs
  | npc_velocity : Field .npcs
  | target : Field .npcs
  | speed : Field .npcs
  | behaviour : Field .npcs
  | npc_lod : Field .npcs
  | nearest_distance : Field .npcs
  | nearest_index : Field .npcs
  | aircraft_position : Field .aircraft
  | aircraft_velocity : Field .aircraft
  | aircraft_heading : Field .aircraft
  | pitch : Field .aircraft
  | aircraft_throttle : Field .aircraft
  | altitude : Field .aircraft
  | air_density : Field .aircraft
  | lift : Field .aircraft
  | drag : Field .aircraft
  | thrust : Field .aircraft
  | aircraft_mass : Field .aircraft
  deriving DecidableEq

/-- Two frames have the same element of the array at the entity. -/
def Field.Same {c : Chain} (f : Field c) (i : Fin (c.count v n a)) (s s' : WorldState Float v n a) :
    Prop :=
  match c, f, i with
  | _, vehicle_position, i => s.vehicles.position i = s'.vehicles.position i
  | _, vehicle_velocity, i => s.vehicles.velocity i = s'.vehicles.velocity i
  | _, vehicle_heading, i => s.vehicles.heading i = s'.vehicles.heading i
  | _, steer, i => s.vehicles.steer i = s'.vehicles.steer i
  | _, vehicle_throttle, i => s.vehicles.throttle i = s'.vehicles.throttle i
  | _, engine_rpm, i => s.vehicles.engine_rpm i = s'.vehicles.engine_rpm i
  | _, wheel_load, i => s.vehicles.wheel_load i = s'.vehicles.wheel_load i
  | _, vehicle_mass, i => s.vehicles.mass i = s'.vehicles.mass i
  | _, vehicle_lod, i => s.vehicles.lod i = s'.vehicles.lod i
  | _, lane, i => s.vehicles.lane i = s'.vehicles.lane i
  | _, npc_position, i => s.npcs.position i = s'.npcs.position i
  | _, npc_velocity, i => s.npcs.velocity i = s'.npcs.velocity i
  | _, target, i => s.npcs.target i = s'.npcs.target i
  | _, speed, i => s.npcs.speed i = s'.npcs.speed i
  | _, behaviour, i => s.npcs.behaviour i = s'.npcs.behaviour i
  | _, npc_lod, i => s.npcs.lod i = s'.npcs.lod i
  | _, nearest_distance, i => s.npcs.nearest_distance i = s'.npcs.nearest_distance i
  | _, nearest_index, i => s.npcs.nearest_index i = s'.npcs.nearest_index i
  | _, aircraft_position, i => s.aircraft.position i = s'.aircraft.position i
  | _, aircraft_velocity, i => s.aircraft.velocity i = s'.aircraft.velocity i
  | _, aircraft_heading, i => s.aircraft.heading i = s'.aircraft.heading i
  | _, pitch, i => s.aircraft.pitch i = s'.aircraft.pitch i
  | _, aircraft_throttle, i => s.aircraft.throttle i = s'.aircraft.throttle i
  | _, altitude, i => s.aircraft.altitude i = s'.aircraft.altitude i
  | _, air_density, i => s.aircraft.air_density i = s'.aircraft.air_density i
  | _, lift, i => s.aircraft.lift i = s'.aircraft.lift i
  | _, drag, i => s.aircraft.drag i = s'.aircraft.drag i
  | _, thrust, i => s.aircraft.thrust i = s'.aircraft.thrust i
  | _, aircraft_mass, i => s.aircraft.mass i = s'.aircraft.mass i

namespace Stage

/-- The arrays the stage writes, at its own entity. -/
def writes : {c : Chain} → Stage c → List (Field c)
  | _, vehicle_lod => [.vehicle_lod]
  | _, vehicle_physics =>
    [.wheel_load, .vehicle_position, .vehicle_velocity, .vehicle_heading, .engine_rpm,
      .vehicle_throttle, .vehicle_mass, .lane, .steer]
  | _, npc_lod => [.npc_lod]
  | _, npc_perception => [.nearest_distance, .nearest_index]
  | _, npc_decision => [.npc_velocity, .speed]
  | _, npc_movement => [.npc_position, .target, .behaviour]
  | _, aircraft_atmosphere => [.air_density, .altitude]
  | _, aircraft_aerodynamics => [.lift, .drag]
  | _, aircraft_propulsion => [.thrust, .aircraft_throttle]
  | _, aircraft_integrate =>
    [.aircraft_position, .aircraft_velocity, .aircraft_heading, .pitch, .aircraft_mass]

/-- The arrays of the frame being written that the stage reads, at its own entity. -/
def reads : {c : Chain} → Stage c → List (Field c)
  | _, vehicle_physics => [.vehicle_lod]
  | _, npc_decision => [.nearest_distance, .nearest_index]
  | _, npc_movement => [.npc_velocity]
  | _, aircraft_aerodynamics => [.air_density]
  | _, aircraft_propulsion => [.air_density]
  | _, aircraft_integrate => [.lift, .drag, .thrust]
  | _, vehicle_lod | _, npc_lod | _, npc_perception | _, aircraft_atmosphere => []

end Stage

section Stages
variable [FloatOps Float] {inp out out' : WorldState Float v n a} {c : Chain}

/-- A stage writes no other array. -/
theorem same_update (stage : Stage c) (i : Fin (c.count v n a)) {f : Field c} (hf : f ∉ stage.writes) :
    f.Same i (stage.update inp i out) out := by
  cases stage <;> cases f <;> first | exact absurd (by decide) hf | rfl

/-- The substeps overwrite the load: there is at least one. -/
theorem substeps_wheel_load (mass throttle steer dt : Float) (lod : SimLod) (m : Motion Float)
    (load : Float) :
    (substep mass throttle steer dt)^[substeps_for lod] {m with wheel_load := load} =
      (substep mass throttle steer dt)^[substeps_for lod] m := by
  have hpos : substeps_for lod ≠ 0 := by
    unfold substeps_for
    split
    · decide
    · split <;> decide
  obtain ⟨k, hk⟩ := Nat.exists_eq_succ_of_ne_zero hpos
  rw [hk, Function.iterate_succ_apply, Function.iterate_succ_apply]
  rfl

/-- What a stage writes is settled by the previous frame and what it reads. -/
theorem same_of_reads (stage : Stage c) (i : Fin (c.count v n a))
    (hreads : ∀ f ∈ stage.reads, f.Same i out out') :
    ∀ f ∈ stage.writes, f.Same i (stage.update inp i out) (stage.update inp i out') := by
  cases stage with
  | vehicle_lod =>
    change Fin v at i
    simp only [Stage.writes, List.forall_mem_cons, List.not_mem_nil, false_imp_iff, implies_true,
      Function.update_self, and_self, Field.Same, Stage.update, update_vehicle_lod]
  | vehicle_physics =>
    change Fin v at i
    have hlod : out.vehicles.lod i = out'.vehicles.lod i :=
      hreads _ List.mem_cons_self
    have hmotion : ∀ mass throttle steer dt : Float,
        (substep mass throttle steer dt)^[substeps_for (out'.vehicles.lod i)]
          ⟨inp.vehicles.position i, inp.vehicles.velocity i, inp.vehicles.heading i,
            inp.vehicles.engine_rpm i, out.vehicles.wheel_load i⟩ =
        (substep mass throttle steer dt)^[substeps_for (out'.vehicles.lod i)]
          ⟨inp.vehicles.position i, inp.vehicles.velocity i, inp.vehicles.heading i,
            inp.vehicles.engine_rpm i, out'.vehicles.wheel_load i⟩ := by
      intro mass throttle steer dt
      exact substeps_wheel_load mass throttle steer dt _ ⟨_, _, _, _, out'.vehicles.wheel_load i⟩
        (out.vehicles.wheel_load i)
    simp only [Stage.writes, List.forall_mem_cons, List.not_mem_nil, false_imp_iff, implies_true,
      Function.update_self, and_self, Field.Same, Stage.update, update_vehicle_physics, hlod, hmotion]
  | npc_lod =>
    change Fin n at i
    simp only [Stage.writes, List.forall_mem_cons, List.not_mem_nil, false_imp_iff, implies_true,
      Function.update_self, and_self, Field.Same, Stage.update, update_npc_lod]
  | npc_perception =>
    change Fin n at i
    simp only [Stage.writes, List.forall_mem_cons, List.not_mem_nil, false_imp_iff, implies_true,
      Function.update_self, and_self, Field.Same, Stage.update, update_npc_perception]
  | npc_decision =>
    change Fin n at i
    have hdistance : out.npcs.nearest_distance i = out'.npcs.nearest_distance i :=
      hreads _ List.mem_cons_self
    have hindex : out.npcs.nearest_index i = out'.npcs.nearest_index i :=
      hreads _ (List.mem_cons_of_mem _ List.mem_cons_self)
    simp only [Stage.writes, List.forall_mem_cons, List.not_mem_nil, false_imp_iff, implies_true,
      Function.update_self, and_self, Field.Same, Stage.update, update_npc_decision, hdistance, hindex]
  | npc_movement =>
    change Fin n at i
    have hvelocity : out.npcs.velocity i = out'.npcs.velocity i :=
      hreads _ List.mem_cons_self
    simp only [Stage.writes, List.forall_mem_cons, List.not_mem_nil, false_imp_iff, implies_true,
      Function.update_self, and_self, Field.Same, Stage.update, update_npc_movement, hvelocity]
  | aircraft_atmosphere =>
    change Fin a at i
    simp only [Stage.writes, List.forall_mem_cons, List.not_mem_nil, false_imp_iff, implies_true,
      Function.update_self, and_self, Field.Same, Stage.update, update_aircraft_atmosphere]
  | aircraft_aerodynamics =>
    change Fin a at i
    have hdensity : out.aircraft.air_density i = out'.aircraft.air_density i :=
      hreads _ List.mem_cons_self
    simp only [Stage.writes, List.forall_mem_cons, List.not_mem_nil, false_imp_iff, implies_true,
      Function.update_self, and_self, Field.Same, Stage.update, update_aircraft_aerodynamics, hdensity]
  | aircraft_propulsion =>
    change Fin a at i
    have hdensity : out.aircraft.air_density i = out'.aircraft.air_density i :=
      hreads _ List.mem_cons_self
    simp only [Stage.writes, List.forall_mem_cons, List.not_mem_nil, false_imp_iff, implies_true,
      Function.update_self, and_self, Field.Same, Stage.update, update_aircraft_propulsion, hdensity]
  | aircraft_integrate =>
    change Fin a at i
    have hlift : out.aircraft.lift i = out'.aircraft.lift i :=
      hreads _ List.mem_cons_self
    have hdrag : out.aircraft.drag i = out'.aircraft.drag i :=
      hreads _ (List.mem_cons_of_mem _ List.mem_cons_self)
    have hthrust : out.aircraft.thrust i = out'.aircraft.thrust i :=
      hreads _ (List.mem_cons_of_mem _ (List.mem_cons_of_mem _ List.mem_cons_self))
    simp only [Stage.writes, List.forall_mem_cons, List.not_mem_nil, false_imp_iff, implies_true,
      Function.update_self, and_self, Field.Same, Stage.update, update_aircraft_integrate, hlift, hdrag, hthrust]

omit [FloatOps Float] in
theorem Field.Same.symm {f : Field c} {i : Fin (c.count v n a)} {s s' : WorldState Float v n a}
    (h : f.Same i s s') : f.Same i s' s := by
  cases f <;> exact Eq.symm h

omit [FloatOps Float] in
theorem Field.Same.trans {f : Field c} {i : Fin (c.count v n a)} {s s' s'' : WorldState Float v n a}
    (h : f.Same i s s') (h' : f.Same i s' s'') : f.Same i s s'' := by
  cases f <;> exact Eq.trans h h'

omit [FloatOps Float] in
/-- The arrays are all the values of an entity. -/
theorem row_of_same {i : Fin (c.count v n a)} {s s' : WorldState Float v n a}
    (h : ∀ f : Field c, f.Same i s s') : s.row ⟨c, i⟩ = s'.row ⟨c, i⟩ := by
  cases c with
  | vehicles =>
    exact VehicleArrays.row_inj.mpr ⟨h .vehicle_position, h .vehicle_velocity, h .vehicle_heading,
      h .steer, h .vehicle_throttle, h .engine_rpm, h .wheel_load, h .vehicle_mass, h .vehicle_lod,
      h .lane⟩
  | npcs =>
    exact NpcArrays.row_inj.mpr ⟨h .npc_position, h .npc_velocity, h .target, h .speed, h .behaviour,
      h .npc_lod, h .nearest_distance, h .nearest_index⟩
  | aircraft =>
    exact AircraftArrays.row_inj.mpr ⟨h .aircraft_position, h .aircraft_velocity, h .aircraft_heading,
      h .pitch, h .aircraft_throttle, h .altitude, h .air_density, h .lift, h .drag, h .thrust,
      h .aircraft_mass⟩

/-! ### A chain reads what it has written -/

/-- One of these stages writes the array. -/
def Written (stages : List (Stage c)) (f : Field c) : Prop := ∃ stage ∈ stages, f ∈ stage.writes

/-- Every array is written. -/
theorem written_stages (f : Field c) : Written c.stages f := by
  unfold Written
  cases f <;> decide

/-- None is read before. -/
theorem reads_written {stage : Stage c} {pre post : List (Stage c)}
    (h : c.stages = pre ++ stage :: post) : ∀ f ∈ stage.reads, Written pre f := by
  have hall : ∀ c : Chain, ∀ k : Fin c.stages.length, ∀ f ∈ (c.stages.get k).reads,
      ∃ earlier ∈ c.stages.take k, f ∈ earlier.writes := by decide
  have hk : pre.length < c.stages.length := by
    rw [h, List.length_append, List.length_cons]
    omega
  have hget : c.stages.get ⟨pre.length, hk⟩ = stage := by simp [h]
  have htake : c.stages.take pre.length = pre := by simp [h]
  intro f hf
  have := hall c ⟨pre.length, hk⟩ f (hget ▸ hf)
  rwa [htake] at this

/-- Once the arrays written so far agree, the stages left make all agree. -/
theorem same_stages {pre rest : List (Stage c)} (h : c.stages = pre ++ rest) {i : Fin (c.count v n a)}
    (hpre : ∀ f, Written pre f → f.Same i out out') (f : Field c) :
    f.Same i (rest.foldl (fun out stage => stage.update inp i out) out)
      (rest.foldl (fun out stage => stage.update inp i out) out') := by
  induction rest generalizing pre out out' with
  | nil =>
    rw [List.append_nil] at h
    exact hpre f (h ▸ written_stages f)
  | cons stage rest ih =>
    have hsplit : c.stages = (pre ++ [stage]) ++ rest := by rw [h, List.append_assoc, List.singleton_append]
    apply ih hsplit
    intro g hsome
    obtain ⟨earlier, hearlier, hg⟩ := hsome
    by_cases hwrite : g ∈ stage.writes
    · exact same_of_reads stage i (fun f hf => hpre f (reads_written h f hf)) g hwrite
    · have hmem : earlier ∈ pre := by
        obtain hmem | hmem := List.mem_append.mp hearlier
        · exact hmem
        · obtain rfl := List.mem_singleton.mp hmem
          exact absurd hg hwrite
      have hg' := hpre g ⟨earlier, hmem, hg⟩
      exact (same_update stage i hwrite).trans (hg'.trans (same_update stage i hwrite).symm)

/-- What a tick leaves does not depend on what the buffer held. -/
theorem run_same (hplayer : out.player_position = out'.player_position) :
    (serial_ops v n a).foldl (fun out o => o.act inp out) out =
      (serial_ops v n a).foldl (fun out o => o.act inp out) out' := by
  apply WorldState.ext_row
  · intro k
    obtain ⟨c, i⟩ := k
    have hwork : ∀ out : WorldState Float v n a,
        ((serial_ops v n a).foldl (fun out o => o.act inp out) out).row ⟨c, i⟩ =
          ((c.stages.foldl (fun out stage => stage.update inp i out) out).row ⟨c, i⟩) := by
      intro out
      rw [(local_act inp).row_run ⟨c, i⟩ _ rfl, filter_serial_ops, work, List.foldl_map]
      rfl
    rw [hwork, hwork]
    apply row_of_same
    apply same_stages (List.nil_append c.stages).symm
    intro f hsome
    obtain ⟨stage, hstage, _⟩ := hsome
    cases hstage
  · rw [(local_act inp).rest_run, (local_act inp).rest_run, hplayer]

omit [FloatOps Float] in
/-- Where an element of a `flatMap` comes from, and what came before it. -/
theorem flatMap_split {α β : Type*} {g : α → List β} {l : List α} {o : β} {pre post : List β}
    (h : l.flatMap g = pre ++ o :: post) :
    ∃ l₁ x l₂ p q, l = l₁ ++ x :: l₂ ∧ g x = p ++ o :: q ∧ pre = l₁.flatMap g ++ p := by
  induction l generalizing pre with
  | nil => simp at h
  | cons x l ih =>
    rw [List.flatMap_cons, List.append_eq_append_iff] at h
    obtain ⟨mid, rfl, hrest⟩ | ⟨mid, hx, hrest⟩ := h
    · obtain ⟨l₁, y, l₂, p, q, rfl, hy, rfl⟩ := ih hrest
      exact ⟨x :: l₁, y, l₂, p, q, rfl, hy, by simp⟩
    · cases mid with
      | nil =>
        have hlater : l.flatMap g = [] ++ o :: post := by simpa using hrest.symm
        obtain ⟨l₁, y, l₂, p, q, rfl, hy, hp⟩ := ih hlater
        refine ⟨x :: l₁, y, l₂, p, q, rfl, hy, ?_⟩
        rw [List.flatMap_cons, List.append_assoc, ← hp, hx, List.append_nil, List.append_nil]
      | cons c mid =>
        obtain rfl := (List.cons.inj hrest).1
        exact ⟨[], x, l, pre, mid, rfl, hx, rfl⟩

omit [FloatOps Float] in
/-- In the work on a range, what an operation reads has been written. -/
theorem ops_written {first last : ℕ} {o : Op v n a} {pre post : List (Op v n a)}
    (h : c.ops v n a first last = pre ++ o :: post) :
    ∀ f ∈ o.stage.reads, ∃ earlier : Stage o.chain,
      f ∈ earlier.writes ∧ ⟨o.chain, earlier, o.entity⟩ ∈ pre := by
  intro f hf
  obtain ⟨before, stage, after, p, q, hsplit, ho, rfl⟩ := flatMap_split h
  obtain ⟨i, hi, rfl⟩ := List.mem_map.mp (ho ▸ List.mem_append_right p List.mem_cons_self)
  obtain ⟨earlier, hearlier, hwrite⟩ := reads_written hsplit f hf
  exact ⟨earlier, hwrite, List.mem_append_left _
    (List.mem_flatMap.mpr ⟨earlier, hearlier, List.mem_map_of_mem hi⟩)⟩

omit [FloatOps Float] in
/-- So it has in the work of the serial tick. -/
theorem serial_ops_written {o : Op v n a} {pre post : List (Op v n a)}
    (h : serial_ops v n a = pre ++ o :: post) :
    ∀ f ∈ o.stage.reads, ∃ earlier : Stage o.chain,
      f ∈ earlier.writes ∧ ⟨o.chain, earlier, o.entity⟩ ∈ pre := by
  intro f hf
  obtain ⟨_, c, _, p, q, _, hchain, rfl⟩ := flatMap_split h
  obtain ⟨_, b, _, p, q, _, hbatch, rfl⟩ := flatMap_split hchain
  obtain ⟨earlier, hwrite, hmem⟩ := ops_written hbatch f hf
  exact ⟨earlier, hwrite, List.mem_append_right _ (List.mem_append_right _ hmem)⟩

/-! ### A tick depends on the previous frame alone -/

/-- Nothing of what the buffer held before a tick from the frame `inp` is left or has any effect. -/
structure Overwrites (inp : WorldState Float v n a) : Prop where
  /-- Every array is written by one of the stages of its chain. -/
  complete : ∀ c (f : Field c), ∃ stage ∈ c.stages, f ∈ stage.writes
  /-- A stage changes only the arrays it writes. -/
  writes : ∀ {c} (stage : Stage c) (i : Fin (c.count v n a)) out, ∀ f ∉ stage.writes,
    f.Same i (stage.update inp i out) out
  /-- What it writes there is settled by `inp` and the arrays it reads. -/
  reads : ∀ {c} (stage : Stage c) (i : Fin (c.count v n a)) out out',
    (∀ f ∈ stage.reads, f.Same i out out') →
      ∀ f ∈ stage.writes, f.Same i (stage.update inp i out) (stage.update inp i out')
  /-- Whatever a claimant is about to read, it has written in the same tick. -/
  ordered : ∀ next tick₀ worker_count, ∀ s : TickState Float v n a worker_count,
    Reachable (tick ⟨inp, next, tick₀⟩ worker_count) s → ∀ t k o left,
      s.claims.pc t = .running k (o :: left) → ∃ x, s.claims.log[k]? = some x ∧
        ∀ f ∈ o.stage.reads, ∃ earlier : Stage o.chain,
          f ∈ earlier.writes ∧ ⟨o.chain, earlier, o.entity⟩ ∈ x.done
  /-- The work of a tick: with each entity, each of its stages once, in their order. -/
  each : ∀ k : Entity v n a, ((serial_ops v n a).filter fun o => o.key = k) = work k
  /-- Whatever the serial tick reads, it has written. -/
  serial_ordered : ∀ pre (o : Op v n a) post, serial_ops v n a = pre ++ o :: post →
    ∀ f ∈ o.stage.reads, ∃ earlier : Stage o.chain, f ∈ earlier.writes ∧ ⟨o.chain, earlier, o.entity⟩ ∈ pre
  /-- The serial tick does that work, and nothing else, and shows what is left of it. -/
  serial_runs : ∀ next tick₀, (tick_serial ⟨inp, next, tick₀⟩).current =
    (serial_ops v n a).foldl (fun out o => o.act inp out) {next with player_position := inp.player_position}
  /-- So does the parallel tick. -/
  parallel_runs : ∀ next tick₀ worker_count, ∀ s : TickState Float v n a worker_count,
    Reachable (tick ⟨inp, next, tick₀⟩ worker_count) s → s.Returned →
      s.claims.mem = (serial_ops v n a).foldl (fun out o => o.act inp out)
        {next with player_position := inp.player_position}
  player : ∀ next tick₀, (tick_serial ⟨inp, next, tick₀⟩).current.player_position = inp.player_position
  serial : ∀ next next' tick₀ tick₀',
    (tick_serial ⟨inp, next, tick₀⟩).current = (tick_serial ⟨inp, next', tick₀'⟩).current
  parallel : ∀ next next' tick₀ tick₀' worker_count worker_count',
    ∀ s : TickState Float v n a worker_count, ∀ s' : TickState Float v n a worker_count',
      Reachable (tick ⟨inp, next, tick₀⟩ worker_count) s → s.Returned →
      Reachable (tick ⟨inp, next', tick₀'⟩ worker_count') s' → s'.Returned →
        s.claims.mem = s'.claims.mem

/-- **A tick depends on the previous frame alone.** -/
theorem tick_overwrites (inp : WorldState Float v n a) : Overwrites inp where
  complete _ f := written_stages f
  writes stage i _ _ hf := same_update stage i hf
  reads stage i _ _ hreads := same_of_reads stage i hreads
  ordered next tick₀ worker_count s h t k o left hpc := by
    obtain ⟨x, hx, _, hops⟩ := (Claims.bodies (claims_reachable h)).running t k _ hpc
    exact ⟨x, hx, ops_written hops.symm⟩
  each k := filter_serial_ops k
  serial_ordered _ _ _ hsplit := serial_ops_written hsplit
  serial_runs _ _ := congrArg World.current (tick_serial_eq _)
  parallel_runs _ _ _ _ h hret := by
    rw [mem_finished (claims_reachable h) (returned_finished h hret)]
    simp only [World.out]
  player next tick₀ := by
    rw [tick_serial_eq]
    simp only [World.finish_tick, (local_act inp).rest_run, World.out]
  serial next next' tick₀ tick₀' := by
    rw [tick_serial_eq, tick_serial_eq]
    exact run_same rfl
  parallel next next' tick₀ tick₀' _ _ s s' h hret h' hret' := by
    rw [mem_finished (claims_reachable h) (returned_finished h hret),
      mem_finished (claims_reachable h') (returned_finished h' hret')]
    exact run_same rfl

end Stages

end Thunderbolt.World
