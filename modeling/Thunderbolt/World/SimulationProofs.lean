import Thunderbolt.Concurrent.Rows
import Thunderbolt.World.Simulation

/-! The parallel tick computes what the serial one does.

A stage reads and writes, of the frame it writes, only the values of its own entity
(`local_act`); everything else it reads is in the previous frame. So what a tick leaves is
settled by the order of the stages within each entity, and that order is the same
in every interleaving, in the serial tick and in the stages run one by one. -/
namespace Thunderbolt.World
open Concurrent

variable {Float : Type} {v n a : ℕ}

/-! ### The values of one entity -/

def VehicleArrays.row {count : ℕ} (s : VehicleArrays Float count) (i : Fin count) :
    VehicleArrays Float 1 where
  position _ := s.position i
  velocity _ := s.velocity i
  heading _ := s.heading i
  steer _ := s.steer i
  throttle _ := s.throttle i
  engine_rpm _ := s.engine_rpm i
  wheel_load _ := s.wheel_load i
  mass _ := s.mass i
  lod _ := s.lod i
  lane _ := s.lane i

def NpcArrays.row {count : ℕ} (s : NpcArrays Float count) (i : Fin count) : NpcArrays Float 1 where
  position _ := s.position i
  velocity _ := s.velocity i
  target _ := s.target i
  speed _ := s.speed i
  behaviour _ := s.behaviour i
  lod _ := s.lod i
  nearest_distance _ := s.nearest_distance i
  nearest_index _ := s.nearest_index i

def AircraftArrays.row {count : ℕ} (s : AircraftArrays Float count) (i : Fin count) :
    AircraftArrays Float 1 where
  position _ := s.position i
  velocity _ := s.velocity i
  heading _ := s.heading i
  pitch _ := s.pitch i
  throttle _ := s.throttle i
  altitude _ := s.altitude i
  air_density _ := s.air_density i
  lift _ := s.lift i
  drag _ := s.drag i
  thrust _ := s.thrust i
  mass _ := s.mass i

/-- An entity: its chain and its index. -/
abbrev Entity (v n a : ℕ) := (c : Chain) × Fin (c.count v n a)

/-- The values an entity of the chain has. -/
def Row (Float : Type) : Chain → Type
  | .vehicles => VehicleArrays Float 1
  | .npcs => NpcArrays Float 1
  | .aircraft => AircraftArrays Float 1

/-- The entity's values. -/
def WorldState.row : (k : Entity v n a) → WorldState Float v n a → Row Float k.1
  | ⟨.vehicles, i⟩, s => s.vehicles.row i
  | ⟨.npcs, i⟩, s => s.npcs.row i
  | ⟨.aircraft, i⟩, s => s.aircraft.row i

def Op.key (o : Op v n a) : Entity v n a := ⟨o.chain, o.entity⟩

section Arrays
variable {count count' : ℕ}

theorem VehicleArrays.row_inj {s : VehicleArrays Float count} {s' : VehicleArrays Float count'} {i : Fin count}
    {j : Fin count'} :
    s.row i = s'.row j ↔
      s.position i = s'.position j ∧ s.velocity i = s'.velocity j ∧ s.heading i = s'.heading j ∧
        s.steer i = s'.steer j ∧ s.throttle i = s'.throttle j ∧ s.engine_rpm i = s'.engine_rpm j ∧
        s.wheel_load i = s'.wheel_load j ∧ s.mass i = s'.mass j ∧ s.lod i = s'.lod j ∧
        s.lane i = s'.lane j := by
  simp [row, funext_iff]

theorem NpcArrays.row_inj {s : NpcArrays Float count} {s' : NpcArrays Float count'} {i : Fin count}
    {j : Fin count'} :
    s.row i = s'.row j ↔
      s.position i = s'.position j ∧ s.velocity i = s'.velocity j ∧ s.target i = s'.target j ∧
        s.speed i = s'.speed j ∧ s.behaviour i = s'.behaviour j ∧ s.lod i = s'.lod j ∧
        s.nearest_distance i = s'.nearest_distance j ∧ s.nearest_index i = s'.nearest_index j := by
  simp [row, funext_iff]

theorem AircraftArrays.row_inj {s : AircraftArrays Float count} {s' : AircraftArrays Float count'} {i : Fin count}
    {j : Fin count'} :
    s.row i = s'.row j ↔
      s.position i = s'.position j ∧ s.velocity i = s'.velocity j ∧ s.heading i = s'.heading j ∧
        s.pitch i = s'.pitch j ∧ s.throttle i = s'.throttle j ∧ s.altitude i = s'.altitude j ∧
        s.air_density i = s'.air_density j ∧ s.lift i = s'.lift j ∧ s.drag i = s'.drag j ∧
        s.thrust i = s'.thrust j ∧ s.mass i = s'.mass j := by
  simp [row, funext_iff]

theorem VehicleArrays.ext_row {s s' : VehicleArrays Float count} (h : ∀ i, s.row i = s'.row i) :
    s = s' := by
  obtain ⟨⟩ := s
  obtain ⟨⟩ := s'
  simpa [row_inj, funext_iff, forall_and] using h

theorem NpcArrays.ext_row {s s' : NpcArrays Float count} (h : ∀ i, s.row i = s'.row i) : s = s' := by
  obtain ⟨⟩ := s
  obtain ⟨⟩ := s'
  simpa [row_inj, funext_iff, forall_and] using h

theorem AircraftArrays.ext_row {s s' : AircraftArrays Float count} (h : ∀ i, s.row i = s'.row i) :
    s = s' := by
  obtain ⟨⟩ := s
  obtain ⟨⟩ := s'
  simpa [row_inj, funext_iff, forall_and] using h

end Arrays

/-- The entities and the player's position are the whole state. -/
theorem WorldState.ext_row {s s' : WorldState Float v n a} (hrow : ∀ k, s.row k = s'.row k)
    (hplayer : s.player_position = s'.player_position) : s = s' := by
  have hv := VehicleArrays.ext_row fun i => hrow ⟨.vehicles, i⟩
  have hn := NpcArrays.ext_row fun i => hrow ⟨.npcs, i⟩
  have ha := AircraftArrays.ext_row fun i => hrow ⟨.aircraft, i⟩
  obtain ⟨vehicles, npcs, aircraft, player⟩ := s
  simp only at hv hn ha hplayer
  rw [hv, hn, ha, hplayer]

/-! ### What a stage reads and writes -/

section Stages
variable [FloatOps Float] {inp out : WorldState Float v n a}

/-- Of the vehicles, a stage writes one, and what it writes there depends on no other. -/
theorem vehicle_local (stage : Stage .vehicles) (i : Fin v) :
    (∀ j ≠ i, (stage.update inp i out).vehicles.row j = out.vehicles.row j) ∧
      ∀ out' : WorldState Float v n a, out.vehicles.row i = out'.vehicles.row i →
        (stage.update inp i out).vehicles.row i = (stage.update inp i out').vehicles.row i := by
  cases stage with
  | vehicle_lod =>
    refine ⟨fun j hj => ?_, fun out' h => ?_⟩
    · simp [VehicleArrays.row_inj, Stage.update, update_vehicle_lod, hj]
    · simp_all [VehicleArrays.row_inj, Stage.update, update_vehicle_lod]
  | vehicle_physics =>
    refine ⟨fun j hj => ?_, fun out' h => ?_⟩
    · simp [VehicleArrays.row_inj, Stage.update, update_vehicle_physics, hj]
    · simp_all [VehicleArrays.row_inj, Stage.update, update_vehicle_physics]

/-- So for the NPCs: the neighbours are read in the previous frame. -/
theorem npc_local (stage : Stage .npcs) (i : Fin n) :
    (∀ j ≠ i, (stage.update inp i out).npcs.row j = out.npcs.row j) ∧
      ∀ out' : WorldState Float v n a, out.npcs.row i = out'.npcs.row i →
        (stage.update inp i out).npcs.row i = (stage.update inp i out').npcs.row i := by
  cases stage with
  | npc_lod =>
    refine ⟨fun j hj => ?_, fun out' h => ?_⟩
    · simp [NpcArrays.row_inj, Stage.update, update_npc_lod, hj]
    · simp_all [NpcArrays.row_inj, Stage.update, update_npc_lod]
  | npc_perception =>
    refine ⟨fun j hj => ?_, fun out' h => ?_⟩
    · simp [NpcArrays.row_inj, Stage.update, update_npc_perception, hj]
    · simp_all [NpcArrays.row_inj, Stage.update, update_npc_perception]
  | npc_decision =>
    refine ⟨fun j hj => ?_, fun out' h => ?_⟩
    · simp [NpcArrays.row_inj, Stage.update, update_npc_decision, hj]
    · simp_all [NpcArrays.row_inj, Stage.update, update_npc_decision]
  | npc_movement =>
    refine ⟨fun j hj => ?_, fun out' h => ?_⟩
    · simp [NpcArrays.row_inj, Stage.update, update_npc_movement, hj]
    · simp_all [NpcArrays.row_inj, Stage.update, update_npc_movement]

theorem aircraft_local (stage : Stage .aircraft) (i : Fin a) :
    (∀ j ≠ i, (stage.update inp i out).aircraft.row j = out.aircraft.row j) ∧
      ∀ out' : WorldState Float v n a, out.aircraft.row i = out'.aircraft.row i →
        (stage.update inp i out).aircraft.row i = (stage.update inp i out').aircraft.row i := by
  cases stage with
  | aircraft_atmosphere =>
    refine ⟨fun j hj => ?_, fun out' h => ?_⟩
    · simp [AircraftArrays.row_inj, Stage.update, update_aircraft_atmosphere, hj]
    · simp_all [AircraftArrays.row_inj, Stage.update, update_aircraft_atmosphere]
  | aircraft_aerodynamics =>
    refine ⟨fun j hj => ?_, fun out' h => ?_⟩
    · simp [AircraftArrays.row_inj, Stage.update, update_aircraft_aerodynamics, hj]
    · simp_all [AircraftArrays.row_inj, Stage.update, update_aircraft_aerodynamics]
  | aircraft_propulsion =>
    refine ⟨fun j hj => ?_, fun out' h => ?_⟩
    · simp [AircraftArrays.row_inj, Stage.update, update_aircraft_propulsion, hj]
    · simp_all [AircraftArrays.row_inj, Stage.update, update_aircraft_propulsion]
  | aircraft_integrate =>
    refine ⟨fun j hj => ?_, fun out' h => ?_⟩
    · simp [AircraftArrays.row_inj, Stage.update, update_aircraft_integrate, hj]
    · simp_all [AircraftArrays.row_inj, Stage.update, update_aircraft_integrate]

/-- A stage leaves the other chains and the player alone. -/
theorem update_other {c d : Chain} (stage : Stage c) (i : Fin (c.count v n a)) (j : Fin (d.count v n a))
    (hne : d ≠ c) : (stage.update inp i out).row ⟨d, j⟩ = out.row ⟨d, j⟩ := by
  cases stage <;> cases d <;> first | rfl | exact absurd rfl hne

theorem update_player {c : Chain} (stage : Stage c) (i : Fin (c.count v n a)) :
    (stage.update inp i out).player_position = out.player_position := by
  cases stage <;> rfl

/-- **Each stage works on the values of its own entity.** -/
theorem local_act (inp : WorldState Float v n a) :
    Local (Op.act inp) Op.key WorldState.row WorldState.player_position where
  ext := WorldState.ext_row
  rest o out := update_player o.stage o.entity
  frame := by
    rintro ⟨c, stage, i⟩ out ⟨d, j⟩ hk
    by_cases hd : d = c
    · subst hd
      have hj : j ≠ i := fun h => hk (h ▸ rfl)
      cases d with
      | vehicles => exact (vehicle_local stage i).1 j hj
      | npcs => exact (npc_local stage i).1 j hj
      | aircraft => exact (aircraft_local stage i).1 j hj
    · exact update_other stage i j hd
  reads := by
    intro o out out' hrow
    obtain ⟨c, stage, i⟩ := o
    cases c with
    | vehicles => exact (vehicle_local stage i).2 _ hrow
    | npcs => exact (npc_local stage i).2 _ hrow
    | aircraft => exact (aircraft_local stage i).2 _ hrow

end Stages

/-! ### The order of the stages within an entity -/

/-- What a tick does with one entity. -/
def work (k : Entity v n a) : List (Op v n a) := k.1.stages.map fun stage => ⟨k.1, stage, k.2⟩

theorem filter_indices {count : ℕ} (first last : ℕ) (i : Fin count) :
    ((indices count first last).filter fun j => j = i) =
      if first ≤ i.val ∧ i.val < last then [i] else [] := by
  have hone : ((List.finRange count).filter fun j => j = i) = [i] := by
    have hcount := List.count_eq_one_of_mem (List.nodup_finRange count) (List.mem_finRange i)
    have hfilter := List.filter_beq (l := List.finRange count) i
    rw [hcount] at hfilter
    have hbeq : (fun j : Fin count => decide (j = i)) = fun j => j == i := by
      funext j
      rw [Bool.eq_iff_iff, decide_eq_true_iff, beq_iff_eq]
    rw [hbeq, hfilter, List.replicate_one]
  rw [indices, List.filter_comm, hone]
  simp [List.filter_singleton]

/-- Of a chain's work on a range, what it does with one entity. -/
theorem filter_ops (c : Chain) (first last : ℕ) (k : Entity v n a) :
    ((c.ops v n a first last).filter fun o => o.key = k) =
      if k.1 = c ∧ first ≤ k.2.val ∧ k.2.val < last then work k else [] := by
  obtain ⟨d, i⟩ := k
  by_cases hd : d = c
  · subst hd
    have hkey : ∀ stage : Stage d, ((fun o : Op v n a => decide (o.key = ⟨d, i⟩)) ∘
        fun j => ⟨d, stage, j⟩) = fun j => decide (j = i) := by
      intro stage
      funext j
      simp [Op.key]
    rw [Chain.ops, List.filter_flatMap]
    simp only [List.filter_map, hkey, filter_indices, true_and]
    split
    · simp [work, ← List.map_eq_flatMap]
    · simp
  · rw [if_neg fun h => hd h.1, List.filter_eq_nil_iff]
    intro o ho hkey
    obtain ⟨stage, _, ho⟩ := List.mem_flatMap.mp ho
    obtain ⟨j, _, rfl⟩ := List.mem_map.mp ho
    exact hd (congrArg Sigma.fst (of_decide_eq_true hkey)).symm

/-- Each entity is in one batch. -/
theorem mem_batch {count i b : ℕ} (hi : i < count) :
    b * kBatchSize ≤ i ∧ i < batch_end count b ↔ i / kBatchSize = b := by
  unfold batch_end kBatchSize
  split <;> omega

theorem batch_lt {count i : ℕ} (hi : i < count) : i / kBatchSize < batch_count_for count := by
  unfold batch_count_for kBatchSize
  omega

theorem flatMap_single {α : Type*} (l : List α) (m q : ℕ) :
    ((List.range m).flatMap fun b => if q = b then l else []) = if q < m then l else [] := by
  induction m with
  | zero => rfl
  | succ m ih =>
    rw [List.range_succ, List.flatMap_append, ih, List.flatMap_singleton]
    by_cases hlt : q < m
    · simp [hlt, hlt.ne, Nat.lt_succ_of_lt hlt]
    · by_cases heq : q = m
      · simp [heq]
      · have : ¬q < m + 1 := by omega
        simp [hlt, heq, this]

theorem flatMap_all {α : Type*} (l : List α) (d : Chain) :
    (Chain.all.flatMap fun c => if d = c then l else []) = l := by
  cases d <;> simp [Chain.all]

/-- The work of the serial tick. -/
def serial_ops (v n a : ℕ) : List (Op v n a) :=
  Chain.all.flatMap fun c => (List.range (batch_count_for (c.count v n a))).flatMap fun b =>
    c.ops v n a (b * kBatchSize) (batch_end (c.count v n a) b)

/-- The work of the stages one by one. -/
def unfused_ops (v n a : ℕ) : List (Op v n a) :=
  Chain.all.flatMap fun c => c.ops v n a 0 (c.count v n a)

theorem filter_serial_ops (k : Entity v n a) :
    ((serial_ops v n a).filter fun o => o.key = k) = work k := by
  have hbatch : ∀ c b, ((c.ops v n a (b * kBatchSize) (batch_end (c.count v n a) b)).filter
      fun o => o.key = k) = if k.1 = c then (if k.2.val / kBatchSize = b then work k else []) else [] := by
    intro c b
    rw [filter_ops]
    by_cases hc : k.1 = c
    · subst hc
      simp only [true_and, mem_batch k.2.isLt, if_true]
    · simp [hc]
  have hchain : ∀ c : Chain, ((List.range (batch_count_for (c.count v n a))).flatMap fun b =>
      if k.1 = c then (if k.2.val / kBatchSize = b then work k else []) else []) =
      if k.1 = c then work k else [] := by
    intro c
    by_cases hc : k.1 = c
    · subst hc
      simp only [if_true, flatMap_single, if_pos (batch_lt k.2.isLt)]
    · simp [hc]
  simp only [serial_ops, List.filter_flatMap, hbatch, hchain, flatMap_all]

theorem filter_unfused_ops (k : Entity v n a) :
    ((unfused_ops v n a).filter fun o => o.key = k) = work k := by
  have hchain : ∀ c, ((c.ops v n a 0 (c.count v n a)).filter fun o => o.key = k) =
      if k.1 = c then work k else [] := by
    intro c
    rw [filter_ops]
    by_cases hc : k.1 = c
    · subst hc
      simp [k.2.isLt]
    · simp [hc]
  simp only [unfused_ops, List.filter_flatMap, hchain, flatMap_all]

/-! ### The serial tick and the stages one by one -/

section Serial
variable [FloatOps Float] {inp out : WorldState Float v n a}

theorem chain_update (c : Chain) (first last : ℕ) (out : WorldState Float v n a) :
    c.update inp first last out =
      (c.ops v n a first last).foldl (fun out o => o.act inp out) out := by
  rw [Chain.update, Chain.ops, List.foldl_flatMap]
  simp only [List.foldl_map]
  rfl

theorem run_batched_chain (inp : WorldState Float v n a) (c : Chain) (out : WorldState Float v n a) :
    run_batched (c.count v n a) (c.update inp) out =
      ((List.range (batch_count_for (c.count v n a))).flatMap fun b =>
        c.ops v n a (b * kBatchSize) (batch_end (c.count v n a) b)).foldl
          (fun out o => o.act inp out) out := by
  rw [run_batched, List.foldl_flatMap]
  simp only [chain_update]

theorem tick_serial_eq (w : World Float v n a) :
    tick_serial w = w.finish_tick ((serial_ops v n a).foldl (fun out o => o.act w.current out) w.out) := by
  have hv := run_batched_chain w.current .vehicles
  have hn := run_batched_chain w.current .npcs
  have ha := run_batched_chain w.current .aircraft
  simp only [serial_ops, Chain.all, List.flatMap_cons, List.flatMap_nil, List.append_nil,
    List.foldl_append, ← hv, ← hn, ← ha]
  rfl

theorem tick_unfused_eq (w : World Float v n a) :
    tick_unfused w =
      w.finish_tick ((unfused_ops v n a).foldl (fun out o => o.act w.current out) w.out) := by
  simp only [tick_unfused, unfused_ops, List.foldl_flatMap, ← chain_update]
  rfl

/-- Fused and in batches, the stages leave what they leave one by one. -/
theorem serial_eq_unfused (w : World Float v n a) : tick_serial w = tick_unfused w := by
  rw [tick_serial_eq, tick_unfused_eq]
  congr 1
  apply (local_act w.current).run_eq
  intro k
  rw [filter_serial_ops, filter_unfused_ops]

end Serial

/-! ### The claimants -/

section Claims
variable [FloatOps Float] {worker_count : ℕ} {inp out : WorldState Float v n a}

theorem value_eq (c : Chain) (k : ℕ) : (claim_batches inp).value c k = k := by
  have hiterate : ∀ k, (fun b : ℕ => b + 1)^[k] 0 = k := by
    intro k
    induction k with
    | zero => rfl
    | succ k ih => rw [Function.iterate_succ_apply', ih]
  exact hiterate k

theorem values_eq (c : Chain) (k : ℕ) : (claim_batches inp).values c k = List.range k := by
  have hid : (claim_batches inp).value c = id := by
    funext k
    exact value_eq c k
  rw [Claims.Loops.values, hid, List.map_id]

theorem stops_after : (claim_batches inp).StopsAfter
    (Sigma.fst : Claimant v n a worker_count → Chain)
    fun c => batch_count_for (c.count v n a) := by
  intro c k _
  rw [value_eq]
  exact decide_eq_true_iff

theorem claimants_pos (c : Chain) (h : 0 < batch_count_for (c.count v n a)) :
    0 < claimants (c.count v n a) worker_count := by
  unfold claimants
  by_cases hw : worker_count = 0
  · simp only [hw, if_true]
    split <;> omega
  · simp only [hw, if_false]
    split <;> omega

theorem claimants_zero (worker_count : ℕ) : claimants 0 worker_count = 0 := by
  have hcap : 0 < if worker_count = 0 then 1 else worker_count := by split <;> omega
  exact if_pos hcap

theorem threads_pos (c : Chain) (h : 0 < batch_count_for (c.count v n a)) :
    0 < Claims.threads (Sigma.fst : Claimant v n a worker_count → Chain) c := by
  refine Finset.card_pos.mpr ⟨⟨c, ⟨0, claimants_pos c h⟩⟩, ?_⟩
  simp

/-- The batches of a range hold entities of that range only. -/
theorem mem_ops {c : Chain} {first last : ℕ} {o : Op v n a} (ho : o ∈ c.ops v n a first last) :
    o.key.1 = c ∧ first ≤ o.key.2.val ∧ o.key.2.val < last := by
  have hmem : o ∈ (c.ops v n a first last).filter fun p => p.key = o.key :=
    List.mem_filter.mpr ⟨ho, by simp⟩
  rw [filter_ops] at hmem
  split at hmem
  · assumption
  · cases hmem

/-- Different batches hold different entities. -/
theorem independent (inp : WorldState Float v n a) : (claim_batches inp).Independent := by
  apply (local_act inp).independent
  · intro c j k hjk
    simpa only [value_eq] using hjk
  · intro c b d b' o p hne ho hp hkey
    obtain ⟨hc, hob⟩ := mem_ops ho
    obtain ⟨hd, hpb⟩ := mem_ops hp
    rw [← hkey] at hd hpb
    obtain rfl := hc.symm.trans hd
    subst hc
    rw [mem_batch o.key.2.isLt] at hob hpb
    exact hne (by rw [← hob, ← hpb])

theorem ops_length (c : Chain) (b : ℕ) :
    ((claim_batches inp).ops c b).length ≤ 4 * (v + n + a) := by
  have hindices : ∀ first last, (indices (c.count v n a) first last).length ≤ v + n + a := by
    intro first last
    calc (indices (c.count v n a) first last).length
      _ ≤ (List.finRange (c.count v n a)).length := List.length_filter_le ..
      _ = c.count v n a := List.length_finRange
      _ ≤ v + n + a := by cases c <;> simp only [Chain.count] <;> omega
  have hrange := hindices (b * kBatchSize) (batch_end (c.count v n a) b)
  have hstages : c.stages.length ≤ 4 := by cases c <;> decide
  have hlength : ((claim_batches inp).ops c b).length =
      c.stages.length * (indices (c.count v n a) (b * kBatchSize) (batch_end (c.count v n a) b)).length := by
    simp [claim_batches, Chain.ops, List.length_flatMap]
  rw [hlength]
  exact Nat.mul_le_mul hstages hrange

variable {s : Claims.State Chain ℕ (Op v n a) (WorldState Float v n a) (Claimant v n a worker_count)}

/-- When the claimants have all ended, each batch has been claimed once. -/
theorem claims_finished
    (h : Reachable (Claims.system (claim_batches inp) Sigma.fst out) s) (hfin : s.Finished) (c : Chain) :
    s.claims c = List.range (batch_count_for (c.count v n a)) := by
  rw [Claims.claims_finished stops_after (fun c hc => threads_pos c hc) h hfin c, values_eq]

/-- And the frame is what the work leaves that is done in the order of the batches. -/
theorem mem_finished
    (h : Reachable (Claims.system (claim_batches inp) Sigma.fst out) s) (hfin : s.Finished) :
    s.mem = (serial_ops v n a).foldl (fun out o => o.act inp out) out := by
  have hkeys : (s.log.map Claims.Claim.key).Perm (Chain.all.flatMap fun c =>
      (List.range (batch_count_for (c.count v n a))).map fun b => (c, b)) := by
    rw [List.perm_ext_iff_of_nodup (Claims.keys_nodup (independent inp) h)]
    · intro batch
      obtain ⟨c, b⟩ := batch
      have hclaims : (c, b) ∈ s.log.map Claims.Claim.key ↔ b ∈ s.claims c := by
        simp only [Claims.State.claims, Claims.Claim.key, List.mem_map, List.mem_filterMap, Prod.mk.injEq,
          Option.ite_none_right_eq_some, Option.some.injEq]
      rw [hclaims, claims_finished h hfin]
      cases c <;> simp [Chain.all]
    · rw [List.nodup_flatMap]
      refine ⟨fun c _ => List.nodup_range.map fun _ _ h => (Prod.mk.inj h).2, ?_⟩
      apply (by decide : Chain.all.Nodup).imp
      intro c d hne x hc hd
      obtain ⟨b, _, rfl⟩ := List.mem_map.mp hc
      obtain ⟨b', _, heq⟩ := List.mem_map.mp hd
      exact hne (Prod.mk.inj heq).1.symm
  rw [Claims.serial (independent inp) h hfin hkeys, List.flatMap_assoc]
  simp only [List.flatMap_map]
  rfl

end Claims

/-! ### The thread that called `tick` -/

section Tick
variable [FloatOps Float] {worker_count : ℕ} {w : World Float v n a}
  {s s' : TickState Float v n a worker_count}

/-- A run of the tick is a run of its claimants. -/
theorem claims_reachable (h : Reachable (tick w worker_count) s) :
    Reachable (Claims.system (claim_batches w.current) Sigma.fst w.out) s.claims := by
  induction h with
  | initial hi =>
    obtain rfl := hi
    exact .initial rfl
  | step _ hstep ih =>
    cases hstep with
    | claimant _ hclaims => exact ih.step hclaims
    | _ => exact ih

/-- What is still to be submitted. -/
def Main.left : Main v n a worker_count → List (Submission v n a worker_count)
  | submitting left | inline _ left => left
  | waiting _ => []

/-- What the gates say of the claimants. -/
structure Gates (s : TickState Float v n a worker_count) : Prop where
  invalid : ∀ c, .barrier c ∉ s.main.left → s.gate c = false → s.Ended c
  waited : ∀ left, s.main = .waiting left → ∀ c, c ∉ left → s.Ended c

theorem gates_initial (hinit : (tick w worker_count).initial s) : Gates s := by
  obtain rfl := hinit
  refine ⟨fun c hc _ => ?_, fun left hmain => by cases hmain⟩
  have hzero : c.count v n a = 0 := by
    by_contra hpos
    apply hc
    refine List.mem_flatMap.mpr ⟨c, by cases c <;> decide, ?_⟩
    rw [submit_stage, if_neg hpos]
    exact List.mem_append_right _ List.mem_cons_self
  intro k
  have hnone : claimants (c.count v n a) worker_count = 0 := by rw [hzero, claimants_zero]
  exact absurd (hnone ▸ k.pos) (lt_irrefl 0)

/-- A claimant that has ended stays so. -/
theorem ended_step {t : Claimant v n a worker_count} {claims}
    (hstep : Claims.Step (claim_batches w.current) Sigma.fst t s.claims claims) {c : Chain}
    (h : s.Ended c) : TickState.Ended {s with claims} c := by
  intro k
  have hne : ⟨c, k⟩ ≠ t := by
    intro heq
    have hk := h k
    rw [heq] at hk
    cases hstep <;> simp_all
  have hk := h k
  cases hstep with
  | claim | leave | act | done => exact (Claims.pcAt_of_ne hne).trans hk

theorem gates_step {l : Option (Claimant v n a worker_count)} (h : Gates s)
    (hstep : TickState.Step w.current l s s') : Gates s' := by
  cases hstep with
  | submit hmain =>
    refine ⟨fun c hc hgate => h.invalid c ?_ hgate, fun left hleft => by cases hleft⟩
    rw [hmain]
    simpa [Main.left] using hc
  | inline hmain =>
    refine ⟨fun c hc hgate => h.invalid c ?_ hgate, fun left hleft => by cases hleft⟩
    rw [hmain]
    simpa [Main.left] using hc
  | inlined hmain =>
    refine ⟨fun c hc hgate => h.invalid c ?_ hgate, fun left hleft => by cases hleft⟩
    rw [hmain]
    exact hc
  | @barrier _ d _ hmain =>
    refine ⟨fun c hc hgate => ?_, fun left hleft => by cases hleft⟩
    by_cases hd : c = d
    · subst hd
      simp at hgate
    · apply h.invalid c
      · rw [hmain]
        simpa [Main.left, hd] using hc
      · simpa [hd] using hgate
  | @inlineBarrier _ d _ hmain hended =>
    refine ⟨fun c hc hgate => ?_, fun left hleft => by cases hleft⟩
    by_cases hd : c = d
    · exact hd ▸ hended
    · apply h.invalid c ?_ hgate
      rw [hmain]
      simpa [Main.left, hd] using hc
  | submitted hmain =>
    refine ⟨fun c _ hgate => h.invalid c ?_ hgate, fun left hleft c hc => ?_⟩
    · rw [hmain]
      exact List.not_mem_nil
    · obtain rfl := Main.waiting.inj hleft
      exact absurd (by cases c <;> decide) hc
  | @wait _ d left hmain hguard =>
    have hinvalid : ∀ c, s.gate c = false → s.Ended c := by
      intro c
      apply h.invalid c
      rw [hmain]
      exact List.not_mem_nil
    refine ⟨fun c _ => hinvalid c, fun left' hleft c hc => ?_⟩
    obtain rfl := Main.waiting.inj hleft
    by_cases hd : c = d
    · subst hd
      cases hgate : s.gate c with
      | true => exact hguard hgate
      | false => exact hinvalid c hgate
    · exact h.waited _ hmain c (by simp [hd, hc])
  | claimant _ hclaims =>
    exact ⟨fun c hc hgate => ended_step hclaims (h.invalid c hc hgate),
      fun left hleft c hc => ended_step hclaims (h.waited left hleft c hc)⟩

theorem gates (h : Reachable (tick w worker_count) s) : Gates s := by
  apply h.invariant
  · exact fun s => gates_initial
  · exact fun l s s' _ => gates_step

/-- When the tick returns, all claimants have ended. -/
theorem returned_finished (h : Reachable (tick w worker_count) s) (hret : s.Returned) :
    s.claims.Finished :=
  fun t => (gates h).waited [] hret t.1 List.not_mem_nil t.2

/-- What the calling thread has still to do. -/
def Main.weight : Main v n a worker_count → ℕ
  | submitting left => 2 * left.length + 5
  | inline _ left => 2 * left.length + 6
  | waiting left => left.length + 1

/-- When no claimant that was submitted has anything to do, the calling thread goes on. -/
theorem main_step (hnot : ¬s.Returned)
    (hended : ∀ t, s.main.Submitted t → s.claims.pc t = .finished) :
    ∃ s', TickState.Step w.current none s s' ∧ s'.claims = s.claims ∧
      s'.main.weight < s.main.weight := by
  cases hmain : s.main with
  | submitting left =>
    cases left with
    | nil => exact ⟨_, .submitted hmain, rfl, Nat.lt_succ_self 4⟩
    | cons x left =>
      cases x with
      | claimant t => exact ⟨_, .submit hmain, rfl, by simp [Main.weight]⟩
      | barrier c => exact ⟨_, .barrier hmain, rfl, by simp [Main.weight]⟩
  | inline t left =>
    have ht : s.main.Submitted t := by
      rw [hmain]
      exact .inl rfl
    exact ⟨_, .inlined hmain (hended t ht), rfl, by simp [Main.weight]⟩
  | waiting left =>
    cases left with
    | nil => exact absurd hmain hnot
    | cons c left =>
      refine ⟨_, .wait hmain fun _ k => hended ⟨c, k⟩ ?_, rfl, by simp [Main.weight]⟩
      rw [hmain]
      trivial

theorem returns (h : Reachable (tick w worker_count) s) :
    ∃ s', Reachable ((tick w worker_count).startingAt s) s' ∧ s'.Returned := by
  apply h.exists_of_measure fun s => s.claims.measure (4 * (v + n + a)) (fun c =>
    batch_count_for (c.count v n a) + Claims.threads (Sigma.fst : Claimant v n a worker_count → Chain) c) +
      s.main.weight
  intro s hr hnot
  by_cases hended : ∀ t, s.main.Submitted t → s.claims.pc t = .finished
  · obtain ⟨s', hstep, hclaims, hlt⟩ := main_step (w := w) hnot hended
    exact ⟨none, s', hstep, by simp only [hclaims]; omega⟩
  · push Not at hended
    obtain ⟨t, hsub, ht⟩ := hended
    obtain ⟨claims, hstep, hlt⟩ :=
      Claims.exists_step stops_after ops_length (claims_reachable hr) ht
    exact ⟨some t, {s with claims}, .claimant hsub hstep, by simp only; omega⟩

/-- **A parallel tick is the serial one**: whatever has happened it can still return, and when it
returns each batch has been run once, and the world is that of the serial tick and of the
stages one by one. -/
theorem tick_correct (w : World Float v n a) (worker_count : ℕ) : Tick.Correct w worker_count where
  returns _ h := returns h
  once _ h hret := by
    refine ⟨claims_finished (claims_reachable h) (returned_finished h hret), fun x hx => ?_⟩
    obtain ⟨k, hk⟩ := List.mem_iff_getElem?.mp hx
    exact (Claims.bodies (claims_reachable h)).ended_finished (returned_finished h hret) hk
  serial s h hret := by
    rw [tick_serial_eq, mem_finished (claims_reachable h) (returned_finished h hret)]
  unfused s h hret := by
    rw [← serial_eq_unfused, tick_serial_eq, mem_finished (claims_reachable h) (returned_finished h hret)]
  frame := by
    rw [serial_eq_unfused]
    exact ⟨rfl, rfl, rfl⟩

end Tick

end Thunderbolt.World
