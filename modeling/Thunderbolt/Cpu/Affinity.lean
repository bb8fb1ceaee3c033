import Thunderbolt.Cpu.Topology
import Thunderbolt.Lists.RoundRobin

/-! Which logical processor a worker is pinned to.

Workers take the first processor of each core, then the second of each that has one, and so
on. Cores and their processors are sorted, so that it does not matter in which order
the directory lists them. -/
namespace Thunderbolt.Cpu
open Thunderbolt.Lists

/-- The first loop of `spread_order`. -/
def max_siblings (cores : List CoreInfo) (start : ℕ) : ℕ :=
  cores.foldl (fun most core =>
    if core.logical_processors.length > most then core.logical_processors.length else most) start

/-- Round `sibling` takes that processor of every core that has it. -/
def spread_order (topology : CpuTopology) : List ℕ :=
  if !topology.detected || topology.cores.isEmpty then []
  else
    (List.range (max_siblings topology.cores 0)).flatMap fun sibling =>
      topology.cores.filterMap fun core => core.logical_processors[sibling]?

variable {processors processors' : List Processor} {key key' : ℕ × ℕ} {id : ℕ}

/-! ### The cores -/

/-- The core with this key, its processors sorted. -/
def coreOf (processors : List Processor) (key : ℕ × ℕ) : CoreInfo :=
  ⟨(members processors key).mergeSort (· ≤ ·)⟩

theorem mem_coreOf : id ∈ (coreOf processors key).logical_processors ↔ (id, some key) ∈ processors := by
  rw [coreOf, List.mem_mergeSort, mem_members]

/-- The topology is detected, with the cores sorted by their first processors. -/
theorem detect_cores (hw : ℕ) (hsome : ∃ id key, (id, some key) ∈ processors) :
    ∃ keys : List (ℕ × ℕ), keys.Nodup ∧ (∀ key, key ∈ keys ↔ ∃ id, (id, some key) ∈ processors) ∧
      (detect hw processors).detected = true ∧ (detect hw processors).cores =
        (keys.map (coreOf processors)).mergeSort fun a b => a.front ≤ b.front := by
  obtain ⟨keys, h⟩ := grouped processors
  have hcores : ¬(processors.foldl Query.visit .initial).cores.isEmpty = true := by
    obtain ⟨id, key, hid⟩ := hsome
    have hkey : key ∈ keys := (h.mem key).mpr ⟨id, hid⟩
    rw [h.cores, List.isEmpty_iff]
    exact List.ne_nil_of_mem (List.mem_map_of_mem hkey)
  have hquery : (query_linux_topology processors).1 = true := by rw [query_linux_topology, if_neg hcores]
  refine ⟨keys, h.nodup, h.mem, by simp [detect, hquery], ?_⟩
  have hdetect : (detect hw processors).cores = (query_linux_topology processors).2.cores := by
    simp [detect, hquery]
  rw [hdetect, query_linux_topology, if_neg hcores]
  show List.mergeSort (List.map _ _) _ = _
  rw [h.cores, List.map_map]
  rfl

theorem coreOf_perm (hperm : processors.Perm processors') : coreOf processors = coreOf processors' := by
  funext key
  have hmembers : (members processors key).Perm (members processors' key) := hperm.filterMap _
  refine congrArg CoreInfo.mk (List.Perm.eq_of_sortedLE List.sortedLE_mergeSort List.sortedLE_mergeSort ?_)
  exact (List.mergeSort_perm _ _).trans (hmembers.trans (List.mergeSort_perm _ _).symm)

theorem front_mem (hkey : ∃ id, (id, some key) ∈ processors) :
    ((coreOf processors key).front, some key) ∈ processors := by
  rw [← mem_coreOf, CoreInfo.front]
  obtain ⟨id, hid⟩ := hkey
  cases hlist : (coreOf processors key).logical_processors with
  | nil =>
    rw [← mem_coreOf, hlist] at hid
    cases hid
  | cons first rest => exact List.mem_cons_self

theorem filterMap_sublist {f : Processor → Option ℕ} (hf : ∀ p id, f p = some id → p.1 = id) :
    (processors.filterMap f).Sublist (processors.map Prod.fst) := by
  induction processors with
  | nil => exact .slnil
  | cons p processors ih =>
    cases hp : f p with
    | none =>
      rw [List.filterMap_cons_none hp]
      exact ih.cons p.1
    | some id =>
      rw [List.filterMap_cons_some hp, List.map_cons, hf p id hp]
      exact ih.cons_cons id

section Distinct
variable (hdistinct : (processors.map Prod.fst).Nodup)
include hdistinct

theorem key_unique (hid : (id, some key) ∈ processors) (hid' : (id, some key') ∈ processors) : key = key' := by
  have heq := List.inj_on_of_nodup_map hdistinct hid hid' rfl
  exact Option.some.inj (Prod.mk.inj heq).2

theorem nodup_readable : (readable processors).Nodup := by
  refine hdistinct.sublist (filterMap_sublist ?_)
  intro processor x hx
  obtain ⟨id, _ | key⟩ := processor
  · cases hx
  · exact Option.some.inj hx

theorem nodup_coreOf (key : ℕ × ℕ) : (coreOf processors key).logical_processors.Nodup := by
  rw [coreOf, (List.mergeSort_perm _ _).nodup_iff]
  refine hdistinct.sublist (filterMap_sublist ?_)
  intro p id hp
  split at hp
  · exact Option.some.inj hp
  · cases hp

/-- The cores do not depend on the order in which the processors come. -/
theorem cores_perm (hw hw' : ℕ) (hsome : ∃ id key, (id, some key) ∈ processors) (hperm : processors.Perm processors') :
    (detect hw' processors').cores = (detect hw processors).cores := by
  obtain ⟨keys, hnodup, hmem, -, hcores⟩ := detect_cores hw hsome
  obtain ⟨keys', hnodup', hmem', -, hcores'⟩ :=
    detect_cores hw' (hsome.imp fun _ h => h.imp fun _ hid => hperm.mem_iff.mp hid)
  have hkeys : keys'.Perm keys := by
    rw [List.perm_ext_iff_of_nodup hnodup' hnodup]
    intro key
    rw [hmem, hmem']
    exact exists_congr fun id => hperm.mem_iff.symm
  rw [hcores, hcores', ← coreOf_perm hperm]
  have hsorted : ∀ cores : List CoreInfo,
      (cores.mergeSort fun a b => a.front ≤ b.front).Pairwise fun a b => a.front ≤ b.front := by
    intro cores
    simpa using List.pairwise_mergeSort' (fun a b : CoreInfo => a.front ≤ b.front) cores
  refine List.Perm.eq_of_pairwise ?_ (hsorted _) (hsorted _) ?_
  · intro a b ha hb hab hba
    obtain ⟨key, hkey, rfl⟩ := List.mem_map.mp (List.mem_mergeSort.mp ha)
    obtain ⟨key', hkey', rfl⟩ := List.mem_map.mp (List.mem_mergeSort.mp hb)
    have hfront := front_mem ((hmem key).mp (hkeys.mem_iff.mp hkey))
    have hfront' := front_mem ((hmem key').mp hkey')
    rw [Nat.le_antisymm hab hba] at hfront
    rw [key_unique hdistinct hfront hfront']
  · exact (List.mergeSort_perm _ _).trans ((hkeys.map _).trans (List.mergeSort_perm _ _).symm)

/-- The lists of the cores, the sorted ones of the keys. -/
theorem processors_perm (hw : ℕ) (hsome : ∃ id key, (id, some key) ∈ processors) :
    ∃ keys : List (ℕ × ℕ), (∀ key, key ∈ keys ↔ ∃ id, (id, some key) ∈ processors) ∧
      (∀ core, core ∈ (detect hw processors).cores ↔ ∃ key ∈ keys, coreOf processors key = core) ∧
      ((detect hw processors).cores.map CoreInfo.logical_processors).Pairwise List.Disjoint ∧
      ((detect hw processors).cores.map CoreInfo.logical_processors).flatten.Perm (readable processors) := by
  obtain ⟨keys, hnodup, hmem, -, hcores⟩ := detect_cores hw hsome
  have hperm : (detect hw processors).cores.Perm (keys.map (coreOf processors)) := by
    rw [hcores]
    exact List.mergeSort_perm _ _
  have hdisjoint : ((detect hw processors).cores.map CoreInfo.logical_processors).Pairwise List.Disjoint := by
    rw [(hperm.map _).pairwise_iff fun h => h.symm, List.pairwise_map, List.pairwise_map]
    refine hnodup.imp fun hne id hid hid' => hne ?_
    exact key_unique hdistinct (mem_coreOf.mp hid) (mem_coreOf.mp hid')
  refine ⟨keys, hmem, fun core => by rw [hperm.mem_iff, List.mem_map], hdisjoint, ?_⟩
  rw [List.perm_ext_iff_of_nodup (List.nodup_flatten.mpr ⟨?_, hdisjoint⟩) (nodup_readable hdistinct)]
  · intro id
    rw [mem_readable, List.mem_flatten]
    constructor
    · intro hsome
      obtain ⟨l, hl, hid⟩ := hsome
      obtain ⟨core, hcore, rfl⟩ := List.mem_map.mp hl
      obtain ⟨key, _, rfl⟩ := List.mem_map.mp (hperm.mem_iff.mp hcore)
      exact ⟨key, mem_coreOf.mp hid⟩
    · intro hsome
      obtain ⟨key, hid⟩ := hsome
      have hcore := hperm.mem_iff.mpr (List.mem_map_of_mem ((hmem key).mpr ⟨id, hid⟩))
      exact ⟨_, List.mem_map_of_mem hcore, mem_coreOf.mpr hid⟩
  · intro l hl
    obtain ⟨core, hcore, rfl⟩ := List.mem_map.mp hl
    obtain ⟨key, _, rfl⟩ := List.mem_map.mp (hperm.mem_iff.mp hcore)
    exact nodup_coreOf hdistinct key

end Distinct

/-! ### The order -/

theorem le_max_siblings (cores : List CoreInfo) (start : ℕ) : start ≤ max_siblings cores start ∧
    ∀ core ∈ cores, core.logical_processors.length ≤ max_siblings cores start := by
  induction cores generalizing start with
  | nil => exact ⟨le_rfl, nofun⟩
  | cons core cores ih =>
    rw [max_siblings, List.foldl_cons]
    set most := if core.logical_processors.length > start then core.logical_processors.length else start
      with hmost
    have hstep : start ≤ most ∧ core.logical_processors.length ≤ most := by
      rw [hmost]
      split <;> omega
    obtain ⟨hle, hcores⟩ := ih most
    refine ⟨hstep.1.trans hle, fun other hother => ?_⟩
    obtain rfl | hother := List.mem_cons.mp hother
    · exact hstep.2.trans hle
    · exact hcores other hother

/-- The order is round robin over the cores. -/
theorem spread_order_eq {topology : CpuTopology} (hdetected : topology.detected = true) :
    spread_order topology =
      roundRobin (topology.cores.map CoreInfo.logical_processors) (max_siblings topology.cores 0) := by
  have hround : Lists.round (topology.cores.map CoreInfo.logical_processors) = fun sibling =>
      topology.cores.filterMap fun core => core.logical_processors[sibling]? := by
    funext sibling
    rw [Lists.round, List.filterMap_map]
    rfl
  rw [spread_order, roundRobin, hround]
  cases hcores : topology.cores with
  | nil => simp
  | cons core cores => simp [hdetected]

/-- What is to be said of the placement on these processors, whatever the fallback. -/
structure Fair (hw : ℕ) (processors : List Processor) : Prop where
  partition : ((detect hw processors).cores.map CoreInfo.logical_processors).flatten.Perm (readable processors)
  inhabited : ∀ core ∈ (detect hw processors).cores, core.logical_processors ≠ []
  /-- Two processors are on one core if they have one pair. -/
  together : ∀ id key id' key', (id, some key) ∈ processors → (id', some key') ∈ processors →
    ((∃ core ∈ (detect hw processors).cores,
      id ∈ core.logical_processors ∧ id' ∈ core.logical_processors) ↔ key = key')
  reordered : ∀ processors', processors.Perm processors' →
    (detect hw processors').cores = (detect hw processors).cores ∧
      spread_order (detect hw processors') = spread_order (detect hw processors)
  once : (spread_order (detect hw processors)).Nodup ∧
    ∀ id, id ∈ spread_order (detect hw processors) ↔ id ∈ readable processors
  /-- A core that has contributed `k` is at most one ahead of one with as many. -/
  even : ∀ p, p <+: spread_order (detect hw processors) → ∀ core ∈ (detect hw processors).cores,
    ∀ other ∈ (detect hw processors).cores,
      share core.logical_processors p ≤ other.logical_processors.length →
      share core.logical_processors p - 1 ≤ share other.logical_processors p
  /-- No core is used twice before every core is used. -/
  spread : ∀ p, p <+: spread_order (detect hw processors) →
    (∀ core ∈ (detect hw processors).cores, share core.logical_processors p ≤ 1) ∨
      ∀ core ∈ (detect hw processors).cores, 1 ≤ share core.logical_processors p

/-- **Workers are placed fairly**, whatever the order of the directory. -/
theorem worker_placement (hdistinct : (processors.map Prod.fst).Nodup)
    (hsome : ∃ id key, (id, some key) ∈ processors) (hw : ℕ) : Fair hw processors := by
  obtain ⟨keys, hmem, hcores, hdisjoint, hpartition⟩ := processors_perm hdistinct hw hsome
  have hdetected : ∀ processors' : List Processor, (∃ id key, (id, some key) ∈ processors') →
      (detect hw processors').detected = true := by
    intro processors' hsome
    obtain ⟨_, _, _, h, _⟩ := detect_cores hw hsome
    exact h
  have horder := spread_order_eq (hdetected processors hsome)
  have hinhabited : ∀ core ∈ (detect hw processors).cores, core.logical_processors ≠ [] := by
    intro core hcore
    obtain ⟨key, hkey, rfl⟩ := (hcores core).mp hcore
    obtain ⟨id, hid⟩ := (hmem key).mp hkey
    exact List.ne_nil_of_mem (mem_coreOf.mpr hid)
  have hlists : ∀ core ∈ (detect hw processors).cores,
      core.logical_processors ∈ (detect hw processors).cores.map CoreInfo.logical_processors :=
    fun core => List.mem_map_of_mem
  have hperm : (spread_order (detect hw processors)).Perm (readable processors) := by
    rw [horder]
    exact (roundRobin_perm (by simpa using (le_max_siblings _ 0).2)).trans hpartition
  have hahead : ∀ p, p <+: spread_order (detect hw processors) → ∀ core ∈ (detect hw processors).cores,
      ∀ other ∈ (detect hw processors).cores,
        min (share core.logical_processors p - 1) other.logical_processors.length ≤
          share other.logical_processors p := by
    intro p hp core hcore other hother
    exact fair hdisjoint (hlists core hcore) (hlists other hother) (horder ▸ hp)
  refine ⟨hpartition, hinhabited, ?_, ?_, ⟨hperm.nodup_iff.mpr (nodup_readable hdistinct), fun id => hperm.mem_iff⟩,
    ?_, ?_⟩
  · intro id key id' key' hid hid'
    constructor
    · intro hsome
      obtain ⟨core, hcore, hin, hin'⟩ := hsome
      obtain ⟨other, _, rfl⟩ := (hcores core).mp hcore
      exact (key_unique hdistinct hid (mem_coreOf.mp hin)).trans
        (key_unique hdistinct hid' (mem_coreOf.mp hin')).symm
    · intro heq
      obtain rfl := heq
      exact ⟨_, (hcores _).mpr ⟨key, (hmem key).mpr ⟨id, hid⟩, rfl⟩, mem_coreOf.mpr hid, mem_coreOf.mpr hid'⟩
  · intro processors' hperm
    have hcores' := cores_perm hdistinct hw hw hsome hperm
    have hsome' : ∃ id key, (id, some key) ∈ processors' :=
      hsome.imp fun _ h => h.imp fun _ hid => hperm.mem_iff.mp hid
    refine ⟨hcores', ?_⟩
    rw [spread_order, spread_order, hcores', hdetected processors hsome, hdetected processors' hsome']
  · intro p hp core hcore other hother hle
    have := hahead p hp core hcore other hother
    omega
  · intro p hp
    by_contra hneither
    push Not at hneither
    obtain ⟨⟨core, hcore, htwice⟩, other, hother, hunused⟩ := hneither
    have hle := hahead p hp core hcore other hother
    have hpos := List.length_pos_iff.mpr (hinhabited other hother)
    omega

/-- Two cores of two processors each, and one that is offline. -/
theorem worker_placement_smt :
    Fair 8 [(4, none), (3, some (0, 1)), (0, some (0, 0)), (1, some (0, 1)), (2, some (0, 0))] :=
  worker_placement (by decide) ⟨3, (0, 1), by decide⟩ 8

end Thunderbolt.Cpu
