import Mathlib.Data.Finset.Card
import Mathlib.Data.List.Sort
import Thunderbolt.Task.Handle

/-! Which logical processors share a core.

The processors come in the order of the directory, each with what its two files say: the
package and the core, or nothing if one of them cannot be read. They are
grouped by that pair through an index map, and then sorted twice. -/
namespace Thunderbolt.Cpu

structure CoreInfo where
  logical_processors : List ℕ
  deriving DecidableEq

structure CpuTopology where
  logical_processor_count : ℕ
  physical_core_count : ℕ
  package_count : ℕ
  cores : List CoreInfo
  detected : Bool

/-- A logical processor, and its `(physical_package_id, core_id)`. -/
abbrev Processor := ℕ × Option (ℕ × ℕ)

/-- The loop of `query_linux_topology`. -/
structure Query where
  core_index : ℕ × ℕ → Option ℕ
  package_ids : Finset ℕ
  cores : List CoreInfo

namespace Query

def initial : Query := ⟨fun _ => none, ∅, []⟩

def visit (q : Query) : Processor → Query
  | (_, none) => q
  | (logical, some key) =>
    let package_ids := insert key.1 q.package_ids
    match q.core_index key with
    | none =>
      { core_index := Function.update q.core_index key (some q.cores.length)
        package_ids
        cores := q.cores ++ [⟨[logical]⟩] }
    | some i =>
      {q with
        package_ids
        cores := q.cores.modify i fun core => ⟨core.logical_processors ++ [logical]⟩}

end Query

/-- `front()`, of a core that has a processor. -/
def CoreInfo.front (core : CoreInfo) : ℕ := core.logical_processors.headD 0

/-- What it returns, and `out`. -/
def query_linux_topology (processors : List Processor) : Bool × CpuTopology :=
  let q := processors.foldl Query.visit .initial
  if q.cores.isEmpty then (false, ⟨0, 0, 0, [], false⟩)
  else
    let sorted := q.cores.map fun core => (⟨core.logical_processors.mergeSort (· ≤ ·)⟩ : CoreInfo)
    let cores := sorted.mergeSort fun a b => a.front ≤ b.front
    let logical_total := cores.foldl (fun total core => (total + core.logical_processors.length) % word) 0
    let package_count := q.package_ids.card % word
    (true, ⟨logical_total, cores.length % word, if package_count = 0 then 1 else package_count, cores, false⟩)

/-- With `std::thread::hardware_concurrency`, for when the query fails. -/
def detect (hardware_concurrency : ℕ) (processors : List Processor) : CpuTopology :=
  let (detected, topology) := query_linux_topology processors
  if detected then {topology with detected}
  else
    { topology with
      logical_processor_count := if 0 < hardware_concurrency then hardware_concurrency else 1
      physical_core_count := 0
      package_count := 0
      detected }

/-! ### The groups -/

/-- The processors of a core. -/
def members (processors : List Processor) (key : ℕ × ℕ) : List ℕ :=
  processors.filterMap fun p => if p.2 = some key then some p.1 else none

/-- The processors whose files can be read. -/
def readable (processors : List Processor) : List ℕ :=
  processors.filterMap fun p => p.2.map fun _ => p.1

variable {processors processors' : List Processor} {key key' : ℕ × ℕ} {id : ℕ}

theorem mem_members : id ∈ members processors key ↔ (id, some key) ∈ processors := by
  simp [members, List.mem_filterMap]

theorem mem_readable : id ∈ readable processors ↔ ∃ key, (id, some key) ∈ processors := by
  simp [readable, List.mem_filterMap, Option.map_eq_some_iff]

theorem members_append (processors processors' : List Processor) (key : ℕ × ℕ) :
    members (processors ++ processors') key = members processors key ++ members processors' key :=
  List.filterMap_append

/-- The loop's cores, each under its key, in the order in which the keys came up. -/
structure Grouped (processors : List Processor) (keys : List (ℕ × ℕ)) (q : Query) : Prop where
  nodup : keys.Nodup
  mem : ∀ key, key ∈ keys ↔ ∃ id, (id, some key) ∈ processors
  index : ∀ key i, q.core_index key = some i ↔ keys[i]? = some key
  cores : q.cores = keys.map fun key => ⟨members processors key⟩

namespace Grouped
variable {keys : List (ℕ × ℕ)} {q : Query}

theorem none (h : Grouped processors keys q) (id : ℕ) : Grouped (processors ++ [(id, none)]) keys q where
  nodup := h.nodup
  mem := by simp [h.mem]
  index := h.index
  cores := by simp [h.cores, members]

/-- A key that has not come up before. -/
theorem new (h : Grouped processors keys q) (id : ℕ) (hkey : q.core_index key = .none) :
    Grouped (processors ++ [(id, some key)]) (keys ++ [key]) (q.visit (id, some key)) := by
  have hlength : q.cores.length = keys.length := by simp [h.cores]
  have hnew : key ∉ keys := by
    intro hmem
    obtain ⟨i, hi⟩ := List.mem_iff_getElem?.mp hmem
    cases hkey.symm.trans ((h.index key i).mpr hi)
  have hempty : members processors key = [] := by
    rw [List.eq_nil_iff_forall_not_mem]
    exact fun id hid => hnew ((h.mem key).mpr ⟨id, mem_members.mp hid⟩)
  rw [Query.visit, hkey]
  refine ⟨?_, fun key' => ?_, fun key' i => ?_, ?_⟩
  · rw [← List.concat_eq_append]
    exact h.nodup.concat hnew
  · rw [List.mem_append, h.mem]
    simp only [List.mem_append, List.mem_singleton, Prod.mk.injEq, Option.some.injEq]
    constructor
    · rintro (⟨id', hid⟩ | rfl)
      · exact ⟨id', .inl hid⟩
      · exact ⟨id, .inr ⟨rfl, rfl⟩⟩
    · intro hsome
      obtain ⟨id', hid | ⟨_, rfl⟩⟩ := hsome
      · exact .inl ⟨id', hid⟩
      · exact .inr rfl
  · show Function.update q.core_index key (some q.cores.length) key' = some i ↔ _
    rw [hlength, List.getElem?_append]
    by_cases hk : key' = key
    · subst hk
      rw [Function.update_self, Option.some.injEq]
      split
      case isTrue hlt =>
        refine ⟨fun heq => by omega, fun hi => absurd (List.mem_of_getElem? hi) hnew⟩
      case isFalse hge =>
        rw [List.getElem?_singleton]
        split <;> simp <;> omega
    · rw [Function.update_of_ne hk, h.index]
      split
      case isTrue => rfl
      case isFalse hge =>
        rw [List.getElem?_eq_none (Nat.le_of_not_lt hge), List.getElem?_singleton]
        split <;> simp [Ne.symm hk]
  · show q.cores ++ [⟨[id]⟩] = _
    rw [h.cores, List.map_append]
    congr 1
    · apply List.map_congr_left
      intro key' hkey'
      have hne : key ≠ key' := fun heq => hnew (heq ▸ hkey')
      simp [members, hne]
    · rw [List.map_singleton, members_append, hempty]
      simp [members]

/-- A key that has come up. -/
theorem old (h : Grouped processors keys q) (id : ℕ) {i : ℕ} (hkey : q.core_index key = some i) :
    Grouped (processors ++ [(id, some key)]) keys (q.visit (id, some key)) := by
  have hi := (h.index key i).mp hkey
  rw [Query.visit, hkey]
  refine ⟨h.nodup, fun key' => ?_, h.index, ?_⟩
  · rw [h.mem]
    simp only [List.mem_append, List.mem_singleton, Prod.mk.injEq, Option.some.injEq]
    constructor
    · exact fun ⟨id', hid⟩ => ⟨id', .inl hid⟩
    · intro hsome
      obtain ⟨id', hid | ⟨_, rfl⟩⟩ := hsome
      · exact ⟨id', hid⟩
      · exact (h.mem key').mp (List.mem_of_getElem? hi)
  · show q.cores.modify i _ = _
    rw [h.cores]
    apply List.ext_getElem?
    intro j
    rw [List.getElem?_modify, List.getElem?_map, List.getElem?_map]
    cases hj : keys[j]? with
    | none => simp
    | some key' =>
      by_cases hij : i = j
      · subst hij
        cases hi.symm.trans hj
        simp [members]
      · have hne : key ≠ key' := by
          intro heq
          obtain rfl := heq
          exact hij ((List.getElem?_inj (List.getElem?_eq_some_iff.mp hi).1 h.nodup).mp (hi.trans hj.symm))
        simp [hij, members, hne]

end Grouped

theorem grouped (processors : List Processor) :
    ∃ keys, Grouped processors keys (processors.foldl Query.visit .initial) := by
  induction processors using List.reverseRecOn with
  | nil => exact ⟨[], .nil, by simp, by simp [Query.initial], rfl⟩
  | append_singleton processors p ih =>
    obtain ⟨keys, h⟩ := ih
    rw [List.foldl_append, List.foldl_cons, List.foldl_nil]
    obtain ⟨id, _ | key⟩ := p
    · exact ⟨keys, h.none id⟩
    · cases hkey : (processors.foldl Query.visit .initial).core_index key with
      | none => exact ⟨_, h.new id hkey⟩
      | some i => exact ⟨_, h.old id hkey⟩

end Thunderbolt.Cpu
