import Thunderbolt.Bench.Statistics
import Thunderbolt.Random.FisherYates
import Thunderbolt.Task.Handle

/-! The measurement schedule.

The outer loop is over rounds, the inner one over the legs, in an order that is kept from
round to round. What a call of a leg observes may depend on all that was called before;
it is given by the number of the call. Beside the report the loops keep a log of the
calls. -/
namespace Thunderbolt.Bench.BenchmarkRunner
open Thunderbolt.Random

/-- A value of type `int`. -/
def int (n : ℤ) : ℤ := n.bmod (2 ^ 32)

structure Sample where
  seconds : Float
  clock_mhz : Float
  throttled : Bool
  warmup : Bool
  position : ℤ

structure Leg where
  name : String
  /-- What it records, if it is there. -/
  record_counters : Option (List (String × ℕ))

structure LegResult where
  name : String
  samples : List Sample
  timing : Summary
  timing_including_throttled : Summary
  throttled_count : ℕ
  counters : List (String × ℕ)

inductive LegOrder where
  | Fixed | Reverse | Shuffle
  deriving DecidableEq

structure RunOptions where
  leg_order : LegOrder
  repetitions : ℤ
  warmup : ℤ
  throttle_fraction : Float

structure RunReport where
  legs : List LegResult
  options : RunOptions
  nominal_max_mhz : Float
  median_observed_mhz : Float
  clock_unavailable : Bool

/-- What is observed around one call of `run_once`. -/
structure Outcome where
  mhz_before : Float
  seconds : Float
  mhz_after : Float

/-- What the run depends on beside the legs and the options. -/
structure Machine where
  nominal_max_mhz : Float
  observe : ℕ → Outcome
  /-- The return values of the generator. -/
  rng : ℕ → ℕ

/-- A call of `run_once`. -/
structure Call where
  round : ℕ
  leg : ℕ
  slot : ℕ
  outcome : Outcome

/-- The state of the loops. -/
structure Rounds where
  order : List ℕ
  /-- How many values the generator has returned. -/
  drawn : ℕ
  calls : List Call
  /-- `report.legs[i].samples`. -/
  samples : ℕ → List Sample

variable (machine : Machine) (options : RunOptions)

/-- The sample that is taken in a call. -/
def Call.sample (call : Call) : Sample where
  seconds := call.outcome.seconds
  clock_mhz :=
    if call.outcome.mhz_before > 0.0 ∧ call.outcome.mhz_after > 0.0 then
      0.5 * (call.outcome.mhz_before + call.outcome.mhz_after)
    else 0.0
  throttled := false
  warmup := call.round < options.warmup
  position := int call.slot

namespace Rounds

/-- The leg `i`, in this slot. -/
def run_leg (round slot i : ℕ) (s : Rounds) : Rounds :=
  let call : Call := ⟨round, i, slot, machine.observe s.calls.length⟩
  { s with
    calls := s.calls ++ [call]
    samples :=
      if round < options.warmup then s.samples
      else Function.update s.samples i (s.samples i ++ [call.sample options]) }

/-- The inner loop, from this slot on. -/
def run_slots (round : ℕ) : ℕ → List ℕ → Rounds → Rounds
  | _, [], s => s
  | slot, i :: order, s => run_slots round (slot + 1) order (s.run_leg machine options round slot i)

/-- One round of the outer loop. -/
def run_round (s : Rounds) (round : ℕ) : Rounds :=
  let shuffled :=
    if options.leg_order = .Shuffle then shuffle machine.rng s.order.length s.order s.drawn
    else (s.order, s.drawn)
  run_slots machine options round 0 shuffled.1 {s with order := shuffled.1, drawn := shuffled.2}

def initial (legs : List Leg) : Rounds where
  order :=
    if options.leg_order = .Reverse then (List.range legs.length).reverse else List.range legs.length
  drawn := 0
  calls := []
  samples _ := []

/-- The outer loop. -/
def run (legs : List Leg) (total_rounds : ℕ) : Rounds :=
  (List.range total_rounds).foldl (run_round machine options) (initial options legs)

end Rounds

def RunOptions.total_rounds (options : RunOptions) : ℤ := int (options.warmup + options.repetitions)

def Sample.flag (throttle_floor : Float) (sample : Sample) : Sample :=
  {sample with throttled := sample.clock_mhz > 0.0 && sample.clock_mhz < throttle_floor}

/-- The last loop of `run_interleaved`, for one leg. -/
def finish (leg : Leg) (samples : List Sample) : LegResult :=
  let all := samples.map Sample.seconds
  let clean := (samples.filter fun sample => !sample.throttled).map Sample.seconds
  { name := leg.name
    samples
    timing := if clean.length ≥ 3 then summarize clean else summarize all
    timing_including_throttled := summarize all
    throttled_count := (samples.filter Sample.throttled).length % word
    counters := leg.record_counters.getD [] }

/-- The report, and the calls that were made. -/
def run_interleaved (legs : List Leg) : RunReport × List Call :=
  let s := Rounds.run machine options legs options.total_rounds.toNat
  let observed_clocks := ((List.range legs.length).flatMap s.samples).filterMap fun sample =>
    if sample.clock_mhz > 0.0 then some sample.clock_mhz else none
  let median_clock := if observed_clocks.isEmpty then 0.0 else (summarize observed_clocks).median
  let throttle_floor := median_clock * options.throttle_fraction
  ({ legs := legs.mapIdx fun i leg => finish leg ((s.samples i).map (Sample.flag throttle_floor))
     options
     nominal_max_mhz := machine.nominal_max_mhz
     median_observed_mhz := median_clock
     clock_unavailable := machine.nominal_max_mhz ≤ 0.0 }, s.calls)

end Thunderbolt.Bench.BenchmarkRunner
