import Thunderbolt.Task.Handle
import Thunderbolt.Task.Successors

/-! The successor list of one slot, from occupant to occupant.

`TaskPool` opens the list when it hands the slot out; the task that completes takes it; the
release advances the generation and resets it. Registrations come at any time, with any
generation. What each operation returns is put on record, the newest first, and the
list is judged by the record alone. -/
namespace Thunderbolt.Task.SuccessorLog

/-- Where the slot stands in the order that `TaskPool` keeps. -/
inductive Phase where
  | dormant
  | occupied
  | taken
  /-- The generation has been advanced. -/
  | released
  deriving DecidableEq

structure Slot where
  successors : Successors TaskHandle
  generation : ℕ
  phase : Phase

/-- An operation, with what it returned. -/
inductive Event where
  | open_successors
  | try_add_successor (successor : TaskHandle) (expected_generation : ℕ) (result : Bool)
  | take_successors (out : List TaskHandle)
  /-- The generation has been advanced from this one. -/
  | increment (generation : ℕ)
  | reset_successors

inductive Step : Event → Slot → Slot → Prop where
  | open_successors {s} : s.phase = .dormant →
      Step .open_successors s {s with successors := s.successors.reopen, phase := .occupied}
  | try_add_successor {s} (successor : TaskHandle) (expected_generation : ℕ) :
      Step (.try_add_successor successor expected_generation
          (s.successors.tryAdd s.generation expected_generation successor).2) s
        {s with successors := (s.successors.tryAdd s.generation expected_generation successor).1}
  /-- `out` may hold anything before. -/
  | take_successors {s} (out : List TaskHandle) : s.phase = .occupied →
      Step (.take_successors (s.successors.take out).2) s
        {s with successors := (s.successors.take out).1, phase := .taken}
  /-- A slot whose task never ran is released without a take. -/
  | increment {s} : s.phase = .occupied ∨ s.phase = .taken →
      Step (.increment s.generation) s
        {s with generation := (s.generation + 1) % word, phase := .released}
  | reset_successors {s} : s.phase = .released →
      Step .reset_successors s {s with successors := s.successors.reset, phase := .dormant}

/-- A slot that was never handed out. -/
def initial : Slot := ⟨.initial .none, 0, .dormant⟩

/-- The records of the runs, and the states they lead to. -/
inductive Recorded : List Event → Slot → Prop where
  | initial : Recorded [] initial
  | step {events e s s'} : Recorded events s → Step e s s' → Recorded (e :: events) s'

/-! ### What the record says -/

/-- The handles whose registration returned true since the list was opened. -/
def registered : List Event → List TaskHandle
  | [] => []
  | .open_successors :: _ => []
  | .try_add_successor x _ true :: events => registered events ++ [x]
  | _ :: events => registered events

/-- The list has been taken and not opened again. -/
def Shut : List Event → Prop
  | [] => False
  | .open_successors :: _ => False
  | .take_successors _ :: _ => True
  | _ :: events => Shut events

def increments : List Event → ℕ
  | [] => 0
  | .increment _ :: events => increments events + 1
  | _ :: events => increments events

/-- The generation has been advanced from `g`. -/
def Ever (g : ℕ) (events : List Event) : Prop := .increment g ∈ events

/-- The same, and not `2 ^ 32` times since. -/
def Recently (g : ℕ) (events : List Event) : Prop :=
  ∃ newer older, events = newer ++ .increment g :: older ∧ increments newer + 1 < word

/-- A take returns what was registered; nothing is registered with a list that is shut, and
nothing for a generation that is old. -/
def Faithful (Old : ℕ → List Event → Prop) : List Event → Prop
  | [] => True
  | .take_successors out :: events => out = registered events ∧ Faithful Old events
  | .try_add_successor _ g true :: events => ¬Shut events ∧ ¬Old g events ∧ Faithful Old events
  | _ :: events => Faithful Old events

/-! ### What the list has in common with the record -/

structure Inv (events : List Event) (s : Slot) : Prop where
  generation : s.generation = increments events % word
  occupied : s.phase = .occupied → s.successors.closed = false ∧ s.successors.entries = registered events
  shut : Shut events → s.successors.closed = true
  older : ∀ newer g older, events = newer ++ .increment g :: older → g = increments older % word

variable {events newer older : List Event} {e : Event} {s s' : Slot} {g : ℕ}

theorem increments_append (newer older : List Event) :
    increments (newer ++ older) = increments newer + increments older := by
  induction newer with
  | nil => simp [increments]
  | cons e newer ih =>
    cases e with
    | increment g =>
      simp only [List.cons_append, increments, ih]
      omega
    | _ => exact ih

/-- The last event of a record comes last, or earlier. -/
theorem cons_eq_append (h : e :: events = newer ++ .increment g :: older) :
    newer = [] ∧ e = .increment g ∧ events = older ∨
      ∃ newer', newer = e :: newer' ∧ events = newer' ++ .increment g :: older := by
  cases newer with
  | nil =>
    obtain ⟨he, hevents⟩ := List.cons.inj h
    exact .inl ⟨rfl, he, hevents⟩
  | cons x newer =>
    obtain ⟨rfl, hevents⟩ := List.cons.inj h
    exact .inr ⟨newer, rfl, hevents⟩

/-- What a registration that returns true says about the slot. -/
theorem accepted {x : TaskHandle} (h : (s.successors.tryAdd s.generation g x).2 = true) :
    s.successors.closed = false ∧ s.generation = g := by
  rw [(Successors.tryAdd_eq _ _ _ _).1] at h
  simpa using h

namespace Inv

theorem initial : Inv [] initial where
  generation := rfl
  occupied := nofun
  shut := nofun
  older newer _ _ h := by cases newer <;> cases h

/-- Of the events only an increment adds to what the record says of generations. -/
theorem older_cons (h : Inv events s) (he : ∀ g, e = .increment g → g = increments events % word) :
    ∀ newer g older, e :: events = newer ++ .increment g :: older → g = increments older % word := by
  intro newer g older heq
  obtain ⟨_, hlast, rfl⟩ | ⟨newer', _, heq⟩ := cons_eq_append heq
  · exact he g hlast
  · exact h.older newer' g older heq

theorem step (h : Inv events s) (hs : Step e s s') : Inv (e :: events) s' := by
  cases hs with
  | open_successors hphase => exact ⟨h.generation, fun _ => ⟨rfl, rfl⟩, nofun, h.older_cons nofun⟩
  | try_add_successor x g =>
    have hadd := Successors.tryAdd_eq s.successors s.generation g x
    have hclosed : (s.successors.tryAdd s.generation g x).1.closed = s.successors.closed := by
      unfold Successors.tryAdd
      split
      · exact Successors.closed_push _ _
      · rfl
    refine ⟨h.generation, fun hphase => ?_, fun hshut => hclosed.trans (h.shut hshut), h.older_cons nofun⟩
    obtain ⟨hopen, hentries⟩ := h.occupied hphase
    refine ⟨hclosed.trans hopen, ?_⟩
    show (s.successors.tryAdd s.generation g x).1.entries = _
    rw [hadd.2, hadd.1, hentries]
    cases hok : !s.successors.closed && s.generation == g <;> rfl
  | take_successors out hphase => exact ⟨h.generation, nofun, fun _ => rfl, h.older_cons nofun⟩
  | increment hphase =>
    refine ⟨?_, nofun, h.shut, h.older_cons fun g heq => ?_⟩
    · show (s.generation + 1) % word = (increments events + 1) % word
      rw [h.generation, Nat.mod_add_mod]
    · cases heq
      exact h.generation
  | reset_successors hphase => exact ⟨h.generation, nofun, fun _ => rfl, h.older_cons nofun⟩

/-- A registration for an old generation is refused until the generation has come round. -/
theorem not_recently (h : Inv events s) : ¬Recently s.generation events := by
  intro hsome
  obtain ⟨newer, older, heq, hlt⟩ := hsome
  have hold := h.older newer _ older heq
  have hnew := h.generation
  rw [heq, increments_append, increments] at hnew
  unfold word at hlt hold hnew
  omega

end Inv

theorem Recorded.inv (h : Recorded events s) : Inv events s := by
  induction h with
  | initial => exact .initial
  | step _ hs ih => exact ih.step hs

/-- **The successor list is a faithful log** of each occupant's registrations, as long as a
generation has not come round again. -/
theorem successor_log (h : Recorded events s) : Faithful Recently events := by
  induction h with
  | initial => trivial
  | @step events e s s' h hs ih =>
    have hinv := h.inv
    cases hs with
    | take_successors out hphase => exact ⟨(hinv.occupied hphase).2, ih⟩
    | try_add_successor x g =>
      cases hok : (s.successors.tryAdd s.generation g x).2 with
      | false => exact ih
      | true =>
        obtain ⟨hopen, rfl⟩ := accepted hok
        refine ⟨fun hshut => ?_, hinv.not_recently, ih⟩
        cases hopen.symm.trans (hinv.shut hshut)
    | open_successors | increment | reset_successors => exact ih

/-- Seven registrations fill the inline entries and spill one, the take returns them all, and then nothing more is
registered: not with the list that was taken, nor for the task before with the list of the next. -/
def handedOver : List Event :=
  let h (k : ℕ) : TaskHandle := ⟨k, 0⟩
  [.try_add_successor (h 9) 1 true, .try_add_successor (h 8) 0 false, .open_successors, .reset_successors,
    .increment 0, .try_add_successor (h 7) 0 false, .take_successors ((List.range 7).map h)] ++
    ((List.range 7).map fun k => .try_add_successor (h k) 0 true).reverse ++ [.open_successors]

theorem recorded_handedOver : ∃ s, Recorded handedOver s := by
  have h : Recorded [.open_successors] _ := .step .initial (.open_successors rfl)
  have h := h.step (.try_add_successor ⟨0, 0⟩ 0)
  have h := h.step (.try_add_successor ⟨1, 0⟩ 0)
  have h := h.step (.try_add_successor ⟨2, 0⟩ 0)
  have h := h.step (.try_add_successor ⟨3, 0⟩ 0)
  have h := h.step (.try_add_successor ⟨4, 0⟩ 0)
  have h := h.step (.try_add_successor ⟨5, 0⟩ 0)
  have h := h.step (.try_add_successor ⟨6, 0⟩ 0)
  have h := h.step (.take_successors [] rfl)
  have h := h.step (.try_add_successor ⟨7, 0⟩ 0)
  have h := h.step (.increment (.inr rfl))
  have h := h.step (.reset_successors rfl)
  have h := h.step (.open_successors rfl)
  have h := h.step (.try_add_successor ⟨8, 0⟩ 0)
  have h := h.step (.try_add_successor ⟨9, 0⟩ 1)
  exact ⟨_, h⟩

theorem successor_log_handed_over : ∃ s, Recorded handedOver s ∧ Faithful Recently handedOver := by
  obtain ⟨s, h⟩ := recorded_handedOver
  exact ⟨s, h, successor_log h⟩

/-- So many tasks have been in the slot, one after the other, and the next has it. -/
theorem recorded_occupants (n : ℕ) : ∃ events s, Recorded events s ∧ s.phase = .occupied ∧
    s.successors.closed = false ∧ s.generation = n % word ∧ (0 < n → Ever 0 events) := by
  induction n with
  | zero => exact ⟨_, _, .step .initial (.open_successors rfl), rfl, rfl, rfl, nofun⟩
  | succ n ih =>
    obtain ⟨events, s, h, hphase, -, hgeneration, hever⟩ := ih
    have htake := h.step (.take_successors [] hphase)
    have hincrement := htake.step (.increment (.inr rfl))
    have hreset := hincrement.step (.reset_successors rfl)
    refine ⟨_, _, hreset.step (.open_successors rfl), rfl, rfl, ?_, fun _ => ?_⟩
    · show (s.generation + 1) % word = (n + 1) % word
      rw [hgeneration, Nat.mod_add_mod]
    · obtain rfl | hpos := Nat.eq_zero_or_pos n
      · have hzero : s.generation = 0 := hgeneration
        simp [Ever, hzero]
      · simp [Ever, show Event.increment 0 ∈ events from hever hpos]

/-- After `2 ^ 32` tasks the handle of the first is as good as that of the next. -/
theorem successor_log_wraps : ∃ events s, Recorded events s ∧ ¬Faithful Ever events := by
  obtain ⟨events, s, h, -, hopen, hgeneration, hever⟩ := recorded_occupants word
  rw [Nat.mod_self] at hgeneration
  refine ⟨_, _, h.step (.try_add_successor .none 0), fun hfaithful => ?_⟩
  have hok : (s.successors.tryAdd s.generation 0 .none).2 = true := by
    simp [Successors.tryAdd, hopen, hgeneration]
  rw [hok] at hfaithful
  exact hfaithful.2.1 (hever (by decide))

end Thunderbolt.Task.SuccessorLog
