import Thunderbolt.Runtime.DependencyOrder

/-! What the caller of `submit_after` knows.

Inside the call the program counter is about one submission (`At`). When it returns, the
handle is the one issued for the submission, or its body has ended already (`Known`). With a
known handle among its dependencies a submission is behind the one the handle is for
(`Behind`), however often the slot is used again. -/
namespace Thunderbolt.Runtime.Lifecycle
open Concurrent

variable {Call : Type} [DecidableEq Call] {cfg : PoolConfig} {a : Act Call} {s s' : State Call}
  {c : Call} {t u : ℕ} {x : TaskHandle}

/-! ### Inside the call -/

/-- The submission that `submit` or `submit_after` has been called for. -/
def Pc.inside : Pc Call → Option ℕ
  | acquiring u false | opening u _ false | creating u _ | publishing u _ | holding u _ | counting u _
  | registering u _ _ | adding u _ _ | refused u _ _ | enqueueing u _ | awaiting u _ | inlining u
  | inlined u | retiring u => some u
  | asking o _ _ | reading o _ _ | rechecking o _ _ _ | answered o _ _ _ => o.map Prod.fst
  | _ => none

/-- The call is inside `submit_after`, for the submission `t`. -/
structure At (s : State Call) (c : Call) (t : ℕ) : Prop where
  inside : (s.pc c).inside = some t
  retiring : s.pc c = .retiring t → (s.sub t).ended = true

/-- `x` was returned by the call that made the submission `t`. -/
def Known (s : State Call) (x : TaskHandle) (t : ℕ) : Prop :=
  (s.sub t).ended = true ∨ ∃ e, IssuedAt s x t e

omit [DecidableEq Call] in
theorem Of.known (h : Of s x t) : Known s x t := .inr h

namespace Inv

/-- The call goes on, or returns with what is known of its submission. -/
theorem at_step (h : Inv cfg s) (hs : Step cfg a s s') (hat : At s a.call t) :
    At s' a.call t ∨ s'.pc a.call = .idle ∧ Known s' ((s.pc a.call).handle) t := by
  have hin : ∀ {p : Pc Call}, s.pc a.call = p → p.inside = some t := fun hp => hp ▸ hat.inside
  have hgo : ∀ {r : State Call} {p : Pc Call}, p.inside = some t → (∀ u, p ≠ .retiring u) →
      At (r.pcAt a.call p) a.call t := by
    intro r p hp hne
    exact ⟨by simpa using hp, fun heq => absurd (by simpa using heq) (hne t)⟩
  cases hs
  case acquire em i _ hpc _ =>
    have hin := hin hpc
    cases em
    · exact .inl (hgo hin (by simp))
    · cases hin
  case exhausted em hpc =>
    have hin := hin hpc
    cases em
    · rw [exhausted, if_neg Bool.false_ne_true]
      split_ifs
      · exact .inl (hgo hin (by simp))
      · exact .inl (hgo hin (by simp))
    · cases hin
  case open_successors em hpc =>
    have hin := hin hpc
    cases em
    · exact .inl (hgo hin (by simp))
    · cases hin
  case create hpc =>
    have hin := hin hpc
    split_ifs
    · exact .inl (hgo hin (by simp))
    · exact .inl (hgo hin (by simp))
  case publish hpc | storeWaiting hpc | storePending hpc | awaited hpc | run_inline hpc =>
    have hin := hin hpc
    exact .inl (hgo hin (by simp))
  case stale hpc _ _ | lookup hpc _ _ | refuse hpc _ _ =>
    have hin := hin hpc
    exact .inl (hgo hin (by simp))
  case add hpc _ _ | settle hpc | unguardLast hpc _ | await hpc _ =>
    have hin := hin hpc
    exact .inl (hgo hin (by simp))
  case inlineEnds hpc =>
    have hin := hin hpc
    cases hin
    exact .inl ⟨by simp [Pc.inside], fun _ => by simp⟩
  case askStale hpc _ | askFound hpc _ | read hpc | recheckStale hpc _ | recheck hpc _ =>
    have hin := hin hpc
    exact .inl (hgo hin (by simp))
  case answer o _ _ r hpc =>
    have hin := hin hpc
    cases o with
    | none => cases hin
    | some q => exact .inl (hgo hin (by simp [returned]))
  case enqueue_ready x hpc =>
    have hhandle : (s.pc _).handle = x := congrArg Pc.handle hpc
    obtain ⟨_, hof⟩ := h.at_pc hpc
    cases hin hpc
    refine .inr ⟨Function.update_self .., ?_⟩
    rw [Act.call, hhandle]
    exact (of_issued hof (by simp)).known
  case unguard x hpc _ =>
    have hhandle : (s.pc _).handle = x := congrArg Pc.handle hpc
    obtain ⟨_, hof, _⟩ := h.at_pc hpc
    cases hin hpc
    refine .inr ⟨Function.update_self .., ?_⟩
    rw [Act.call, hhandle]
    exact (of_issued hof (by simp)).known
  case retire hpc =>
    have hend := hat.retiring
    cases hin hpc
    refine .inr ⟨Function.update_self .., .inl ?_⟩
    simpa using hend hpc
  case submit hpc | submit_emplace hpc | construct hpc | constructInline hpc | constructThrows hpc |
      constructInlineThrows hpc | exchange hpc | ends hpc | take_successors hpc | complete hpc |
      destroy hpc | reenter hpc | bump hpc | reset_successors hpc | storeFree hpc | list hpc |
      looped hpc | drive hpc | pass hpc | ask hpc =>
    cases hin hpc
  case dequeue hpc _ | execute hpc _ | executeStale hpc _ | call hpc _ | dependent hpc _ |
      dependentStale hpc _ | subtract hpc _ | subtractLast hpc _ =>
    cases hin hpc

/-- Others leave the call alone. -/
theorem at_other (h : Inv cfg s) (hs : Step cfg a s s') (hc : c ≠ a.call) (ht : t < s.submitted)
    (hat : At s c t) : At s' c t where
  inside := by
    rw [pc_other hs hc]
    exact hat.inside
  retiring hpc := by
    rw [pc_other hs hc] at hpc
    exact h.ended_step hs ht (hat.retiring hpc)

end Inv

/-! ### What is known stays known -/

theorem Known.step (hx : Known s x t) (h : Inv cfg s) (hs : Step cfg a s s') (ht : t < s.submitted) :
    Known s' x t := by
  obtain hend | ⟨e, hx⟩ := hx
  · exact .inl (h.ended_step hs ht hend)
  · exact .inr ⟨e, hx.step h hs⟩

/-- Until the body has ended the slot has not been released: no generation comes round. -/
theorem IssuedAt.ended_or_current {e : ℕ} (hx : IssuedAt s x t e) (h : Inv cfg s) (r : Recorded cfg s) :
    (s.sub t).ended = true ∨ (s.slots x.index).releases = e := by
  obtain ⟨_, _, he⟩ | ⟨_, hlt⟩ := h.issued t x.index e hx.1
  · exact .inr he.symm
  · exact .inl (r.finished t (hx.outlived h r hlt)).2

/-- Entry `k` of the dependencies of `t` is a handle of `u`. -/
def Behind (s : State Call) (t k u : ℕ) : Prop :=
  (s.sub u).ended = true ∨ ∃ d e, Ordered s t k d u e

namespace Behind
variable {k : ℕ}

omit [DecidableEq Call] in
theorem started (hb : Behind s t k u) (hpos : 0 < (s.sub t).invoked) : (s.sub u).ended = true := by
  obtain hend | ⟨d, e, o⟩ := hb
  · exact hend
  · exact o.started hpos

theorem step (hb : Behind s t k u) (h : Inv cfg s) (r : Recorded cfg s) (z : Closed s)
    (hs : Step cfg a s s') (ht : t < s.submitted) (hu : u < s.submitted) : Behind s' t k u := by
  obtain hend | ⟨d, e, o⟩ := hb
  · exact .inl (h.ended_step hs hu hend)
  · obtain hend | hcurrent := o.issued.ended_or_current h r
    · exact .inl (h.ended_step hs hu hend)
    · exact .inr ⟨d, e, o.step h r z hs ht (by rw [hcurrent]; unfold word; omega)⟩

/-- A known handle was passed to the submission that has just been counted. -/
theorem of_known (h : Inv cfg s) (hx : Known s x u) (hpc : s.pc c = .acquiring t false)
    (hd : (s.sub t).dependencies[k]? = some x) : Behind s t k u := by
  obtain hend | ⟨e, hx⟩ := hx
  · exact .inl hend
  · exact .inr ⟨x, e, .of_acquiring h hpc hd hx⟩

end Behind

/-- What a plain submission makes of the state. -/
theorem submit_inv {deps : List TaskHandle} (hs : Step cfg (.submit c deps) s s')
    (hpc : s'.pc c = .acquiring s.submitted false) : s'.submitted = s.submitted + 1 ∧
      (s'.sub s.submitted).dependencies = deps := by
  cases hs
  case submit => exact ⟨rfl, by simp [Submission.enter]⟩
  case submit_emplace => simp at hpc

omit [DecidableEq Call] in
theorem Advance.ended_invoked {x y : Submission Call} (h : Advance c x y) (hx : Logged x)
    (hold : x.ended = true → x.invoked = 1) (hy : y.ended = true) : y.invoked = 1 := by
  cases h
  case call hst =>
    have hzero : x.invoked = 0 := by obtain hst | hst := hst <;> simpa [Logged, hst] using hx
    show x.invoked + 1 = 1
    omega
  case ends hst => simpa [Logged, hst] using hx
  case endsInline hst _ => simpa [Logged, hst] using hx
  all_goals exact hold hy

/-- A body that has ended was called once. -/
theorem invoked_of_ended (h : Reachable (sized Call cfg) s) (hend : (s.sub t).ended = true) :
    (s.sub t).invoked = 1 := by
  induction h with
  | initial hs =>
    subst hs
    cases hend
  | step h hs ih =>
    have hinv := Inv.reachable h
    obtain heq | hadv | ⟨_, _, deps, _, heq⟩ := hinv.advance hs.1 t
    · rw [heq] at hend ⊢
      exact ih hend
    · have ht : t < _ := Nat.lt_of_not_le fun hle => by
        have hcounts := hadv.counts
        rw [(hinv.fresh t hle).1] at hcounts
        cases hcounts
      exact hadv.ended_invoked (hinv.logged t ht) ih hend
    · rw [heq] at hend
      cases hend

/-! ### A query -/

/-- The call asks about `x`, which is known to be of `t`. -/
structure Asks (s : State Call) (c : Call) (x : TaskHandle) (t : ℕ) : Prop where
  asked : (s.pc c).asked = some x
  awaits : (s.pc c).awaits = none
  answer : (s.sub t).ended = true ∨ ∃ e, IssuedAt s x t e ∧ Answer s x t e (s.pc c)

namespace Asks

theorem answer_step (q : Asks s c x t) (h : Inv cfg s) (r : Recorded cfg s) (hs : Step cfg a s s')
    (ht : t < s.submitted) :
    (s'.sub t).ended = true ∨ ∃ e, IssuedAt s' x t e ∧ Answer s' x t e (s'.pc c) := by
  obtain hend | ⟨e, hx, hans⟩ := q.answer
  · exact .inl (h.ended_step hs ht hend)
  · obtain hend | hcurrent := hx.ended_or_current h r
    · exact .inl (h.ended_step hs ht hend)
    · exact .inr ⟨e, hx.step h hs, hx.answer_step h r hs (by rw [hcurrent]; unfold word; omega) c hans⟩

theorem other (q : Asks s c x t) (h : Inv cfg s) (r : Recorded cfg s) (hs : Step cfg a s s')
    (hc : c ≠ a.call) (ht : t < s.submitted) : Asks s' c x t where
  asked := by
    rw [Inv.pc_other hs hc]
    exact q.asked
  awaits := by
    rw [Inv.pc_other hs hc]
    exact q.awaits
  answer := q.answer_step h r hs ht

/-- The call goes on asking, or has its answer. -/
theorem own (q : Asks s a.call x t) (h : Inv cfg s) (r : Recorded cfg s) (hs : Step cfg a s s')
    (ht : t < s.submitted) : Asks s' a.call x t ∨ s'.pc a.call = .idle := by
  have hanswer := q.answer_step h r hs ht
  have hasked : ∀ {p : Pc Call}, s.pc a.call = p → p.asked = some x := fun hp => hp ▸ q.asked
  have hawaits : ∀ {p : Pc Call}, s.pc a.call = p → p.awaits = none := fun hp => hp ▸ q.awaits
  have hgo : ∀ {p : Pc Call}, s'.pc a.call = p → p.asked = some x → p.awaits = none →
      Asks s' a.call x t := by
    intro p hp hx ho
    exact ⟨hp ▸ hx, hp ▸ ho, hanswer⟩
  cases hs
  case askStale hpc _ | askFound hpc _ | read hpc | recheckStale hpc _ | recheck hpc _ =>
    have hx := hasked hpc
    have ho := hawaits hpc
    exact .inl (hgo (Function.update_self ..) hx ho)
  case answer o _ _ _ hpc =>
    cases hawaits hpc
    exact .inr (Function.update_self ..)
  case submit hpc | submit_emplace hpc | exhausted hpc | open_successors hpc | create hpc |
      construct hpc | constructInline hpc | constructThrows hpc | constructInlineThrows hpc |
      publish hpc | enqueue_ready hpc | storeWaiting hpc | storePending hpc | settle hpc | awaited hpc |
      run_inline hpc | inlineEnds hpc | retire hpc | exchange hpc | ends hpc | take_successors hpc |
      complete hpc | destroy hpc | reenter hpc | bump hpc | reset_successors hpc | storeFree hpc |
      list hpc | looped hpc | drive hpc | pass hpc | ask hpc =>
    cases hasked hpc
  case acquire hpc _ | unguardLast hpc _ | unguard hpc _ | await hpc _ | dequeue hpc _ |
      execute hpc _ | executeStale hpc _ | call hpc _ | dependent hpc _ | dependentStale hpc _ |
      subtract hpc _ | subtractLast hpc _ =>
    cases hasked hpc
  case stale hpc _ _ | lookup hpc _ _ | add hpc _ _ | refuse hpc _ _ => cases hasked hpc

omit [DecidableEq Call] in
/-- A yes is right. -/
theorem answered {o : Option (ℕ × ℕ)} {y : TaskHandle} {b : ℕ → Bool} (q : Asks s c x t)
    (r : Recorded cfg s) (hpc : s.pc c = .answered o y b true) : (s.sub t).ended = true := by
  obtain hend | ⟨e, hx, hans⟩ := q.answer
  · exact hend
  · have hasked := q.asked
    rw [hpc] at hans hasked
    cases hasked
    exact (r.finished t ((hans rfl).1 rfl)).2

end Asks
end Thunderbolt.Runtime.Lifecycle
