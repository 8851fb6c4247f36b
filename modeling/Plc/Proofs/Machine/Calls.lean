import Plc.Proofs.Machine.Stack

/-! Calls in a run. What is pending behind a call that goes on was pending when the call began, and
since then the run has been that of the call alone. -/
namespace Plc.Machine

theorem saved_append (above pending : List Pending) :
    saved (above ++ pending) = saved above ++ saved pending := by
  induction above with
  | nil => rfl
  | cons p above ih =>
    cases p with
    | leaveCall inner => exact congrArg (inner :: ·) ih
    | _ => exact ih

def Config.Onto (c : Config) (pending : List Pending) : Prop :=
  ∃ above, c.pending = above ++ pending ∧ saved above = []

theorem Config.onto_self (c : Config) : c.Onto c.pending := ⟨[], rfl, rfl⟩

theorem onto_push (focus : Focus) (store : Store) {p : Pending} (pending : List Pending)
    (stays : p.leaves = false) : Config.Onto ⟨focus, p :: pending, store⟩ pending :=
  ⟨[p], rfl, saved_cons stays []⟩

theorem Config.Over.exists_append {c : Config} {pending : List Pending} (lies : c.Over pending) :
    ∃ dropped, c.pending = dropped ++ pending := by
  cases lies with
  | all => exact ⟨[], rfl⟩
  | below => exact ⟨[_], rfl⟩

/-- A step that is no call takes off at most the first of what is pending, and begins no call. -/
theorem Config.exists_onto_of_step {c next : Config} (stepped : step? c = some next)
    (noCall : ∀ f arguments, c.focus ≠ .call f arguments) :
    ∃ dropped pending, c.pending = dropped ++ pending ∧ next.Onto pending := by
  have going {next : Config} {pending : List Pending} (lies : c.Over pending)
      (onto : next.Onto pending) :
      ∃ dropped pending, c.pending = dropped ++ pending ∧ next.Onto pending := by
    obtain ⟨dropped, same⟩ := lies.exists_append
    exact ⟨dropped, pending, same, onto⟩
  cases step?_eq_some_iff.mp stepped with
  | evaluate evaluates =>
    rcases evaluates.over with lies | ⟨p, rest, stays, lies, rfl⟩
    · exact going lies (onto_self _)
    · exact going lies (onto_push _ _ _ stays)
  | execute executes =>
    rcases executes.over with lies | ⟨p, rest, stays, lies, rfl⟩
    · exact going lies (onto_self _)
    · exact going lies (onto_push _ _ _ stays)
  | drop drops => exact going (.below drops.leaves) (onto_self _)
  | fail fails => exact going fails.over (onto_self _)
  | allocate gathers => exact going gathers.over (onto_self _)
  | print calls => exact going calls.over (onto_self _)
  | change changes => exact going changes.over (onto_self _)
  | define => exact going .all (onto_self _)
  | enter => exact going .all ⟨[.leaveBlock], rfl, rfl⟩
  | leaveBlock | leaveCall => exact ⟨[_], _, rfl, onto_self _⟩
  | call => exact absurd rfl (noCall _ _)

def Config.alone (c : Config) : Config := ⟨c.focus, [], c.store⟩

theorem Config.below_alone (c : Config) : c.alone.below c.pending = c := rfl

/-- A call begins, with these frames of the caller and this pending behind it. -/
structure Config.Begins (c : Config) (inner : List (Frame Binding Callable))
    (pending : List Pending) : Prop where
  call : ∃ f arguments, c.focus = .call f arguments
  inner : c.store.scope.inner = inner
  pending : c.pending = pending

/-- A call has begun before a point of a run, and the run has been that of the call alone since. -/
def Config.Within (c : Config) (n : Nat) (above : List Pending)
    (inner : List (Frame Binding Callable)) (pending : List Pending) : Prop :=
  ∃ m k, n = m + k ∧ (c.after m).Begins inner pending ∧ (c.after m).alone.after k =
    ⟨(c.after n).focus, above ++ [.leaveCall inner], (c.after n).store⟩

variable {c : Config} {n : Nat} {above above' pending : List Pending}
  {inner : List (Frame Binding Callable)}

/-- The call goes on where a step changes only what is above the end of it. -/
theorem Config.Within.next (within : c.Within n above inner pending)
    (before : (c.after n).pending = above ++ .leaveCall inner :: pending)
    (behind : (c.after (n + 1)).pending = above' ++ .leaveCall inner :: pending) :
    c.Within (n + 1) above' inner pending := by
  obtain ⟨m, k, rfl, begins, alone⟩ := within
  refine ⟨m, k + 1, rfl, begins, ?_⟩
  have same : ((c.after m).alone.after k).below pending = c.after (m + k) := by
    rw [alone, Config.below, List.append_assoc, List.singleton_append, ← before]
  cases stepped : step? ((c.after m).alone.after k) with
  | none =>
    have empty := pending_eq_nil_of_stopped stepped
    rw [alone] at empty
    exact absurd empty (List.append_ne_nil_of_right_ne_nil _ (List.cons_ne_nil _ _))
  | some next =>
    have lifted := step?_below pending stepped
    rw [same] at lifted
    have reached : c.after (m + k + 1) = next.below pending := Config.next_eq lifted
    have top : next.pending = above' ++ [.leaveCall inner] := by
      have same : next.pending ++ pending = above' ++ [.leaveCall inner] ++ pending := by
        rw [List.append_assoc, List.singleton_append, ← behind, reached, Config.below]
      exact List.append_cancel_right same
    calc (c.after m).alone.after (k + 1)
      _ = next := Config.next_eq stepped
      _ = ⟨next.focus, above' ++ [.leaveCall inner], next.store⟩ := by rw [← top]
      _ = _ := by rw [reached, Config.below]

/-- The end of a call stands in what is left of the pending, below what a step has put on top. -/
theorem Config.Onto.exists_append {next : Config} (onto : next.Onto pending)
    {rest : List Pending} (behind : next.pending = above ++ .leaveCall inner :: rest) :
    ∃ others, pending = others ++ .leaveCall inner :: rest := by
  obtain ⟨top, same, plain⟩ := onto
  rw [same] at behind
  rcases List.append_eq_append_iff.mp behind with ⟨others, _, here⟩ | ⟨others, begun, here⟩
  · exact ⟨others, here⟩
  · cases others with
    | nil => exact ⟨[], here.symm⟩
    | cons p others =>
      obtain ⟨rfl, _⟩ := List.cons.inj here
      rw [begun, saved_append] at plain
      exact absurd plain (List.append_ne_nil_of_right_ne_nil _ (List.cons_ne_nil _ _))

/-- The end of a call that is pending behind a step was pending before it, or the call begins. -/
theorem Config.pending_or_begins_of_step {next : Config} (stepped : step? c = some next)
    (behind : next.pending = above ++ .leaveCall inner :: pending) :
    (∃ others, c.pending = others ++ .leaveCall inner :: pending) ∨
      c.Begins inner pending ∧
        c.alone.next = ⟨next.focus, above ++ [.leaveCall inner], next.store⟩ := by
  by_cases call : ∃ f arguments, c.focus = .call f arguments
  · obtain ⟨_, outer, store⟩ := c
    obtain ⟨f, arguments, rfl⟩ := call
    have alone : Config.next ⟨.call f arguments, [], store⟩ = callBody store [] f arguments :=
      Config.next_eq rfl
    obtain rfl : callBody store outer f arguments = next := Option.some.inj stepped
    rw [Config.alone, alone]
    rw [callBody] at behind ⊢
    split at behind
    · exact .inl ⟨above, behind⟩
    · rename_i frame bound
      cases above with
      | nil =>
        obtain ⟨top, rfl⟩ := List.cons.inj behind
        obtain rfl := Pending.leaveCall.inj top
        rw [callBody, bound]
        exact .inr ⟨⟨⟨f, arguments, rfl⟩, rfl, rfl⟩, rfl⟩
      | cons p above => exact .inl ⟨above, (List.cons.inj behind).2⟩
  · obtain ⟨dropped, rest, before, onto⟩ :=
      Config.exists_onto_of_step stepped fun f arguments focus => call ⟨f, arguments, focus⟩
    obtain ⟨others, same⟩ := onto.exists_append behind
    exact .inl ⟨dropped ++ others, by rw [before, same, List.append_assoc]⟩

/-- In a run that begins outside all calls, every end of a call that is pending is that of a call
that has begun, and has run alone since. -/
theorem Config.within_of_pending (outside : saved c.pending = []) (n : Nat)
    (behind : (c.after n).pending = above ++ .leaveCall inner :: pending) :
    c.Within n above inner pending := by
  induction n generalizing above with
  | zero =>
    change c.pending = _ at behind
    rw [behind, saved_append] at outside
    exact absurd outside (List.append_ne_nil_of_right_ne_nil _ (List.cons_ne_nil _ _))
  | succ n ih =>
    cases stepped : step? (c.after n) with
    | none =>
      have empty := pending_eq_nil_of_stopped stepped
      have stays : c.after (n + 1) = c.after n := by rw [after, Config.next, stepped]; rfl
      rw [stays, empty] at behind
      exact absurd behind.symm (List.append_ne_nil_of_right_ne_nil _ (List.cons_ne_nil _ _))
    | some next =>
      have reached : c.after (n + 1) = next := Config.next_eq stepped
      have top : next.pending = above ++ .leaveCall inner :: pending := reached ▸ behind
      rcases Config.pending_or_begins_of_step stepped top with ⟨others, before⟩ | ⟨begins, alone⟩
      · exact (ih before).next before behind
      · refine ⟨n, 1, rfl, begins, ?_⟩
        rw [reached]
        exact alone

end Plc.Machine
