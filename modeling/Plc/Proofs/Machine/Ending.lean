import Plc.Proofs.Machine.Trace

/-! Where a run ends, if it does. What runs with more pending below comes to its own end first, and
goes on from there. -/
namespace Plc.Machine

variable {c next last : Config}

def Config.Ends (c last : Config) : Prop := ∃ limit, run limit c = some last

theorem Config.Ends.stopped (ends : c.Ends last) : step? last = none := by
  obtain ⟨_, ran⟩ := ends
  exact (exists_after_of_run ran).2

theorem Config.Ends.empty (ends : c.Ends last) : last.pending = [] :=
  pending_eq_nil_of_stopped ends.stopped

theorem run_of_step {limit : Nat} (stepped : step? c = some next) (ran : run limit c = some last) :
    ∃ fewer < limit, run fewer next = some last := by
  cases limit with
  | zero => cases ran
  | succ limit =>
    rw [run, stepped] at ran
    exact ⟨limit, Nat.lt_succ_self limit, ran⟩

theorem ends_of_step (stepped : step? c = some next) : c.Ends last ↔ next.Ends last := by
  constructor
  · rintro ⟨limit, ran⟩
    obtain ⟨fewer, _, onward⟩ := run_of_step stepped ran
    exact ⟨fewer, onward⟩
  · rintro ⟨limit, ran⟩
    exact ⟨limit + 1, by rw [run, stepped]; exact ran⟩

theorem ends_of_stopped (stopped : step? c = none) : c.Ends last ↔ last = c := by
  constructor
  · rintro ⟨limit, ran⟩
    cases limit with
    | zero => cases ran
    | succ limit =>
      rw [run, stopped] at ran
      exact (Option.some.inj ran).symm
  · rintro rfl
    exact ⟨1, by rw [run, stopped]⟩

theorem run_mono {limit more : Nat} (ran : run limit c = some last) (enough : limit ≤ more) :
    run more c = some last := by
  induction limit generalizing c more with
  | zero => cases ran
  | succ limit ih =>
    obtain ⟨more, rfl⟩ := Nat.exists_eq_succ_of_ne_zero (Nat.ne_zero_of_lt enough)
    rw [run] at ran ⊢
    split at ran
    · exact ran
    · exact ih ran (Nat.le_of_succ_le_succ enough)

theorem run_below (rest : List Pending) {limit : Nat} (ran : run limit (c.below rest) = some last) :
    ∃ mid onward, run limit c = some mid ∧ onward ≤ limit ∧
      run onward (mid.below rest) = some last := by
  induction limit generalizing c with
  | zero => cases ran
  | succ limit ih =>
    cases stepped : step? c with
    | none =>
      refine ⟨c, limit + 1, ?_, Nat.le_refl _, ran⟩
      rw [run, stepped]
    | some next =>
      rw [run, step?_below rest stepped] at ran
      obtain ⟨mid, onward, first, fewer, second⟩ := ih ran
      refine ⟨mid, onward, ?_, Nat.le_succ_of_le fewer, second⟩
      rw [run, stepped]
      exact first

theorem after_of_ends {focus : Focus} {store : Store} (ends : Config.Ends ⟨focus, [], store⟩ last)
    (rest : List Pending) :
    ∃ n, Config.after ⟨focus, rest, store⟩ n = ⟨last.focus, rest, last.store⟩ := by
  have same : last.below rest = ⟨last.focus, rest, last.store⟩ := by
    rw [Config.below, ends.empty, List.nil_append]
  obtain ⟨_, ran⟩ := ends
  exact same ▸ after_below_of_run ran rest

theorem ends_below (rest : List Pending) :
    (c.below rest).Ends last ↔ ∃ mid, c.Ends mid ∧ (mid.below rest).Ends last := by
  constructor
  · rintro ⟨limit, ran⟩
    obtain ⟨mid, onward, first, _, second⟩ := run_below rest ran
    exact ⟨mid, ⟨limit, first⟩, onward, second⟩
  · rintro ⟨mid, ⟨limit, ran⟩, onward⟩
    induction limit generalizing c with
    | zero => cases ran
    | succ limit ih =>
      cases stepped : step? c with
      | none =>
        obtain rfl := (ends_of_stopped stepped).mp ⟨limit + 1, ran⟩
        exact onward
      | some next =>
        rw [run, stepped] at ran
        exact (ends_of_step (step?_below rest stepped)).mpr (ih ran)

/-- A step takes off no more than the first of what is pending. -/
theorem length_pending_of_step (stepped : step? c = some next) :
    c.pending.length ≤ next.pending.length + 1 := by
  obtain ⟨focus, pending, store⟩ := c
  cases pending with
  | nil => exact Nat.zero_le _
  | cons p pending =>
    cases alone : step? ⟨focus, [p], store⟩ with
    | none => exact absurd (pending_eq_nil_of_stopped alone) (List.cons_ne_nil _ _)
    | some top =>
      obtain rfl := Option.some.inj ((step?_below pending alone).symm.trans stepped)
      simp [Config.below]

theorem length_pending_lt_of_run {limit : Nat} (ran : run limit c = some last) :
    c.pending.length < limit := by
  induction limit generalizing c with
  | zero => cases ran
  | succ limit ih =>
    cases stepped : step? c with
    | none =>
      rw [pending_eq_nil_of_stopped stepped]
      exact Nat.succ_pos limit
    | some next =>
      rw [run, stepped] at ran
      exact Nat.lt_succ_of_le (Nat.le_trans (length_pending_of_step stepped) (ih ran))

/-- Behind a fault nothing is done but that frames are left. -/
theorem exists_run_failing (fault : Fault) (store : Store) {pending : List Pending} {limit : Nat}
    (enough : pending.length < limit) : ∃ inner, run limit ⟨.failing fault, pending, store⟩ =
      some ⟨.failing fault, [], store.withInner inner⟩ := by
  obtain ⟨limit, rfl⟩ := Nat.exists_eq_succ_of_ne_zero (Nat.ne_zero_of_lt enough)
  induction pending generalizing limit store with
  | nil => exact ⟨store.scope.inner, rfl⟩
  | cons p pending ih =>
    obtain ⟨limit, rfl⟩ := Nat.exists_eq_succ_of_ne_zero
      (Nat.ne_zero_of_lt (Nat.lt_of_succ_lt_succ enough))
    have further (next : Store) := ih next limit (Nat.lt_of_succ_lt_succ enough)
    cases p with
    | leaveBlock => exact further store.leave
    | leaveCall inner => exact further (store.withInner inner)
    | _ => exact further store

end Plc.Machine
