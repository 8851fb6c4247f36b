import Plc.Proofs.Java.Locals
import Plc.Proofs.Java.Stretches

/-! Return statements in Java. Where nothing stands behind a return statement in the source,
something may do so in the code, for each case with a value ends in a break. -/
namespace Plc

open Java (Stretch Follows)

/-- Whether Java leaves the method at a statement: at a return statement, which is also what it sees
where a name at the front reads `return`. -/
def Stmt.leaves : Stmt → Bool
  | .ret _ => true
  | .expression value => value.toJava.returns
  | .assign receiver _ => receiver.toJava.returns
  | .declare .. | .branch .. | .switch .. | .loop .. => false

def Stmt.cases : Stmt → List Case
  | .switch _ cases => cases
  | _ => []

namespace Function

def blocks (f : Function) : List (List Stmt) :=
  f.body :: (Stmt.allWithin f.body).flatMap Stmt.bodies

def cases (f : Function) : List Case := (Stmt.allWithin f.body).flatMap Stmt.cases

def LeavesLast (f : Function) : Prop := ∀ ss ∈ f.blocks, ∀ s ∈ ss.dropLast, s.leaves = false

def CasesStay (f : Function) : Prop :=
  ∀ c ∈ f.cases, c.value?.isSome → ∀ s ∈ c.body.getLast?, s.leaves = false

instance (f : Function) : Decidable f.LeavesLast :=
  inferInstanceAs (Decidable (∀ ss ∈ f.blocks, ∀ s ∈ ss.dropLast, s.leaves = false))

instance (f : Function) : Decidable f.CasesStay :=
  inferInstanceAs (Decidable (∀ c ∈ f.cases, c.value?.isSome →
    ∀ s ∈ c.body.getLast?, s.leaves = false))

end Function

section Chains

variable {next : Stretch} {rest : List Stretch}

def Stmt.Calm (s : Stmt) : Prop :=
  (∀ ss ∈ s.bodies, ∀ x ∈ ss.dropLast, x.leaves = false) ∧
    ∀ c ∈ s.cases, c.value?.isSome → ∀ x ∈ c.body.getLast?, x.leaves = false

def Case.Calm (c : Case) : Prop :=
  (∀ x ∈ c.body.dropLast, x.leaves = false) ∧
    (c.value?.isSome → ∀ x ∈ c.body.getLast?, x.leaves = false)

theorem chain_statement {returns : Bool} :
    (.statement returns :: next :: rest).IsChain Follows ↔
      (returns = true → next.Ends) ∧ (next :: rest).IsChain Follows := by
  rw [List.isChain_cons_cons, Follows, Stretch.statement.injEq]

theorem chain_other {here : Stretch} (other : here ≠ .statement true) :
    (here :: rest).IsChain Follows ↔ rest.IsChain Follows := by
  cases rest with
  | nil => exact iff_of_true (.singleton here) .nil
  | cons next rest =>
    rw [List.isChain_cons_cons]
    exact and_iff_right fun same => absurd same other

theorem allStretches_append (ss more : List Java.Stmt) :
    Java.Stmt.allStretches (ss ++ more) =
      Java.Stmt.allStretches ss ++ Java.Stmt.allStretches more := by
  induction ss with
  | nil => rfl
  | cons s ss ih =>
    rw [List.cons_append, Java.Stmt.allStretches, Java.Stmt.allStretches, ih, List.append_assoc]

/-- Another statement is no end. -/
theorem exists_stretches (s : Java.Stmt) :
    ∃ first more, s.stretches = first :: more ∧ ¬ first.Ends := by
  have plain : ∀ {returns : Bool}, ¬ (Stretch.statement returns).Ends := by
    rintro _ (same | same) <;> cases same
  cases s with
  | branch | switch | loop => exact ⟨_, _, rfl, by decide⟩
  | _ => exact ⟨_, _, rfl, plain⟩

def Tidy (ss : List Stmt) : Prop :=
  (∀ x ∈ ss.dropLast, x.leaves = false) ∧ ∀ x ∈ Stmt.allWithin ss, x.Calm

theorem tidy_nil : Tidy [] := ⟨List.forall_mem_nil _, List.forall_mem_nil _⟩

/-- Statements between braces. -/
theorem chain_braces {ss : List Stmt}
    (inside : (Java.Stmt.allStretches (Stmt.allToJava ss) ++ .closing :: rest).IsChain Follows ↔
      (∀ x ∈ ss.getLast?, x.leaves = true → Stretch.closing.Ends) ∧ Tidy ss ∧
        (.closing :: rest).IsChain Follows) :
    List.IsChain Follows
        (.opening :: Java.Stmt.allStretches (Stmt.allToJava ss) ++ [.closing] ++ rest) ↔
      Tidy ss ∧ rest.IsChain Follows := by
  have ends : ∀ x ∈ ss.getLast?, x.leaves = true → Stretch.closing.Ends :=
    fun _ _ _ => .inl rfl
  rw [List.append_assoc, List.singleton_append, List.cons_append, chain_other (by decide), inside,
    chain_other (by decide), and_iff_right ends]

/-- A statement with no others inside. -/
theorem chain_simple {s : Stmt} (one : s.toJava.stretches = [.statement s.leaves])
    (alone : s.within = [s]) (bodies : s.bodies = []) (cases : s.cases = []) :
    (s.toJava.stretches ++ next :: rest).IsChain Follows ↔
      (s.leaves = true → next.Ends) ∧ (∀ x ∈ s.within, x.Calm) ∧
        (next :: rest).IsChain Follows := by
  have calm : s.Calm := by
    rw [Stmt.Calm, bodies, cases]
    exact ⟨nofun, nofun⟩
  have here : ∀ x ∈ s.within, x.Calm := by
    rw [alone]
    exact List.forall_mem_singleton.mpr calm
  rw [one, List.singleton_append, chain_statement, and_iff_right here]

mutual

theorem chain_stretches (s : Stmt) (next : Stretch) (rest : List Stretch) :
    (s.toJava.stretches ++ next :: rest).IsChain Follows ↔
      (s.leaves = true → next.Ends) ∧ (∀ x ∈ s.within, x.Calm) ∧
        (next :: rest).IsChain Follows := by
  cases s with
  | expression | declare | assign | ret => exact chain_simple rfl rfl rfl rfl
  | branch condition thenBody elseBody =>
    have calm : (Stmt.branch condition thenBody elseBody).Calm ↔
        (∀ x ∈ thenBody.dropLast, x.leaves = false) ∧
          ∀ x ∈ elseBody.dropLast, x.leaves = false := by
      simp [Stmt.Calm, Stmt.bodies, Stmt.cases]
    have both : ((Stmt.branch condition thenBody elseBody).Calm ∧
        (∀ x ∈ Stmt.allWithin thenBody, x.Calm) ∧ ∀ x ∈ Stmt.allWithin elseBody, x.Calm) ↔
          Tidy thenBody ∧ Tidy elseBody := by
      rw [calm, Tidy, Tidy]
      tauto
    -- Behind the first body stand the stretches of the second one.
    have first (rest : List Stretch) := chain_braces (chain_allStretches thenBody .closing rest)
    have second := chain_braces (chain_allStretches elseBody .closing (next :: rest))
    rw [Stmt.within, List.forall_mem_cons, List.forall_mem_append, both, Stmt.leaves, and_assoc,
      ← second, and_iff_right nofun]
    -- An empty else part has no braces.
    cases elseBody with
    | nil =>
      rw [second, and_iff_right tidy_nil, ← first]
      simp [Stmt.toJava, Stmt.allToJava, Java.Stmt.stretches]
    | cons s ss =>
      rw [← first]
      simp [Stmt.toJava, Stmt.allToJava, Java.Stmt.stretches]
  | switch condition cs =>
    have calm : (Stmt.switch condition cs).Calm ↔ ∀ c ∈ cs, c.Calm := by
      simp [Stmt.Calm, Stmt.bodies, Stmt.cases, Case.Calm, forall_and]
    have inside := chain_allCases cs .closing (.inl rfl) (next :: rest)
    have closed : List.IsChain Follows (.closing :: next :: rest) ↔
        (next :: rest).IsChain Follows := chain_other (by decide)
    rw [closed] at inside
    rw [Stmt.within, List.forall_mem_cons, calm, and_assoc, Stmt.leaves, and_iff_right nofun,
      ← inside, Stmt.toJava, Java.Stmt.stretches, List.append_assoc, List.singleton_append,
      List.cons_append, chain_other (by decide)]
  | loop condition body =>
    have calm : (Stmt.loop condition body).Calm ↔ ∀ x ∈ body.dropLast, x.leaves = false := by
      simp [Stmt.Calm, Stmt.bodies, Stmt.cases]
    have inside := chain_braces (chain_allStretches body .closing (next :: rest))
    rw [Stmt.within, List.forall_mem_cons, calm, Stmt.leaves, ← Tidy, ← inside]
    exact (and_iff_right nofun).symm

theorem chain_allStretches (ss : List Stmt) (next : Stretch) (rest : List Stretch) :
    (Java.Stmt.allStretches (Stmt.allToJava ss) ++ next :: rest).IsChain Follows ↔
      (∀ x ∈ ss.getLast?, x.leaves = true → next.Ends) ∧ Tidy ss ∧
        (next :: rest).IsChain Follows := by
  cases ss with
  | nil => simp [Stmt.allToJava, Java.Stmt.allStretches, tidy_nil]
  | cons s ss =>
    have split : Java.Stmt.allStretches (Stmt.allToJava (s :: ss)) ++ next :: rest =
        s.toJava.stretches ++ (Java.Stmt.allStretches (Stmt.allToJava ss) ++ next :: rest) :=
      List.append_assoc _ _ _
    have behind := chain_allStretches ss next rest
    rw [split]
    cases ss with
    | nil =>
      rw [Stmt.allToJava, Java.Stmt.allStretches, List.nil_append, chain_stretches s next rest]
      simp [Tidy, Stmt.allWithin]
    | cons s' ss =>
      obtain ⟨first, more, same, other⟩ := exists_stretches s'.toJava
      have begins : Java.Stmt.allStretches (Stmt.allToJava (s' :: ss)) ++ next :: rest =
          first :: (more ++ Java.Stmt.allStretches (Stmt.allToJava ss) ++ next :: rest) := by
        simp [Stmt.allToJava, Java.Stmt.allStretches, same]
      rw [begins] at behind ⊢
      rw [chain_stretches s first _, behind]
      simp only [Tidy, Stmt.allWithin, List.dropLast_cons_cons, List.forall_mem_cons,
        List.forall_mem_append, List.getLast?_cons_cons, other, imp_false, Bool.not_eq_true]
      tauto

theorem chain_case (c : Case) (next : Stretch) (ends : next.Ends) (rest : List Stretch) :
    (c.toJava.stretches ++ next :: rest).IsChain Follows ↔
      c.Calm ∧ (∀ x ∈ c.within, x.Calm) ∧ (next :: rest).IsChain Follows := by
  cases c with
  | on value body =>
    -- The break is a statement like any other.
    have inside := chain_allStretches body (.statement false) (next :: rest)
    have noEnd : ¬ (Stretch.statement false).Ends := by decide
    rw [chain_other (by decide)] at inside
    rw [Case.toJava, Java.Case.stretches, allStretches_append, List.cons_append,
      chain_other (by decide), List.append_assoc]
    refine inside.trans ?_
    simp only [noEnd, imp_false, Bool.not_eq_true, Tidy, Case.Calm, Case.body, Case.value?,
      Option.isSome_some, true_imp_iff, Case.within]
    tauto
  | default body =>
    have inside := chain_allStretches body next rest
    rw [Case.toJava, Java.Case.stretches, List.cons_append, chain_other (by decide), inside]
    simp only [ends, implies_true, true_and, Tidy, Case.Calm, Case.body, Case.value?,
      Option.isSome_none, Bool.false_eq_true, false_imp_iff, and_true, Case.within, and_assoc]

theorem chain_allCases (cs : List Case) (next : Stretch) (ends : next.Ends)
    (rest : List Stretch) :
    (Java.Case.allStretches (Case.allToJava cs) ++ next :: rest).IsChain Follows ↔
      (∀ c ∈ cs, c.Calm) ∧ (∀ x ∈ Case.allWithin cs, x.Calm) ∧
        (next :: rest).IsChain Follows := by
  cases cs with
  | nil => simp [Case.allToJava, Java.Case.allStretches, Case.allWithin]
  | cons c cs =>
    have split : Java.Case.allStretches (Case.allToJava (c :: cs)) ++ next :: rest =
        c.toJava.stretches ++ (Java.Case.allStretches (Case.allToJava cs) ++ next :: rest) :=
      List.append_assoc _ _ _
    have behind := chain_allCases cs next ends rest
    rw [split, List.forall_mem_cons, Case.allWithin, List.forall_mem_append]
    cases cs with
    | nil =>
      rw [Case.allToJava, Java.Case.allStretches, List.nil_append, chain_case c next ends rest]
      simp [Case.allWithin]
    | cons c' cs =>
      obtain ⟨more, same⟩ : ∃ more, c'.toJava.stretches = .label :: more := by
        cases c' <;> exact ⟨_, rfl⟩
      have begins : Java.Case.allStretches (Case.allToJava (c' :: cs)) ++ next :: rest =
          .label :: (more ++ Java.Case.allStretches (Case.allToJava cs) ++ next :: rest) := by
        simp [Case.allToJava, Java.Case.allStretches, same]
      rw [begins] at behind ⊢
      rw [chain_case c .label (.inr rfl) _, behind]
      tauto

end

end Chains

section Methods

variable {f : Function}

theorem chain_method (f : Function) : f.toJava.stretches.IsChain Follows ↔ Tidy f.body := by
  have inside := chain_braces (chain_allStretches f.body .closing [])
  rw [List.append_nil, and_iff_left .nil] at inside
  exact inside

theorem tidy_body : Tidy f.body ↔ f.LeavesLast ∧ f.CasesStay := by
  simp only [Tidy, Stmt.Calm, Function.LeavesLast, Function.CasesStay, Function.blocks,
    Function.cases, List.forall_mem_cons, List.forall_mem_flatMap, imp_and, forall_and, and_assoc]

/-- In the text of a method of a compiled program no statement stands directly behind a return
statement, if and only if in its source statements that leave are the last ones of their lists, and
none of them ends a case with a value. -/
theorem java_returns_iff {text : String} {p : Program} (compiled : compile text = .ok p)
    {f : Function} (member : f ∈ p.functions) :
    Java.ReturnsLast f.toJava.render ↔ f.LeavesLast ∧ f.CasesStay := by
  have lowerable := Program.Lowerable.of_compile compiled
  rw [Java.ReturnsLast, Java.stretches_render _ (lowerable.local_method member), chain_method,
    tidy_body]

def returnInside : String :=
  "FUN main(): Integer DO
    SWITCH 1 CASE 1: IF TRUE DO RETURN 1; END DEFAULT RETURN 2; END
    RETURN 3; END"

theorem java_returns_iff_inside : ∃ p, compile returnInside = .ok p ∧ p.functions.length = 1 ∧
    ∀ f ∈ p.functions, f.LeavesLast ∧ f.CasesStay ∧ Java.ReturnsLast f.toJava.render := by
  have calm : ∃ p, compile returnInside = .ok p ∧ p.functions.length = 1 ∧
      ∀ f ∈ p.functions, f.LeavesLast ∧ f.CasesStay := by
    decide +kernel
  obtain ⟨p, compiled, one, each⟩ := calm
  refine ⟨p, compiled, one, fun f member => ?_⟩
  obtain ⟨last, stay⟩ := each f member
  exact ⟨last, stay, (java_returns_iff compiled member).mpr ⟨last, stay⟩⟩

def returnInCase : String :=
  "FUN main(): Integer DO SWITCH 1 CASE 1: RETURN 1; DEFAULT RETURN 2; END END"

/-- Such programs are compiled, and the break of the case stands behind its return statement. -/
theorem exists_not_returnsLast : ∃ p, compile returnInCase = .ok p ∧ p.functions.length = 1 ∧
    ∀ f ∈ p.functions, f.LeavesLast ∧ ¬ Java.ReturnsLast f.toJava.render := by
  decide +kernel

end Methods

end Plc
