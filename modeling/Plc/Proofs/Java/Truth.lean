import Plc.Java.Phrase
import Plc.Proofs.Java.Nesting

/-! Boolean expressions of literals, variables, brackets, conjunctions and disjunctions: what they
are worth when the machine runs them, and what their code is worth in Java. -/
namespace Plc

/-- The truth of a tree, given that of the variables. A right operand counts only if the left one
leaves the matter open. -/
def Java.Tree.truth (given : String → Bool) : Java.Tree → Option Bool
  | .literal text =>
    if text = "true" then some true else if text = "false" then some false else none
  | .name id => some (given id)
  | .group inner => inner.truth given
  | .binary .and left right =>
    (left.truth given).bind fun b => if b then right.truth given else some false
  | .binary .or left right =>
    (left.truth given).bind fun b => if b then some true else right.truth given
  | _ => none

def Expr.BooleanIn (store : Store) (given : String → Bool) : Expr → Prop
  | .literal (.boolean _) _ => True
  | .access name _ =>
    (store.scope.lookupVariable name).map (·.value) = .ok (.boolean (given name))
  | .group inner _ => inner.BooleanIn store given
  | .binary op left right _ =>
    op.decisive?.isSome ∧ left.BooleanIn store given ∧ right.BooleanIn store given
  | _ => False

def Expr.decidableBooleanIn (store : Store) (given : String → Bool) :
    (e : Expr) → Decidable (e.BooleanIn store given)
  | .literal (.boolean _) _ => .isTrue trivial
  | .literal .nil _ => .isFalse id
  | .literal (.character _) _ => .isFalse id
  | .literal (.string _) _ => .isFalse id
  | .literal (.integer _) _ => .isFalse id
  | .literal (.decimal _) _ => .isFalse id
  | .access name _ => inferInstanceAs (Decidable
      ((store.scope.lookupVariable name).map (·.value) = .ok (.boolean (given name))))
  | .group inner _ => inner.decidableBooleanIn store given
  | .binary op left right _ =>
    have := left.decidableBooleanIn store given
    have := right.decidableBooleanIn store given
    inferInstanceAs (Decidable (op.decisive?.isSome ∧ left.BooleanIn store given ∧
      right.BooleanIn store given))
  | .element .. => .isFalse id
  | .call .. => .isFalse id
  | .list .. => .isFalse id

instance (store : Store) (given : String → Bool) : DecidablePred (Expr.BooleanIn store given) :=
  Expr.decidableBooleanIn store given

namespace Machine

def Leads (c d : Config) : Prop := ∃ n, ∀ limit, run (n + limit) c = run limit d

variable {c d : Config} {store : Store} {given : String → Bool} {e : Expr}

theorem leads_step (stepped : step? c = some d) : Leads c d := by
  refine ⟨1, fun limit => ?_⟩
  rw [Nat.add_comm, run, stepped]

theorem Leads.trans {d' : Config} (first : Leads c d) (second : Leads d d') : Leads c d' := by
  obtain ⟨n, first⟩ := first
  obtain ⟨m, second⟩ := second
  refine ⟨n + m, fun limit => ?_⟩
  rw [Nat.add_assoc, first, second]

theorem evaluate_of_leads {v : Value}
    (leads : Leads ⟨.evaluate e, [], store⟩ ⟨.value v, [], store⟩) :
    ∃ limit, store.evaluate limit e = some (.ok v, store) := by
  obtain ⟨n, leads⟩ := leads
  refine ⟨n + 1, ?_⟩
  rw [Store.evaluate, leads]
  rfl

/-- The left operand settles the operation, or the right one is what it is worth. -/
theorem leads_binary {op : Operator} {right : Expr} {decisive b b' : Bool} {pending : List Pending}
    (decides : op.decisive? = some decisive)
    (second : ∀ pending,
      Leads ⟨.evaluate right, pending, store⟩ ⟨.value (.boolean b'), pending, store⟩) :
    Leads ⟨.value (.boolean b), .right op right :: pending, store⟩
      ⟨.value (.boolean (if b = decisive then b else b')), pending, store⟩ := by
  by_cases settled : b = decisive
  · rw [if_pos settled]
    refine leads_step ?_
    simp [step?, withValue, continueRight, decides, Value.truth, settled]
  · rw [if_neg settled]
    have onward : step? ⟨.value (.boolean b), .right op right :: pending, store⟩ =
        some ⟨.evaluate right, .operate op (.boolean b) :: pending, store⟩ := by
      simp [step?, withValue, continueRight, decides, Value.truth, settled]
    have last : step? ⟨.value (.boolean b'), .operate op (.boolean b) :: pending, store⟩ =
        some ⟨.value (.boolean b'), pending, store⟩ := by
      cases op <;> cases decides <;> cases b <;> first | exact absurd rfl settled | rfl
    exact (leads_step onward).trans ((second _).trans (leads_step last))

/-- The machine finds a Boolean expression to be worth what its tree is worth. -/
theorem leads_boolean (e : Expr) (boolean : e.BooleanIn store given) :
    ∃ b, e.javaTree.truth given = some b ∧ ∀ pending,
      Leads ⟨.evaluate e, pending, store⟩ ⟨.value (.boolean b), pending, store⟩ := by
  cases e with
  | literal value ty =>
    cases value with
    | boolean b => exact ⟨b, by cases b <;> rfl, fun pending => leads_step rfl⟩
    | _ => exact boolean.elim
  | access name slot =>
    refine ⟨given name, rfl, fun pending => leads_step ?_⟩
    have found : (store.scope.lookupVariable name).map (·.value) = .ok (.boolean (given name)) :=
      boolean
    rw [step?, evaluate, found, settle]
  | group inner ty =>
    obtain ⟨b, worth, leads⟩ := leads_boolean inner boolean
    exact ⟨b, worth, fun pending => (leads_step rfl).trans (leads pending)⟩
  | binary op left right ty =>
    obtain ⟨logical, leftBoolean, rightBoolean⟩ := boolean
    obtain ⟨decisive, decides⟩ := Option.isSome_iff_exists.mp logical
    obtain ⟨b, leftWorth, first⟩ := leads_boolean left leftBoolean
    obtain ⟨b', rightWorth, second⟩ := leads_boolean right rightBoolean
    refine ⟨if b = decisive then b else b', ?_, fun pending =>
      (leads_step rfl).trans ((first _).trans (leads_binary decides second))⟩
    -- Both ways the left operand settles the matter if it has the decisive truth.
    cases op with
    | and =>
      cases decides
      rw [Expr.javaTree, if_neg (by decide), Java.Tree.truth, leftWorth, rightWorth]
      cases b <;> rfl
    | or =>
      cases decides
      rw [Expr.javaTree, if_neg (by decide), Java.Tree.truth, leftWorth, rightWorth]
      cases b <;> rfl
    | _ => cases decides
  | element | call | list => exact boolean.elim

end Machine

open Java Reading

/-- Java reads the code of an expression as the expression nests exactly if operators that it takes
in another order are kept apart by brackets and it takes no name for something else. A Boolean
expression is then worth the same in Java and here. -/
theorem java_nests_iff {tokens rest : List Token} {e : Expr} {shorter : rest.length < tokens.length}
    (read : expression tokens = .ok ⟨e, rest, shorter⟩)
    (ascii : ∀ name ∈ e.names, ∀ c ∈ name.toList, c.isAlphanum ∨ c = '_') :
    (read? (Phrase.expression e).java = some e.javaTree ↔
      e.aligned = true ∧ ∀ name ∈ e.names, IsFree name) ∧
    (e.aligned = true → (∀ name ∈ e.names, IsFree name) →
      ∀ store given, e.BooleanIn store given →
        ∃ limit b, store.evaluate limit e = some (.ok (.boolean b), store) ∧
          (read? (Phrase.expression e).java).bind (Tree.truth given) = some b) := by
  have bare : e.Bare := expression_bare tokens _ read
  have tiered := tiered_of_expression read
  have nests := read?_toJava_iff bare tiered ascii
  refine ⟨nests, ?_⟩
  intro aligned free store given boolean
  obtain ⟨b, worth, leads⟩ := Machine.leads_boolean e boolean
  obtain ⟨limit, evaluated⟩ := Machine.evaluate_of_leads (leads [])
  have same : read? (Phrase.expression e).java = some e.javaTree := nests.mpr ⟨aligned, free⟩
  exact ⟨limit, b, evaluated, by rw [same, Option.bind_some, worth]⟩

/-- In brackets a disjunction comes first in Java too. -/
theorem java_nests_iff_brackets :
    ∃ store, (do
      let store ← (Store.initial none).bind "a" true (.boolean false)
      store.bind "b" true (.boolean true)) = .ok store ∧
    ∃ tokens, Token.lex "(a || TRUE) && b" = .ok tokens ∧ ∃ r, expression tokens = .ok r ∧
      (∀ name ∈ r.value.names, ∀ c ∈ name.toList, c.isAlphanum ∨ c = '_') ∧
      r.value.aligned = true ∧ (∀ name ∈ r.value.names, IsFree name) ∧
      r.value.BooleanIn store (· == "b") ∧
      read? (Phrase.expression r.value).java = some r.value.javaTree ∧
      ∃ limit b, store.evaluate limit r.value = some (.ok (.boolean b), store) ∧
        (read? (Phrase.expression r.value).java).bind (Tree.truth (· == "b")) = some b := by
  have reads : ∃ store, (do
      let store ← (Store.initial none).bind "a" true (.boolean false)
      store.bind "b" true (.boolean true)) = .ok store ∧
    ∃ tokens, Token.lex "(a || TRUE) && b" = .ok tokens ∧ ∃ r, expression tokens = .ok r ∧
      (r.value.names.all fun name => name.toList.all fun c => c.isAlphanum || c == '_') = true ∧
      r.value.aligned = true ∧ (∀ name ∈ r.value.names, IsFree name) ∧
      r.value.BooleanIn store (· == "b") := by
    decide +kernel
  obtain ⟨store, bound, tokens, lexed, r, read, ascii, aligned, free, boolean⟩ := reads
  simp only [List.all_eq_true, Bool.or_eq_true, beq_iff_eq] at ascii
  obtain ⟨nests, worth⟩ := java_nests_iff read ascii
  exact ⟨store, bound, tokens, lexed, r, read, ascii, aligned, free, boolean,
    nests.mpr ⟨aligned, free⟩, worth aligned free store _ boolean⟩

/-- A disjunction comes first here and last in Java. -/
theorem java_turns_disjunction :
    ∃ tokens, Token.lex "TRUE || TRUE && FALSE" = .ok tokens ∧ ∃ r, expression tokens = .ok r ∧
      r.value.names = [] ∧ read? (Phrase.expression r.value).java ≠ some r.value.javaTree ∧
      ((Store.initial none).evaluate 20 r.value).map (·.1) = some (.ok (.boolean false)) ∧
      (read? (Phrase.expression r.value).java).bind (Tree.truth fun _ => false) = some true := by
  have reads : ∃ tokens, Token.lex "TRUE || TRUE && FALSE" = .ok tokens ∧
      ∃ r, expression tokens = .ok r ∧ r.value.names = [] ∧
      r.value.javaTree.truth (fun _ => false) = some false ∧
      ((Store.initial none).evaluate 20 r.value).map (·.1) = some (.ok (.boolean false)) ∧
      (read? (Phrase.expression r.value).java).bind (Tree.truth fun _ => false) = some true := by
    decide +kernel
  obtain ⟨tokens, lexed, r, read, noNames, here, evaluated, there⟩ := reads
  refine ⟨tokens, lexed, r, read, noNames, ?_, evaluated, there⟩
  intro same
  rw [same, Option.bind_some, here] at there
  cases there

end Plc
