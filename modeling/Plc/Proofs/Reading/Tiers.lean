import Plc.Proofs.Reading.Composition

/-! Operands of expressions that are read bind as the tiers of the operators say. -/
namespace Plc

/-- How loosely an expression binds: as its operator if it is not in brackets. -/
def Expr.tier : Expr → Nat
  | .binary op _ _ _ => op.looseness + 1
  | _ => 0

mutual

/-- A left operand binds no looser than its operator and a right one tighter. -/
def Expr.Tiered : Expr → Prop
  | .literal .. => True
  | .group inner _ => inner.Tiered
  | .binary op left right _ =>
    left.tier ≤ op.looseness + 1 ∧ right.tier ≤ op.looseness ∧ left.Tiered ∧ right.Tiered
  | .access .. => True
  | .element _ offset _ => offset.Tiered
  | .call _ arguments _ => Expr.AllTiered arguments
  | .list elements _ => Expr.AllTiered elements

def Expr.AllTiered : List Expr → Prop
  | [] => True
  | e :: es => e.Tiered ∧ Expr.AllTiered es

end

namespace Reading

open Reader

variable {α β : Type} {n k : Nat}

def Yields (n : Nat) (read : Reader α) (holds : α → Prop) : Prop :=
  ∀ ts value rest, ts.length < n → read ts = .ok (value, rest) →
    holds value ∧ rest.length ≤ ts.length

section Parts

variable {read : Reader α} {holds : α → Prop}

theorem yields_zero : Yields 0 read holds :=
  fun _ _ _ shorter => absurd shorter (Nat.not_lt_zero _)

theorem Yields.of_le (yields : Yields n read holds) (less : k ≤ n) : Yields k read holds :=
  fun ts value rest shorter => yields ts value rest (Nat.lt_of_lt_of_le shorter less)

theorem yields_give {value : α} (here : holds value) : Yields n (give value) holds := by
  intro ts value rest _ given
  obtain ⟨rfl, rfl⟩ := give_eq_ok.mp given
  exact ⟨here, Nat.le_refl _⟩

theorem yields_refuse {misread : Misread} : Yields n (refuse misread) holds :=
  fun _ _ _ _ given => absurd given refuse_ne_ok

theorem Yields.andThen {first : Reader β} {next : β → Reader α} {here : β → Prop}
    (front : Yields n first here) (behind : ∀ value, here value → Yields n (next value) holds) :
    Yields n (first.andThen next) holds := by
  intro ts value rest shorter read
  obtain ⟨v, mid, firstRead, nextRead⟩ := andThen_eq_ok.mp read
  obtain ⟨vHere, notLonger⟩ := front ts v mid shorter firstRead
  obtain ⟨valueHolds, notLonger'⟩ := behind v vHere mid value rest (by omega) nextRead
  exact ⟨valueHolds, by omega⟩

/-- A token is taken in front of each of the ways. -/
theorem Yields.choose {ways : Token → Option (Reader α)} {otherwise : Reader α} (less : k ≤ n + 1)
    (way : ∀ t w, ways t = some w → Yields n w holds) (other : Yields k otherwise holds) :
    Yields k (choose ways otherwise) holds := by
  intro ts value rest shorter read
  cases found : ts.head?.bind ways with
  | none =>
    rw [choose_none found] at read
    exact other ts value rest shorter read
  | some w =>
    cases ts with
    | nil => cases found
    | cons t ts =>
      have found : ways t = some w := found
      rw [choose_some found] at read
      rw [List.length_cons] at shorter ⊢
      obtain ⟨valueHolds, notLonger⟩ := way t w found ts value rest (by omega) read
      exact ⟨valueHolds, by omega⟩

theorem Yields.either {test : Token → Bool} {onward : Token → Reader α} {otherwise : Reader α}
    (less : k ≤ n + 1) (way : ∀ t, Yields n (onward t) holds) (other : Yields k otherwise holds) :
    Yields k (either test onward otherwise) holds := by
  refine .choose less ?_ other
  intro t w found
  split at found
  · cases found
    exact way t
  · cases found

theorem Yields.peek {test : List Token → Bool} {yes no : Reader α}
    (yesYields : Yields n yes holds) (noYields : Yields n no holds) :
    Yields n (peek test yes no) holds := by
  intro ts value rest shorter read
  rcases peek_eq_ok.mp read with ⟨_, read⟩ | ⟨_, read⟩
  · exact yesYields ts value rest shorter read
  · exact noYields ts value rest shorter read

/-- The rest of something in brackets. -/
theorem yields_closing (symbol : String) (misread : Misread) {value : α} (here : holds value) :
    Yields n ((of (operator symbol misread)).andThen fun _ => give value) holds := by
  have closing : Yields n (of (operator symbol misread)) fun _ => True := by
    rw [of_operator]
    exact .either (Nat.le_succ n) (fun _ => yields_give trivial) yields_refuse
  exact closing.andThen fun _ _ => yields_give here

end Parts

structure Within (tiers : Nat) (e : Expr) : Prop where
  tiered : e.Tiered
  tier : e.tier ≤ tiers

theorem yields_chain {tier : Nat} (operand : Yields n (of (binary tier)) (Within tier))
    {left : Expr} (here : Within (tier + 1) left) :
    Yields n (of (chain tier left)) (Within (tier + 1)) := by
  induction n generalizing left with
  | zero => exact yields_zero
  | succ n ih =>
    have operand := operand.of_le (Nat.le_succ n)
    rw [of_chain]
    refine .choose (Nat.le_refl _) ?_ (yields_give here)
    intro t w found
    obtain ⟨op, among, rfl⟩ := Option.map_eq_some_iff.mp found
    have level : op.looseness = tier := by
      rw [tierOperator?] at among
      split at among
      · simpa using (Option.filter_eq_some_iff.mp among).2
      · cases among
    refine operand.andThen fun right within => ?_
    have leftTier : left.tier ≤ op.looseness + 1 := level ▸ here.tier
    have rightTier : right.tier ≤ op.looseness := level ▸ within.tier
    exact ih operand
      { tiered := ⟨leftTier, rightTier, here.tiered, within.tiered⟩
        tier := Nat.le_of_eq (congrArg (· + 1) level) }

theorem yields_arguments {tiers : Nat} (closing : String)
    (value : Yields n (of expression) (Within tiers)) :
    Yields n (of (arguments closing)) Expr.AllTiered := by
  induction n with
  | zero => exact yields_zero
  | succ n ih =>
    rw [of_arguments]
    refine .peek (value.andThen fun first within => ?_) yields_refuse
    refine .either (Nat.le_refl _) (fun _ => .peek yields_refuse ?_)
      (yields_give ⟨within.tiered, trivial⟩)
    exact (ih (value.of_le (Nat.le_succ n))).andThen
      fun others tiered => yields_give ⟨within.tiered, tiered⟩

theorem yields_named (name : String)
    (value : Yields n (of expression) (Within Operator.tiers)) :
    Yields n (of (named name)) (Within 0) := by
  rw [of_named]
  refine .either (Nat.le_succ n)
    (fun _ => .either (Nat.le_succ n) (fun _ => yields_give ⟨trivial, Nat.le_refl _⟩) ?_)
    (.either (Nat.le_succ n) (fun _ => ?_) (yields_give ⟨trivial, Nat.le_refl _⟩))
  · exact (yields_arguments ")" value).andThen
      fun _ tiered => yields_closing _ _ ⟨tiered, Nat.le_refl _⟩
  · exact value.andThen fun _ offset => yields_closing _ _ ⟨offset.tiered, Nat.le_refl _⟩

theorem yields_primary (value : Yields n (of expression) (Within Operator.tiers)) :
    Yields (n + 1) (of primary) (Within 0) := by
  rw [of_primary]
  refine .choose (Nat.le_refl _) ?_ yields_refuse
  intro t w found
  rw [primaryWays] at found
  split at found
  · cases found
    exact yields_give ⟨trivial, Nat.le_refl _⟩
  · cases found
    exact yields_refuse
  · split at found
    · cases found
      exact yields_named t.literal value
    · split at found
      · cases found
        exact value.andThen fun _ inner => yields_closing _ _ ⟨inner.tiered, Nat.le_refl _⟩
      · cases found

theorem yields_binary (operand : Yields n (of primary) (Within 0)) (tiers : Nat) :
    Yields n (of (binary tiers)) (Within tiers) := by
  induction tiers with
  | zero =>
    rw [of_binary_zero]
    exact operand
  | succ tier ih =>
    rw [of_binary_succ]
    exact ih.andThen fun _ left => yields_chain ih ⟨left.tiered, Nat.le_succ_of_le left.tier⟩

theorem yields_expression (n : Nat) : Yields n (of expression) (Within Operator.tiers) := by
  induction n with
  | zero => exact yields_zero
  | succ n ih =>
    rw [of_expression]
    exact yields_binary (yields_primary ih) Operator.tiers

theorem tiered_of_expression {ts : List Token} {r : Read Expr ts.length}
    (read : expression ts = .ok r) : r.value.Tiered :=
  (yields_expression (ts.length + 1) ts r.value r.rest (Nat.lt_succ_self _)
    (of_eq_ok.mpr ⟨r.shorter, read⟩)).1.tiered

end Reading

end Plc
