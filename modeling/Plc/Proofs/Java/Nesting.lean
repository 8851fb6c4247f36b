import Plc.Java.Lowering
import Plc.Machine.Run
import Plc.Proofs.Java.Run
import Plc.Proofs.Outcome
import Plc.Proofs.Reading.Bare
import Plc.Proofs.Reading.Tiers

/-! Whether Java code nests as the expression that it was made from. Conjunctions and disjunctions
bind alike here, and so do all comparisons, but not in Java, and the code has no brackets but those
of the expression. -/
namespace Plc

open Java

/-- The pairs of operators that are taken from left to right here, and in Java the second one
first. -/
def Java.turned : List (Operator × Operator) :=
  [(.or, .and), (.equal, .less), (.equal, .greater), (.notEqual, .less), (.notEqual, .greater)]

def Expr.joint : Expr → Option Operator
  | .binary op _ _ _ => some op
  | _ => none

mutual

def Expr.javaTree : Expr → Tree
  | .literal value _ => .literal (literalText value)
  | .group inner _ => .group inner.javaTree
  | .binary op left right _ =>
    if op = .power then .call "Math.pow" [left.javaTree, right.javaTree]
    else .binary op left.javaTree right.javaTree
  | .access name _ => .name name
  | .element name offset _ => .element name offset.javaTree
  | .call name arguments _ => .call name (Expr.javaTrees arguments)
  | .list elements _ => .array (Expr.javaTrees elements)

def Expr.javaTrees : List Expr → List Tree
  | [] => []
  | e :: es => e.javaTree :: Expr.javaTrees es

end

mutual

/-- No operator stands behind another one that Java takes after it. -/
def Expr.aligned : Expr → Bool
  | .literal .. => true
  | .group inner _ => inner.aligned
  | .binary op left right _ =>
    (left.joint.all fun first => decide ((first, op) ∉ turned)) && left.aligned && right.aligned
  | .access .. => true
  | .element _ offset _ => offset.aligned
  | .call _ arguments _ => Expr.allAligned arguments
  | .list elements _ => Expr.allAligned elements

def Expr.allAligned : List Expr → Bool
  | [] => true
  | e :: es => e.aligned && Expr.allAligned es

end

mutual

def Expr.names : Expr → List String
  | .literal .. => []
  | .group inner _ => inner.names
  | .binary _ left right _ => left.names ++ right.names
  | .access name _ => [name]
  | .element name offset _ => name :: offset.names
  | .call name arguments _ => name :: Expr.allNames arguments
  | .list elements _ => Expr.allNames elements

def Expr.allNames : List Expr → List String
  | [] => []
  | e :: es => e.names ++ Expr.allNames es

end

section Lowering

mutual

theorem tree_toJava (e : Expr) (bare : e.Bare) : e.toJava.tree = e.javaTree := by
  cases e with
  | literal value ty => rfl
  | group inner ty =>
    rw [Expr.toJava, Java.Expr.tree, tree_toJava inner bare.1, Expr.javaTree]
  | binary op left right ty =>
    have first := tree_toJava left bare.1
    have second := tree_toJava right bare.2.1
    rw [Expr.toJava, Expr.javaTree]
    split
    · rw [Java.Expr.tree, first, second]
    · rw [Java.Expr.tree, first, second]
  | access name slot =>
    cases bare
    rfl
  | element name offset slot =>
    obtain ⟨offsetBare, rfl⟩ := bare
    rw [Expr.toJava, Java.Expr.tree, tree_toJava offset offsetBare, Expr.javaTree]
    rfl
  | call name arguments slot =>
    obtain ⟨argumentsBare, rfl⟩ := bare
    rw [Expr.toJava, Java.Expr.tree, trees_toJava arguments argumentsBare, Expr.javaTree]
    rfl
  | list elements ty => exact bare.elim

theorem trees_toJava (es : List Expr) (bare : Expr.AllBare es) :
    Java.Expr.trees (Expr.allToJava es) = Expr.javaTrees es := by
  cases es with
  | nil => rfl
  | cons e es =>
    rw [Expr.allToJava, Java.Expr.trees, tree_toJava e bare.1, trees_toJava es bare.2,
      Expr.javaTrees]

end

mutual

theorem plain_toJava (e : Expr) (bare : e.Bare) (names : ∀ name ∈ e.names, IsName name) :
    e.toJava.Plain := by
  cases e with
  | literal value ty => trivial
  | group inner ty => exact plain_toJava inner bare.1 names
  | binary op left right ty =>
    obtain ⟨leftNames, rightNames⟩ := List.forall_mem_append.mp names
    have first := plain_toJava left bare.1 leftNames
    have second := plain_toJava right bare.2.1 rightNames
    rw [Expr.toJava]
    split
    · exact ⟨first, second⟩
    · rename_i noPower
      exact ⟨noPower, first, second⟩
  | access name slot =>
    cases bare
    exact names name List.mem_cons_self
  | element name offset slot =>
    obtain ⟨offsetBare, rfl⟩ := bare
    obtain ⟨here, inside⟩ := List.forall_mem_cons.mp names
    exact ⟨here, plain_toJava offset offsetBare inside⟩
  | call name arguments slot =>
    obtain ⟨argumentsBare, rfl⟩ := bare
    obtain ⟨here, inside⟩ := List.forall_mem_cons.mp names
    exact ⟨here, plain_allToJava arguments argumentsBare inside⟩
  | list elements ty => exact bare.elim

theorem plain_allToJava (es : List Expr) (bare : Expr.AllBare es)
    (names : ∀ name ∈ Expr.allNames es, IsName name) :
    Java.Expr.AllPlain (Expr.allToJava es) := by
  cases es with
  | nil => trivial
  | cons e es =>
    obtain ⟨here, others⟩ := List.forall_mem_append.mp names
    exact ⟨plain_toJava e bare.1 here, plain_allToJava es bare.2 others⟩

end

end Lowering

section Ranks

variable {op first : Operator} {e : Expr}

theorem rank_of_looseness (tight : first.looseness < op.looseness) : rank first < rank op := by
  have all : ∀ op ∈ Operator.all, ∀ first ∈ Operator.all, first.looseness < op.looseness →
      rank first < rank op := by decide
  exact all op (Operator.mem_all op) first (Operator.mem_all first) tight

theorem rank_le_iff (tight : first.looseness ≤ op.looseness) (noPower : op ≠ .power) :
    rank first ≤ rank op ↔ (first, op) ∉ turned := by
  have all : ∀ op ∈ Operator.all, ∀ first ∈ Operator.all, first.looseness ≤ op.looseness →
      op ≠ .power → (rank first ≤ rank op ↔ (first, op) ∉ turned) := by decide
  exact all op (Operator.mem_all op) first (Operator.mem_all first) tight noPower

theorem not_turned_power (first : Operator) : (first, .power) ∉ turned := by
  cases first <;> decide

theorem power_not_turned (op : Operator) : (.power, op) ∉ turned := by
  cases op <;> decide

theorem tier_right (tight : e.tier ≤ op.looseness) : e.javaTree.tier ≤ rank op := by
  cases e with
  | binary first left right ty =>
    rw [Expr.javaTree]
    split
    · exact Nat.zero_le _
    · exact rank_of_looseness tight
  | _ => exact Nat.zero_le _

theorem tier_left_iff (noPower : op ≠ .power) (tight : e.tier ≤ op.looseness + 1) :
    e.javaTree.tier ≤ rank op + 1 ↔
      (e.joint.all fun first => decide ((first, op) ∉ turned)) = true := by
  cases e with
  | binary first left right ty =>
    have ranks := rank_le_iff (Nat.le_of_succ_le_succ tight) noPower
    rw [Expr.javaTree, Expr.joint, Option.all_some, decide_eq_true_iff]
    split
    · rename_i power
      rw [power]
      exact iff_of_true (Nat.zero_le _) (power_not_turned op)
    · exact Nat.succ_le_succ_iff.trans ranks
  | _ => exact iff_of_true (Nat.zero_le _) rfl

end Ranks

section Sound

theorem isFree_pow : IsFree "Math.pow" := by decide +kernel

mutual

/-- What Java can read: the names are free, and no operand is taken by another operator. -/
theorem sound_javaTree_iff (e : Expr) (bare : e.Bare) (tiered : e.Tiered) :
    e.javaTree.Sound ↔ e.aligned = true ∧ ∀ name ∈ e.names, IsFree name := by
  cases e with
  | literal value ty => exact iff_of_true trivial ⟨rfl, nofun⟩
  | group inner ty => exact sound_javaTree_iff inner bare.1 tiered
  | binary op left right ty =>
    obtain ⟨leftTier, rightTier, leftTiered, rightTiered⟩ := tiered
    have first := sound_javaTree_iff left bare.1 leftTiered
    have second := sound_javaTree_iff right bare.2.1 rightTiered
    rw [Expr.javaTree, Expr.aligned, Expr.names, List.forall_mem_append, Bool.and_eq_true,
      Bool.and_eq_true]
    -- A power is a call in Java, so its operands stand in brackets.
    by_cases power : op = .power
    · have free : (left.joint.all fun first => decide ((first, op) ∉ turned)) = true := by
        cases left.joint with
        | none => rfl
        | some first => exact decide_eq_true (power ▸ not_turned_power first)
      rw [if_pos power]
      simp only [Tree.Sound, Tree.AllSound, first, second, free, isFree_pow]
      tauto
    · rw [if_neg power]
      simp only [Tree.Sound, first, second, tier_left_iff power leftTier]
      have tight := tier_right rightTier
      tauto
  | access name slot => simp [Expr.javaTree, Tree.Sound, Expr.aligned, Expr.names]
  | element name offset slot =>
    have inside := sound_javaTree_iff offset bare.1 tiered
    simp only [Expr.javaTree, Tree.Sound, Expr.aligned, Expr.names, List.forall_mem_cons, inside]
    tauto
  | call name arguments slot =>
    have inside := allSound_javaTrees_iff arguments bare.1 tiered
    simp only [Expr.javaTree, Tree.Sound, Expr.aligned, Expr.names, List.forall_mem_cons, inside]
    tauto
  | list elements ty => exact bare.elim

theorem allSound_javaTrees_iff (es : List Expr) (bare : Expr.AllBare es)
    (tiered : Expr.AllTiered es) : Tree.AllSound (Expr.javaTrees es) ↔
      Expr.allAligned es = true ∧ ∀ name ∈ Expr.allNames es, IsFree name := by
  cases es with
  | nil => exact iff_of_true trivial ⟨rfl, nofun⟩
  | cons e es =>
    have here := sound_javaTree_iff e bare.1 tiered.1
    have others := allSound_javaTrees_iff es bare.2 tiered.2
    simp only [Expr.javaTrees, Tree.AllSound, Expr.allAligned, Expr.allNames,
      List.forall_mem_append, Bool.and_eq_true, here, others]
    tauto

end

end Sound

/-- A free name of letters, digits and underscores is a name in Java. -/
theorem isName_of_isFree {name : String} (free : IsFree name)
    (ascii : ∀ c ∈ name.toList, c.isAlphanum ∨ c = '_') : IsName name := by
  obtain ⟨⟨c, cs, same, letter⟩, _⟩ := free
  refine ⟨c, cs, same, letter, ?_⟩
  intro d member
  have among := ascii d (by rw [same]; exact List.mem_cons_of_mem c member)
  simp only [Char.isAlphanum, Bool.or_eq_true] at among
  rcases among with (alpha | digit) | rfl
  · simp [isLetterOrDigit, isLetter, alpha]
  · simp [isLetterOrDigit, digit]
  · rfl

/-- The code of an expression that is read is read back as its tree exactly if operators that Java
takes in another order are kept apart by brackets and names are free. -/
theorem read?_toJava_iff {e : Expr} (bare : e.Bare) (tiered : e.Tiered)
    (ascii : ∀ name ∈ e.names, ∀ c ∈ name.toList, c.isAlphanum ∨ c = '_') :
    read? e.toJava.text = some e.javaTree ↔
      e.aligned = true ∧ ∀ name ∈ e.names, IsFree name := by
  rw [← sound_javaTree_iff e bare tiered]
  refine ⟨sound_of_read?, ?_⟩
  intro sound
  obtain ⟨_, free⟩ := (sound_javaTree_iff e bare tiered).mp sound
  have plain := plain_toJava e bare fun name member =>
    isName_of_isFree (free name member) (ascii name member)
  rw [← tree_toJava e bare] at sound ⊢
  exact (read?_text_iff plain).mpr sound

end Plc
