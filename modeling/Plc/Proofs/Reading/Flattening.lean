import Plc.Proofs.Reading.Bare
import Plc.Proofs.Reading.Derivation
import Plc.Proofs.Reading.Taken
import Plc.Proofs.Reading.Tiers

/-! Reading an expression takes back what writing its tokens in order does. What is read is as the
tiers of the operators want it, and what is so is read from its tokens, wherever they stand in front
of something that it does not go on with. -/
namespace Plc

def literalWords : List String := ["NIL", "TRUE", "FALSE"]

mutual

def Expr.Named : Expr → Prop
  | .literal .. => True
  | .group inner _ => inner.Named
  | .binary _ left right _ => left.Named ∧ right.Named
  | .access name _ => name ∉ literalWords
  | .element name offset _ => name ∉ literalWords ∧ offset.Named
  | .call name arguments _ => name ∉ literalWords ∧ Expr.AllNamed arguments
  | .list elements _ => Expr.AllNamed elements

def Expr.AllNamed : List Expr → Prop
  | [] => True
  | e :: es => e.Named ∧ Expr.AllNamed es

end

/-- An expression as it may be written: without list literals and without an analysis, with
operands that bind as the tiers say, and with names that are names. -/
structure Expr.Canonical (e : Expr) : Prop where
  bare : e.Bare
  tiered : e.Tiered
  named : e.Named

def Expr.endsInName : Expr → Bool
  | .access .. => true
  | .binary _ _ right _ => right.endsInName
  | _ => false

open Reading

mutual

/-- The tokens of an expression in order. A literal is any token that stands for it. -/
inductive Expr.Flattens : Expr → List Token → Prop where
  | literal {t : Token} {value : Literal} (means : literal? t = some (.ok value)) :
      Flattens (.literal value none) [t]
  | group {opened closed : Token} {inner : Expr} {ts : List Token}
      (opens : opened.isOperator "(" = true) (inside : Flattens inner ts)
      (closes : closed.isOperator ")" = true) :
      Flattens (.group inner none) (opened :: ts ++ [closed])
  | binary {op : Operator} {sign : Token} {left right : Expr} {ts us : List Token}
      (front : Flattens left ts) (joins : sign.isOperator op.symbol = true)
      (back : Flattens right us) : Flattens (.binary op left right none) (ts ++ sign :: us)
  | access {id : Token} (named : id.kind = .identifier) : Flattens (.access id.literal none) [id]
  | element {id opened closed : Token} {offset : Expr} {ts : List Token}
      (named : id.kind = .identifier) (opens : opened.isOperator "[" = true)
      (inside : Flattens offset ts) (closes : closed.isOperator "]" = true) :
      Flattens (.element id.literal offset none) (id :: opened :: ts ++ [closed])
  | call {id opened closed : Token} {arguments : List Expr} {ts : List Token}
      (named : id.kind = .identifier) (opens : opened.isOperator "(" = true)
      (inside : AllFlatten arguments ts) (closes : closed.isOperator ")" = true) :
      Flattens (.call id.literal arguments none) (id :: opened :: ts ++ [closed])

inductive Expr.AllFlatten : List Expr → List Token → Prop where
  | none : AllFlatten [] []
  | last {e : Expr} {ts : List Token} (here : Flattens e ts) : AllFlatten [e] ts
  | next {comma : Token} {e e' : Expr} {es : List Expr} {ts us : List Token} (here : Flattens e ts)
      (separates : comma.isOperator "," = true) (others : AllFlatten (e' :: es) us) :
      AllFlatten (e :: e' :: es) (ts ++ comma :: us)

end

namespace Reading

open Reader Grammar

variable {n : Nat}

section Soundness

theorem not_mem_literalWords_of_none {t : Token} (named : t.kind = .identifier)
    (other : literal? t = none) : t.literal ∉ literalWords := by
  intro member
  simp only [literalWords, List.mem_cons, List.not_mem_nil, or_false] at member
  rw [literal?, named] at other
  rcases member with same | same | same <;> simp [same] at other

def Writes (e : Expr) (ts : List Token) : Prop := e.Named ∧ e.Flattens ts

def WritesAll (es : List Expr) (ts : List Token) : Prop :=
  es ≠ [] ∧ Expr.AllNamed es ∧ Expr.AllFlatten es ts

/-- The sign of an operator of the tier. -/
theorem isOperator_of_tierOperator? {tier : Nat} {t : Token} {op : Operator}
    (found : tierOperator? tier t = some op) :
    t.isOperator op.symbol = true ∧ op.looseness = tier := by
  rw [tierOperator?] at found
  split at found
  · rename_i kind
    obtain ⟨symbol, level⟩ := Option.filter_eq_some_iff.mp found
    rw [Operator.ofSymbol?] at symbol
    have same := List.find?_some symbol
    exact ⟨isOperator_iff.mpr ⟨kind, (beq_iff_eq.mp same).symm⟩, beq_iff_eq.mp level⟩
  · cases found

theorem takes_chain {tier : Nat} (operand : Takes n (of (binary tier)) Writes) {left : Expr}
    {front : List Token} (here : Writes left front) :
    Takes n (of (chain tier left)) fun e more => Writes e (front ++ more) := by
  induction n generalizing left front with
  | zero => exact takes_zero
  | succ n ih =>
    have operand := operand.of_le (Nat.le_succ n)
    rw [of_chain]
    refine .choose (Nat.le_refl _) ?_ (takes_give (by rwa [List.append_nil]))
    intro t w found
    obtain ⟨op, among, rfl⟩ := Option.map_eq_some_iff.mp found
    refine .inl (operand.andThen fun right taken back => ?_)
    have joined : Writes (.binary op left right none) (front ++ t :: taken) :=
      ⟨⟨here.1, back.1⟩, .binary here.2 (isOperator_of_tierOperator? among).1 back.2⟩
    refine (ih operand joined).mono fun e more whole => ?_
    rwa [List.append_assoc, List.cons_append] at whole

theorem takes_arguments (closing : String) (value : Takes n (of expression) Writes) :
    Takes n (of (arguments closing)) WritesAll := by
  induction n with
  | zero => exact takes_zero
  | succ n ih =>
    have others := ih (value.of_le (Nat.le_succ n))
    rw [of_arguments]
    refine .peek (value.andThen fun first taken here => ?_) (takes_refuse (by decide))
    refine .either (Nat.le_refl _) (fun comma separates => ?_) (takes_give ?_)
    · refine .peek (takes_refuse (by decide)) (others.andThen fun es more behind => takes_give ?_)
      obtain ⟨some_, named, flat⟩ := behind
      obtain ⟨e', es, rfl⟩ := List.exists_cons_of_ne_nil some_
      rw [List.append_nil]
      exact ⟨List.cons_ne_nil _ _, ⟨here.1, named⟩, .next here.2 separates flat⟩
    · rw [List.append_nil]
      exact ⟨List.cons_ne_nil _ _, ⟨here.1, trivial⟩, .last here.2⟩

theorem takes_named (value : Takes n (of expression) Writes) {id : Token}
    (kind : id.kind = .identifier) (name : id.literal ∉ literalWords) :
    Takes n (of (named id.literal)) fun e more => Writes e (id :: more) := by
  rw [of_named]
  refine .either (Nat.le_succ n) (fun opened opens => ?call)
    (.either (Nat.le_succ n) (fun opened opens => ?element)
      (takes_give ⟨name, .access kind⟩))
  case call =>
    refine .either (Nat.le_succ n) (fun closed closes => takes_give ?_) ?_
    · exact ⟨⟨name, trivial⟩, .call kind opens .none closes⟩
    · refine (takes_arguments ")" value).andThen fun es taken inside => ?_
      refine .pastOperator (by decide) fun closed closes => takes_give ?_
      exact ⟨⟨name, inside.2.1⟩, .call kind opens inside.2.2 closes⟩
  case element =>
    refine value.andThen fun offset taken inside => ?_
    refine .pastOperator (by decide) fun closed closes => takes_give ?_
    exact ⟨⟨name, inside.1⟩, .element kind opens inside.2 closes⟩

theorem takes_primary (value : Takes n (of expression) Writes) :
    Takes (n + 1) (of primary) Writes := by
  rw [of_primary]
  refine .choose (Nat.le_refl _) ?_ (takes_refuse (by decide))
  intro t w found
  rw [primaryWays] at found
  split at found
  · rename_i literal means
    cases found
    exact .inl (takes_give ⟨trivial, .literal means⟩)
  · rename_i misread nothing
    cases found
    exact .inr ⟨misread, nothing, rfl⟩
  · rename_i other
    split at found
    · rename_i kind
      cases found
      exact .inl (takes_named value kind (not_mem_literalWords_of_none kind other))
    · split at found
      · rename_i opens
        cases found
        refine .inl (value.andThen fun inner taken inside => ?_)
        refine .pastOperator (by decide) fun closed closes => takes_give ?_
        exact ⟨inside.1, .group opens inside.2 closes⟩
      · cases found

theorem takes_binary (operand : Takes n (of primary) Writes) (tiers : Nat) :
    Takes n (of (binary tiers)) Writes := by
  induction tiers with
  | zero =>
    rw [of_binary_zero]
    exact operand
  | succ tier ih =>
    rw [of_binary_succ]
    exact ih.andThen fun left taken here => takes_chain ih here

theorem takes_expression (n : Nat) : Takes n (of expression) Writes := by
  induction n with
  | zero => exact takes_zero
  | succ n ih =>
    rw [of_expression]
    exact takes_binary (takes_primary ih) Operator.tiers

end Soundness

/-- In front of these tokens an expression is at its end, where the operators below `tiers` would
join it to another one. -/
structure Closes (tiers : Nat) (e : Expr) (follow : List Token) : Prop where
  noOperator : ∀ op : Operator, op.looseness < tiers → startsWithOperator op.symbol follow = false
  noBracket : e.endsInName = true →
    startsWithOperator "(" follow = false ∧ startsWithOperator "[" follow = false

section Completeness

variable {tier tiers : Nat} {e left right : Expr} {ts us follow : List Token}

/-- From the tokens and others behind them the expression is read as an operand of a tier. -/
def ReadsAt (tiers : Nat) (e : Expr) (ts : List Token) : Prop :=
  ∀ follow, Closes tiers e follow → of (binary tiers) (ts ++ follow) = .ok (e, follow)

def ChainsAt (tier : Nat) (e : Expr) (ts : List Token) : Prop :=
  ∀ follow, Closes tier e follow →
    of (binary (tier + 1)) (ts ++ follow) = of (chain tier e) follow

theorem Closes.of_le (closes : Closes tiers e follow) (less : tier ≤ tiers) :
    Closes tier e follow :=
  ⟨fun op below => closes.noOperator op (Nat.lt_of_lt_of_le below less), closes.noBracket⟩

theorem tierOperator?_of_isOperator {t : Token} {op : Operator}
    (sign : t.isOperator op.symbol = true) : tierOperator? op.looseness t = some op := by
  obtain ⟨kind, symbol⟩ := isOperator_iff.mp sign
  simp [tierOperator?, kind, symbol, Operator.ofSymbol?_symbol]

theorem chain_ends (closes : Closes (tier + 1) e follow) :
    of (chain tier e) follow = .ok (e, follow) := by
  rw [of_chain]
  apply choose_none
  cases follow with
  | nil => rfl
  | cons t follow =>
    refine Option.map_eq_none_iff.mpr (Option.eq_none_iff_forall_ne_some.mpr fun op found => ?_)
    obtain ⟨sign, level⟩ := isOperator_of_tierOperator? found
    have other : t.isOperator op.symbol = false := closes.noOperator op (by omega)
    rw [sign] at other
    cases other

theorem ReadsAt.chainsAt (reads : ReadsAt tier e ts) : ChainsAt tier e ts := by
  intro follow closes
  rw [of_binary_succ, andThen_of_ok (reads follow closes)]

theorem ChainsAt.readsAt (chains : ChainsAt tier e ts) : ReadsAt (tier + 1) e ts := by
  intro follow closes
  rw [chains follow (closes.of_le (Nat.le_succ tier))]
  exact chain_ends closes

theorem ReadsAt.of_le (reads : ReadsAt tier e ts) (less : tier ≤ tiers) : ReadsAt tiers e ts := by
  induction tiers, less using Nat.le_induction with
  | base => exact reads
  | succ tiers _ ih => exact ih.chainsAt.readsAt

/-- The operator of a tier is taken to what was read so far, and then the tier goes on. -/
theorem ChainsAt.binary {op : Operator} {sign : Token} (front : ChainsAt op.looseness left ts)
    (joins : sign.isOperator op.symbol = true) (back : ReadsAt op.looseness right us) :
    ChainsAt op.looseness (.binary op left right none) (ts ++ sign :: us) := by
  intro follow closes
  obtain ⟨kind, symbol⟩ := isOperator_iff.mp joins
  have stops : Closes op.looseness left (sign :: (us ++ follow)) := by
    refine ⟨fun other below => ?_, fun _ => ?_⟩
    · have distinct : op.symbol ≠ other.symbol := by
        intro same
        have found := Operator.ofSymbol?_symbol other
        rw [← same, Operator.ofSymbol?_symbol] at found
        cases found
        exact Nat.lt_irrefl _ below
      simp [startsWithOperator, Token.isOperator, symbol, distinct]
    · simp only [startsWithOperator, Token.isOperator, List.head?_cons, Option.any_some, symbol]
      cases op <;> simp [Operator.symbol]
  rw [List.append_assoc, List.cons_append, front _ stops, of_chain,
    choose_some (by rw [tierOperator?_of_isOperator joins]; rfl)]
  exact andThen_of_ok (back follow ⟨closes.noOperator, closes.noBracket⟩)

structure Flows (e : Expr) (ts : List Token) : Prop where
  reads : ∀ {tiers}, e.tier ≤ tiers → ReadsAt tiers e ts
  chains : ∀ {tier}, e.tier ≤ tier + 1 → ChainsAt tier e ts

theorem ReadsAt.flows (operand : ReadsAt 0 e ts) : Flows e ts where
  reads _ := operand.of_le (Nat.zero_le _)
  chains _ := (operand.of_le (Nat.zero_le _)).chainsAt

theorem ChainsAt.flows (chains : ChainsAt tier e ts) (level : e.tier = tier + 1) : Flows e ts where
  reads less := chains.readsAt.of_le (level ▸ less)
  chains := by
    intro other less
    rcases Nat.lt_or_eq_of_le (show tier ≤ other by omega) with looser | rfl
    · exact (chains.readsAt.of_le looser).chainsAt
    · exact chains

theorem Flows.value (flows : Flows e ts) (closes : Closes Operator.tiers e follow) :
    Value (ts ++ follow) e follow := by
  have level : e.tier ≤ Operator.tiers := by
    cases e with
    | binary op => exact op.looseness_lt_tiers
    | _ => exact Nat.zero_le _
  rw [← value_iff, of_expression]
  exact flows.reads level follow closes

theorem closes_sign {t : Token} {symbol : String} (sign : t.isOperator symbol = true)
    (noCall : symbol ≠ "(") (noOffset : symbol ≠ "[")
    (noOperator : ∀ op : Operator, symbol ≠ op.symbol) : Closes tiers e (t :: follow) := by
  obtain ⟨kind, rfl⟩ := isOperator_iff.mp sign
  refine ⟨fun op _ => ?_, fun _ => ⟨?_, ?_⟩⟩
  · simp [startsWithOperator, Token.isOperator, noOperator op]
  · simp [startsWithOperator, Token.isOperator, noCall]
  · simp [startsWithOperator, Token.isOperator, noOffset]

theorem closes_closing {t : Token} (sign : t.isOperator ")" = true) :
    Closes tiers e (t :: follow) :=
  closes_sign sign (by decide) (by decide) (by rintro ⟨⟩ <;> decide)

theorem of_operator_pos {symbol : String} {misread : Misread} {t : Token}
    (sign : t.isOperator symbol = true) :
    of (operator symbol misread) (t :: follow) = .ok (t, follow) := by
  rw [of_operator]
  exact either_pos sign follow

theorem primaryWays_of_named {id : Token} (kind : id.kind = .identifier)
    (name : id.literal ∉ literalWords) : primaryWays id = some (of (named id.literal)) := by
  have other : literal? id = none := by
    simp only [literalWords, List.mem_cons, List.not_mem_nil, or_false, not_or] at name
    simp [literal?, kind, name]
  rw [primaryWays, other]
  simp [kind]

theorem of_primary_pos {t : Token} {way : Reader Expr} (found : primaryWays t = some way) :
    of (Reading.binary 0) (t :: ts) = way ts := by
  rw [of_binary_zero, of_primary, choose_some found]

mutual

theorem flows {e : Expr} {ts : List Token} (flat : e.Flattens ts) (tiered : e.Tiered)
    (named : e.Named) : Flows e ts := by
  cases flat with
  | literal means =>
    refine ReadsAt.flows fun follow _ => ?_
    exact of_primary_pos (by rw [primaryWays, means])
  | @group opened closed inner us opens inside closes =>
    have value := flows inside tiered named
    obtain ⟨kind, sign⟩ := isOperator_iff.mp opens
    refine ReadsAt.flows fun follow _ => ?_
    have split : opened :: us ++ [closed] ++ follow = opened :: (us ++ closed :: follow) := by simp
    rw [split, of_primary_pos (by simp [primaryWays, literal?, kind, opens]; rfl),
      andThen_of_ok (value_iff.mpr (value.value (closes_closing closes))),
      andThen_of_ok (of_operator_pos closes)]
    rfl
  | @binary op sign left right ls rs front joins back =>
    obtain ⟨leftTier, rightTier, leftTiered, rightTiered⟩ := tiered
    have leftFlows := flows front leftTiered named.1
    have rightFlows := flows back rightTiered named.2
    exact (ChainsAt.binary (leftFlows.chains leftTier) joins (rightFlows.reads rightTier)).flows rfl
  | access kind =>
    refine ReadsAt.flows fun follow closes => ?_
    obtain ⟨noCall, noOffset⟩ := closes.noBracket rfl
    rw [List.singleton_append, of_primary_pos (primaryWays_of_named kind named), of_named,
      either_neg noCall, either_neg noOffset]
    rfl
  | @element id opened closed offset us kind opens inside closes =>
    have value := flows inside tiered named.2
    obtain ⟨_, sign⟩ := isOperator_iff.mp opens
    have noCall (rest : List Token) : startsWithOperator "(" (opened :: rest) = false := by
      simp [startsWithOperator, Token.isOperator, sign]
    refine ReadsAt.flows fun follow _ => ?_
    have split : id :: opened :: us ++ [closed] ++ follow =
        id :: opened :: (us ++ closed :: follow) := by simp
    have ends : Closes Operator.tiers offset (closed :: follow) :=
      closes_sign closes (by decide) (by decide) (by rintro ⟨⟩ <;> decide)
    rw [split, of_primary_pos (primaryWays_of_named kind named.1), of_named,
      either_neg (noCall _), either_pos opens,
      andThen_of_ok (value_iff.mpr (value.value ends)), andThen_of_ok (of_operator_pos closes)]
    rfl
  | @call id opened closed es us kind opens inside closes =>
    refine ReadsAt.flows fun follow _ => ?_
    have split : id :: opened :: us ++ [closed] ++ follow =
        id :: opened :: (us ++ closed :: follow) := by simp
    rw [split, of_primary_pos (primaryWays_of_named kind named.1), of_named, either_pos opens]
    cases es with
    | nil =>
      cases inside
      exact either_pos closes follow
    | cons e es =>
      have values := allFlow inside (List.cons_ne_nil e es) tiered named.2 closes follow
      obtain ⟨_, sign⟩ := isOperator_iff.mp closes
      have noComma : closed.isOperator "," = false := by simp [Token.isOperator, sign]
      rw [either_neg (startsWithOperator_of_startsExpression (by decide) values.startsExpression),
        andThen_of_ok (values.reads (by decide) noComma), andThen_of_ok (of_operator_pos closes)]
      rfl

theorem allFlow {es : List Expr} {ts : List Token} (flat : Expr.AllFlatten es ts)
    (some_ : es ≠ []) (tiered : Expr.AllTiered es) (named : Expr.AllNamed es) {closed : Token}
    (closes : closed.isOperator ")" = true) (follow : List Token) :
    Values (ts ++ closed :: follow) es (closed :: follow) := by
  cases flat with
  | none => exact absurd rfl some_
  | last here =>
    exact .last ((flows here tiered.1 named.1).value (closes_closing closes))
  | @next comma e e' es us vs here separates others =>
    have value := flows here tiered.1 named.1
    rw [List.append_assoc, List.cons_append]
    exact .next (value.value (closes_sign separates (by decide) (by decide)
        (by rintro ⟨⟩ <;> decide))) (sign_iff.mpr ⟨comma, separates, rfl⟩)
      (allFlow others (List.cons_ne_nil e' es) tiered.2 named.2 closes follow)

end

end Completeness

/-- What is read as an expression is canonical, and what is taken for it are its tokens in order.
In turn each canonical expression is read from its tokens, if what stands behind them is no operator
and, behind the name of a variable, no bracket that opens. -/
theorem expression_inverts_flattening :
    (∀ (ts : List Token) (r : Read Expr ts.length), expression ts = .ok r →
      r.value.Canonical ∧ ∃ taken, ts = taken ++ r.rest ∧ r.value.Flattens taken) ∧
    ∀ (e : Expr) (taken rest : List Token), e.Canonical → e.Flattens taken →
      (∀ op : Operator, startsWithOperator op.symbol rest = false) →
      (e.endsInName = true →
        startsWithOperator "(" rest = false ∧ startsWithOperator "[" rest = false) →
      ∃ shorter, expression (taken ++ rest) = .ok ⟨e, rest, shorter⟩ := by
  constructor
  · intro ts r read
    have given : of expression ts = .ok (r.value, r.rest) := of_eq_ok.mpr ⟨r.shorter, read⟩
    obtain ⟨taken, split, named, flat⟩ :=
      (takes_expression (ts.length + 1)).gives (Nat.lt_succ_self _) given
    have canonical : r.value.Canonical :=
      { bare := expression_bare ts r read
        tiered := tiered_of_expression read
        named := named }
    exact ⟨canonical, taken, split, flat⟩
  · intro e taken rest canonical flat noOperator noBracket
    exact (flows flat canonical.tiered canonical.named).value ⟨fun op _ => noOperator op, noBracket⟩

/-- As if written `(g || (((a - b[0]) - (f(c, (d + 1)) * -2)) < e)) && h`. -/
def leaning : Expr :=
  let products : Expr := .binary .multiply
    (.call "f" [.access "c" none, .group
      (.binary .add (.access "d" none) (.literal (.integer 1) none) none) none] none)
    (.literal (.integer (-2)) none) none
  let sums : Expr := .binary .subtract
    (.binary .subtract (.access "a" none) (.element "b" (.literal (.integer 0) none) none) none)
    products none
  .binary .and
    (.binary .or (.access "g" none) (.binary .less sums (.access "e" none) none) none)
    (.access "h" none) none

/-- A chain that leans to the left, through all of the tiers. -/
theorem expression_inverts_flattening_leaning :
    ∃ ts, Token.lex "g || a - b[0] - f(c, (d + 1)) * -2 < e && h) x" = .ok ts ∧
      ∃ r, expression ts = .ok r ∧ r.value = leaning ∧ r.rest.length = 2 ∧ r.value.Canonical ∧
        ∃ taken, ts = taken ++ r.rest ∧ r.value.Flattens taken ∧
          ∃ shorter, expression (taken ++ []) = .ok ⟨r.value, [], shorter⟩ := by
  have reads : ∃ ts, Token.lex "g || a - b[0] - f(c, (d + 1)) * -2 < e && h) x" = .ok ts ∧
      (expression ts).toOption.map (fun r => (r.value, r.rest.length)) = some (leaning, 2) := by
    with_unfolding_all exact ⟨_, rfl, rfl⟩
  obtain ⟨ts, lexed, reads⟩ := reads
  refine ⟨ts, lexed, ?_⟩
  cases read : expression ts with
  | error halt =>
    rw [read] at reads
    cases reads
  | ok r =>
    rw [read] at reads
    obtain ⟨shape, left⟩ := Prod.mk.inj (Option.some.inj reads)
    obtain ⟨canonical, taken, split, flat⟩ := expression_inverts_flattening.1 ts r read
    exact ⟨r, rfl, shape, left, canonical, taken, split, flat,
      expression_inverts_flattening.2 r.value taken [] canonical flat (fun _ => rfl)
        (fun _ => ⟨rfl, rfl⟩)⟩

end Reading

end Plc
