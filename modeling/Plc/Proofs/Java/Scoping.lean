import Plc.Proofs.Java.Code
import Plc.Token.Lexer

/-! The scopes of locals in the text of a method. A local is in scope from where it is declared to
the end of the braces around it, and there Java does not let its name be declared again. -/
namespace Plc.Java

/-- What code is cut into where only words matter: words, and the first character of anything else,
be it a number, a quoted text or a sign. -/
inductive Bit where
  | word (text : String)
  | sign (c : Char)
deriving DecidableEq

def isNumberPart (c : Char) : Bool := Token.isNamePart c || c == '.' || c == '+'

def bits : List Char → List Bit
  | [] => []
  | c :: cs =>
    if isSpace c then bits cs
    else if c = '"' ∨ c = '\'' then
      match _taken : takeQuoted? c cs with
      | some (_, rest) => .sign c :: bits rest
      | none => [.sign c]
    else if Token.isNameStart c then
      .word (String.ofList (c :: cs.takeWhile Token.isNamePart)) ::
        bits (cs.dropWhile Token.isNamePart)
    else if c.isDigit then .sign c :: bits (cs.dropWhile isNumberPart)
    else .sign c :: bits cs
termination_by cs => cs.length
decreasing_by
  · exact Nat.lt_succ_self _
  · exact Nat.lt_succ_of_lt (takeQuoted?_length _taken)
  · exact Nat.lt_succ_of_le (length_dropWhile _ _)
  · exact Nat.lt_succ_of_le (length_dropWhile _ _)
  · exact Nat.lt_succ_self _

inductive Mark where
  | opening
  | closing
  | declares (name : String)
deriving DecidableEq

/-- The words that may stand in front of the name of something that is there already. -/
def introducers : List String := ["return", "case"]

/-- What a word declares: the name behind it, of which it is the type, unless a method is called
so. -/
def declared? (word : String) : List Bit → Option Mark
  | .word name :: bs =>
    if word ∈ introducers ∨ bs.head? = some (.sign '(') then none else some (.declares name)
  | _ => none

def brace? (c : Char) : Option Mark :=
  if c = '\x7b' then some .opening else if c = '\x7d' then some .closing else none

def marks : List Bit → List Mark
  | [] => []
  | .word text :: bs => (declared? text bs).toList ++ marks bs
  | .sign c :: bs => (brace? c).toList ++ marks bs

/-- The marks close no braces but those that they open, and at most so many others. -/
def Inside : Nat → List Mark → Prop
  | _, [] => True
  | depth, .opening :: ms => Inside (depth + 1) ms
  | 0, .closing :: _ => False
  | depth + 1, .closing :: ms => Inside depth ms
  | depth, .declares _ :: ms => Inside depth ms

/-- No name is declared in the scope of a local of that name. -/
def Apart (ms : List Mark) : Prop :=
  ∀ before name between behind,
    ms = before ++ .declares name :: (between ++ .declares name :: behind) → ¬ Inside 0 between

def WellScoped (text : String) : Prop := Apart (marks (bits text.toList))

section Fresh

def declareIn (name : String) : List (List String) → List (List String)
  | [] => [[name]]
  | names :: scopes => (name :: names) :: scopes

def Fresh : List (List String) → List Mark → Prop
  | _, [] => True
  | scopes, .opening :: ms => Fresh ([] :: scopes) ms
  | scopes, .closing :: ms => Fresh scopes.tail ms
  | scopes, .declares name :: ms =>
    (∀ names ∈ scopes, name ∉ names) ∧ Fresh (declareIn name scopes) ms

instance decidableFresh : (scopes : List (List String)) → (ms : List Mark) →
    Decidable (Fresh scopes ms)
  | _, [] => .isTrue trivial
  | scopes, .opening :: ms => decidableFresh ([] :: scopes) ms
  | scopes, .closing :: ms => decidableFresh scopes.tail ms
  | scopes, .declares name :: ms =>
    have := decidableFresh (declareIn name scopes) ms
    inferInstanceAs (Decidable ((∀ names ∈ scopes, name ∉ names) ∧ _))

def Avoids (scopes : List (List String)) (ms : List Mark) : Prop :=
  ∀ (depth : Nat) (names : List String) name between behind, scopes[depth]? = some names →
    name ∈ names → ms = between ++ .declares name :: behind → ¬ Inside depth between

variable {scopes : List (List String)} {ms : List Mark} {name : String}

theorem avoids_opening : Avoids scopes (.opening :: ms) ↔ Avoids ([] :: scopes) ms := by
  constructor
  · intro avoids depth names name between behind found member split inside
    cases depth with
    | zero =>
      cases found
      cases member
    | succ depth =>
      exact avoids depth names name (.opening :: between) behind found member
        (congrArg (.opening :: ·) split) inside
  · intro avoids depth names name between behind found member split inside
    cases between with
    | nil => cases split
    | cons m between =>
      obtain ⟨rfl, rest⟩ := List.cons.inj split
      exact avoids (depth + 1) names name between behind found member rest inside

theorem avoids_closing : Avoids scopes (.closing :: ms) ↔ Avoids scopes.tail ms := by
  constructor
  · intro avoids depth names name between behind found member split inside
    rw [List.getElem?_tail] at found
    exact avoids (depth + 1) names name (.closing :: between) behind found member
      (congrArg (.closing :: ·) split) inside
  · intro avoids depth names name between behind found member split inside
    cases between with
    | nil => cases split
    | cons m between =>
      obtain ⟨rfl, rest⟩ := List.cons.inj split
      cases depth with
      | zero => exact inside
      | succ depth =>
        rw [← List.getElem?_tail] at found
        exact avoids depth names name between behind found member rest inside

theorem avoids_declares : Avoids scopes (.declares name :: ms) ↔
    (∀ names ∈ scopes, name ∉ names) ∧ Avoids scopes ms := by
  constructor
  · intro avoids
    constructor
    · intro names among member
      obtain ⟨depth, found⟩ := List.mem_iff_getElem?.mp among
      exact avoids depth names name [] ms found member rfl (by cases depth <;> trivial)
    · intro depth names other between behind found member split inside
      refine avoids depth names other (.declares name :: between) behind found member
        (congrArg (.declares name :: ·) split) ?_
      cases depth <;> exact inside
  · rintro ⟨free, avoids⟩ depth names other between behind found member split inside
    cases between with
    | nil =>
      cases split
      exact free names (List.mem_iff_getElem?.mpr ⟨depth, found⟩) member
    | cons m between =>
      obtain ⟨rfl, rest⟩ := List.cons.inj split
      refine avoids depth names other between behind found member rest ?_
      cases depth <;> exact inside

/-- What is declared innermost is in scope as long as no brace is closed. -/
theorem avoids_declareIn : Avoids (declareIn name scopes) ms ↔ Avoids scopes ms ∧
    ∀ between behind, ms = between ++ .declares name :: behind → ¬ Inside 0 between := by
  constructor
  · intro avoids
    constructor
    · intro depth names other between behind found member
      cases scopes with
      | nil => cases found
      | cons first scopes =>
        cases depth with
        | zero =>
          cases found
          exact avoids 0 _ other between behind rfl (List.mem_cons_of_mem _ member)
        | succ depth => exact avoids (depth + 1) names other between behind found member
    · intro between behind
      cases scopes <;> exact avoids 0 _ name between behind rfl List.mem_cons_self
  -- Without an open scope, the name opens one of its own.
  · rintro ⟨avoids, here⟩ depth names other between behind found member
    cases scopes with
    | nil =>
      cases depth with
      | zero =>
        cases found
        obtain rfl := List.mem_singleton.mp member
        exact here between behind
      | succ depth => cases found
    | cons first scopes =>
      cases depth with
      | zero =>
        cases found
        rcases List.mem_cons.mp member with rfl | member
        · exact here between behind
        · exact avoids 0 first other between behind rfl member
      | succ depth => exact avoids (depth + 1) names other between behind found member

theorem apart_cons {m : Mark} (other : ∀ name, m ≠ .declares name) :
    Apart (m :: ms) ↔ Apart ms := by
  constructor
  · intro apart before name between behind split
    exact apart (m :: before) name between behind (congrArg (m :: ·) split)
  · intro apart before name between behind split
    cases before with
    | nil => exact absurd (List.cons.inj split).1 (other name)
    | cons m' before => exact apart before name between behind (List.cons.inj split).2

theorem apart_declares : Apart (.declares name :: ms) ↔ Apart ms ∧
    ∀ between behind, ms = between ++ .declares name :: behind → ¬ Inside 0 between := by
  constructor
  · intro apart
    constructor
    · intro before other between behind split
      exact apart (.declares name :: before) other between behind
        (congrArg (.declares name :: ·) split)
    · intro between behind split
      exact apart [] name between behind (congrArg (.declares name :: ·) split)
  · rintro ⟨apart, here⟩ before other between behind split
    cases before with
    | nil =>
      obtain ⟨same, split⟩ := List.cons.inj split
      cases same
      exact here between behind split
    | cons m before => exact apart before other between behind (List.cons.inj split).2

theorem fresh_iff : Fresh scopes ms ↔ Avoids scopes ms ∧ Apart ms := by
  induction ms generalizing scopes with
  | nil =>
    refine iff_of_true trivial ⟨?_, ?_⟩
    · intro depth names name between behind _ _ split
      cases between <;> cases split
    · intro before name between behind split
      cases before <;> cases split
  | cons m ms ih =>
    cases m with
    | opening => rw [Fresh, ih, avoids_opening, apart_cons (by rintro _ ⟨⟩)]
    | closing => rw [Fresh, ih, avoids_closing, apart_cons (by rintro _ ⟨⟩)]
    | declares name =>
      rw [Fresh, ih, avoids_declares, avoids_declareIn, apart_declares]
      constructor
      · rintro ⟨free, ⟨avoids, here⟩, apart⟩
        exact ⟨⟨free, avoids⟩, apart, here⟩
      · rintro ⟨⟨free, avoids⟩, apart, here⟩
        exact ⟨free, ⟨avoids, here⟩, apart⟩

/-- One pass over the marks tells whether the names are declared apart. -/
theorem apart_iff_fresh : Apart ms ↔ Fresh [] ms := by
  rw [fresh_iff]
  have free : Avoids [] ms := fun depth names name between behind found => nomatch found
  exact (and_iff_right free).symm

instance (text : String) : Decidable (WellScoped text) :=
  decidable_of_iff (Fresh [] (marks (bits text.toList))) apart_iff_fresh.symm

def declareAll (names : List String) (scopes : List (List String)) : List (List String) :=
  names.foldl (fun scopes name => declareIn name scopes) scopes

theorem declareAll_append (names more : List String) (scopes : List (List String)) :
    declareAll (names ++ more) scopes = declareAll more (declareAll names scopes) :=
  List.foldl_append

theorem fresh_cons_declares : Fresh scopes (.declares name :: ms) ↔
    name ∉ scopes.flatten ∧ Fresh (declareIn name scopes) ms := by
  rw [Fresh, List.mem_flatten]
  simp only [not_exists, not_and]

theorem mem_flatten_declareIn {other : String} :
    other ∈ (declareIn name scopes).flatten ↔ other = name ∨ other ∈ scopes.flatten := by
  cases scopes <;> simp [declareIn]

theorem mem_flatten_declareAll {names : List String} :
    name ∈ (declareAll names scopes).flatten ↔ name ∈ names ∨ name ∈ scopes.flatten := by
  induction names generalizing scopes with
  | nil => exact (or_iff_right List.not_mem_nil).symm
  | cons first names ih =>
    have next : declareAll (first :: names) scopes =
        declareAll names (declareIn first scopes) := rfl
    rw [next, ih, mem_flatten_declareIn, List.mem_cons, or_left_comm, or_assoc]

/-- Behind the braces their scope is gone. -/
theorem tail_declareAll (names first : List String) :
    (declareAll names (first :: scopes)).tail = scopes := by
  induction names generalizing first with
  | nil => rfl
  | cons name names ih => exact ih (name :: first)

theorem fresh_append_declares {names : List String} (nodup : names.Nodup)
    (free : ∀ name ∈ names, name ∉ scopes.flatten) :
    Fresh scopes (names.map .declares ++ ms) ↔ Fresh (declareAll names scopes) ms := by
  induction names generalizing scopes with
  | nil => exact Iff.rfl
  | cons name names ih =>
    obtain ⟨here, others⟩ := List.forall_mem_cons.mp free
    obtain ⟨apart, nodup⟩ := List.nodup_cons.mp nodup
    rw [List.map_cons, List.cons_append, fresh_cons_declares, and_iff_right here]
    refine ih nodup ?_
    intro other member found
    rcases mem_flatten_declareIn.mp found with rfl | found
    · exact apart member
    · exact others other member found

end Fresh

mutual

/-- The marks that the tree of code calls for. All cases of a switch stand in the same braces. -/
def Stmt.marks : Stmt → List Mark
  | .declare _ name _ => [.declares name]
  | .branch _ thenBody elseBody =>
    .opening :: Stmt.allMarks thenBody ++ [.closing] ++
      if elseBody.isEmpty then [] else .opening :: Stmt.allMarks elseBody ++ [.closing]
  | .switch _ cases => .opening :: Case.allMarks cases ++ [.closing]
  | .loop _ body => .opening :: Stmt.allMarks body ++ [.closing]
  | .expression _ | .assign .. | .ret _ | .breakOff => []

def Stmt.allMarks : List Stmt → List Mark
  | [] => []
  | s :: ss => s.marks ++ Stmt.allMarks ss

def Case.marks : Case → List Mark
  | .on _ body | .default body => Stmt.allMarks body

def Case.allMarks : List Case → List Mark
  | [] => []
  | c :: cs => c.marks ++ Case.allMarks cs

end

def Method.marks (m : Method) : List Mark :=
  m.parameters.map (fun (_, name) => .declares name) ++
    .opening :: Stmt.allMarks m.body ++ [.closing]

end Plc.Java
