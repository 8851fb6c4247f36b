import Plc.Proofs.Java.Marks

/-! The order of statements in the text of a method: where each statement ends, and whether it is a
return statement. For this the text is cut at the signs behind which something else begins. -/
namespace Plc.Java

open Token (IsIdentifier isIdentifier_iff)

/-- A stretch of code as far as the order of statements goes: a statement up to its semicolon, a
heading up to its brace, a closing brace, or the label of a case. -/
inductive Stretch where
  | statement (returns : Bool)
  | opening
  | closing
  | label
deriving DecidableEq

def returns (cs : List Char) : Bool := cs.takeWhile isLetterOrDigit == "return".toList

def stretch? (begun : List Char) (c : Char) : Option Stretch :=
  if c = ';' then some (.statement (returns begun))
  else if c = '\x7b' then some .opening
  else if c = '\x7d' then some .closing
  else if c = ':' then some .label
  else none

/-- The stretches of code, where one has begun already. Blanks in front of a stretch do not belong
to it, and no sign between quotes ends one. -/
def stretches (begun : List Char) : List Char → List Stretch
  | [] => []
  | c :: cs =>
    match stretch? begun c with
    | some s => s :: stretches [] cs
    | none =>
      if begun = [] ∧ isSpace c then stretches [] cs
      else if c = '"' ∨ c = '\'' then
        match _taken : takeQuoted? c cs with
        | some (text, rest) => stretches (begun ++ c :: text) rest
        | none => []
      else stretches (begun ++ [c]) cs
termination_by cs => cs.length
decreasing_by
  · exact Nat.lt_succ_self _
  · exact Nat.lt_succ_self _
  · exact Nat.lt_succ_of_lt (takeQuoted?_length _taken)
  · exact Nat.lt_succ_self _

/-- Whether a list of statements ends at a stretch, at the braces around it or at the next case. -/
def Stretch.Ends (s : Stretch) : Prop := s = .closing ∨ s = .label

instance : DecidablePred Stretch.Ends := fun s =>
  inferInstanceAs (Decidable (s = .closing ∨ s = .label))

def Follows (here next : Stretch) : Prop := here = .statement true → next.Ends

instance : DecidableRel Follows := fun here next =>
  inferInstanceAs (Decidable (here = .statement true → next.Ends))

/-- No statement stands directly behind a return statement, within the same braces and the same
case. -/
def ReturnsLast (text : String) : Prop := (stretches [] text.toList).IsChain Follows

instance (text : String) : Decidable (ReturnsLast text) :=
  inferInstanceAs (Decidable (List.IsChain _ _))

section Flat

variable {c : Char} {cs ds rest : List Char} {id : String}

def isOrdinary (c : Char) : Bool := c ∉ [';', '\x7b', '\x7d', ':', '"', '\'']

inductive Flat : List Char → Prop
  | nil : Flat []
  | ordinary {c : Char} {cs : List Char} (ordinary : isOrdinary c = true) (behind : Flat cs) :
      Flat (c :: cs)
  | quoted {quote : Char} {cs : List Char} (isQuote : quote = '"' ∨ quote = '\'')
      (text : List Char) (behind : Flat cs) : Flat ((quoted quote text).toList ++ cs)

def Solid (cs : List Char) : Prop := ∃ c ds, cs = c :: ds ∧ isSpace c = false

theorem Flat.append (front : Flat cs) (behind : Flat ds) : Flat (cs ++ ds) := by
  induction front with
  | nil => exact behind
  | ordinary ordinary _ ih => exact .ordinary ordinary ih
  | quoted isQuote text _ ih =>
    rw [List.append_assoc]
    exact .quoted isQuote text ih

theorem Flat.of_ordinary (ordinary : ∀ c ∈ cs, isOrdinary c = true) : Flat cs := by
  induction cs with
  | nil => exact .nil
  | cons c cs ih =>
    obtain ⟨here, behind⟩ := List.forall_mem_cons.mp ordinary
    exact .ordinary here (ih behind)

theorem Flat.intercalate {texts : List String} (each : ∀ text ∈ texts, Flat text.toList) :
    Flat (", ".intercalate texts).toList := by
  induction texts with
  | nil => exact .nil
  | cons text texts ih =>
    obtain ⟨here, behind⟩ := List.forall_mem_cons.mp each
    cases texts with
    | nil => simpa using here
    | cons next texts =>
      have comma : Flat ", ".toList := .of_ordinary (List.all_eq_true.mp rfl)
      have whole := here.append (comma.append (ih behind))
      simpa [String.toList_intercalate] using whole

theorem Solid.append (solid : Solid cs) (ds : List Char) : Solid (cs ++ ds) := by
  obtain ⟨c, cs, rfl, noSpace⟩ := solid
  exact ⟨c, cs ++ ds, rfl, noSpace⟩

theorem stretch?_ordinary (ordinary : isOrdinary c = true) (begun : List Char) :
    stretch? begun c = none := by
  simp only [isOrdinary, List.mem_cons, List.not_mem_nil, or_false, not_or,
    decide_eq_true_eq] at ordinary
  rw [stretch?, if_neg ordinary.1, if_neg ordinary.2.1, if_neg ordinary.2.2.1,
    if_neg ordinary.2.2.2.1]

theorem stretches_ordinary {begun : List Char} (ordinary : isOrdinary c = true)
    (solid : begun ≠ [] ∨ isSpace c = false) :
    stretches begun (c :: cs) = stretches (begun ++ [c]) cs := by
  have noBlank : ¬ (begun = [] ∧ isSpace c = true) := by
    rintro ⟨empty, space⟩
    rcases solid with some_ | noSpace
    · exact some_ empty
    · exact Bool.noConfusion (space.symm.trans noSpace)
  have noQuote : ¬ (c = '"' ∨ c = '\'') := by
    rintro (rfl | rfl) <;> exact absurd ordinary (by decide)
  rw [stretches, stretch?_ordinary ordinary]
  simp only [if_neg noBlank, if_neg noQuote]

theorem stretches_quoted {quote : Char} (isQuote : quote = '"' ∨ quote = '\'')
    (begun text : List Char) : stretches begun ((quoted quote text).toList ++ rest) =
      stretches (begun ++ (quoted quote text).toList) rest := by
  have plain : isSpace quote = false ∧ quote ≠ '\\' ∧ ∀ begun, stretch? begun quote = none := by
    rcases isQuote with rfl | rfl <;> exact ⟨rfl, by decide, fun _ => rfl⟩
  obtain ⟨noSpace, noEscape, inside⟩ := plain
  have written : (quoted quote text).toList = quote :: (Quoted.encode quote text ++ [quote]) :=
    String.toList_ofList
  rw [written, List.cons_append, List.append_assoc, List.singleton_append, stretches, inside]
  simp only [noSpace, Bool.false_eq_true, and_false, if_false, if_pos isQuote]
  split
  · rename_i rest' taken
    rw [takeQuoted?_encode noEscape] at taken
    cases taken
    rfl
  · rename_i taken
    rw [takeQuoted?_encode noEscape] at taken
    cases taken

/-- Flat code belongs to the stretch that it stands in as a whole. -/
theorem stretches_flat (flat : Flat cs) {begun : List Char} (solid : begun ≠ [] ∨ Solid cs) :
    stretches begun (cs ++ rest) = stretches (begun ++ cs) rest := by
  induction flat generalizing begun with
  | nil => simp
  | @ordinary c cs ordinary behind ih =>
    have here : begun ≠ [] ∨ isSpace c = false := by
      rcases solid with some_ | ⟨_, _, same, noSpace⟩
      · exact .inl some_
      · cases same
        exact .inr noSpace
    rw [List.cons_append, stretches_ordinary ordinary here, ih (.inl (by simp)), List.append_assoc,
      List.singleton_append]
  | @quoted quote cs isQuote text behind ih =>
    have some_ : begun ++ (Java.quoted quote text).toList ≠ [] := by
      simp [Java.quoted]
    rw [List.append_assoc, stretches_quoted isQuote, ih (.inl some_), List.append_assoc]

end Flat

/-- The text has these stretches, and what stands behind it has its own. -/
def Ordered (text : String) (ss : List Stretch) : Prop :=
  ∀ rest, stretches [] (text.toList ++ rest) = ss ++ stretches [] rest

section Texts

variable {text : String}

theorem additive_ordered : Additive Ordered where
  append := by
    intro text other ss ts front behind rest
    rw [String.toList_append, List.append_assoc, front, behind, List.append_assoc]
  blank := by
    intro text blank rest
    rw [List.nil_append]
    generalize text.toList = cs at blank
    induction cs with
    | nil => rfl
    | cons c cs ih =>
      obtain ⟨here, behind⟩ := List.forall_mem_cons.mp blank
      have inside : stretch? [] c = none := by
        simp only [isSpace, Bool.or_eq_true, beq_iff_eq] at here
        rcases here with (((rfl | rfl) | rfl) | rfl) | rfl <;> rfl
      rw [List.cons_append, stretches, inside]
      simpa only [here, and_self, if_true] using ih behind

/-- Flat code up to a sign that ends a stretch. -/
theorem ordered_sign {sign : String} {c : Char} {s : Stretch} (flat : Flat text.toList)
    (solid : Solid text.toList) (same : sign.toList = [c])
    (ends : stretch? text.toList c = some s) : Ordered (text ++ sign) [s] := by
  intro rest
  rw [String.toList_append, same, List.append_assoc, stretches_flat flat (.inr solid),
    List.nil_append, List.singleton_append, stretches, ends, List.singleton_append]

theorem ordered_opening (flat : Flat text.toList) (solid : Solid text.toList) :
    Ordered (text ++ "\x7b") [.opening] :=
  ordered_sign flat solid rfl rfl

theorem ordered_closing : Ordered "\x7d" [.closing] := by
  intro rest
  exact stretches.eq_def [] ('\x7d' :: rest)

end Texts

section Expressions

variable {c : Char} {cs rest : List Char} {id : String}

theorem ordinary_of_isNumberPart (part : isNumberPart c = true) : isOrdinary c = true := by
  have none_ : ∀ c ∈ [';', '\x7b', '\x7d', ':', '"', '\''], (!isNumberPart c) = true :=
    List.all_eq_true.mp rfl
  refine decide_eq_true fun member => ?_
  have other := none_ c member
  rw [part] at other
  cases other

theorem isNumberPart_of_isNamePart (part : Token.isNamePart c = true) : isNumberPart c = true := by
  rw [isNumberPart, part]
  rfl

theorem ordinary_of_isNameStart (start : Token.isNameStart c = true) : isOrdinary c = true := by
  have none_ : ∀ c ∈ [';', '\x7b', '\x7d', ':', '"', '\''], (!Token.isNameStart c) = true :=
    List.all_eq_true.mp rfl
  refine decide_eq_true fun member => ?_
  have other := none_ c member
  rw [start] at other
  cases other

theorem flat_identifier (named : IsIdentifier id) : Flat id.toList := by
  obtain ⟨c, cs, same, start, parts⟩ := isIdentifier_iff.mp named
  rw [same]
  exact .ordinary (ordinary_of_isNameStart start) (.of_ordinary fun d member =>
    ordinary_of_isNumberPart (isNumberPart_of_isNamePart (parts d member)))

theorem solid_identifier (named : IsIdentifier id) : Solid id.toList := by
  obtain ⟨c, cs, same, start, _⟩ := isIdentifier_iff.mp named
  exact ⟨c, cs, same, isSpace_of_isNameStart start⟩

theorem flat_word {word : String} (ordinary : word.toList.all isOrdinary = true) :
    Flat word.toList :=
  .of_ordinary (List.all_eq_true.mp ordinary)

theorem solid_word {word : String} (begins : word.toList.head?.any (!isSpace ·) = true) :
    Solid word.toList := by
  cases same : word.toList with
  | nil =>
    rw [same] at begins
    cases begins
  | cons c cs =>
    rw [same] at begins
    exact ⟨c, cs, rfl, by simpa using begins⟩

theorem flat_method (method : IsMethod id) : Flat id.toList := by
  rcases method with named | rfl
  · exact flat_identifier named
  · exact flat_word rfl

theorem solid_method (method : IsMethod id) : Solid id.toList := by
  rcases method with named | rfl
  · exact solid_identifier named
  · exact solid_word rfl

structure Begins (cs : List Char) : Prop where
  flat : Flat cs
  solid : Solid cs
  stays : returns cs = false

theorem returns_cons (other : c ≠ 'r') : returns (c :: cs) = false := by
  rw [returns, beq_eq_false_iff_ne, List.takeWhile_cons]
  split
  · exact fun same => other (List.cons.inj same).1
  · exact nofun

theorem returns_append (stops : ∀ c ∈ rest.head?, isLetterOrDigit c = false) :
    returns (cs ++ rest) = returns cs := by
  have same : (cs ++ rest).takeWhile isLetterOrDigit = cs.takeWhile isLetterOrDigit := by
    induction cs with
    | nil => exact (takeWhile_append_rest (List.forall_mem_nil _) stops).1
    | cons c cs ih =>
      rw [List.cons_append, List.takeWhile_cons, List.takeWhile_cons, ih]
  rw [returns, returns, same]

theorem begins_word {word : String} (ordinary : word.toList.all isOrdinary = true)
    (begins : word.toList.head?.any (!isSpace ·) = true) (stays : returns word.toList = false) :
    Begins word.toList :=
  ⟨flat_word ordinary, solid_word begins, stays⟩

theorem begins_quoted {quote : Char} (isQuote : quote = '"' ∨ quote = '\'') (text : List Char) :
    Begins (quoted quote text).toList := by
  have flat : Flat ((quoted quote text).toList ++ []) := .quoted isQuote text .nil
  have written : (quoted quote text).toList = quote :: (Quoted.encode quote text ++ [quote]) :=
    String.toList_ofList
  rw [List.append_nil] at flat
  refine ⟨flat, ⟨quote, _, written, ?_⟩, ?_⟩
  · rcases isQuote with rfl | rfl <;> rfl
  · rw [written]
    refine returns_cons ?_
    rcases isQuote with rfl | rfl <;> decide

theorem begins_number (number : IsNumber cs) : Begins cs := by
  have flat : Flat cs := .of_ordinary fun c member =>
    ordinary_of_isNumberPart (number.isNumberPart c member)
  obtain ⟨d, ds, rfl, digit⟩ := number.cons
  refine ⟨flat, ⟨d, ds, rfl, isSpace_of_isDigit digit⟩, returns_cons ?_⟩
  rintro rfl
  exact absurd digit (by decide)

theorem begins_signed {text : String} (number : IsNumber text.toList) (negative : Bool) :
    Begins ((if negative then "-" else "") ++ text).toList := by
  have plain := begins_number number
  cases negative with
  | true =>
    rw [if_pos rfl, String.toList_append]
    exact ⟨.ordinary rfl plain.flat, ⟨'-', _, rfl, rfl⟩, returns_cons (by decide)⟩
  | false =>
    rw [if_neg Bool.false_ne_true, String.toList_append]
    exact plain

theorem begins_literal (value : Literal) : Begins (literalText value).toList := by
  cases value with
  | nil => exact begins_word rfl rfl rfl
  | boolean b =>
    cases b with
    | true => exact begins_word rfl rfl rfl
    | false => exact begins_word rfl rfl rfl
  | character c => exact begins_quoted (.inr rfl) [c]
  | string s => exact begins_quoted (.inl rfl) s.toList
  | integer i =>
    rw [literalText, toString_eq_signed]
    exact begins_signed (isNumber_toString i.natAbs) _
  | decimal d =>
    rw [literalText]
    by_cases zero : d.digits = 0
    · have text : d.toText = "0" := by rw [Decimal.toText, if_pos zero]
      rw [text]
      exact begins_word rfl rfl rfl
    · rw [toText_eq_signed zero]
      refine begins_signed ?_ _
      rw [String.toList_ofList]
      exact isNumber_magnitudeText _ _

theorem flat_symbol (op : Operator) : Flat (" " ++ op.symbol ++ " ").toList := by
  cases op <;> exact flat_word rfl

mutual

theorem flat_text (e : Expr) (here : e.Local) : Flat e.text.toList := by
  cases e with
  | literal value => exact (begins_literal value).flat
  | group inner =>
    have text : (Expr.group inner).text.toList = '(' :: (inner.text.toList ++ [')']) := by
      simp [Expr.text]
    rw [text]
    exact .ordinary rfl ((flat_text inner here).append (.ordinary rfl .nil))
  | binary op left right =>
    obtain ⟨first, second⟩ := here
    have text : (Expr.binary op left right).text.toList =
        left.text.toList ++ ((" " ++ op.symbol ++ " ").toList ++ right.text.toList) := by
      simp [Expr.text]
    rw [text]
    exact (flat_text left first).append ((flat_symbol op).append (flat_text right second))
  | power base exponent =>
    obtain ⟨first, second⟩ := here
    have opened : Flat "Math.pow(".toList := flat_word rfl
    have comma : Flat ", ".toList := flat_word rfl
    have text : (Expr.power base exponent).text.toList = "Math.pow(".toList ++
        (base.text.toList ++ (", ".toList ++ (exponent.text.toList ++ [')']))) := by
      simp [Expr.text]
    rw [text]
    exact opened.append ((flat_text base first).append
      (comma.append ((flat_text exponent second).append (.ordinary rfl .nil))))
  | name id => exact flat_identifier here
  | element id offset =>
    obtain ⟨named, inside⟩ := here
    have text : (Expr.element id offset).text.toList =
        id.toList ++ '[' :: (offset.text.toList ++ [']']) := by simp [Expr.text]
    rw [text]
    exact (flat_identifier named).append
      (.ordinary rfl ((flat_text offset inside).append (.ordinary rfl .nil)))
  | call id arguments =>
    obtain ⟨method, inside⟩ := here
    have text : (Expr.call id arguments).text.toList = id.toList ++
        '(' :: ((", ".intercalate (Expr.texts arguments)).toList ++ [')']) := by
      simp [Expr.text]
    rw [text]
    exact (flat_method method).append
      (.ordinary rfl ((Flat.intercalate (flat_texts arguments inside)).append (.ordinary rfl .nil)))
  | array elements => exact here.elim

theorem flat_texts (es : List Expr) (here : Expr.AllLocal es) :
    ∀ text ∈ Expr.texts es, Flat text.toList := by
  cases es with
  | nil => exact List.forall_mem_nil _
  | cons e es =>
    exact List.forall_mem_cons.mpr ⟨flat_text e here.1, flat_texts es here.2⟩

end

def Expr.firstName? : Expr → Option String
  | .binary _ left _ => left.firstName?
  | .name id | .element id _ | .call id _ => some id
  | .literal _ | .group _ | .power .. | .array _ => none

def Expr.returns (e : Expr) : Bool := e.firstName?.any fun id => Java.returns id.toList

theorem begins_text (e : Expr) (here : e.Local) :
    Solid e.text.toList ∧ Java.returns e.text.toList = e.returns := by
  cases e with
  | literal value => exact ⟨(begins_literal value).solid, (begins_literal value).stays⟩
  | group inner =>
    have text : (Expr.group inner).text.toList = '(' :: (inner.text.toList ++ [')']) := by
      simp [Expr.text]
    rw [text]
    exact ⟨⟨'(', _, rfl, rfl⟩, returns_cons (by decide)⟩
  | binary op left right =>
    obtain ⟨solid, word⟩ := begins_text left here.1
    have text : (Expr.binary op left right).text.toList =
        left.text.toList ++ ' ' :: (op.symbol.toList ++ ' ' :: right.text.toList) := by
      simp [Expr.text]
    rw [text, returns_append (forall_head rfl)]
    exact ⟨solid.append _, word⟩
  | power base exponent =>
    have text : (Expr.power base exponent).text.toList = 'M' :: ("ath.pow(".toList ++
        (base.text.toList ++ (", ".toList ++ (exponent.text.toList ++ [')'])))) := by
      simp [Expr.text]
    rw [text]
    exact ⟨⟨'M', _, rfl, rfl⟩, returns_cons (by decide)⟩
  | name id => exact ⟨solid_identifier here, rfl⟩
  | element id offset =>
    have text : (Expr.element id offset).text.toList =
        id.toList ++ '[' :: (offset.text.toList ++ [']']) := by simp [Expr.text]
    rw [text, returns_append (forall_head rfl)]
    exact ⟨(solid_identifier here.1).append _, rfl⟩
  | call id arguments =>
    have text : (Expr.call id arguments).text.toList = id.toList ++
        '(' :: ((", ".intercalate (Expr.texts arguments)).toList ++ [')']) := by
      simp [Expr.text]
    rw [text, returns_append (forall_head rfl)]
    exact ⟨(solid_method here.1).append _, rfl⟩
  | array elements => exact here.elim

end Expressions

mutual

def Stmt.stretches : Stmt → List Stretch
  | .expression value => [.statement value.returns]
  | .assign receiver _ => [.statement receiver.returns]
  | .ret _ => [.statement true]
  | .declare .. | .breakOff => [.statement false]
  | .branch _ thenBody elseBody =>
    .opening :: Stmt.allStretches thenBody ++ [.closing] ++
      if elseBody.isEmpty then [] else .opening :: Stmt.allStretches elseBody ++ [.closing]
  | .switch _ cases => .opening :: Case.allStretches cases ++ [.closing]
  | .loop _ body => .opening :: Stmt.allStretches body ++ [.closing]

def Stmt.allStretches : List Stmt → List Stretch
  | [] => []
  | s :: ss => s.stretches ++ Stmt.allStretches ss

def Case.stretches : Case → List Stretch
  | .on _ body | .default body => .label :: Stmt.allStretches body

def Case.allStretches : List Case → List Stretch
  | [] => []
  | c :: cs => c.stretches ++ Case.allStretches cs

end

def Method.stretches (m : Method) : List Stretch :=
  .opening :: Stmt.allStretches m.body ++ [.closing]

section Statements

variable {e : Expr} {name : String}

theorem ordered_semicolon {text : String} (flat : Flat text.toList) (solid : Solid text.toList) :
    Ordered (text ++ ";") [.statement (returns text.toList)] :=
  ordered_sign flat solid rfl rfl

theorem ordered_expression (here : e.Local) :
    Ordered (e.text ++ ";") [.statement e.returns] := by
  obtain ⟨solid, word⟩ := begins_text e here
  rw [← word]
  exact ordered_semicolon (flat_text e here) solid

theorem flat_append {text other : String} (front : Flat text.toList)
    (behind : Flat other.toList) : Flat (text ++ other).toList := by
  rw [String.toList_append]
  exact front.append behind

theorem solid_append {text : String} (solid : Solid text.toList) (other : String) :
    Solid (text ++ other).toList := by
  rw [String.toList_append]
  exact solid.append _

theorem isOrdinary_javaName (ty : Ty) :
    ty.javaName.toList.all isOrdinary = true ∧ returns ty.javaName.toList = false := by
  cases ty <;> exact ⟨rfl, rfl⟩

theorem flat_typed (ty : Ty) (named : IsIdentifier name) :
    Flat (ty.javaName ++ " " ++ name).toList :=
  flat_append (flat_append (flat_word (isOrdinary_javaName ty).1) (flat_word rfl))
    (flat_identifier named)

theorem solid_javaName (ty : Ty) : Solid ty.javaName.toList :=
  solid_identifier (isIdentifier_javaName ty).1

theorem ordered_declare (ty : Ty) {value : Option Expr} (named : IsIdentifier name)
    (here : ∀ e ∈ value, e.Local) :
    Ordered (ty.javaName ++ " " ++ name ++ assignedText value ++ ";") [.statement false] := by
  have assigned : Flat (assignedText value).toList := by
    cases value with
    | none => exact .nil
    | some e => exact flat_append (flat_word rfl) (flat_text e (here e rfl))
  have flat := flat_append (flat_typed ty named) assigned
  have solid := solid_append (solid_append (solid_append (solid_javaName ty) " ") name)
    (assignedText value)
  have word : returns (ty.javaName ++ " " ++ name ++ assignedText value).toList = false := by
    have text : (ty.javaName ++ " " ++ name ++ assignedText value).toList =
        ty.javaName.toList ++ ' ' :: (name.toList ++ (assignedText value).toList) := by simp
    rw [text, returns_append (forall_head rfl)]
    exact (isOrdinary_javaName ty).2
  have ordered := ordered_semicolon flat solid
  rwa [word] at ordered

theorem ordered_assign {receiver : Expr} (place : receiver.Local) (here : e.Local) :
    Ordered (receiver.text ++ " = " ++ e.text ++ ";") [.statement receiver.returns] := by
  obtain ⟨solid, begins⟩ := begins_text receiver place
  have equals : Flat " = ".toList := flat_word rfl
  have flat := flat_append (flat_append (flat_text receiver place) equals) (flat_text e here)
  have word : returns (receiver.text ++ " = " ++ e.text).toList = receiver.returns := by
    have text : (receiver.text ++ " = " ++ e.text).toList =
        receiver.text.toList ++ ' ' :: '=' :: ' ' :: e.text.toList := by simp
    rw [text, returns_append (forall_head rfl), begins]
  have ordered := ordered_semicolon flat (solid_append (solid_append solid " = ") e.text)
  rwa [word] at ordered

theorem ordered_return (here : e.Local) :
    Ordered ("return " ++ e.text ++ ";") [.statement true] := by
  have front : Flat "return ".toList := flat_word rfl
  have solid : Solid "return ".toList := solid_word rfl
  have word : returns ("return " ++ e.text).toList = true := by
    have text : ("return " ++ e.text).toList = "return".toList ++ ' ' :: e.text.toList := by simp
    rw [text, returns_append (forall_head rfl)]
    rfl
  have ordered := ordered_semicolon (flat_append front (flat_text e here))
    (solid_append solid e.text)
  rwa [word] at ordered

/-- A condition behind a word, and the brace behind it. -/
theorem ordered_condition {word : String} (ordinary : word.toList.all isOrdinary = true)
    (begins : word.toList.head?.any (!isSpace ·) = true) (here : e.Local) :
    Ordered (word ++ e.text ++ ") " ++ "\x7b") ([] ++ [.opening]) := by
  have closed : Flat ") ".toList := flat_word rfl
  exact ordered_opening (flat_append (flat_append (flat_word ordinary) (flat_text e here)) closed)
    (solid_append (solid_append (solid_word begins) e.text) ") ")

theorem ordered_case (here : e.Local) : Ordered ("case " ++ e.text ++ ":") [.label] := by
  have front : Flat "case ".toList := flat_word rfl
  have solid : Solid "case ".toList := solid_word rfl
  exact ordered_sign (flat_append front (flat_text e here)) (solid_append solid e.text) rfl rfl

theorem ordered_default : Ordered ("default" ++ ":") [.label] :=
  ordered_sign (flat_word rfl) (solid_word rfl) rfl rfl

theorem ordered_break : Ordered ("break" ++ ";") [.statement false] :=
  ordered_semicolon (flat_word rfl) (solid_word rfl)

theorem ordered_else : Ordered (" else " ++ "\x7b") ([] ++ [.opening]) := by
  have blank : Ordered " " [] := additive_ordered.blank (List.all_eq_true.mp rfl)
  have word : Ordered ("else " ++ "\x7b") [.opening] :=
    ordered_opening (flat_word rfl) (solid_word rfl)
  have split : " else " ++ "\x7b" = " " ++ ("else " ++ "\x7b") := rfl
  rw [split]
  exact additive_ordered.append blank word

theorem ordered_heading (m : Method) (here : m.Local) :
    Ordered (m.heading ++ "\x7b") ([] ++ [.opening]) := by
  have opened : Flat "(".toList := flat_word rfl
  have closed : Flat ") ".toList := flat_word rfl
  have parameters : Flat (", ".intercalate (m.parameters.map parameterText)).toList := by
    refine .intercalate fun text member => ?_
    obtain ⟨parameter, among, rfl⟩ := List.mem_map.mp member
    exact flat_typed parameter.1 (here.parameters parameter among)
  have heading : m.heading = m.result.javaName ++ " " ++ m.name ++ "(" ++
      ", ".intercalate (m.parameters.map parameterText) ++ ") " := rfl
  have front := flat_append (flat_typed m.result here.name) opened
  have solid : Solid m.heading.toList := by
    simp only [heading, String.append_assoc]
    exact solid_append (solid_javaName m.result) _
  have flat := flat_append (flat_append front parameters) closed
  rw [← heading] at flat
  exact ordered_opening flat solid

end Statements

def stretchAspect : Aspect Stretch where
  tells := Ordered
  opening := .opening
  closing := .closing
  label := [.label]
  stmt := Stmt.stretches
  block := Stmt.allStretches
  case := Case.stretches
  cases := Case.allStretches

theorem sound_stretchAspect : stretchAspect.Sound where
  toAdditive := additive_ordered
  closes := ordered_closing
  condition := by
    intro word heads e here
    simp only [conditionHeads, List.mem_cons, List.not_mem_nil, or_false] at heads
    rcases heads with rfl | rfl | rfl <;> exact ordered_condition rfl rfl here
  otherwise := ordered_else
  on := ordered_case
  default := ordered_default
  expression := ordered_expression
  declare ty _ _ := ordered_declare ty
  assign := ordered_assign
  ret := ordered_return
  breakOff := ordered_break
  branch _ _ _ := rfl
  switch _ _ := rfl
  loop _ _ := rfl
  block_nil := rfl
  block_cons _ _ := rfl
  case_on _ _ := rfl
  case_default _ := rfl
  cases_nil := rfl
  cases_cons _ _ := rfl

theorem stretches_render (m : Method) (here : m.Local) :
    stretches [] m.render.toList = m.stretches := by
  have marking : Marking Ordered m.lines m.stretches :=
    (sound_stretchAspect.marking_block m.body here.body).braced additive_ordered
      (ordered_heading m here) ordered_closing
  have whole := marking.render additive_ordered []
  rw [List.append_nil, stretches, List.append_nil] at whole
  exact whole

end Plc.Java
