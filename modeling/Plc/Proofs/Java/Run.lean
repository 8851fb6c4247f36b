import Plc.Proofs.Java.Pieces

/-! Reading Java code piece by piece. What is read has the shape that the ranks of the operators
give it, and code whose tree has this shape is read as this tree. -/
namespace Plc.Java

def reserved : List String := literalWords ++ keywords

def BeginsWord (text : String) : Prop :=
  ∃ c cs, text.toList = c :: cs ∧ isLetter c = true

instance (text : String) : Decidable (BeginsWord text) :=
  decidable_of_iff (text.toList.head?.any isLetter = true) <| by
    rw [BeginsWord]
    cases text.toList <;> simp

def IsFree (id : String) : Prop := BeginsWord id ∧ id ∉ reserved

instance (id : String) : Decidable (IsFree id) := inferInstanceAs (Decidable (_ ∧ _))

def Tree.tier : Tree → Nat
  | .binary op _ _ => rank op + 1
  | _ => 0

mutual

/-- A left operand binds no looser than its operator and a right one tighter, and all names are
free. -/
def Tree.Sound : Tree → Prop
  | .literal _ => True
  | .name id => IsFree id
  | .group inner => inner.Sound
  | .binary op left right =>
    left.tier ≤ rank op + 1 ∧ right.tier ≤ rank op ∧ left.Sound ∧ right.Sound
  | .element id offset => IsFree id ∧ offset.Sound
  | .call id arguments => IsFree id ∧ Tree.AllSound arguments
  | .array _ => False

def Tree.AllSound : List Tree → Prop
  | [] => True
  | t :: ts => t.Sound ∧ Tree.AllSound ts

end

section Shape

variable {l r t : Tree} {op op' : Operator}

theorem tier_join : (Tree.join op r t).tier ≤ max t.tier (rank op + 1) := by
  cases t with
  | binary op' l' r' =>
    rw [Tree.join]
    split
    · exact Nat.le_max_right _ _
    · exact Nat.le_max_left _ _
  | _ => exact Nat.le_max_right _ _

theorem Tree.Sound.join (left : t.Sound) (right : r.Sound) (operand : r.tier = 0) :
    (Tree.join op r t).Sound := by
  have plain : ∀ {t : Tree}, t.tier = 0 → t.Sound → (Tree.binary op t r).Sound := by
    intro t none sound
    exact ⟨by omega, by omega, sound, right⟩
  induction t using Tree.join.induct op with
  | case1 op' l r' le =>
    rw [Tree.join, if_pos le]
    exact ⟨Nat.succ_le_succ le, by omega, left, right⟩
  | case2 op' l r' lt ih =>
    obtain ⟨leftTier, rightTier, leftSound, rightSound⟩ := left
    have bound : (Tree.join op r r').tier ≤ max r'.tier (rank op + 1) := tier_join
    rw [Tree.join, if_neg lt]
    exact ⟨leftTier, by omega, leftSound, ih rightSound⟩
  | case3 t other =>
    cases t with
    | binary op' l r' => exact (other op' l r' rfl).elim
    | _ => exact plain rfl left

def graft (left : Left) : Tree → Tree
  | .binary op l r => graft (some (graft left l, op)) r
  | t => left.with t

/-- Along the operators that are not in brackets. -/
@[elab_as_elim]
theorem Tree.spine {motive : Tree → Prop} (operand : ∀ t, t.tier = 0 → motive t)
    (binary : ∀ op l r, motive l → motive r → motive (.binary op l r)) (t : Tree) : motive t :=
  match t with
  | .binary op l r => binary op l r (Tree.spine operand binary l) (Tree.spine operand binary r)
  | .literal _ => operand _ rfl
  | .name _ => operand _ rfl
  | .group _ => operand _ rfl
  | .element _ _ => operand _ rfl
  | .call _ _ => operand _ rfl
  | .array _ => operand _ rfl

theorem graft_operand {left : Left} (operand : t.tier = 0) : graft left t = left.with t := by
  cases t with
  | binary => cases operand
  | _ => rfl

/-- An operand that binds tighter goes to the right of an operator. -/
theorem graft_right (sound : t.Sound) (tight : t.tier ≤ rank op) (less : rank op' < rank op) :
    graft (some (.binary op l r, op')) t = .binary op l (graft (some (r, op')) t) := by
  induction t using Tree.spine generalizing r op' with
  | operand t operand =>
    rw [graft_operand operand, graft_operand operand]
    exact if_neg (Nat.not_le.mpr less)
  | binary op'' a b aIh bIh =>
    obtain ⟨_, bTier, aSound, bSound⟩ := sound
    have less' : rank op'' < rank op := tight
    rw [graft, aIh aSound (by omega) less, bIh bSound (by omega) less', graft]

theorem graft_binary (sound : t.Sound) (tight : t.tier ≤ rank op) (left : l.tier ≤ rank op + 1) :
    graft (some (l, op)) t = .binary op l t := by
  induction t using Tree.spine generalizing l op with
  | operand t operand =>
    rw [graft_operand operand]
    cases l with
    | binary op' l r => exact if_pos (Nat.le_of_succ_le_succ left)
    | _ => rfl
  | binary op' a b aIh bIh =>
    obtain ⟨aTier, bTier, aSound, bSound⟩ := sound
    have less : rank op' < rank op := tight
    rw [graft, aIh aSound (by omega) left, graft_right bSound (by omega) less,
      bIh bSound bTier aTier]

theorem graft_none (sound : t.Sound) : graft none t = t := by
  induction t using Tree.spine with
  | operand t operand => exact graft_operand operand
  | binary op a b aIh bIh =>
    obtain ⟨aTier, bTier, aSound, bSound⟩ := sound
    rw [graft, aIh aSound, graft_binary bSound bTier aTier]

end Shape

section Complete

variable {outer : List (Opening × Left)} {left : Left} {s : State} {t : Tree} {p : Piece}

def run (pieces : List Piece) (s : State) : Option State := pieces.foldlM State.step? s

theorem run_append (ps qs : List Piece) : run (ps ++ qs) s = (run ps s).bind (run qs) :=
  List.foldlM_append

theorem run_cons {ps : List Piece} : run (p :: ps) s = (s.step? p).bind (run ps) :=
  List.foldlM_cons

theorem step_behind (whole : s.whole? = some t)
    (plain : p ≠ .dot ∧ p ≠ .opening ∧ p ≠ .openingIndex) : s.step? p = behind? s.outer t p := by
  obtain ⟨outer, left, here⟩ := s
  obtain ⟨noDot, noOpening, noIndex⟩ := plain
  cases here with
  | named id =>
    cases whole
    cases p with
    | dot => exact absurd rfl noDot
    | opening => exact absurd rfl noOpening
    | openingIndex => exact absurd rfl noIndex
    | _ => rfl
  | read t =>
    cases whole
    rfl
  | _ => cases whole

theorem begin_word {id : String} (free : IsFree id) :
    begin? outer left (.word id) = some ⟨outer, left, .named id⟩ := by
  obtain ⟨noLiteral, noKeyword⟩ := not_or.mp (mt List.mem_append.mpr free.2)
  rw [begin?, if_neg noLiteral, if_neg noKeyword]

theorem run_literal (value : Literal) : run (literalPieces value) ⟨outer, left, .expected⟩ =
    some ⟨outer, left, .read (.literal (literalText value))⟩ := by
  have number : ∀ negative text, run (numberPieces negative text) ⟨outer, left, .expected⟩ =
      some ⟨outer, left, .read (.literal ((if negative then "-" else "") ++ text))⟩ := by
    intro negative text
    cases negative with
    | true => rfl
    | false =>
      have same : ((if false then "-" else "") ++ text) = text := by simp
      rw [same]
      rfl
  cases value with
  | nil => rfl
  | boolean b => cases b <;> rfl
  | character c => rfl
  | string s => rfl
  | integer i =>
    rw [literalText, toString_eq_signed]
    exact number _ _
  | decimal d =>
    rw [literalText, literalPieces]
    split
    · rename_i zero
      have text : d.toText = "0" := by rw [Decimal.toText, if_pos zero]
      rw [text]
      rfl
    · rename_i some_
      rw [toText_eq_signed some_]
      exact number _ _

/-- From where an operand is expected, the pieces are read as an expression. -/
def Reads (ps : List Piece) (outer : List (Opening × Left)) (left : Left) (t : Tree) : Prop :=
  ∃ s, run ps ⟨outer, left, .expected⟩ = some s ∧ s.outer = outer ∧ s.whole? = some t

theorem Reads.behind {ps qs : List Piece} (reads : Reads ps outer left t)
    (plain : p ≠ .dot ∧ p ≠ .opening ∧ p ≠ .openingIndex) :
    run (ps ++ p :: qs) ⟨outer, left, .expected⟩ = (behind? outer t p).bind (run qs) := by
  obtain ⟨s, ran, rfl, whole⟩ := reads
  rw [run_append, ran, Option.bind_some, run_cons, step_behind whole plain]

theorem reads_operand {ps : List Piece} (operand : t.tier = 0)
    (ran : run ps ⟨outer, left, .expected⟩ = some ⟨outer, left, .read t⟩) :
    Reads ps outer left (graft left t) :=
  ⟨_, ran, rfl, by rw [graft_operand operand]; rfl⟩

theorem run_word {id : String} {ps : List Piece} (free : IsFree id) :
    run (.word id :: ps) ⟨outer, left, .expected⟩ = run ps ⟨outer, left, .named id⟩ := by
  rw [run_cons]
  have step : (⟨outer, left, .expected⟩ : State).step? (.word id) =
      some ⟨outer, left, .named id⟩ := begin_word free
  rw [step, Option.bind_some]

theorem run_power {ps : List Piece} :
    run ([.word "Math", .dot, .word "pow", .opening] ++ ps) ⟨outer, left, .expected⟩ =
      run ps ⟨(.call "Math.pow" [], left) :: outer, none, .expected⟩ := rfl

mutual

theorem reads_pieces (e : Expr) (plain : e.Plain) (sound : e.tree.Sound)
    (outer : List (Opening × Left)) (left : Left) :
    Reads e.pieces outer left (graft left e.tree) := by
  cases e with
  | literal value => exact reads_operand rfl (run_literal value)
  | group inner =>
    have innerSound : inner.tree.Sound := sound
    have inside := reads_pieces inner plain innerSound ((.group, left) :: outer) none
    rw [graft_none innerSound] at inside
    exact reads_operand rfl (inside.behind (by decide))
  | binary op l r =>
    obtain ⟨noPower, leftPlain, rightPlain⟩ := plain
    obtain ⟨_, _, leftSound, rightSound⟩ := sound
    -- Behind the left operand the right one is read with the former in front of it.
    have first := reads_pieces l leftPlain leftSound outer left
    have step : run (l.pieces ++ .operator op :: r.pieces) ⟨outer, left, .expected⟩ =
        run r.pieces ⟨outer, some (graft left l.tree, op), .expected⟩ :=
      first.behind ⟨nofun, nofun, nofun⟩
    obtain ⟨s, ran, same, whole⟩ :=
      reads_pieces r rightPlain rightSound outer (some (graft left l.tree, op))
    exact ⟨s, step.trans ran, same, whole⟩
  | power base exponent =>
    obtain ⟨basePlain, exponentPlain⟩ := plain
    obtain ⟨_, baseSound, exponentSound, _⟩ := sound
    have first := reads_pieces base basePlain baseSound
      ((.call "Math.pow" [], left) :: outer) none
    have second := reads_pieces exponent exponentPlain exponentSound
      ((.call "Math.pow" [base.tree], left) :: outer) none
    rw [graft_none baseSound] at first
    rw [graft_none exponentSound] at second
    have split : (Expr.power base exponent).pieces =
        [.word "Math", .dot, .word "pow", .opening] ++
          (base.pieces ++ .comma :: (exponent.pieces ++ [.closing])) := by simp [Expr.pieces]
    rw [split]
    exact reads_operand rfl (run_power.trans
      ((first.behind (by decide)).trans (second.behind (by decide))))
  | name id => exact ⟨⟨outer, left, .named id⟩, run_word sound, rfl, rfl⟩
  | element id offset =>
    obtain ⟨_, offsetPlain⟩ := plain
    obtain ⟨free, offsetSound⟩ := sound
    have inside := reads_pieces offset offsetPlain offsetSound ((.element id, left) :: outer) none
    rw [graft_none offsetSound] at inside
    exact reads_operand rfl ((run_word free).trans (inside.behind (by decide)))
  | call id arguments =>
    obtain ⟨_, argumentsPlain⟩ := plain
    obtain ⟨free, argumentsSound⟩ := sound
    refine reads_operand rfl ((run_word free).trans ?_)
    cases arguments with
    | nil => rfl
    | cons e es => exact run_arguments e es argumentsPlain argumentsSound outer left id []
  | array elements => exact plain.elim
termination_by sizeOf e

theorem run_arguments (e : Expr) (es : List Expr) (plain : Expr.AllPlain (e :: es))
    (sound : Tree.AllSound (Expr.trees (e :: es))) (outer : List (Opening × Left)) (left : Left)
    (id : String) (found : List Tree) :
    run (Expr.allPieces (e :: es) ++ [.closing])
        ⟨(.call id found, left) :: outer, none, .expected⟩ =
      some ⟨outer, left, .read (.call id (found ++ Expr.trees (e :: es)))⟩ := by
  obtain ⟨here, others⟩ := plain
  obtain ⟨hereSound, othersSound⟩ := sound
  have first := reads_pieces e here hereSound ((.call id found, left) :: outer) none
  rw [graft_none hereSound] at first
  cases es with
  | nil => exact first.behind (by decide)
  | cons e' es =>
    have behind := run_arguments e' es others othersSound outer left id (found ++ [e.tree])
    have split : Expr.allPieces (e :: e' :: es) ++ [.closing] =
        e.pieces ++ .comma :: (Expr.allPieces (e' :: es) ++ [.closing]) := by
      simp [Expr.allPieces]
    rw [List.append_assoc] at behind
    rw [split]
    exact (first.behind (by decide)).trans behind
termination_by sizeOf (e :: es)

end

end Complete

section Sound

def Left.Sound (left : Left) : Prop := ∀ l ∈ left, l.1.Sound

def Opening.Sound : Opening → Prop
  | .group => True
  | .call id found => IsFree id ∧ Tree.AllSound found
  | .element id => IsFree id

def Here.Sound : Here → Prop
  | .named id => IsFree id
  | .qualified id => IsFree id
  | .read t => t.Sound ∧ t.tier = 0
  | _ => True

structure State.Sound (s : State) : Prop where
  outer : ∀ o ∈ s.outer, o.1.Sound ∧ Left.Sound o.2
  left : Left.Sound s.left
  here : s.here.Sound

variable {outer : List (Opening × Left)} {left : Left} {s next : State} {t : Tree} {p : Piece}

theorem allSound_append {ts : List Tree} (sound : Tree.AllSound ts) (last : t.Sound) :
    Tree.AllSound (ts ++ [t]) := by
  induction ts with
  | nil => exact ⟨last, trivial⟩
  | cons u ts ih => exact ⟨sound.1, ih sound.2⟩

theorem sound_with (leftSound : Left.Sound left) (sound : t.Sound) (operand : t.tier = 0) :
    (left.with t).Sound := by
  cases left with
  | none => exact sound
  | some l => exact (leftSound l rfl).join sound operand

theorem State.Sound.whole (sound : s.Sound) (whole : s.whole? = some t) : t.Sound := by
  obtain ⟨outer, left, here⟩ := s
  cases here with
  | named id =>
    cases whole
    exact sound_with sound.left sound.here rfl
  | read t =>
    cases whole
    exact sound_with sound.left sound.here.1 sound.here.2
  | _ => cases whole

theorem sound_behind (outerSound : ∀ o ∈ outer, o.1.Sound ∧ Left.Sound o.2) (sound : t.Sound)
    (taken : behind? outer t p = some next) : next.Sound := by
  rw [behind?.eq_def] at taken
  split at taken
  · cases taken
    exact ⟨outerSound, fun l member => by cases member; exact sound, trivial⟩
  · split at taken
    · cases taken
      obtain ⟨⟨_, leftSound⟩, others⟩ := List.forall_mem_cons.mp outerSound
      exact ⟨others, leftSound, sound, rfl⟩
    · cases taken
      obtain ⟨⟨⟨free, found⟩, leftSound⟩, others⟩ := List.forall_mem_cons.mp outerSound
      exact ⟨others, leftSound, ⟨free, allSound_append found sound⟩, rfl⟩
    · cases taken
  · split at taken
    · cases taken
      obtain ⟨⟨free, leftSound⟩, others⟩ := List.forall_mem_cons.mp outerSound
      exact ⟨others, leftSound, ⟨free, sound⟩, rfl⟩
    · cases taken
  · split at taken
    · cases taken
      obtain ⟨⟨⟨free, found⟩, leftSound⟩, others⟩ := List.forall_mem_cons.mp outerSound
      exact ⟨List.forall_mem_cons.mpr ⟨⟨⟨free, allSound_append found sound⟩, leftSound⟩, others⟩,
        nofun, trivial⟩
    · cases taken
  · cases taken

theorem sound_begin (word : ∀ text, p = .word text → BeginsWord text)
    (outerSound : ∀ o ∈ outer, o.1.Sound ∧ Left.Sound o.2) (leftSound : Left.Sound left)
    (taken : begin? outer left p = some next) : next.Sound := by
  rw [begin?.eq_def] at taken
  split at taken
  · split at taken
    · cases taken
      exact ⟨outerSound, leftSound, trivial, rfl⟩
    · split at taken
      · cases taken
      · cases taken
        rename_i text noLiteral noKeyword
        have free : text ∉ reserved := mt List.mem_append.mp (not_or.mpr ⟨noLiteral, noKeyword⟩)
        exact ⟨outerSound, leftSound, word text rfl, free⟩
  · cases taken
    exact ⟨outerSound, leftSound, trivial, rfl⟩
  · cases taken
    exact ⟨outerSound, leftSound, trivial, rfl⟩
  · cases taken
    exact ⟨outerSound, leftSound, trivial⟩
  · cases taken
    exact ⟨List.forall_mem_cons.mpr ⟨⟨trivial, leftSound⟩, outerSound⟩, nofun, trivial⟩
  · split at taken
    · cases taken
      obtain ⟨⟨⟨free, _⟩, leftSound⟩, others⟩ := List.forall_mem_cons.mp outerSound
      exact ⟨others, leftSound, ⟨free, trivial⟩, rfl⟩
    · cases taken
  · cases taken

/-- No reserved word has a point in it. -/
theorem IsFree.qualified {front : String} (free : IsFree front) (back : String) :
    IsFree (front ++ "." ++ back) := by
  refine ⟨?_, ?_⟩
  · obtain ⟨c, cs, same, letter⟩ := free.1
    exact ⟨c, cs ++ '.' :: back.toList, by simp [same], letter⟩
  · intro member
    have points : ∀ word ∈ reserved, '.' ∉ word.toList := by decide +kernel
    apply points _ member
    simp

theorem State.Sound.step (word : ∀ text, p = .word text → BeginsWord text) (sound : s.Sound)
    (taken : s.step? p = some next) : next.Sound := by
  obtain ⟨outer, left, here⟩ := s
  have whole : ∀ t, (⟨outer, left, here⟩ : State).whole? = some t → t.Sound :=
    fun t whole => sound.whole whole
  rw [State.step?.eq_def] at taken
  dsimp only at taken
  split at taken
  · exact sound_begin word sound.outer sound.left taken
  · cases taken
    exact ⟨sound.outer, sound.left, trivial, rfl⟩
  · cases taken
  · split at taken
    · cases taken
    · cases taken
      exact ⟨sound.outer, sound.left, IsFree.qualified sound.here _⟩
  · cases taken
  · cases taken
    exact ⟨sound.outer, sound.left, sound.here⟩
  · cases taken
    exact ⟨List.forall_mem_cons.mpr ⟨⟨⟨sound.here, trivial⟩, sound.left⟩, sound.outer⟩, nofun,
      trivial⟩
  · cases taken
    exact ⟨List.forall_mem_cons.mpr ⟨⟨sound.here, sound.left⟩, sound.outer⟩, nofun, trivial⟩
  · exact sound_behind sound.outer (whole _ rfl) taken
  · exact sound_behind sound.outer (whole _ rfl) taken

theorem State.Sound.run {pieces : List Piece}
    (words : ∀ text, .word text ∈ pieces → BeginsWord text) (sound : s.Sound)
    (ran : run pieces s = some next) : next.Sound := by
  induction pieces generalizing s with
  | nil =>
    cases ran
    exact sound
  | cons p pieces ih =>
    rw [run_cons] at ran
    obtain ⟨mid, step, behind⟩ := Option.bind_eq_some_iff.mp ran
    have word : ∀ text, p = .word text → BeginsWord text :=
      fun text same => words text (same ▸ List.mem_cons_self)
    exact ih (fun text member => words text (List.mem_cons_of_mem p member))
      (sound.step word step) behind

theorem ofSign_ne_word (sign text : String) : Piece.ofSign sign ≠ .word text := by
  rw [Piece.ofSign]
  repeat' split
  all_goals nofun

theorem beginsWord_of_take? {c : Char} {cs rest : List Char} {text : String}
    (taken : take? c cs = some (.word text, rest)) : BeginsWord text := by
  rw [take?] at taken
  split at taken
  · rename_i letter
    cases taken
    exact ⟨c, _, String.toList_ofList, letter⟩
  · split at taken
    · cases taken
    · split at taken
      · obtain ⟨_, _, same⟩ := Option.map_eq_some_iff.mp taken
        cases same
      · exact absurd (congrArg Prod.fst (Option.some.inj taken)) (ofSign_ne_word _ _)

theorem beginsWord_of_cut {cs : List Char} {pieces : List Piece} (given : cut cs = some pieces) :
    ∀ text, .word text ∈ pieces → BeginsWord text := by
  fun_induction cut cs generalizing pieces with
  | case1 =>
    cases given
    exact fun _ => nofun
  | case2 c cs space ih => exact ih given
  | case3 c cs _ none => cases given
  | case4 c cs _ p rest taken _ ih =>
    obtain ⟨others, behind, rfl⟩ := Option.map_eq_some_iff.mp given
    intro text member
    rcases List.mem_cons.mp member with rfl | member
    · exact beginsWord_of_take? taken
    · exact ih behind text member

end Sound

theorem sound_of_read? {text : String} {t : Tree} (answered : read? text = some t) : t.Sound := by
  obtain ⟨pieces, given, answered⟩ := Option.bind_eq_some_iff.mp answered
  obtain ⟨s, ran, answered⟩ := Option.bind_eq_some_iff.mp answered
  have sound : State.initial.Sound := ⟨nofun, nofun, trivial⟩
  rw [State.answer?] at answered
  split at answered
  · exact (sound.run (beginsWord_of_cut given) ran).whole answered
  · cases answered

/-- Code is read as its tree exactly if the tree is sound. -/
theorem read?_text_iff {e : Expr} (plain : e.Plain) :
    read? e.text = some e.tree ↔ e.tree.Sound := by
  refine ⟨sound_of_read?, ?_⟩
  intro sound
  obtain ⟨s, ran, outer, whole⟩ := reads_pieces e plain sound [] none
  rw [graft_none sound] at whole
  have ran : e.pieces.foldlM State.step? State.initial = some s := ran
  rw [read?, cut_text plain]
  simp only [Option.bind_eq_bind, Option.bind_some, ran, State.answer?, outer, List.isEmpty_nil,
    if_true, whole]

end Plc.Java
