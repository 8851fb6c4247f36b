import Plc.Proofs.Typing.Erasure
import Plc.Proofs.Typing.Places

/-! All statements and all expressions of a program, as lists. What stands at a place of the program
is in one of them, what is passed on to all parts holds of each, and erasing the slots erases those
of each. -/
namespace Plc

mutual

def Expr.within : Expr → List Expr
  | .literal value ty => [.literal value ty]
  | .group inner ty => .group inner ty :: inner.within
  | .binary op left right ty => .binary op left right ty :: (left.within ++ right.within)
  | .access name slot => [.access name slot]
  | .element name offset slot => .element name offset slot :: offset.within
  | .call name arguments slot => .call name arguments slot :: Expr.allWithin arguments
  | .list elements ty => .list elements ty :: Expr.allWithin elements

def Expr.allWithin : List Expr → List Expr
  | [] => []
  | e :: es => e.within ++ Expr.allWithin es

end

mutual

def Stmt.within : Stmt → List Stmt
  | .branch condition thenBody elseBody =>
    .branch condition thenBody elseBody :: (Stmt.allWithin thenBody ++ Stmt.allWithin elseBody)
  | .switch condition cases => .switch condition cases :: Case.allWithin cases
  | .loop condition body => .loop condition body :: Stmt.allWithin body
  | s => [s]

def Stmt.allWithin : List Stmt → List Stmt
  | [] => []
  | s :: ss => s.within ++ Stmt.allWithin ss

def Case.within : Case → List Stmt
  | .on _ body => Stmt.allWithin body
  | .default body => Stmt.allWithin body

def Case.allWithin : List Case → List Stmt
  | [] => []
  | c :: cs => c.within ++ Case.allWithin cs

end

namespace Expr

theorem mem_within_self (e : Expr) : e ∈ e.within := by
  cases e <;> exact List.mem_cons_self

theorem mem_allWithin {es : List Expr} {e x : Expr} (member : e ∈ es) (inside : x ∈ e.within) :
    x ∈ allWithin es := by
  induction es with
  | nil => cases member
  | cons first es ih =>
    rcases List.mem_cons.mp member with rfl | member
    · exact List.mem_append_left _ inside
    · exact List.mem_append_right _ (ih member)

theorem mem_within_of_part {e part x : Expr} (member : part ∈ e.parts)
    (inside : x ∈ part.within) : x ∈ e.within := by
  cases e with
  | literal => cases member
  | group inner ty =>
    obtain rfl := List.mem_singleton.mp member
    exact List.mem_cons_of_mem _ inside
  | binary op left right ty =>
    rcases List.mem_cons.mp member with rfl | member
    · exact List.mem_cons_of_mem _ (List.mem_append_left _ inside)
    · obtain rfl := List.mem_singleton.mp member
      exact List.mem_cons_of_mem _ (List.mem_append_right _ inside)
  | access => cases member
  | element name offset slot =>
    obtain rfl := List.mem_singleton.mp member
    exact List.mem_cons_of_mem _ inside
  | call name arguments slot => exact List.mem_cons_of_mem _ (mem_allWithin member inside)
  | list elements ty => exact List.mem_cons_of_mem _ (mem_allWithin member inside)

end Expr

namespace Stmt

theorem mem_within_self (s : Stmt) : s ∈ s.within := by
  cases s <;> exact List.mem_cons_self

theorem mem_caseWithin {cs : List Case} {c : Case} {x : Stmt} (member : c ∈ cs)
    (inside : x ∈ allWithin c.body) : x ∈ Case.allWithin cs := by
  induction cs with
  | nil => cases member
  | cons first cs ih =>
    rcases List.mem_cons.mp member with rfl | member
    · apply List.mem_append_left
      cases c with
      | on value body => exact inside
      | default body => exact inside
    · exact List.mem_append_right _ (ih member)

theorem mem_within_of_body {s x : Stmt} {body : List Stmt} (member : body ∈ s.bodies)
    (inside : x ∈ allWithin body) : x ∈ s.within := by
  cases s with
  | branch condition thenBody elseBody =>
    rcases List.mem_cons.mp member with rfl | member
    · exact List.mem_cons_of_mem _ (List.mem_append_left _ inside)
    · obtain rfl := List.mem_singleton.mp member
      exact List.mem_cons_of_mem _ (List.mem_append_right _ inside)
  | switch condition cases =>
    obtain ⟨c, found, rfl⟩ := List.mem_map.mp member
    exact List.mem_cons_of_mem _ (mem_caseWithin found inside)
  | loop condition body =>
    obtain rfl := List.mem_singleton.mp member
    exact List.mem_cons_of_mem _ inside
  | _ => cases member

end Stmt

mutual

/-- What holds of each node that is made somehow holds within a node, if its parts are made so. -/
theorem Expr.forall_within {Made Holds : Expr → Prop} (node : ∀ e, Made e → Holds e)
    (parts : ∀ e, Made e → ∀ part ∈ e.parts, Made part) (e : Expr) (made : Made e) :
    ∀ x ∈ e.within, Holds x := by
  cases e with
  | literal value ty => exact List.forall_mem_singleton.mpr (node _ made)
  | access name slot => exact List.forall_mem_singleton.mpr (node _ made)
  | group inner ty =>
    refine List.forall_mem_cons.mpr ⟨node _ made, forall_within node parts inner ?_⟩
    exact parts _ made inner List.mem_cons_self
  | binary op left right ty =>
    refine List.forall_mem_cons.mpr ⟨node _ made, List.forall_mem_append.mpr ⟨?_, ?_⟩⟩
    · exact forall_within node parts left (parts _ made left (by simp [Expr.parts]))
    · exact forall_within node parts right (parts _ made right (by simp [Expr.parts]))
  | element name offset slot =>
    refine List.forall_mem_cons.mpr ⟨node _ made, forall_within node parts offset ?_⟩
    exact parts _ made offset List.mem_cons_self
  | call name arguments slot =>
    exact List.forall_mem_cons.mpr ⟨node _ made,
      forall_allWithin node parts arguments (parts _ made)⟩
  | list elements ty =>
    exact List.forall_mem_cons.mpr ⟨node _ made,
      forall_allWithin node parts elements (parts _ made)⟩

theorem Expr.forall_allWithin {Made Holds : Expr → Prop} (node : ∀ e, Made e → Holds e)
    (parts : ∀ e, Made e → ∀ part ∈ e.parts, Made part) (es : List Expr)
    (made : ∀ e ∈ es, Made e) : ∀ x ∈ allWithin es, Holds x := by
  cases es with
  | nil => exact nofun
  | cons e es =>
    obtain ⟨here, others⟩ := List.forall_mem_cons.mp made
    exact List.forall_mem_append.mpr
      ⟨forall_within node parts e here, forall_allWithin node parts es others⟩

end

mutual

theorem Stmt.forall_within {Made Holds : Stmt → Prop} (node : ∀ s, Made s → Holds s)
    (bodies : ∀ s, Made s → ∀ body ∈ s.bodies, ∀ t ∈ body, Made t) (s : Stmt) (made : Made s) :
    ∀ x ∈ s.within, Holds x := by
  cases s with
  | branch condition thenBody elseBody =>
    refine List.forall_mem_cons.mpr ⟨node _ made, List.forall_mem_append.mpr ⟨?_, ?_⟩⟩
    · exact Stmt.forall_allWithin node bodies thenBody
        (bodies _ made thenBody (by simp [Stmt.bodies]))
    · exact Stmt.forall_allWithin node bodies elseBody
        (bodies _ made elseBody (by simp [Stmt.bodies]))
  | switch condition cases =>
    refine List.forall_mem_cons.mpr ⟨node _ made, Case.forall_allWithin node bodies cases ?_⟩
    exact fun c member => bodies _ made c.body (List.mem_map.mpr ⟨c, member, rfl⟩)
  | loop condition body =>
    exact List.forall_mem_cons.mpr ⟨node _ made,
      Stmt.forall_allWithin node bodies body (bodies _ made body List.mem_cons_self)⟩
  | _ => exact List.forall_mem_singleton.mpr (node _ made)

theorem Stmt.forall_allWithin {Made Holds : Stmt → Prop} (node : ∀ s, Made s → Holds s)
    (bodies : ∀ s, Made s → ∀ body ∈ s.bodies, ∀ t ∈ body, Made t) (ss : List Stmt)
    (made : ∀ s ∈ ss, Made s) : ∀ x ∈ Stmt.allWithin ss, Holds x := by
  cases ss with
  | nil => exact nofun
  | cons s ss =>
    obtain ⟨here, others⟩ := List.forall_mem_cons.mp made
    exact List.forall_mem_append.mpr
      ⟨Stmt.forall_within node bodies s here, Stmt.forall_allWithin node bodies ss others⟩

theorem Case.forall_allWithin {Made Holds : Stmt → Prop} (node : ∀ s, Made s → Holds s)
    (bodies : ∀ s, Made s → ∀ body ∈ s.bodies, ∀ t ∈ body, Made t) (cs : List Case)
    (made : ∀ c ∈ cs, ∀ s ∈ c.body, Made s) : ∀ x ∈ Case.allWithin cs, Holds x := by
  cases cs with
  | nil => exact nofun
  | cons c cs =>
    obtain ⟨here, others⟩ := List.forall_mem_cons.mp made
    refine List.forall_mem_append.mpr ⟨?_, Case.forall_allWithin node bodies cs others⟩
    cases c with
    | on value body => exact Stmt.forall_allWithin node bodies body here
    | default body => exact Stmt.forall_allWithin node bodies body here

end

namespace Program

variable {p : Program} {scope : TypeScope}

def statements (p : Program) : List Stmt := p.functions.flatMap fun f => Stmt.allWithin f.body

def expressions (p : Program) : List Expr :=
  (p.globals.flatMap fun g => g.value.toList.flatMap Expr.within) ++
    p.statements.flatMap fun s => s.parts.flatMap Expr.within

theorem BlockAt.mem_all {result : Ty} {ss : List Stmt} (place : p.BlockAt scope result ss) :
    ∀ s ∈ Stmt.allWithin ss, s ∈ p.statements := by
  induction place with
  | body member _ => exact fun s inside => List.mem_flatMap.mpr ⟨_, member, inside⟩
  | next _ ih => exact fun s inside => ih s (List.mem_append_right _ inside)
  | inner _ member ih =>
    exact fun s inside => ih s (List.mem_append_left _ (Stmt.mem_within_of_body member inside))

theorem BlockAt.mem {result : Ty} {s : Stmt} {ss : List Stmt}
    (place : p.BlockAt scope result (s :: ss)) : s ∈ p.statements :=
  place.mem_all s (List.mem_append_left _ s.mem_within_self)

theorem ExprAt.mem_all {e : Expr} (place : p.ExprAt scope e) :
    ∀ x ∈ e.within, x ∈ p.expressions := by
  induction place with
  | @global g gs e place value =>
    intro x inside
    refine List.mem_append_left _ (List.mem_flatMap.mpr ⟨g, place.mem List.mem_cons_self, ?_⟩)
    exact List.mem_flatMap.mpr ⟨e, Option.mem_toList.mpr value, inside⟩
  | stmt place member =>
    intro x inside
    refine List.mem_append_right _ (List.mem_flatMap.mpr ⟨_, place.mem, ?_⟩)
    exact List.mem_flatMap.mpr ⟨_, member, inside⟩
  | part _ member ih => exact fun x inside => ih x (Expr.mem_within_of_part member inside)

theorem ExprAt.mem {e : Expr} (place : p.ExprAt scope e) : e ∈ p.expressions :=
  place.mem_all e e.mem_within_self

end Program

section Erasure

mutual

theorem Expr.within_erase (e : Expr) : e.erase.within = e.within.map erase := by
  cases e with
  | literal => rfl
  | access => rfl
  | group inner ty => rw [erase, within, within, within_erase inner, List.map_cons, erase]
  | binary op left right ty =>
    rw [erase, within, within, within_erase left, within_erase right, List.map_cons,
      List.map_append, erase]
  | element name offset slot =>
    rw [erase, within, within, within_erase offset, List.map_cons, erase]
  | call name arguments slot =>
    rw [erase, within, within, allWithin_eraseAll arguments, List.map_cons, erase]
  | list elements ty =>
    rw [erase, within, within, allWithin_eraseAll elements, List.map_cons, erase]

theorem Expr.allWithin_eraseAll (es : List Expr) :
    allWithin (eraseAll es) = (allWithin es).map erase := by
  cases es with
  | nil => rfl
  | cons e es =>
    rw [eraseAll, allWithin, allWithin, within_erase e, allWithin_eraseAll es, List.map_append]

end

mutual

theorem Stmt.within_erase (s : Stmt) : s.erase.within = s.within.map Stmt.erase := by
  cases s with
  | branch condition thenBody elseBody =>
    rw [Stmt.erase, Stmt.within, Stmt.within, Stmt.allWithin_eraseAll thenBody,
      Stmt.allWithin_eraseAll elseBody, List.map_cons, List.map_append, Stmt.erase]
  | switch condition cases =>
    rw [Stmt.erase, Stmt.within, Stmt.within, Case.allWithin_eraseAll cases, List.map_cons,
      Stmt.erase]
  | loop condition body =>
    rw [Stmt.erase, Stmt.within, Stmt.within, Stmt.allWithin_eraseAll body, List.map_cons,
      Stmt.erase]
  | _ => rfl

theorem Stmt.allWithin_eraseAll (ss : List Stmt) :
    Stmt.allWithin (Stmt.eraseAll ss) = (Stmt.allWithin ss).map Stmt.erase := by
  cases ss with
  | nil => rfl
  | cons s ss =>
    rw [Stmt.eraseAll, Stmt.allWithin, Stmt.allWithin, Stmt.within_erase s,
      Stmt.allWithin_eraseAll ss, List.map_append]

theorem Case.within_erase (c : Case) : c.erase.within = c.within.map Stmt.erase := by
  cases c with
  | on value body => exact Stmt.allWithin_eraseAll body
  | default body => exact Stmt.allWithin_eraseAll body

theorem Case.allWithin_eraseAll (cs : List Case) :
    Case.allWithin (Case.eraseAll cs) = (Case.allWithin cs).map Stmt.erase := by
  cases cs with
  | nil => rfl
  | cons c cs =>
    rw [Case.eraseAll, Case.allWithin, Case.allWithin, Case.within_erase c,
      Case.allWithin_eraseAll cs, List.map_append]

end

theorem Case.values_eraseAll (cs : List Case) :
    (eraseAll cs).filterMap value? = (cs.filterMap value?).map Expr.erase := by
  induction cs with
  | nil => rfl
  | cons c cs ih =>
    cases c with
    | on value body => exact congrArg (value.erase :: ·) ih
    | default body => exact ih

theorem Stmt.parts_erase (s : Stmt) : s.erase.parts = s.parts.map Expr.erase := by
  cases s with
  | declare name typeName value slot => cases value <;> rfl
  | switch condition cases => exact congrArg (condition.erase :: ·) (Case.values_eraseAll cases)
  | _ => rfl

namespace Program

variable (p : Program)

theorem statements_erase : p.erase.statements = p.statements.map Stmt.erase := by
  simp only [statements, erase, Function.erase, List.flatMap_map, List.map_flatMap,
    Stmt.allWithin_eraseAll]

theorem expressions_erase : p.erase.expressions = p.expressions.map Expr.erase := by
  have value (g : Global) : g.erase.value.toList = g.value.toList.map Expr.erase := by
    rw [Global.erase]
    cases g.value <;> rfl
  rw [expressions, statements_erase, erase, expressions]
  simp only [List.map_append, List.flatMap_map, List.map_flatMap, value, Stmt.parts_erase,
    Expr.within_erase]

end Program

end Erasure
end Plc
