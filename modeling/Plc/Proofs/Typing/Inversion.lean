import Plc.Proofs.Outcome
import Plc.Typing.Program

/-! What an analysis that succeeds has gone through: its steps one after the other, each in the
scope behind the one before. -/
namespace Plc

variable {scope last : TypeScope}

theorem Stmt.steps_of_annotateBlock {result : Option Ty} {s : Stmt} {ss made : List Stmt}
    (annotated : annotateBlock scope result (s :: ss) = .ok made) : ∃ s' behind others,
      s.annotate scope result = .ok (s', behind) ∧
        annotateBlock behind result ss = .ok others ∧ made = s' :: others := by
  simp only [annotateBlock, bind_eq_ok, pure_eq_ok] at annotated
  obtain ⟨⟨s', behind⟩, first, others, rest, rfl⟩ := annotated
  exact ⟨s', behind, others, first, rest, rfl⟩

theorem Global.steps_of_annotate {g made : Global}
    (annotated : g.annotate scope = .ok (made, last)) : ∃ declared value ty,
      g.typeName.mapM Ty.resolve = .ok declared ∧
        g.value.mapM (annotateValue scope declared) = .ok value ∧
        declarationType g.name declared value = .ok ty ∧
        scope.defineVariable g.name ⟨g.name, g.name, ty, g.mutable, g.isList⟩ = .ok last ∧
        made = { g with
          value := value
          slot := some ⟨g.name, g.name, ty, g.mutable, g.isList⟩ } := by
  simp only [annotate, bind_eq_ok, pure_eq_ok, Prod.mk.injEq] at annotated
  obtain ⟨declared, resolved, value, madeValue, ty, typed, _, defined, rfl, rfl⟩ := annotated
  exact ⟨declared, value, ty, resolved, madeValue, typed, defined, rfl⟩

/-- The parameters are defined in a frame of their own. -/
theorem Function.steps_of_annotate {f made : Function}
    (annotated : f.annotate scope = (.ok made, last)) : ∃ s frame body,
      f.signature = .ok s ∧ scope.defineFunction f.name s.arity s = .ok last ∧
        Frame.defineVariables {} (f.parameterVariables s) = .ok frame ∧
        Stmt.annotateBlock (last.enter frame) (some s.result) f.body = .ok body ∧
        made = { f with body := body, slot := some s } := by
  rw [annotate] at annotated
  split at annotated
  · cases annotated
  rename_i s signed
  split at annotated
  · cases annotated
  rename_i behind defined
  obtain ⟨inside, rfl⟩ := Prod.mk.inj annotated
  simp only [annotateBody, bind_eq_ok, pure_eq_ok] at inside
  obtain ⟨frame, parameters, body, madeBody, rfl⟩ := inside
  exact ⟨s, frame, body, signed, defined, parameters, madeBody, rfl⟩

namespace Program

theorem steps_of_annotateGlobals {g : Global} {gs made : List Global}
    (annotated : annotateGlobals scope (g :: gs) = (.ok made, last)) : ∃ g' behind others,
      g.annotate scope = .ok (g', behind) ∧
        annotateGlobals behind gs = (.ok others, last) ∧ made = g' :: others := by
  rw [annotateGlobals] at annotated
  split at annotated
  · cases annotated
  rename_i g' behind first
  obtain ⟨mapped, rfl⟩ := Prod.mk.inj annotated
  obtain ⟨others, rest, rfl⟩ := map_eq_ok.mp mapped
  exact ⟨g', behind, others, first, Prod.ext rest rfl, rfl⟩

theorem steps_of_annotateFunctions {f : Function} {fs made : List Function}
    (annotated : annotateFunctions scope (f :: fs) = (.ok made, last)) : ∃ f' behind others,
      f.annotate scope = (.ok f', behind) ∧
        annotateFunctions behind fs = (.ok others, last) ∧ made = f' :: others := by
  rw [annotateFunctions] at annotated
  split at annotated
  · cases annotated
  rename_i f' behind first
  obtain ⟨mapped, rfl⟩ := Prod.mk.inj annotated
  obtain ⟨others, rest, rfl⟩ := map_eq_ok.mp mapped
  exact ⟨f', behind, others, first, Prod.ext rest rfl, rfl⟩

theorem steps_of_annotate {p made : Program} (annotated : p.annotate scope = (.ok made, last)) :
    ∃ globals behind functions, annotateGlobals scope p.globals = (.ok globals, behind) ∧
      annotateFunctions behind p.functions = (.ok functions, last) ∧
      requireMain last = .ok () ∧ made = ⟨globals, functions⟩ := by
  rw [annotate] at annotated
  split at annotated
  · cases annotated
  rename_i globals behind madeGlobals
  split at annotated
  · cases annotated
  rename_i functions top madeFunctions
  obtain ⟨mapped, rfl⟩ := Prod.mk.inj annotated
  obtain ⟨_, main, rfl⟩ := map_eq_ok.mp mapped
  exact ⟨globals, behind, functions, madeGlobals, madeFunctions, main, rfl⟩

end Program

end Plc
