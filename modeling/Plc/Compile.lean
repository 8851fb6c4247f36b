import Plc.Diagnostic
import Plc.Reading
import Plc.Token.Lexer
import Plc.Typing.Program

/-! From a text to a program whose slots are filled. The first thing that is wrong ends it. -/
namespace Plc

inductive CompileError where
  | lexing (malformed : Token.Malformed)
  | parsing (error : Reading.Error)
  | analysis (fault : Fault)
deriving DecidableEq

namespace CompileError

def message : CompileError → String
  | lexing _ => "Lexing failed"
  | parsing _ => "Parsing failed"
  | analysis _ => "Analysis failed"

/-- Only what is wrong with the text itself has a place in it. -/
def diagnostic : CompileError → Diagnostic
  | lexing m => ⟨m.defect.message, some m.index⟩
  | parsing e => ⟨e.misread.message, some e.index⟩
  | analysis fault => ⟨fault.message, none⟩

def diagnostics (e : CompileError) : Diagnostics := Diagnostics.push {} e.diagnostic

end CompileError

def compileTokens (tokens : List Token) : Except CompileError Program := do
  let p ← (Reading.readProgram tokens).mapError .parsing
  (p.annotate TypeScope.initial).1.mapError .analysis

def compile (text : String) : Except CompileError Program := do
  let tokens ← (Token.lex text).mapError .lexing
  compileTokens tokens

end Plc
