import Plc.Java.Lowering
import Plc.Java.Print
import Plc.Phrase

/-! Phrases of any kind as the text of Java code. -/
namespace Plc

def Phrase.java : Phrase → String
  | .program p => p.toJava.render
  | .global g => g.toJava.text
  | .function f => f.toJava.render
  | .statement s => s.toJava.render
  | .expression e => e.toJava.text

end Plc
