import Plc.Phrase
import Plc.Reading

/-! Reading phrases of any kind, several of them one behind the other. -/
namespace Plc.Reading

def phrase (kind : Phrase.Kind) (ts : List Token) : Except Halt (Phrase × List Token) :=
  match kind with
  | .program => (program ts).map fun p => (.program p, [])
  | .global => (global ts).map fun r => (.global r.value, r.rest)
  | .function => (function ts).map fun r => (.function r.value, r.rest)
  | .statement => (statement ts).map fun r => (.statement r.value, r.rest)
  | .expression => (expression ts).map fun r => (.expression r.value, r.rest)

/-- Phrases from the tokens `rest` that are left of `ts`. Each begins where the one before it
ended or came to a halt. -/
def phrasesFrom (ts : List Token) : List Phrase.Kind → List Token → List (Except Error Phrase)
  | [], _ => []
  | kind :: kinds, rest =>
    match phrase kind rest with
    | .ok (p, rest) => .ok p :: phrasesFrom ts kinds rest
    | .error halt => .error (halt.locate ts) :: phrasesFrom ts kinds halt.rest

def phrases (ts : List Token) (kinds : List Phrase.Kind) : List (Except Error Phrase) :=
  phrasesFrom ts kinds ts

def readPhrase (kind : Phrase.Kind) (ts : List Token) : Except Error Phrase :=
  match phrase kind ts with
  | .ok (p, _) => .ok p
  | .error halt => .error (halt.locate ts)

end Plc.Reading
