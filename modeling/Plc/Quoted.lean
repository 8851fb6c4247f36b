/-! The text between the quotes of a literal: escapes stand for characters that could not be
written as they are. -/
namespace Plc.Quoted

def letter? : Char → Option Char
  | '\x08' => some 'b'
  | '\n' => some 'n'
  | '\r' => some 'r'
  | '\t' => some 't'
  | _ => none

def denoted : Char → Char
  | 'b' => '\x08'
  | 'n' => '\n'
  | 'r' => '\r'
  | 't' => '\t'
  | c => c

def encodeChar (quote c : Char) : List Char :=
  match letter? c with
  | some l => ['\\', l]
  | none => if c = '\\' ∨ c = quote then ['\\', c] else [c]

def encode (quote : Char) (cs : List Char) : List Char :=
  cs.flatMap (encodeChar quote)

/-- A backslash with nothing behind it stands for itself. -/
def decode : List Char → List Char
  | [] => []
  | ['\\'] => ['\\']
  | '\\' :: c :: cs => denoted c :: decode cs
  | c :: cs => c :: decode cs

theorem denoted_letter (c l : Char) (named : letter? c = some l) : denoted l = c := by
  unfold letter? at named
  split at named <;> cases named <;> rfl

/-- What is written for a character is read back as that character. -/
theorem decode_encodeChar (quote c : Char) (cs : List Char) (plain : denoted quote = quote) :
    decode (encodeChar quote c ++ cs) = c :: decode cs := by
  unfold encodeChar
  split
  · rename_i l named
    have back := denoted_letter c l named
    cases cs <;> simp [decode, back]
  · split
    · rename_i special
      have back : denoted c = c := by
        rcases special with rfl | rfl
        · rfl
        · exact plain
      cases cs <;> simp [decode, back]
    · rename_i ordinary
      have other : c ≠ '\\' := fun same => ordinary (Or.inl same)
      simp [decode, other]

theorem decode_encode (quote : Char) (cs : List Char) (plain : denoted quote = quote) :
    decode (encode quote cs) = cs := by
  induction cs with
  | nil => rfl
  | cons c cs ih =>
    have head := decode_encodeChar quote c (encode quote cs) plain
    rw [ih] at head
    exact head

def inside (cs : List Char) : List Char := (cs.drop 1).dropLast

end Plc.Quoted
