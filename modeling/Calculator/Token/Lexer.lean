import Calculator.Token
import Calculator.Error
import Calculator.Text.Blank
import Calculator.Decimal.Numeral

/-!
# Reading tokens

A text is a row of lexemes with blanks between them where wanted. At each place the
lexeme is the longest of its kind: the whole run of digits and points, or the function with
the longest name that starts there. A letter is a constant or the unknown only where no
function name starts.
-/

namespace Calculator.Token

/-- The circle number. -/
def pi : Float := 3.141592653589793

/-- The base of natural logarithms. -/
def e : Float := 2.718281828459045

/-- The token that starts with `c`, which stands `offset` bytes into the text and has `rest`
after it, and the number of characters it is written with. -/
def lexeme (offset : Nat) (c : Char) (rest : List Char) : Except ParseError (Token × Nat) :=
  if Decimal.isNumeralChar c then
    let run := (c :: rest).takeWhile Decimal.isNumeralChar
    match Decimal.ofNumeral? run with
    | some d => .ok (number d.toFloat, run.length)
    | none => .error (.invalidNumber (String.ofList run) offset (offset + run.length))
  else if c = 'π' then .ok (number pi, 1)
  else
    match Builtin.longestAt (c :: rest) with
    | some f => .ok (function f, f.nameLength)
    | none =>
      if c = 'x' then .ok (unknown, 1)
      else if c = 'e' then .ok (number e, 1)
      else
        match Operator.ofChar? c with
        | some op => .ok (operator op, 1)
        | none => .error (.invalidCharacter c offset)

/-- The tokens of a text that stands `offset` bytes into the whole, after its first `skip`
characters, which belong to the token before. -/
def scan (offset : Nat) : (skip : Nat) → List Char → Except ParseError (List Token)
  | _, [] => .ok []
  | skip + 1, c :: rest => scan (offset + c.utf8Size) skip rest
  | 0, c :: rest =>
    if Text.isBlank c then scan (offset + c.utf8Size) 0 rest
    else do
      let (token, length) ← lexeme offset c rest
      let tokens ← scan (offset + c.utf8Size) (length - 1) rest
      return token :: tokens

/-- The tokens of a text, or its first lexical error. -/
def ofText (text : String) : Except ParseError (List Token) := scan 0 0 text.toList

end Calculator.Token
