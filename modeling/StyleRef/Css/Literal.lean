import StyleRef.Css.Lexer

/-
# The values of literals

A token keeps the piece of text that it was cut from.  What the piece stands for
is worked out here for the two kinds of literals: the number that a numeric token
begins with, and the text that a string token encloses, with its escapes read.

Numbers are of single precision.  A number too small to be told from zero is zero,
which matters where a calculation divides by it.
-/

namespace StyleRef

namespace Css

/-! ## Numbers -/

def leadingNat (s : Text) : Nat :=
  (s.takeWhile Char.isDigit).foldl (fun n d => 10 * n + hexDigitValue d) 0

def isNegative (s : Text) : Bool := s.head? = some '-'

def withoutSign (s : Text) : Text :=
  if startsWith (fun c => c = '+' || c = '-') s then s.drop 1 else s

/-- The number with the digits `m` and the decimal exponent `e`.  Where it is far out of the range
of single precision, only the side matters on which it is. -/
def decimal (m : Nat) (e : Int) : Float32 :=
  let size : Int := (Nat.toDigits 10 m).length + e
  if m = 0 ∨ size < -60 then 0
  else if 60 < size then Float32.ofScientific 1 false 38
  else Float32.ofScientific m (e < 0) e.natAbs

def Token.value (t : Token) : Float32 :=
  let s := withoutSign t.text
  let whole := digitCount s
  let fraction := fractionLength (s.drop whole)
  let power := s.drop (whole + fraction)
  let exponent : Int :=
    if exponentLength power = 0 then 0
    else
      let n : Int := leadingNat (withoutSign (power.drop 1))
      if isNegative (power.drop 1) then -n else n
  let digits := leadingNat (s.take whole ++ (s.drop (whole + 1)).take (fraction - 1))
  let magnitude := decimal digits (exponent - (fraction - 1 : Nat))
  if isNegative t.text then -magnitude else magnitude

/-! ## Strings -/

/-- The text of a string behind its opening quote, of which `skip` characters are passed over. -/
def unquoteFrom (quote : Char) : Nat → Text → Text
  | _, [] => []
  | skip + 1, _ :: s => unquoteFrom quote skip s
  | 0, c :: s =>
    if c = quote then []
    else if c = '\x00' then replacementChar :: unquoteFrom quote 0 s
    else if c ≠ '\\' then c :: unquoteFrom quote 0 s
    else if s.isEmpty then []
    else if startsWith isNewline s then unquoteFrom quote (spaceLength s) s
    else
      let (d, n) := escape s
      d :: unquoteFrom quote n s

def Token.unquoted (t : Token) : Text :=
  match t.text with
  | quote :: s => unquoteFrom quote 0 s
  | [] => []

end Css

end StyleRef
