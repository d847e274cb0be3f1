import StyleRef.Css.Token
import StyleRef.Text.Search

/-
# Cutting a text into tokens

The token rules of style sheets, level 3: identifiers with escapes, strings that
a line break spoils and the end of the text closes, addresses without quotes,
numbers with units, comments.  No rule looks further back than the first
character of its token, so one pass cuts the whole text.

Every scanner here only *measures*: it says what stands at the front of a text
and how many characters that takes.  A scanner goes through the text character
by character; where several belong together, as those of an escape do, it looks
at them once and then passes over all but the first (`skip`).  The cutting is
done in one place, `lexFrom`, and the main statement `textOf_lex` holds whatever
the scanners say: the tokens make up the text.
-/

namespace StyleRef

namespace Css

/-! ## Characters -/

def isSpace (c : Char) : Bool :=
  c = ' ' || c = '\t' || c = '\n' || c = '\r' || c = '\x0c'

def isNewline (c : Char) : Bool := c = '\n' || c = '\r' || c = '\x0c'

theorem isBlank_of_isSpace {c : Char} (h : isSpace c = true) : isBlank c = true := by
  simp only [isSpace, Bool.or_eq_true, decide_eq_true_eq] at h
  rcases h with (((h | h) | h) | h) | h <;> subst h <;> decide

def isHexDigit (c : Char) : Bool :=
  c.isDigit || ('a' ≤ c && c ≤ 'f') || ('A' ≤ c && c ≤ 'F')

def isNameStart (c : Char) : Bool :=
  c.isAlpha || c = '_' || c = '\x00' || 0x80 ≤ c.toNat

def isNameChar (c : Char) : Bool := isNameStart c || c.isDigit || c = '-'

def replacementChar : Char := '\uFFFD'

def startsWith (p : Char → Bool) (s : Text) : Bool := s.head?.any p

/-! ## Escapes and names -/

def hexDigitValue (c : Char) : Nat :=
  if c.isDigit then c.toNat - '0'.toNat
  else if 'a' ≤ c then c.toNat - 'a'.toNat + 10
  else c.toNat - 'A'.toNat + 10

def charOfNumber (n : Nat) : Char :=
  if n = 0 ∨ ¬ n.isValidChar then replacementChar else Char.ofNat n

/-- How long the line break or other single white space at the front is. -/
def spaceLength : Text → Nat
  | '\r' :: '\n' :: _ => 2
  | c :: _ => if isSpace c then 1 else 0
  | [] => 0

/-- The character that is meant behind a backslash, and how much of the text says so: up to six
digits to the base sixteen with one white space after them, or any other character. -/
def escape : Text → Char × Nat
  | [] => (replacementChar, 0)
  | c :: s =>
    if isHexDigit c then
      let digits := ((c :: s).take 6).takeWhile isHexDigit
      (charOfNumber (digits.foldl (fun n d => 16 * n + hexDigitValue d) 0),
        digits.length + spaceLength ((c :: s).drop digits.length))
    else if c = '\x00' then (replacementChar, 1)
    else (c, 1)

def nameChar? : Text → Option (Char × Nat)
  | [] => none
  | c :: s =>
    if c = '\\' then
      if startsWith isNewline s then none
      else
        let (d, n) := escape s
        some (d, n + 1)
    else if c = '\x00' then some (replacementChar, 1)
    else if isNameChar c then some (c, 1)
    else none

/-- The name behind the first `skip` characters, and how long it is with them. -/
def nameFrom : Nat → Text → Text × Nat
  | _, [] => ([], 0)
  | skip + 1, _ :: s =>
    let (w, n) := nameFrom skip s
    (w, n + 1)
  | 0, c :: s =>
    match nameChar? (c :: s) with
    | none => ([], 0)
    | some (d, k) =>
      let (w, n) := nameFrom (k - 1) s
      (d :: w, n + 1)

def name (s : Text) : Text × Nat := nameFrom 0 s

def startsName : Text → Bool
  | [] => false
  | c :: s =>
    if c = '\\' then !startsWith isNewline s
    else if c = '-' then startsWith (fun d => isNameStart d || d = '-' || d = '\\') s
    else isNameStart c

/-! ## Strings, comments and addresses -/

/-- How long the rest of a string is, of which `skip` characters are passed over, and whether it
ends as it should. -/
def stringFrom (quote : Char) : Nat → Text → Nat × Bool
  | _, [] => (0, true)
  | skip + 1, _ :: s =>
    let (n, good) := stringFrom quote skip s
    (n + 1, good)
  | 0, c :: s =>
    if c = quote then (1, true)
    else if isNewline c then (0, false)
    else
      let skip :=
        if c ≠ '\\' then 0 else if startsWith isNewline s then spaceLength s else (escape s).2
      let (n, good) := stringFrom quote skip s
      (n + 1, good)

/-- How long a comment is behind its two opening characters. -/
def commentLength : Text → Nat
  | '*' :: '/' :: _ => 2
  | _ :: s => 1 + commentLength s
  | [] => 0

def isBarredFromUrl (c : Char) : Bool :=
  c = '"' || c = '\'' || c = '(' || c.toNat = 0x7F ||
    (0x01 ≤ c.toNat && c.toNat ≤ 0x08) || c.toNat = 0x0B || (0x0E ≤ c.toNat && c.toNat ≤ 0x1F)

def spoiltLength : Text → Nat
  | [] => 0
  | ')' :: _ => 1
  | '\\' :: c :: s => if c = ')' || c = '\\' then 2 + spoiltLength s else 1 + spoiltLength (c :: s)
  | _ :: s => 1 + spoiltLength s

/-- The rest of an address without quotes, of which `skip` characters are passed over, and how long
it is with its closing bracket. -/
def urlFrom : Nat → Text → Kind × Nat
  | _, [] => (.url, 0)
  | skip + 1, _ :: s =>
    let (k, n) := urlFrom skip s
    (k, n + 1)
  | 0, c :: s =>
    if isSpace c then
      let n := (s.takeWhile isSpace).length
      match s.drop n with
      | [] => (.url, n + 1)
      | d :: r => if d = ')' then (.url, n + 2) else (.badUrl, n + 2 + spoiltLength r)
    else if c = ')' then (.url, 1)
    else if isBarredFromUrl c || (c = '\\' && startsWith isNewline s) then
      (.badUrl, 1 + spoiltLength s)
    else
      let (k, n) := urlFrom (if c = '\\' then (escape s).2 else 0) s
      (k, n + 1)

/-- What stands behind `url(`, and how long it is; nothing when the address is in quotes. -/
def url? (s : Text) : Option (Kind × Nat) :=
  let n := (s.takeWhile isSpace).length
  let r := s.drop n
  if startsWith (fun c => c = '"' || c = '\'') r then none
  else
    let (k, m) := urlFrom 0 r
    some (k, n + m)

def nameLike (s : Text) : Kind × Nat :=
  let (w, n) := name s
  if (s.drop n).head? = some '(' then
    match if Text.sameIgnoringCase w "url".toList then url? (s.drop (n + 1)) else none with
    | some (k, m) => (k, n + 1 + m)
    | none => (.function w, n + 1)
  else (.ident w, n)

/-! ## Numbers -/

/-- Whether a number starts here: a digit, or a sign or a point that leads to one. -/
def startsNumber : Text → Bool
  | [] => false
  | c :: s =>
    c.isDigit || (c = '.' && startsWith Char.isDigit s) ||
      ((c = '+' || c = '-') &&
        (startsWith Char.isDigit s ||
          (startsWith (· = '.') s && startsWith Char.isDigit (s.drop 1))))

def digitCount (s : Text) : Nat := (s.takeWhile Char.isDigit).length

def fractionLength (s : Text) : Nat :=
  if startsWith (· = '.') s && startsWith Char.isDigit (s.drop 1) then 1 + digitCount (s.drop 1)
  else 0

/-- How long the exponent at the front is: the letter, a sign perhaps, and digits. -/
def exponentLength (s : Text) : Nat :=
  if startsWith (fun c => c = 'e' || c = 'E') s then
    let sign := if startsWith (fun c => c = '+' || c = '-') (s.drop 1) then 1 else 0
    let n := digitCount (s.drop (1 + sign))
    if n = 0 then 0 else 1 + sign + n
  else 0

def numeric (s : Text) : Kind × Nat :=
  let signed := startsWith (fun c => c = '+' || c = '-') s
  let whole := (if signed then 1 else 0) + digitCount (s.drop (if signed then 1 else 0))
  let fraction := fractionLength (s.drop whole)
  let exponent := exponentLength (s.drop (whole + fraction))
  let n := whole + fraction + exponent
  let integral := fraction = 0 && exponent = 0
  let r := s.drop n
  if startsWith (· = '%') r then (.percentage, n + 1)
  else if startsName r then
    let (unit, m) := name r
    (.dimension integral unit, n + m)
  else (.number signed integral, n)

/-! ## Tokens -/

def punctuation (c : Char) : Kind :=
  match c with
  | '(' => .opening .round
  | ')' => .closing .round
  | '[' => .opening .square
  | ']' => .closing .square
  | '{' => .opening .curly
  | '}' => .closing .curly
  | ':' => .colon
  | ';' => .semicolon
  | ',' => .comma
  | _ => .delim c

/-- The token at the front of `c :: s` when it is no white space, number or name, and how many
characters of `s` it takes. -/
def sign (c : Char) (s : Text) : Kind × Nat :=
  if c = '"' || c = '\'' then
    let (n, good) := stringFrom c 0 s
    (if good then .string else .badString, n)
  else if c = '#' && startsName s then
    let (w, n) := name s
    (.idHash w, n)
  else if c = '#' && startsWith (fun d => d.isDigit || d = '-') s then
    let (w, n) := name s
    (.hash w, n)
  else if c = '@' && startsName s then
    let (w, n) := name s
    (.atKeyword w, n)
  else if c = '/' && startsWith (· = '*') s then (.comment, 1 + commentLength (s.drop 1))
  else if c = '<' && s.take 3 = "!--".toList then (.cdo, 3)
  else if (c = '~' || c = '|' || c = '^' || c = '$' || c = '*') && startsWith (· = '=') s then
    (.matcher, 1)
  else (punctuation c, 0)

/-- The token at the front of `c :: s`, and how many characters of `s` it takes. -/
def scan (c : Char) (s : Text) : Kind × Nat :=
  if isSpace c then (.space, (s.takeWhile isSpace).length)
  else if startsNumber (c :: s) then
    let (k, n) := numeric (c :: s)
    (k, n - 1)
  else if c = '-' && s.take 2 = "->".toList then (.cdc, 2)
  else if startsName (c :: s) then
    let (k, n) := nameLike (c :: s)
    (k, n - 1)
  else sign c s

/-- The tokens of the text behind the first `skip` characters. -/
def lexFrom : Nat → Text → List Token
  | _, [] => []
  | skip + 1, _ :: s => lexFrom skip s
  | 0, c :: s =>
    let (k, n) := scan c s
    ⟨k, c :: s.take n⟩ :: lexFrom n s

def lex (s : Text) : List Token := lexFrom 0 s

theorem textOf_lexFrom (skip : Nat) (s : Text) : textOf (lexFrom skip s) = s.drop skip := by
  induction s generalizing skip with
  | nil => simp [lexFrom]
  | cons c s ih =>
    cases skip with
    | zero => simp [lexFrom, ih]
    | succ skip => simpa [lexFrom] using ih skip

@[simp] theorem textOf_lex (s : Text) : textOf (lex s) = s := textOf_lexFrom 0 s

end Css

end StyleRef
