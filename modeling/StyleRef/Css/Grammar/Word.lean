import StyleRef.Css.Token
import StyleRef.Text.Search

/-
# Words

The names that the grammar knows are compared without the case of ASCII letters.
Some words stand for a value of every property and so cannot be freely
chosen names; names that start with two hyphens are always free.

The grammar is written for tokens without comments, which mean nothing anywhere.
White space means something in few places only, so it is passed over where a
piece begins (`skipSpace`).
-/

namespace StyleRef

namespace Css

/-! ## Names -/

/-- Whether a name is one of the words, up to the case of ASCII letters. -/
def isWord (name : Text) (words : List String) : Bool :=
  words.any fun w => Text.sameIgnoringCase name w.toList

def named? {α : Type} (table : List (String × α)) (name : Text) : Option α :=
  (table.find? fun (word, _) => isWord name [word]).map (·.2)

def wideKeywords : List String := ["initial", "inherit", "unset", "revert", "revert-layer"]

def isFreeName (name : Text) : Bool := !isWord name ("default" :: wideKeywords)

def isDashed (name : Text) : Bool := name.take 2 = ['-', '-']

def Token.isWordOf (words : List String) (t : Token) : Bool :=
  match t.kind with
  | .ident name => isWord name words
  | _ => false

def Token.isFreeIdent (t : Token) : Bool :=
  match t.kind with
  | .ident name => isFreeName name
  | _ => false

def Token.isDashedIdent (t : Token) : Bool :=
  match t.kind with
  | .ident name => isDashed name
  | _ => false

/-! ## White space and comments -/

def skipSpace (ts : List Token) : List Token := ts.dropWhile fun t => t.kind = .space

def isDone (ts : List Token) : Bool := ts.all fun t => t.kind = .space

def withoutComments (ts : List Token) : List Token := ts.filter fun t => t.kind ≠ .comment

def withoutOuterSpace (ts : List Token) : List Token :=
  (skipSpace (skipSpace ts).reverse).reverse

def isSingle (p : Token → Bool) (ts : List Token) : Bool :=
  match skipSpace ts with
  | t :: rest => p t && isDone rest
  | [] => false

/-- What stands at the front behind white space may be left out: what follows it if it satisfies
`p`, and otherwise all. -/
def skipIf (p : Token → Bool) (ts : List Token) : List Token :=
  match skipSpace ts with
  | t :: rest => if p t then rest else ts
  | [] => ts

/-! ## Brackets -/

/-- Whether the tokens fit into the brackets that are open, the innermost first: every bracket that
is closed was opened, and no string and no address is spoilt.  No more than `limit` brackets may be
open at once, if there is a limit. -/
def fits (limit : Option Nat) : List Bracket → List Token → Bool
  | _, [] => true
  | stack, t :: ts =>
    match t.kind with
    | .badString => false
    | .badUrl => false
    | .closing b =>
      match stack with
      | [] => false
      | a :: rest => a = b && fits limit rest ts
    | .opening b => limit.all (stack.length < ·) && fits limit (b :: stack) ts
    | .function _ => limit.all (stack.length < ·) && fits limit (.round :: stack) ts
    | _ => fits limit stack ts

def isSound (ts : List Token) : Bool := fits none [] ts

def maxNesting : Nat := 500

end Css

end StyleRef
