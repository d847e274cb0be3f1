import StyleRef.Text.Blank

/-
# Tokens of style sheets

A token is a piece of the text together with what it is.  Nothing of the text is
lost: white space and comments are tokens too, and each token keeps its piece as
it was written.  A token that names something also has the name, with its escapes
read.

Tokens that open a bracket and tokens that close one make up *blocks*.  Inside a
block only the closing bracket of its own kind counts; a block that is never
closed runs to the end.  `spanTop` goes through a list of tokens without looking
into its blocks, and `takeBlock` takes the contents of a block that was opened.
-/

namespace StyleRef

namespace Css

inductive Bracket where
  | round
  | square
  | curly
deriving DecidableEq

inductive Kind where
  | space
  | comment
  | ident (name : Text)
  | function (name : Text)
  | atKeyword (name : Text)
  /-- A hash whose name could start an identifier. -/
  | idHash (name : Text)
  | hash (name : Text)
  | string
  /-- A string that a line break cuts short. -/
  | badString
  | url
  /-- An address without quotes that holds what it must not hold. -/
  | badUrl
  | number (signed integral : Bool)
  | percentage
  | dimension (integral : Bool) (unit : Text)
  /-- `~=`, `|=`, `^=`, `$=` or `*=`. -/
  | matcher
  | cdo
  | cdc
  | colon
  | semicolon
  | comma
  | opening (b : Bracket)
  | closing (b : Bracket)
  | delim (c : Char)
deriving DecidableEq

structure Token where
  kind : Kind
  /-- The piece as written. -/
  text : Text
deriving DecidableEq

namespace Token

/-- Whether the token separates others and means nothing itself. -/
def isGap (t : Token) : Bool := t.kind = .space || t.kind = .comment

theorem isGap_iff {t : Token} : t.isGap = true ↔ t.kind = .space ∨ t.kind = .comment := by
  simp [isGap]

theorem isGap_eq_false_iff {t : Token} :
    t.isGap = false ↔ t.kind ≠ .space ∧ t.kind ≠ .comment := by
  simp [isGap]

theorem isGap_of_space {t : Token} (h : t.kind = .space) : t.isGap = true := isGap_iff.mpr (.inl h)

theorem isGap_of_comment {t : Token} (h : t.kind = .comment) : t.isGap = true :=
  isGap_iff.mpr (.inr h)

/-- The bracket that the token opens; a function's name comes with one. -/
def opens? (t : Token) : Option Bracket :=
  match t.kind with
  | .opening b => some b
  | .function _ => some .round
  | _ => none

theorem opens?_of_isGap {t : Token} (h : t.isGap = true) : t.opens? = none := by
  rcases isGap_iff.mp h with h | h <;> simp [opens?, h]

def closes? (t : Token) : Option Bracket :=
  match t.kind with
  | .closing b => some b
  | _ => none

def opensBody (t : Token) : Bool := t.kind = .opening .curly

def isSemicolon (t : Token) : Bool := t.kind = .semicolon

theorem opensBody_of_isGap {t : Token} (h : t.isGap = true) : t.opensBody = false := by
  rcases isGap_iff.mp h with h | h <;> simp [opensBody, h]

theorem isSemicolon_of_isGap {t : Token} (h : t.isGap = true) : t.isSemicolon = false := by
  rcases isGap_iff.mp h with h | h <;> simp [isSemicolon, h]

def isDelim (c : Char) (t : Token) : Bool := t.kind = .delim c

def isIdent (t : Token) : Bool := match t.kind with | .ident _ => true | _ => false

def isComma (t : Token) : Bool := t.kind = .comma

end Token

def textOf (ts : List Token) : Text := ts.flatMap (·.text)

@[simp] theorem textOf_nil : textOf [] = [] := rfl

@[simp] theorem textOf_cons (t : Token) (ts : List Token) :
    textOf (t :: ts) = t.text ++ textOf ts := rfl

@[simp] theorem textOf_append (ts us : List Token) : textOf (ts ++ us) = textOf ts ++ textOf us :=
  List.flatMap_append

def skipGaps (ts : List Token) : List Token := ts.dropWhile Token.isGap

theorem isGap_of_skipGaps {ts rest : List Token} {t : Token} (h : skipGaps ts = t :: rest) :
    t.isGap = false :=
  Text.not_of_dropWhile_eq_cons h

/-! ## Blocks -/

/-- The brackets that are open behind a token, the innermost first, given those that are open
before it.  A closing bracket that does not fit the innermost one changes nothing. -/
def nest (stack : List Bracket) (t : Token) : List Bracket :=
  match t.opens? with
  | some b => b :: stack
  | none =>
    match stack with
    | [] => []
    | b :: rest => if t.closes? = some b then rest else b :: rest

theorem nest_of_isGap {t : Token} (h : t.isGap = true) (stack : List Bracket) :
    nest stack t = stack := by
  rcases Token.isGap_iff.mp h with h | h <;> cases stack <;>
    simp [nest, Token.opens?, Token.closes?, h]

theorem nest_of_opens?_eq_none {t : Token} (h : t.opens? = none) : nest [] t = [] := by
  rw [nest, h]

/-- Splits the tokens before the first one outside all blocks that satisfies `stop`.  `stack` holds
the brackets that are open at the start. -/
def spanNested (stop : Token → Bool) : List Bracket → List Token → List Token × List Token
  | _, [] => ([], [])
  | stack, t :: ts =>
    if stack.isEmpty && stop t then ([], t :: ts)
    else
      let (before, after) := spanNested stop (nest stack t) ts
      (t :: before, after)

def spanTop (stop : Token → Bool) (ts : List Token) : List Token × List Token :=
  spanNested stop [] ts

/-- The contents of a block that was just opened, and what follows its closing bracket. -/
def takeBlock (b : Bracket) (ts : List Token) : List Token × List Token :=
  let (inside, after) := spanTop (fun t => t.closes? = some b) ts
  (inside, after.drop 1)

def splitNested (sep : Token → Bool) : List Bracket → List Token → List (List Token)
  | _, [] => [[]]
  | stack, t :: ts =>
    if stack.isEmpty && sep t then [] :: splitNested sep [] ts
    else
      match splitNested sep (nest stack t) ts with
      | [] => [[t]]
      | part :: parts => (t :: part) :: parts

def splitCommas (ts : List Token) : List (List Token) := splitNested Token.isComma [] ts

theorem spanNested_append (stop : Token → Bool) (stack : List Bracket) (ts : List Token) :
    (spanNested stop stack ts).1 ++ (spanNested stop stack ts).2 = ts := by
  induction ts generalizing stack with
  | nil => rfl
  | cons t ts ih =>
    simp only [spanNested]
    split
    · rfl
    · simpa using ih (nest stack t)

theorem spanNested_stop (stop : Token → Bool) (stack : List Bracket) (ts : List Token) :
    ∀ t ∈ (spanNested stop stack ts).2.head?, stop t = true := by
  induction ts generalizing stack with
  | nil => simp [spanNested]
  | cons t ts ih =>
    simp only [spanNested]
    split
    · next h => simp_all
    · exact ih (nest stack t)

theorem spanTop_append (stop : Token → Bool) (ts : List Token) :
    (spanTop stop ts).1 ++ (spanTop stop ts).2 = ts :=
  spanNested_append stop [] ts

theorem spanTop_stop (stop : Token → Bool) (ts : List Token) :
    ∀ t ∈ (spanTop stop ts).2.head?, stop t = true :=
  spanNested_stop stop [] ts

theorem spanTop_cons_of_pos {stop : Token → Bool} {t : Token} (h : stop t = true) (ts : List Token) :
    spanTop stop (t :: ts) = ([], t :: ts) := by
  simp [spanTop, spanNested, h]

theorem spanTop_cons_of_neg {stop : Token → Bool} {t : Token} (hopen : t.opens? = none)
    (h : stop t = false) (ts : List Token) :
    spanTop stop (t :: ts) = (t :: (spanTop stop ts).1, (spanTop stop ts).2) := by
  simp [spanTop, spanNested, h, nest_of_opens?_eq_none hopen]

/-- Taking a block loses nothing but the bracket that closes it. -/
theorem takeBlock_append (b : Bracket) (ts : List Token) :
    ∃ close : List Token, (takeBlock b ts).1 ++ close ++ (takeBlock b ts).2 = ts := by
  refine ⟨(spanTop (fun t => t.closes? = some b) ts).2.take 1, ?_⟩
  simp only [takeBlock]
  rw [List.append_assoc, List.take_append_drop, spanTop_append]

end Css

end StyleRef
