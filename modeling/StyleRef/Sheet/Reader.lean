import StyleRef.Sheet.Basic
import StyleRef.Css.Statement
import StyleRef.Css.Importance

/-
# Reading a style sheet

Reading builds the rules of a style sheet from tokens and never fails: what it
cannot use it leaves out.  Selector lists, queries and values are pieces of the
text, trimmed, with the comments inside them; only the names of properties are
read through their escapes.

Of the at-rules only `@media` counts.  The rules in its block carry its query,
whatever other queries enclose it, and all others are left out with what they
hold.  A rule that looks like the declaration of a custom property is left out.

In the block of a rule an item that begins with an identifier runs to the next
semicolon, whatever blocks come in between; it is a declaration if a colon
follows the identifier.  Any other item is left out up to the next semicolon,
and an at-rule up to its semicolon or its block.
-/

namespace StyleRef

namespace Css

/-- The declaration that the tokens behind a property's name make, if a colon comes first. -/
def declaration? (property : Text) (ts : List Token) : Option Declaration :=
  match skipGaps ts with
  | ⟨.colon, _⟩ :: value =>
    let (value, important) := splitImportant (textOf value)
    some ⟨property, value, important⟩
  | _ => none

def declarationsFrom : Nat → List Token → List Declaration
  | 0, _ => []
  | fuel + 1, ts =>
    match ts.dropWhile fun t => t.isGap || t.isSemicolon with
    | [] => []
    | t :: rest =>
      match t.kind with
      | .atKeyword _ => declarationsFrom fuel (takeAtRule rest).2.2
      | .ident property =>
        let (item, after) := spanTop Token.isSemicolon rest
        (declaration? property item).toList ++ declarationsFrom fuel (after.drop 1)
      | _ => declarationsFrom fuel ((spanTop Token.isSemicolon (t :: rest)).2.drop 1)

/-- The declarations in the block of a rule.  Each item takes a token at least. -/
def declarations (ts : List Token) : List Declaration := declarationsFrom ts.length ts

def slice (ts : List Token) : Text := Text.trim (textOf ts)

/-- The rules in a list of statements under a query, down to the given depth of blocks. -/
def rulesFrom : Nat → Option Text → List Token → List Rule
  | 0, _, _ => []
  | depth + 1, media, ts =>
    (statements ts).flatMap fun
      | .qualified prelude (some block) =>
        if startsCustomProperty prelude then []
        else [⟨slice prelude, declarations block, media⟩]
      | .atRule name prelude (some block) =>
        if Text.sameIgnoringCase name "media".toList then
          rulesFrom depth (some (slice prelude)) block
        else []
      | _ => []

/-- The rules that a list of tokens holds.  Blocks are nested no deeper than there are tokens. -/
def rules (ts : List Token) : List Rule := rulesFrom (ts.length + 1) none ts

end Css

def Stylesheet.read (s : Text) : Stylesheet := ⟨Css.rules (Css.lex s)⟩

end StyleRef
