import StyleRef.Proofs.Comments
import StyleRef.Proofs.Nesting

/-
# What stands in the block of a rule

A block is cut into at-rules, declarations, and rules inside the rule, which are
called its entries.  What begins with an identifier and a colon is a declaration
if what follows is a value of the property, up to the next semicolon, and a rule if
it is not; so where the cuts are depends on what is taken for a value, and that is
a parameter here (`ValueCheck`).  In a list of rules there are no declarations.
With each entry stands whether a rule comes before it in the block and no semicolon
in between; such an entry is *behind a rule*.

The reader cuts the same block in its own way.  It takes no rules inside a rule,
so where one begins it passes over everything up to the next semicolon, and with
the rule all entries that are behind it; unless the rule begins as a declaration
does, which is then recorded.  Main statement: apart from this the declarations
that the reader finds are those of the block (`declarations_eq_open`).
-/

namespace StyleRef

namespace Css

/-! ## Entries -/

inductive Entry where
  | atRule (name : Text) (prelude : List Token) (block : Option (List Token))
  | declaration (property : Text) (value : List Token)
  | rule (prelude : List Token) (block : Option (List Token))

/-- Which tokens, comments left out, are a value of which property. -/
abbrev ValueCheck := Text → List Token → Bool

/-- Whether the tokens behind a property are a colon and a value of it. -/
def isDeclarationOf (check : ValueCheck) (property : Text) (ts : List Token) : Bool :=
  match skipGaps ts with
  | ⟨.colon, _⟩ :: value => check property (withoutComments value)
  | _ => false

/-- Whether what follows an entry is behind a rule, if the entry is or is not. -/
def Entry.leavesBehind (behind : Bool) : Entry → Bool
  | .atRule _ _ block => behind && block.isSome
  | .declaration _ _ => false
  | .rule _ block => block.isSome

def takeRuleEntry (declarations : Bool) (ts : List Token) : Entry × List Token :=
  let (prelude, block, after) :=
    takeUntil (fun t => (declarations && t.isSemicolon) || t.opensBody) ts
  (.rule prelude block, after)

/-- The entry that begins with the token `t`, and what follows it.  There are declarations where
values are checked. -/
def takeEntry (values : Option ValueCheck) (t : Token) (rest : List Token) : Entry × List Token :=
  match t.kind with
  | .atKeyword name =>
    let (prelude, block, after) := takeAtRule rest
    (.atRule name prelude block, after)
  | .ident property =>
    let (value, after) := spanTop Token.isSemicolon rest
    if values.any (isDeclarationOf · property value) then (.declaration property value, after.drop 1)
    else takeRuleEntry values.isSome (t :: rest)
  | _ => takeRuleEntry values.isSome (t :: rest)

def Token.separates (t : Token) : Bool := t.isGap || t.isSemicolon

theorem Token.separates_iff {t : Token} :
    t.separates = true ↔ t.isGap = true ∨ t.kind = .semicolon := by
  simp [separates, isSemicolon]

theorem Token.separates_of_isGap {t : Token} (h : t.isGap = true) : t.separates = true :=
  separates_iff.mpr (.inl h)

def entryStep (values : Option ValueCheck) (behind : Bool) (ts : List Token) :
    Option (List (Bool × Entry) × Bool × List Token) :=
  match ts.dropWhile Token.separates with
  | [] => none
  | t :: rest =>
    let behind := behind && (ts.takeWhile Token.separates).all (!Token.isSemicolon ·)
    let (entry, after) := takeEntry values t rest
    some ([(behind, entry)], entry.leavesBehind behind, after)

/-- The entries of a block, or of what is left of one; each with whether it is behind a rule. -/
def entriesBehind (values : Option ValueCheck) (behind : Bool) (ts : List Token) :
    List (Bool × Entry) :=
  pieces (entryStep values) ts.length behind ts

def entries (values : Option ValueCheck) (ts : List Token) : List (Bool × Entry) :=
  entriesBehind values false ts

theorem takeEntry_atRule {t : Token} {name : Text} (ht : t.kind = .atKeyword name)
    (values : Option ValueCheck) (rest : List Token) :
    takeEntry values t rest =
      (.atRule name (takeAtRule rest).1 (takeAtRule rest).2.1, (takeAtRule rest).2.2) := by
  simp only [takeEntry, ht]

theorem length_takeEntry_le (values : Option ValueCheck) (t : Token) (rest : List Token) :
    (takeEntry values t rest).2.length ≤ rest.length := by
  have hrule : (takeRuleEntry values.isSome (t :: rest)).2.length ≤ rest.length := by
    have h := length_takeUntil_le (fun t => (values.isSome && t.isSemicolon) || t.opensBody)
      (t :: rest)
    simpa [takeRuleEntry] using h
  simp only [takeEntry]
  split
  · exact Nat.le_trans (length_takeAtRule_le rest) (Nat.sub_le _ _)
  · have hspan := length_spanTop_le Token.isSemicolon rest
    split
    · rw [List.length_drop]
      omega
    · exact hrule
  · exact hrule

theorem entryStep_lt (values : Option ValueCheck) (behind : Bool) (ts : List Token)
    (found : List (Bool × Entry)) (behind' : Bool) (rest : List Token)
    (h : entryStep values behind ts = some (found, behind', rest)) :
    rest.length < ts.length := by
  have hdrop : (ts.dropWhile Token.separates).length ≤ ts.length :=
    (List.dropWhile_suffix _).length_le
  simp only [entryStep] at h
  split at h
  · cases h
  · next t us heq =>
    cases h
    rw [heq, List.length_cons] at hdrop
    exact Nat.lt_of_le_of_lt (length_takeEntry_le values t us) hdrop

theorem entriesBehind_eq (values : Option ValueCheck) (behind : Bool) (ts : List Token) :
    entriesBehind values behind ts =
      match entryStep values behind ts with
      | none => []
      | some (found, behind, rest) => found ++ entriesBehind values behind rest := by
  simp only [entriesBehind]
  rw [pieces_length (entryStep_lt values)]
  cases entryStep values behind ts <;> rfl

/-- Whether an entry is behind a rule when what separates it from the one before is passed. -/
def staysBehind (behind : Bool) (ts : List Token) : Bool :=
  behind && (ts.takeWhile Token.separates).all (!Token.isSemicolon ·)

theorem entriesBehind_nil {values : Option ValueCheck} {behind : Bool} {ts : List Token}
    (h : ts.dropWhile Token.separates = []) : entriesBehind values behind ts = [] := by
  rw [entriesBehind_eq, entryStep, h]

theorem entriesBehind_cons {values : Option ValueCheck} {behind : Bool} {ts rest : List Token}
    {t : Token} (h : ts.dropWhile Token.separates = t :: rest) :
    entriesBehind values behind ts =
      (staysBehind behind ts, (takeEntry values t rest).1) ::
        entriesBehind values
          ((takeEntry values t rest).1.leavesBehind (staysBehind behind ts))
          (takeEntry values t rest).2 := by
  rw [entriesBehind_eq, entryStep, h]
  rfl

/-- Induction along the entries of a block: behind each entry the block goes on with the others. -/
theorem entries_induction (values : Option ValueCheck) {motive : Bool → List Token → Prop}
    (nil : ∀ behind ts, ts.dropWhile Token.separates = [] → motive behind ts)
    (cons : ∀ behind ts t rest, ts.dropWhile Token.separates = t :: rest →
      motive ((takeEntry values t rest).1.leavesBehind (staysBehind behind ts))
        (takeEntry values t rest).2 → motive behind ts)
    (behind : Bool) (ts : List Token) : motive behind ts := by
  induction hn : ts.length using Nat.strongRecOn generalizing behind ts with
  | ind n ih =>
    have hlength : (ts.dropWhile Token.separates).length ≤ ts.length :=
      (List.dropWhile_suffix _).length_le
    cases hts : ts.dropWhile Token.separates with
    | nil => exact nil behind ts hts
    | cons t rest =>
      rw [hts, List.length_cons] at hlength
      have hle := length_takeEntry_le values t rest
      exact cons behind ts t rest hts (ih _ (by omega) _ _ rfl)

/-! ## Entries and declarations -/

/-- Whether a colon comes first, apart from gaps. -/
def startsColon (ts : List Token) : Bool := (skipGaps ts).head?.any fun t => t.kind = .colon

/-- Whether a rule inside the rule begins as a declaration does: with an identifier and a colon. -/
def Entry.beginsDeclaration : Entry → Bool
  | .rule (⟨.ident _, _⟩ :: prelude) _ => startsColon prelude
  | _ => false

def Entry.declaration? : Entry → Option Declaration
  | .declaration property value => Css.declaration? property value
  | _ => none

def Entry.isDeclaration : Entry → Bool
  | .declaration _ _ => true
  | _ => false

/-- The declarations that stand in a block. -/
def directDeclarations (check : ValueCheck) (ts : List Token) : List Declaration :=
  (entries (some check) ts).filterMap (·.2.declaration?)

/-- The declarations of a block that are not behind a rule. -/
def openDeclarations (check : ValueCheck) (ts : List Token) : List Declaration :=
  ((entries (some check) ts).filter (!·.1)).filterMap (·.2.declaration?)

theorem declaration?_eq_none_iff {property : Text} {ts : List Token} :
    declaration? property ts = none ↔ startsColon ts = false := by
  rw [declaration?, startsColon]
  split
  · next heq => simp [heq]
  · next hne =>
    cases hrest : skipGaps ts with
    | nil => simp
    | cons t rest =>
      obtain ⟨kind, text⟩ := t
      have hcolon : kind ≠ .colon := by
        rintro rfl
        exact hne _ _ hrest
      simp [hcolon]

/-- A split that neither gaps nor colons stop does not change what comes first. -/
theorem startsColon_spanTop {stop : Token → Bool}
    (hgap : ∀ t : Token, t.isGap = true → stop t = false)
    (hcolon : ∀ t : Token, t.kind = .colon → stop t = false) (ts : List Token) :
    startsColon (spanTop stop ts).1 = startsColon ts := by
  induction ts with
  | nil => rfl
  | cons t ts ih =>
    by_cases ht : t.isGap = true
    · rw [spanTop_cons_of_neg (Token.opens?_of_isGap ht) (hgap t ht), startsColon, skipGaps,
        List.dropWhile_cons_of_pos ht, startsColon, skipGaps, List.dropWhile_cons_of_pos ht]
      exact ih
    · by_cases hkind : t.kind = .colon
      · simp [spanTop, spanNested, hcolon t hkind, startsColon, skipGaps, ht, hkind]
      · by_cases hstop : stop t = true <;>
          simp [spanTop, spanNested, hstop, startsColon, skipGaps, ht, hkind]

/-! The reader. -/

theorem declarations_cons_of_separates {t : Token} (ht : t.separates = true) (ts : List Token) :
    declarations (t :: ts) = declarations ts := by
  have hdrop : (t :: ts).dropWhile (fun t => t.isGap || t.isSemicolon) =
      ts.dropWhile (fun t => t.isGap || t.isSemicolon) := List.dropWhile_cons_of_pos ht
  rw [declarations_eq, declarations_eq ts]
  simp only [declarationStep, hdrop]

/-- Where the reader goes on in a block: behind the next semicolon if it passes over a rule. -/
def readerAt (behind : Bool) (ts : List Token) : List Token :=
  if behind then (spanTop Token.isSemicolon ts).2.drop 1 else ts

/-- What separates entries does not matter to the reader, but for the semicolon that ends its passing
over. -/
theorem declarations_readerAt (behind : Bool) (ts : List Token) :
    declarations (readerAt behind ts) =
      declarations (readerAt (staysBehind behind ts) (ts.dropWhile Token.separates)) := by
  induction ts generalizing behind with
  | nil => cases behind <;> rfl
  | cons t ts ih =>
    by_cases ht : t.separates = true
    · rw [staysBehind, List.takeWhile_cons_of_pos ht, List.dropWhile_cons_of_pos ht, List.all_cons]
      by_cases hsemicolon : t.isSemicolon = true
      · have hbehind : declarations (readerAt behind (t :: ts)) =
            declarations (readerAt false ts) := by
          cases behind with
          | false => exact declarations_cons_of_separates ht ts
          | true => simp [readerAt, spanTop_cons_of_pos hsemicolon]
        rw [hbehind, ih]
        simp [staysBehind, hsemicolon]
      · have hgap : t.isGap = true := by simpa [Token.separates, hsemicolon] using ht
        have hbehind : declarations (readerAt behind (t :: ts)) =
            declarations (readerAt behind ts) := by
          cases behind with
          | false => exact declarations_cons_of_separates ht ts
          | true =>
            simp [readerAt,
              spanTop_cons_of_neg (Token.opens?_of_isGap hgap) (Bool.eq_false_iff.mpr hsemicolon)]
        rw [hbehind, ih]
        simp [staysBehind, hsemicolon]
    · rw [staysBehind, List.takeWhile_cons_of_neg ht, List.dropWhile_cons_of_neg ht, List.all_nil,
        Bool.and_true]

theorem declarations_cons {t : Token} (ht : t.separates = false) (rest : List Token) :
    declarations (t :: rest) =
      match t.kind with
      | .atKeyword _ => declarations (takeAtRule rest).2.2
      | .ident property => (declaration? property (spanTop Token.isSemicolon rest).1).toList ++
          declarations ((spanTop Token.isSemicolon rest).2.drop 1)
      | _ => declarations ((spanTop Token.isSemicolon (t :: rest)).2.drop 1) := by
  have hdrop : (t :: rest).dropWhile (fun t => t.isGap || t.isSemicolon) = t :: rest :=
    List.dropWhile_cons_of_neg (by simpa [Token.separates] using ht)
  rw [declarations_eq]
  simp only [declarationStep, hdrop]
  cases t.kind <;> rfl

section ReaderAt
variable {behind : Bool} {t : Token} {rest : List Token}

/-- An at-rule, which the reader passes over too. -/
theorem declarations_readerAt_atRule (ht : t.separates = false) {name : Text}
    (hkind : t.kind = .atKeyword name) :
    declarations (readerAt behind (t :: rest)) =
      declarations (readerAt (behind && (takeAtRule rest).2.1.isSome) (takeAtRule rest).2.2) := by
  cases behind with
  | false =>
    have hcons := declarations_cons ht rest
    rwa [hkind] at hcons
  | true =>
    have hsemicolon : t.isSemicolon = false := (Bool.or_eq_false_iff.mp ht).2
    have hspan := spanTop_cons_of_neg (by simp [Token.opens?, hkind]) hsemicolon rest
    have hat := spanTop_takeUntil (fun _ => rfl) rest
    simp only [readerAt, ↓reduceIte, hspan, Bool.true_and]
    rw [hat, takeAtRule]

/-- A declaration, read unless the reader still passes over a rule. -/
theorem declarations_readerAt_declaration (ht : t.separates = false) {property : Text}
    (hkind : t.kind = .ident property) :
    declarations (readerAt behind (t :: rest)) =
      (if behind then [] else (declaration? property (spanTop Token.isSemicolon rest).1).toList) ++
        declarations ((spanTop Token.isSemicolon rest).2.drop 1) := by
  cases behind with
  | false =>
    have hcons := declarations_cons ht rest
    rwa [hkind] at hcons
  | true =>
    have hsemicolon : t.isSemicolon = false := (Bool.or_eq_false_iff.mp ht).2
    have hspan := spanTop_cons_of_neg (by simp [Token.opens?, hkind]) hsemicolon rest
    simp [readerAt, hspan]

/-- A rule that the reader passes over. -/
theorem declarations_readerAt_rule
    (hskip : behind = false → declarations (t :: rest) =
      declarations ((spanTop Token.isSemicolon (t :: rest)).2.drop 1))
    (hblock : ∀ prelude, (takeRuleEntry true (t :: rest)).1 ≠ .rule prelude none) :
    declarations (readerAt behind (t :: rest)) =
      declarations (readerAt ((takeRuleEntry true (t :: rest)).1.leavesBehind behind)
        (takeRuleEntry true (t :: rest)).2) := by
  have hbehind : declarations (readerAt behind (t :: rest)) =
      declarations ((spanTop Token.isSemicolon (t :: rest)).2.drop 1) := by
    cases behind with
    | false => exact hskip rfl
    | true => rfl
  have hsome : (takeUntil (fun t => (true && t.isSemicolon) || t.opensBody) (t :: rest)).2.1.isSome =
      true := by
    rw [Option.isSome_iff_ne_none]
    intro hnone
    exact hblock (takeUntil _ _).1 (congrArg (Entry.rule _) hnone)
  have hstop (t : Token) :
      ((true && t.isSemicolon) || t.opensBody) = (t.isSemicolon || t.opensBody) := rfl
  rw [hbehind, spanTop_takeUntil hstop, hsome]
  simp only [takeRuleEntry, Entry.leavesBehind, hsome, readerAt, ↓reduceIte]

end ReaderAt

/-- A rule that does not begin as a declaration does is none to the reader either. -/
theorem declaration?_of_not_beginsDeclaration {t : Token} {property : Text} {rest : List Token}
    (hkind : t.kind = .ident property)
    (h : (takeRuleEntry true (t :: rest)).1.beginsDeclaration = false) :
    declaration? property (spanTop Token.isSemicolon rest).1 = none := by
  have hcolon : startsColon rest = false := by
    obtain ⟨kind, text⟩ := t
    obtain rfl : kind = .ident property := hkind
    have hprelude : (takeUntil (fun t => (true && t.isSemicolon) || t.opensBody)
        (⟨.ident property, text⟩ :: rest)).1 = ⟨.ident property, text⟩ ::
          (spanTop (fun t => (true && t.isSemicolon) || t.opensBody) rest).1 := by
      rw [takeUntil_fst]
      rfl
    simp only [takeRuleEntry, hprelude, Entry.beginsDeclaration] at h
    rwa [startsColon_spanTop ?_ ?_] at h
    · intro t ht
      simp [Token.isSemicolon_of_isGap ht, Token.opensBody_of_isGap ht]
    · intro t ht
      simp [Token.isSemicolon, Token.opensBody, ht]
  rw [declaration?_eq_none_iff, startsColon_spanTop (fun _ => Token.isSemicolon_of_isGap) ?_, hcolon]
  intro t ht
  simp [Token.isSemicolon, ht]

/-- What the reader makes of the entry at the front, and where it goes on. -/
theorem declarations_readerAt_cons {check : ValueCheck} {behind : Bool} {t : Token}
    (ht : t.separates = false) {rest : List Token}
    (hblock : ∀ prelude, (takeEntry (some check) t rest).1 ≠ .rule prelude none)
    (hread : behind = false → (takeEntry (some check) t rest).1.beginsDeclaration = false) :
    declarations (readerAt behind (t :: rest)) =
      (if behind then [] else (takeEntry (some check) t rest).1.declaration?.toList) ++
        declarations (readerAt ((takeEntry (some check) t rest).1.leavesBehind behind)
          (takeEntry (some check) t rest).2) := by
  have hcons := declarations_cons ht rest
  -- a rule, whatever it begins with, brings nothing
  have hrule (hentry : takeEntry (some check) t rest = takeRuleEntry true (t :: rest))
      (hskip : behind = false → declarations (t :: rest) =
        declarations ((spanTop Token.isSemicolon (t :: rest)).2.drop 1)) :
      declarations (readerAt behind (t :: rest)) =
        (if behind then [] else (takeEntry (some check) t rest).1.declaration?.toList) ++
          declarations (readerAt ((takeEntry (some check) t rest).1.leavesBehind behind)
            (takeEntry (some check) t rest).2) := by
    rw [hentry] at hblock ⊢
    have hnone : (takeRuleEntry true (t :: rest)).1.declaration? = none := rfl
    rw [declarations_readerAt_rule hskip hblock, hnone, Option.toList_none, ite_self, List.nil_append]
  cases hkind : t.kind with
  | atKeyword name =>
    simp only [takeEntry, hkind, Entry.declaration?, Entry.leavesBehind, Option.toList_none, ite_self,
      List.nil_append]
    exact declarations_readerAt_atRule ht hkind
  | ident property =>
    by_cases hdeclaration :
        isDeclarationOf check property (spanTop Token.isSemicolon rest).1 = true
    · simp only [takeEntry, hkind, Option.any_some, hdeclaration, ↓reduceIte, Entry.declaration?,
        Entry.leavesBehind]
      exact declarations_readerAt_declaration ht hkind
    · have hentry : takeEntry (some check) t rest = takeRuleEntry true (t :: rest) := by
        simp [takeEntry, hkind, hdeclaration]
      refine hrule hentry fun hb => ?_
      rw [hentry] at hread
      have hsemicolon : t.isSemicolon = false := (Bool.or_eq_false_iff.mp ht).2
      rw [spanTop_cons_of_neg (by simp [Token.opens?, hkind]) hsemicolon]
      simpa only [hkind, declaration?_of_not_beginsDeclaration hkind (hread hb), Option.toList_none,
        List.nil_append] using hcons
  | _ =>
    rw [hkind] at hcons
    exact hrule (by simp only [takeEntry, hkind, Option.isSome_some]) fun _ => hcons

/-- Whether the entry can be one: a rule inside a rule needs a block. -/
def Entry.isWhole : Entry → Bool
  | .rule _ none => false
  | _ => true

/-- The reader finds the declarations that are not behind a rule, if it takes no rule for one. -/
theorem declarations_eq_open {check : ValueCheck} {ts : List Token}
    (hwhole : ∀ e ∈ entries (some check) ts, e.2.isWhole = true)
    (hread : ∀ e ∈ entries (some check) ts, e.1 = false → e.2.beginsDeclaration = false) :
    declarations ts = openDeclarations check ts := by
  suffices ∀ behind us, (∀ e ∈ entriesBehind (some check) behind us, e.2.isWhole = true) →
      (∀ e ∈ entriesBehind (some check) behind us, e.1 = false → e.2.beginsDeclaration = false) →
      declarations (readerAt behind us) =
        ((entriesBehind (some check) behind us).filter (!·.1)).filterMap (·.2.declaration?) from
    this false ts hwhole hread
  intro behind us hwhole hread
  induction behind, us using entries_induction (some check) with
  | nil behind us hus =>
    rw [declarations_readerAt, entriesBehind_nil hus, hus]
    cases staysBehind behind us <;> rfl
  | cons behind us t rest hus ih =>
    rw [entriesBehind_cons hus] at hwhole hread ⊢
    rw [List.forall_mem_cons] at hwhole hread
    have hblock (prelude : List Token) : (takeEntry (some check) t rest).1 ≠ .rule prelude none := by
      intro heq
      have := hwhole.1
      rw [heq] at this
      cases this
    rw [declarations_readerAt, hus,
      declarations_readerAt_cons (Text.not_of_dropWhile_eq_cons hus) hblock hread.1,
      ih hwhole.2 hread.2]
    cases staysBehind behind us with
    | true => rfl
    | false =>
      simp only [Bool.false_eq_true, ↓reduceIte, Bool.not_false, List.filter_cons_of_pos,
        List.filterMap_cons]
      cases (takeEntry (some check) t rest).1.declaration? <;> rfl

end Css

end StyleRef
