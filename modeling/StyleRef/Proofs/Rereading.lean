import Mathlib.Data.List.Basic
import Mathlib.Tactic.MkIffOfInductiveProp
import StyleRef.Proofs.Cutting
import StyleRef.Proofs.MediaRuns
import StyleRef.Proofs.Nesting
import StyleRef.Proofs.Pieces
import StyleRef.Proofs.Splitting

/-
# Reading what was written

The printer puts the parts of a sheet between marks: a selector list before a
brace, a value between a colon and a semicolon or a brace.  If each part, as it
stands there, is closed and settles its brackets, the marks cut the text into
these parts again, and the reader finds what was written.

Nothing is said here of how a part looks like; what it has to fulfil is
`Declaration.Readable` and `Rule.Readable`.  Main statement: `read_render`.
-/

namespace StyleRef

namespace Css

/-! ## Settled texts -/

/-- A text that ends where its last token ends, with all blocks closed. -/
structure Settled (w : Text) : Prop where
  closed : Closed w
  settles : settles [] (lex w) = true

theorem lex_append_mark {w : Text} (hw : Closed w) {m : Char} (hm : isMark m = true) (s : Text) :
    lex (w ++ m :: s) = lex w ++ ⟨punctuation m, [m]⟩ :: lex s := by
  rw [hw.lex_append (marked_cons.mpr hm), lex_mark hm]

namespace Settled

variable {w inside s : Text}

theorem nil : Settled [] := ⟨closed_nil, rfl⟩

theorem append_mark (hw : Settled w) {m : Char} (hm : m = ';' ∨ m = ':') (hs : Settled s) :
    Settled (w ++ m :: s) := by
  have hmark : isMark m = true := by rcases hm with rfl | rfl <;> rfl
  refine ⟨hw.closed.append_mark hmark hs.closed, ?_⟩
  rw [lex_append_mark hw.closed hmark, ← List.nil_append ([] : List Bracket),
    settles_append hw.settles]
  rcases hm with rfl | rfl <;> exact hs.settles

theorem block (hw : Settled w) (hinside : Settled inside) (hs : Settled s) :
    Settled (w ++ '{' :: (inside ++ '}' :: s)) := by
  refine ⟨hw.closed.append_mark rfl (hinside.closed.append_mark rfl hs.closed), ?_⟩
  rw [lex_append_mark hw.closed rfl, lex_append_mark hinside.closed rfl,
    ← List.nil_append ([] : List Bracket), settles_append hw.settles]
  exact (settles_append hinside.settles [.curly] _).trans hs.settles

theorem space_append {ws : Text} (hws : ∀ c ∈ ws, isSpace c = true) (hs : Settled s) :
    Settled (ws ++ s) := by
  induction ws with
  | nil => exact hs
  | cons c ws ih =>
    have hc := hws c (by simp)
    have ih := ih fun d hd => hws d (List.mem_cons_of_mem c hd)
    refine ⟨ih.closed.space_cons hc, ?_⟩
    have hsettles := ih.settles
    rw [List.cons_append, lex_space hc]
    cases hws' : ws ++ s with
    | nil => rfl
    | cons d t =>
      rw [hws'] at hsettles
      by_cases hd : isSpace d = true
      · rw [lex_space hd] at hsettles
        rw [List.dropWhile_cons_of_pos hd]
        exact hsettles
      · rw [List.dropWhile_cons_of_neg hd]
        exact hsettles

end Settled

theorem lex_block {w inside : Text} (hw : Closed w) (hinside : Closed inside) (s : Text) :
    lex (w ++ '{' :: (inside ++ '}' :: s)) =
      lex w ++ ⟨.opening .curly, ['{']⟩ :: (lex inside ++ ⟨.closing .curly, ['}']⟩ :: lex s) := by
  rw [lex_append_mark hw rfl, lex_append_mark hinside rfl]
  rfl

end Css

open Css

/-! ## Declarations -/

def Declaration.valueText (d : Declaration) : Text :=
  ' ' :: d.value ++ if d.important then " !important".toList else []

theorem Declaration.render_eq (d : Declaration) :
    d.render = d.property ++ ':' :: d.valueText := by
  simp only [Declaration.render, Declaration.valueText, List.append_assoc, List.cons_append]
  rfl

/-- The annotation is split off as it was written, and no other. -/
theorem Declaration.splitImportant_valueText {d : Declaration} (h : Parted d.value d.important) :
    splitImportant d.valueText = (d.value, d.important) := by
  rw [Declaration.valueText, List.cons_append, splitImportant_space_cons, splitImportant_eq_iff]
  exact splits_written_iff.mpr h

/-- The parts of a declaration end where the next mark is written.  A value is written before a
semicolon, or before a blank and a brace. -/
@[mk_iff]
structure Declaration.Delimited (d : Declaration) : Prop where
  property : lex (' ' :: d.property) = [⟨.space, [' ']⟩, ⟨.ident d.property, d.property⟩]
  property_closed : Closed (' ' :: d.property)
  value_closed : ∀ tail ∈ [[], [' ']], Closed (d.valueText ++ tail)
  value_whole : ∀ tail ∈ [[], [' ']], Whole Token.isSemicolon (lex (d.valueText ++ tail))

instance (d : Declaration) : Decidable d.Delimited :=
  decidable_of_iff _ (Declaration.delimited_iff d).symm

/-- The parts of a declaration are read as what they are where they are written. -/
structure Declaration.Readable (d : Declaration) : Prop extends d.Delimited where
  value_split : splitImportant d.valueText = (d.value, d.important)

def Rule.inside : List Declaration → Text
  | [] => []
  | [d] => ' ' :: d.property ++ ':' :: (d.valueText ++ [' '])
  | d :: ds => ' ' :: d.property ++ ':' :: (d.valueText ++ ';' :: Rule.inside ds)

theorem Rule.inside_cons_cons (d e : Declaration) (ds : List Declaration) :
    Rule.inside (d :: e :: ds) =
      ' ' :: d.property ++ ':' :: (d.valueText ++ ';' :: Rule.inside (e :: ds)) := rfl

theorem Rule.renderBody_eq (ds : List Declaration) :
    Rule.renderBody ds = Rule.inside ds ++ ['}'] := by
  induction ds with
  | nil => rfl
  | cons d ds ih =>
    cases ds with
    | nil => simp [Rule.renderBody, Rule.inside, Declaration.render_eq]
    | cons e ds =>
      have hbody : Rule.renderBody (d :: e :: ds) =
          ' ' :: d.render ++ ';' :: Rule.renderBody (e :: ds) := by
        simp [Rule.renderBody, List.intercalate_cons_cons]
      rw [hbody, ih, Rule.inside_cons_cons, Declaration.render_eq]
      simp only [List.cons_append, List.append_assoc]

theorem declaration?_readable {d : Declaration} (h : d.Readable) {tail : Text}
    (htail : tail ∈ [[], [' ']]) :
    declaration? d.property (⟨.colon, [':']⟩ :: lex (d.valueText ++ tail)) = some d := by
  have hblank : ∀ c ∈ tail, isBlank c = true := by
    simp only [List.mem_cons, List.not_mem_nil, or_false] at htail
    rcases htail with rfl | rfl <;> decide
  have hsplit := splitImportant_append (a := []) (by simp) hblank d.valueText
  rw [List.nil_append, h.value_split] at hsplit
  simp [declaration?, skipGaps, Token.isGap, hsplit]

/-- Behind the property an item runs to its semicolon, or to the end of the block. -/
theorem spanTop_item {d : Declaration} (h : d.Readable) {tail : Text} (htail : tail ∈ [[], [' ']])
    {rest : List Token} (hrest : ∀ t ∈ rest.head?, t.isSemicolon = true) :
    spanTop Token.isSemicolon (⟨.colon, [':']⟩ :: (lex (d.valueText ++ tail) ++ rest)) =
      (⟨.colon, [':']⟩ :: lex (d.valueText ++ tail), rest) := by
  have hcolon : Whole Token.isSemicolon [⟨.colon, [':']⟩] := .single rfl rfl rfl
  have hwhole := (hcolon.append (h.value_whole tail htail)).spanTop_append rest
  have hstop : spanTop Token.isSemicolon rest = ([], rest) := by
    cases rest with
    | nil => rfl
    | cons t rest => exact spanTop_cons_of_pos (hrest t rfl) rest
  simpa only [hstop, List.append_nil, List.cons_append, List.nil_append] using hwhole

/-- The item of a declaration, and the rest of the block behind its semicolon. -/
theorem declarations_item {d : Declaration} (h : d.Readable) {tail : Text}
    (htail : tail ∈ [[], [' ']]) (rest : List Token)
    (hrest : ∀ t ∈ rest.head?, t.isSemicolon = true) :
    declarations (lex (' ' :: d.property) ++ ⟨.colon, [':']⟩ :: (lex (d.valueText ++ tail) ++ rest)) =
      d :: declarations (rest.drop 1) := by
  have hspan := spanTop_item h htail hrest
  have hitem := declaration?_readable h htail
  rw [declarations_eq, h.property]
  simp only [declarationStep, List.cons_append, List.nil_append, Token.isGap, Token.isSemicolon,
    List.dropWhile]
  simp [hspan, hitem]

/-- A blank stands behind the last value of a rule, and nothing behind the others. -/
theorem blank_mem_tails : [' '] ∈ ([[], [' ']] : List Text) := by simp

theorem declarations_inside {ds : List Declaration} (h : ∀ d ∈ ds, d.Readable) :
    declarations (lex (Rule.inside ds)) = ds := by
  induction ds with
  | nil => rfl
  | cons d ds ih =>
    have hd := h d (by simp)
    have ih := ih fun e he => h e (List.mem_cons_of_mem d he)
    cases ds with
    | nil =>
      have hitem := declarations_item hd blank_mem_tails [] (by simp)
      rw [List.append_nil] at hitem
      rw [Rule.inside, lex_append_mark hd.property_closed rfl]
      exact hitem
    | cons e ds =>
      have hclosed := hd.value_closed [] (by simp)
      have hitem := declarations_item hd List.mem_cons_self
        (⟨.semicolon, [';']⟩ :: lex (Rule.inside (e :: ds))) (by simp [Token.isSemicolon])
      rw [List.append_nil] at hclosed hitem
      rw [Rule.inside_cons_cons, lex_append_mark hd.property_closed rfl,
        lex_append_mark hclosed rfl]
      refine hitem.trans ?_
      rw [List.drop_one, List.tail_cons, ih]

theorem settled_inside {ds : List Declaration} (h : ∀ d ∈ ds, d.Readable) :
    Settled (Rule.inside ds) := by
  have hproperty {d : Declaration} (hd : d.Readable) : Settled (' ' :: d.property) :=
    ⟨hd.property_closed, by rw [hd.property]; rfl⟩
  have hvalue {d : Declaration} (hd : d.Readable) (tail : Text) (htail : tail ∈ [[], [' ']]) :
      Settled (d.valueText ++ tail) :=
    ⟨hd.value_closed tail htail, (hd.value_whole tail htail).settles⟩
  induction ds with
  | nil => exact .nil
  | cons d ds ih =>
    have hd := h d (by simp)
    have ih := ih fun e he => h e (List.mem_cons_of_mem d he)
    cases ds with
    | nil => exact (hproperty hd).append_mark (.inr rfl) (hvalue hd [' '] (by simp))
    | cons e ds =>
      have hv := hvalue hd [] (by simp)
      rw [List.append_nil] at hv
      rw [Rule.inside_cons_cons]
      exact (hproperty hd).append_mark (.inr rfl) (hv.append_mark (.inl rfl) ih)

/-! ## Rules -/

/-- The parts of a rule end where the next mark is written, and the first begins a rule. -/
@[mk_iff]
structure Rule.Delimited (r : Rule) : Prop where
  selector_closed : Closed (r.selector ++ [' '])
  selector_whole : Whole Token.opensBody (lex (r.selector ++ [' ']))
  /-- What the selector list begins with is left out by no list of rules, and begins no at-rule. -/
  begins : ∃ t ts, lex (r.selector ++ [' ']) = t :: ts ∧ t.isFiller = false ∧
    ∀ name, t.kind ≠ .atKeyword name
  noCustomProperty : startsCustomProperty (lex (r.selector ++ [' '])) = false
  query_closed : ∀ q ∈ r.media, Closed (' ' :: q ++ [' '])
  query_whole : ∀ q ∈ r.media,
    Whole (fun t => t.isSemicolon || t.opensBody) (lex (' ' :: q ++ [' ']))
  items : ∀ d ∈ r.declarations, d.Delimited

instance (kind : Kind) : Decidable (∀ name, kind ≠ .atKeyword name) :=
  decidable_of_iff ((kind matches .atKeyword _) = false) (by cases kind <;> simp)

instance {p : Token → Prop} [DecidablePred p] :
    (ts : List Token) → Decidable (∃ t us, ts = t :: us ∧ p t)
  | [] => isFalse nofun
  | t :: ts => decidable_of_iff (p t)
    ⟨fun h => ⟨t, ts, rfl, h⟩, fun ⟨_, _, heq, h⟩ => (List.cons.inj heq).1 ▸ h⟩

instance (r : Rule) : Decidable r.Delimited := decidable_of_iff _ (Rule.delimited_iff r).symm

/-- The parts of a rule are read as what they are where they are written. -/
structure Rule.Readable (r : Rule) : Prop extends r.Delimited where
  selector_tidy : Text.Tidy r.selector
  query_tidy : ∀ q ∈ r.media, Text.Tidy q
  values_split : ∀ d ∈ r.declarations, splitImportant d.valueText = (d.value, d.important)

theorem Rule.Readable.declarations {r : Rule} (h : r.Readable) : ∀ d ∈ r.declarations, d.Readable :=
  fun d hd => ⟨h.items d hd, h.values_split d hd⟩

def Rule.statement (r : Rule) : Statement :=
  .qualified (lex (r.selector ++ [' '])) (some (lex (Rule.inside r.declarations)))

theorem Rule.render_eq (r : Rule) :
    r.render = (r.selector ++ [' ']) ++ '{' :: (Rule.inside r.declarations ++ ['}']) := by
  simp only [Rule.render, Rule.renderBody_eq, List.append_assoc, List.cons_append, List.nil_append]

theorem lex_render_append {r : Rule} (h : r.Readable) (s : Text) :
    lex (r.render ++ s) = lex (r.selector ++ [' ']) ++ ⟨.opening .curly, ['{']⟩ ::
      (lex (Rule.inside r.declarations) ++ ⟨.closing .curly, ['}']⟩ :: lex s) := by
  rw [← lex_block h.selector_closed (settled_inside h.declarations).closed, Rule.render_eq]
  simp only [List.append_assoc, List.cons_append, List.nil_append]

/-- The statement at the front is the rule that was written there. -/
theorem statementsBehind_render {r : Rule} (h : r.Readable) (fresh : Bool) {ws : Text}
    (hws : ∀ c ∈ ws, isSpace c = true) (s : Text) :
    statementsBehind fresh (lex (ws ++ (r.render ++ s))) =
      r.statement :: statementsBehind false (lex s) := by
  obtain ⟨t, ts, hbegins, hfiller, hat⟩ := h.begins
  have hinside := settled_inside h.declarations
  have hlex := lex_render_append h s
  have htake := takeUntil_block h.selector_whole (t := ⟨.opening .curly, ['{']⟩)
    (u := ⟨.closing .curly, ['}']⟩) rfl rfl hinside.settles rfl (lex s)
  rw [hbegins, List.cons_append] at hlex htake
  have hfront := dropWhile_lex_append (fun _ => Token.isFiller_of_isGap) hws (r.render ++ s)
  rw [hlex, List.dropWhile_cons_of_neg (by simp [hfiller])] at hfront
  rw [statementsBehind_qualified hfront hat, htake, Rule.statement, hbegins]

/-! ## Lines -/

theorem isSpace_newline : ∀ c ∈ ['\n'], isSpace c = true := by decide

theorem settled_render_append {r : Rule} (h : r.Readable) {s : Text} (hs : Settled s) :
    Settled (r.render ++ s) := by
  have hblock := Settled.block ⟨h.selector_closed, h.selector_whole.settles⟩
    (settled_inside h.declarations) hs
  simpa only [Rule.render_eq, List.append_assoc, List.cons_append, List.nil_append] using hblock

namespace Stylesheet

theorem line_append (r : Rule) (s : Text) :
    ∃ ws : Text, (∀ c ∈ ws, isSpace c = true) ∧ line r ++ s = ws ++ (r.render ++ (['\n'] ++ s)) := by
  refine ⟨if r.media.isSome then "  ".toList else [], ?_, by simp [line]⟩
  split <;> decide

theorem settled_lines {rs : List Rule} (h : ∀ r ∈ rs, r.Readable) : Settled (rs.flatMap line) := by
  induction rs with
  | nil => exact .nil
  | cons r rs ih =>
    have hr := h r (by simp)
    have ih := ih fun a ha => h a (List.mem_cons_of_mem r ha)
    obtain ⟨ws, hws, hline⟩ := line_append r (rs.flatMap line)
    rw [List.flatMap_cons, hline]
    exact .space_append hws (settled_render_append hr (.space_append (by decide) ih))

theorem statementsBehind_space (fresh : Bool) {ws : Text} (hws : ∀ c ∈ ws, isSpace c = true) :
    statementsBehind fresh (lex ws) = [] := by
  have hdrop := dropWhile_lex_append (fun _ => Token.isFiller_of_isGap) hws []
  rw [List.append_nil] at hdrop
  exact statementsBehind_nil hdrop

/-- Lines are read one by one, whatever follows them. -/
theorem statementsBehind_lines {rs : List Rule} (h : ∀ r ∈ rs, r.Readable) (fresh : Bool)
    {ws : Text} (hws : ∀ c ∈ ws, isSpace c = true) (s : Text) :
    ∃ (fresh' : Bool) (ws' : Text), (∀ c ∈ ws', isSpace c = true) ∧
      statementsBehind fresh (lex (ws ++ (rs.flatMap line ++ s))) =
        rs.map Rule.statement ++ statementsBehind fresh' (lex (ws' ++ s)) := by
  induction rs generalizing fresh ws with
  | nil => exact ⟨fresh, ws, hws, rfl⟩
  | cons r rs ih =>
    have hr := h r (by simp)
    obtain ⟨fresh', ws', hws', ih⟩ :=
      ih (fun a ha => h a (List.mem_cons_of_mem r ha)) false isSpace_newline
    obtain ⟨indent, hindent, hline⟩ := line_append r (rs.flatMap line ++ s)
    have hall : ∀ c ∈ ws ++ indent, isSpace c = true := by
      intro c hc
      exact (List.mem_append.mp hc).elim (hws c) (hindent c)
    refine ⟨fresh', ws', hws', ?_⟩
    rw [List.flatMap_cons, List.append_assoc, hline, ← List.append_assoc,
      statementsBehind_render hr fresh hall, ih, List.map_cons, List.cons_append]

/-! ## Blocks of a query -/

/-- What stands between the braces of a block: the lines of its rules. -/
def content (rs : List Rule) : Text := ['\n'] ++ rs.flatMap line

def blockStatement (q : Text) (rs : List Rule) : Statement :=
  .atRule "media".toList (lex (' ' :: q ++ [' '])) (some (lex (content rs)))

theorem lex_media (s : Text) :
    lex ("@media".toList ++ ' ' :: s) =
      ⟨.atKeyword "media".toList, "@media".toList⟩ :: lex (' ' :: s) := by
  rw [show "@media".toList ++ ' ' :: s = '@' :: ("media".toList ++ ' ' :: s) from rfl, lex_cons]
  rfl

theorem opening_some_append (q s : Text) :
    opening (some q) ++ s = "@media".toList ++ ' ' :: (q ++ [' '] ++ '{' :: '\n' :: s) := by
  have hopening : opening (some q) ++ s = "@media".toList ++ ' ' :: (q ++ [' ', '{', '\n'] ++ s) :=
    rfl
  have hrest : q ++ [' ', '{', '\n'] ++ s = q ++ [' '] ++ '{' :: '\n' :: s := by simp
  exact hopening.trans (congrArg ("@media".toList ++ ' ' :: ·) hrest)

theorem statementsBehind_block {q : Text} (hclosed : Closed (' ' :: q ++ [' ']))
    (hwhole : Whole (fun t => t.isSemicolon || t.opensBody) (lex (' ' :: q ++ [' '])))
    {rs : List Rule} (h : ∀ r ∈ rs, r.Readable) (fresh : Bool) {ws : Text}
    (hws : ∀ c ∈ ws, isSpace c = true) (s : Text) :
    statementsBehind fresh (lex (ws ++ (block (some q) rs ++ s))) =
      blockStatement q rs :: statementsBehind false (lex (['\n'] ++ s)) := by
  have hcontent : Settled (content rs) := .space_append (by decide) (settled_lines h)
  have hlex : lex (block (some q) rs ++ s) =
      ⟨.atKeyword "media".toList, "@media".toList⟩ ::
        (lex (' ' :: q ++ [' ']) ++ ⟨.opening .curly, ['{']⟩ ::
          (lex (content rs) ++ ⟨.closing .curly, ['}']⟩ :: lex (['\n'] ++ s))) := by
    rw [block, List.append_assoc, opening_some_append, lex_media, ← lex_block hclosed hcontent.closed]
    simp only [content, closing, List.append_assoc, List.cons_append, List.nil_append]
  have htake : takeAtRule _ = _ := takeUntil_block hwhole (t := ⟨.opening .curly, ['{']⟩)
    (u := ⟨.closing .curly, ['}']⟩) rfl rfl hcontent.settles rfl (lex (['\n'] ++ s))
  have hcharset : Text.sameIgnoringCase "media".toList "charset".toList = false := by decide
  have hfront := dropWhile_lex_append (fun _ => Token.isFiller_of_isGap) hws (block (some q) rs ++ s)
  rw [hlex, List.dropWhile_cons_of_neg (by simp [Token.isFiller, Token.isGap])] at hfront
  rw [statementsBehind_atRule hfront rfl, htake, hcharset, Bool.and_false]
  rfl

end Stylesheet

/-! ## Sheets -/

namespace Css

/-- The rules that a statement brings into a list. -/
def Statement.rules (depth : Nat) (media : Option Text) : Statement → List Rule
  | .qualified prelude (some block) =>
    if startsCustomProperty prelude then [] else [⟨slice prelude, declarations block, media⟩]
  | .atRule name prelude (some block) =>
    if Text.sameIgnoringCase name "media".toList then rulesFrom depth (some (slice prelude)) block
    else []
  | _ => []

theorem rulesFrom_succ (depth : Nat) (media : Option Text) (ts : List Token) :
    rulesFrom (depth + 1) media ts =
      (statementsBehind true ts).flatMap (Statement.rules depth media) := rfl

end Css

namespace Rule.Readable

variable {r : Rule} (h : r.Readable)
include h

theorem rules_statement (depth : Nat) (media : Option Text) :
    r.statement.rules depth media = [{ r with media := media }] := by
  have hblank : ∀ c ∈ [' '], isBlank c = true := by decide
  have hselector : slice (lex (r.selector ++ [' '])) = r.selector := by
    rw [slice, textOf_lex]
    exact Text.trim_of_tidy (a := []) h.selector_tidy (by simp) hblank
  simp only [Rule.statement, Statement.rules, h.noCustomProperty, hselector,
    declarations_inside h.declarations, Bool.false_eq_true, ↓reduceIte]

end Rule.Readable

namespace Stylesheet

theorem flatMap_rules_statement {rs : List Rule} (h : ∀ r ∈ rs, r.Readable) {media : Option Text}
    (hmedia : ∀ r ∈ rs, r.media = media) (depth : Nat) :
    (rs.map Rule.statement).flatMap (Statement.rules depth media) = rs := by
  have hall : ∀ r ∈ rs, r.statement.rules depth media = [r] := by
    intro r hr
    rw [(h r hr).rules_statement, ← hmedia r hr]
  rw [List.flatMap_map, List.flatMap_def, List.map_congr_left hall, ← List.flatMap_def,
    List.flatMap_singleton']

theorem rules_blockStatement {q : Text} (hq : Text.Tidy q) {rs : List Rule}
    (h : ∀ r ∈ rs, r.Readable) (hmedia : ∀ r ∈ rs, r.media = some q) (depth : Nat)
    (media : Option Text) :
    (blockStatement q rs).rules (depth + 1) media = rs := by
  have hslice : slice (lex (' ' :: q ++ [' '])) = q := by
    rw [slice, textOf_lex]
    exact Text.trim_of_tidy (a := [' ']) (b := [' ']) hq (by decide) (by decide)
  have hname : Text.sameIgnoringCase "media".toList "media".toList = true := by decide
  obtain ⟨fresh, ws, hws, hlines⟩ :=
    statementsBehind_lines h true isSpace_newline []
  rw [List.append_nil, List.append_nil, statementsBehind_space fresh hws, List.append_nil] at hlines
  simp only [blockStatement, Statement.rules, hname, ↓reduceIte, hslice, rulesFrom_succ, content,
    hlines]
  exact flatMap_rules_statement h hmedia depth

def statementsOf (g : Option Text × List Rule) : List Statement :=
  match g.1 with
  | none => g.2.map Rule.statement
  | some q => [blockStatement q g.2]

theorem statementsBehind_blocks {groups : List (Option Text × List Rule)}
    (h : ∀ g ∈ groups, ∀ r ∈ g.2, r.Readable)
    (hmedia : ∀ g ∈ groups, g.2 ≠ [] ∧ ∀ r ∈ g.2, r.media = g.1) (fresh : Bool) {ws : Text}
    (hws : ∀ c ∈ ws, isSpace c = true) :
    statementsBehind fresh (lex (ws ++ groups.flatMap fun g => block g.1 g.2)) =
      groups.flatMap statementsOf := by
  induction groups generalizing fresh ws with
  | nil => simp [statementsBehind_space fresh hws]
  | cons g groups ih =>
    obtain ⟨media, rs⟩ := g
    have ih := ih (fun g' hg => h g' (List.mem_cons_of_mem _ hg))
      (fun g' hg => hmedia g' (List.mem_cons_of_mem _ hg))
    have hrs : ∀ r ∈ rs, r.Readable := h (media, rs) (by simp)
    obtain ⟨hne, hsame⟩ : rs ≠ [] ∧ ∀ r ∈ rs, r.media = media := hmedia (media, rs) (by simp)
    rw [List.flatMap_cons, List.flatMap_cons]
    cases media with
    | none =>
      obtain ⟨fresh', ws', hws', hlines⟩ := statementsBehind_lines hrs fresh hws
        (groups.flatMap fun g => block g.1 g.2)
      have hmargin : block none rs = rs.flatMap line := by
        rw [block, show closing none = [] from rfl, List.append_nil]
        rfl
      rw [hmargin, hlines, ih fresh' hws']
      rfl
    | some q =>
      obtain ⟨r, hr⟩ := List.exists_mem_of_ne_nil rs hne
      have hq := hsame r hr
      have hr := hrs r hr
      rw [statementsBehind_block (hr.query_closed q hq) (hr.query_whole q hq) hrs fresh hws,
        ih false (by decide)]
      rfl

/-- Rules at the margin and in blocks are read again, each with its query. -/
theorem flatMap_rules_statementsOf (depth : Nat) {g : Option Text × List Rule}
    (h : ∀ r ∈ g.2, r.Readable) (hmedia : g.2 ≠ [] ∧ ∀ r ∈ g.2, r.media = g.1) :
    (statementsOf g).flatMap (Statement.rules (depth + 1) none) = g.2 := by
  obtain ⟨media, rs⟩ := g
  obtain ⟨hne, hsame⟩ : rs ≠ [] ∧ ∀ r ∈ rs, r.media = media := hmedia
  cases media with
  | none => exact flatMap_rules_statement h hsame _
  | some q =>
    obtain ⟨r, hr⟩ := List.exists_mem_of_ne_nil rs hne
    rw [statementsOf, List.flatMap_singleton,
      rules_blockStatement ((h r hr).query_tidy q (hsame r hr)) h hsame]

theorem statements_render {s : Stylesheet} (h : ∀ r ∈ s.rules, r.Readable) :
    ∃ groups : List (Option Text × List Rule), s.rules = groups.flatMap (·.2) ∧
      (∀ g ∈ groups, g.2 ≠ [] ∧ ∀ r ∈ g.2, r.media = g.1) ∧
      statementsBehind true (lex s.render) = groups.flatMap statementsOf := by
  obtain ⟨groups, hrules, hmedia, htext⟩ := inBlocks_render s
  have hreadable : ∀ g ∈ groups, ∀ r ∈ g.2, r.Readable := fun g hg r hr =>
    h r (by rw [hrules]; exact List.mem_flatMap.mpr ⟨g, hg, hr⟩)
  have hstatements := statementsBehind_blocks hreadable hmedia true (List.forall_mem_nil _)
  rw [List.nil_append, ← htext] at hstatements
  exact ⟨groups, hrules, hmedia, hstatements⟩

/-- Main statement: a sheet of readable parts is read as it was before it was written. -/
theorem read_render {s : Stylesheet} (h : ∀ r ∈ s.rules, r.Readable) : read s.render = s := by
  obtain ⟨groups, hrules, hmedia, hstatements⟩ := statements_render h
  have hread (depth : Nat) : rulesFrom (depth + 2) none (lex s.render) = s.rules := by
    rw [rulesFrom_succ, hstatements, List.flatMap_assoc, hrules]
    refine List.flatMap_congr fun g hg => flatMap_rules_statementsOf depth (fun r hr => ?_) (hmedia g hg)
    exact h r (by rw [hrules]; exact List.mem_flatMap.mpr ⟨g, hg, hr⟩)
  have hrules : Css.rules (lex s.render) = s.rules := by
    -- a text that holds a rule has a token, and that is depth enough
    cases hlex : lex s.render with
    | nil =>
      have hempty := hread 0
      rw [hlex] at hempty
      exact hempty
    | cons t ts => rw [Css.rules, List.length_cons, ← hlex, hread]
  exact congrArg Stylesheet.mk hrules

end Stylesheet

end StyleRef
