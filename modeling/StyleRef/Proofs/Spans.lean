import StyleRef.Proofs.Rereading
import StyleRef.Proofs.Values

/-
# Where the pieces of a sheet stand

A loaded sheet is made of pieces of the text.  The reader goes through the tokens
once and never back, so there is a place in the text for each selector list and
each value, behind those of all that was loaded before it; and the query of a
block stands in front of the rules in the block.

Places are counted in characters from the start of the whole text, and lists of
tokens are located in the same way (`TokensAt`).  What is found in the block of a
rule or of a query is then where it is in the text, and no step of the reading
shifts anything.
-/

namespace StyleRef

namespace Css

/-! ## Spans -/

/-- A piece of a text, with the number of characters in front of it. -/
structure Span where
  start : Nat
  text : Text
deriving DecidableEq

namespace Span

def finish (x : Span) : Nat := x.start + x.text.length

/-- The piece is found in the text where it is said to start. -/
def StandsIn (css : Text) (x : Span) : Prop :=
  ∃ before after, css = before ++ x.text ++ after ∧ before.length = x.start

end Span

section Spans
variable {css : Text} {n m : Nat}

theorem standsIn_append {u v : Text} (h : Span.StandsIn css ⟨n, u ++ v⟩) :
    Span.StandsIn css ⟨n, u⟩ ∧ Span.StandsIn css ⟨n + u.length, v⟩ := by
  obtain ⟨a, b, hcss, rfl⟩ := h
  exact ⟨⟨a, v ++ b, by simp [hcss], rfl⟩, a ++ u, b, by simp [hcss], by simp⟩

theorem exists_span_of_isInfix {u v : Text} (h : Span.StandsIn css ⟨n, u⟩) (hv : v <:+: u) :
    ∃ x : Span, x.text = v ∧ x.StandsIn css ∧ n ≤ x.start ∧ x.finish ≤ n + u.length := by
  obtain ⟨a, b, rfl⟩ := hv
  refine ⟨⟨n + a.length, v⟩, rfl, (standsIn_append (standsIn_append h).1).2, by simp, ?_⟩
  simp only [Span.finish, List.length_append]
  omega

/-- Pieces of a text between two places, each of them behind the one before it. -/
structure Row (css : Text) (n m : Nat) (xs : List Span) : Prop where
  stands : ∀ x ∈ xs, x.StandsIn css
  within : ∀ x ∈ xs, n ≤ x.start ∧ x.finish ≤ m
  ordered : xs.Pairwise fun x y => x.finish < y.start

theorem row_nil : Row css n m [] := ⟨nofun, nofun, List.Pairwise.nil⟩

theorem Row.mono {n' m' : Nat} {xs : List Span} (h : Row css n m xs) (hn : n' ≤ n) (hm : m ≤ m') :
    Row css n' m' xs :=
  ⟨h.stands, fun x hx => ⟨hn.trans (h.within x hx).1, (h.within x hx).2.trans hm⟩, h.ordered⟩

theorem row_singleton {x : Span} (h : x.StandsIn css) (hn : n ≤ x.start) (hm : x.finish ≤ m) :
    Row css n m [x] :=
  ⟨by simpa using h, by simpa using ⟨hn, hm⟩, List.pairwise_singleton _ _⟩

/-- A piece of a text, if there is one, that ends in front of a place. -/
def InFront (css : Text) (n : Nat) (x? : Option Span) : Prop :=
  ∀ x ∈ x?, x.StandsIn css ∧ x.finish < n

theorem InFront.mono {x? : Option Span} (h : InFront css n x?) (hnm : n ≤ m) : InFront css m x? :=
  fun x hx => ⟨(h x hx).1, (h x hx).2.trans_le hnm⟩

theorem Row.append {k l : Nat} {xs ys : List Span} (hxs : Row css n k xs) (hys : Row css l m ys)
    (hnl : n ≤ l) (hkl : k < l) (hkm : k ≤ m) : Row css n m (xs ++ ys) := by
  refine ⟨?_, ?_, ?_⟩
  · exact List.forall_mem_append.mpr ⟨hxs.stands, hys.stands⟩
  · exact List.forall_mem_append.mpr
      ⟨(hxs.mono (Nat.le_refl n) hkm).within, (hys.mono hnl (Nat.le_refl m)).within⟩
  · refine List.pairwise_append.mpr ⟨hxs.ordered, hys.ordered, fun x hx y hy => ?_⟩
    have := (hxs.within x hx).2
    have := (hys.within y hy).1
    omega

end Spans

/-! ## Pieces of tokens -/

/-- Tokens as they stand in a text behind `n` characters; none of them is empty. -/
structure TokensAt (css : Text) (n : Nat) (ts : List Token) : Prop where
  stands : Span.StandsIn css ⟨n, textOf ts⟩
  nonempty : ∀ t ∈ ts, t.text ≠ []

theorem nonempty_of_mem_lexFrom (skip : Nat) (s : Text) : ∀ t ∈ lexFrom skip s, t.text ≠ [] := by
  induction s generalizing skip with
  | nil => simp [lexFrom]
  | cons c s ih =>
    cases skip with
    | zero => exact List.forall_mem_cons.mpr ⟨List.cons_ne_nil _ _, ih _⟩
    | succ skip => exact ih skip

theorem tokensAt_lex (css : Text) : TokensAt css 0 (lex css) :=
  ⟨⟨[], [], by simp, rfl⟩, nonempty_of_mem_lexFrom 0 css⟩

namespace TokensAt

variable {css : Text} {n : Nat} {ts us : List Token}

theorem append (h : TokensAt css n (ts ++ us)) :
    TokensAt css n ts ∧ TokensAt css (n + (textOf ts).length) us := by
  have hstands := h.stands
  rw [textOf_append] at hstands
  obtain ⟨hts, hus⟩ := standsIn_append hstands
  obtain ⟨hts', hus'⟩ := List.forall_mem_append.mp h.nonempty
  exact ⟨⟨hts, hts'⟩, hus, hus'⟩

theorem length_pos (h : TokensAt css n ts) (hne : ts ≠ []) : 0 < (textOf ts).length := by
  cases ts with
  | nil => exact absurd rfl hne
  | cons t ts =>
    have ht := List.length_pos_iff.mpr (h.nonempty t List.mem_cons_self)
    simp only [textOf_cons, List.length_append]
    omega

/-- A block stands behind its prelude and the brace between the two. -/
theorem block {prelude block : List Token} {t : Token} (h : TokensAt css n (prelude ++ t :: block)) :
    ∃ k, TokensAt css n prelude ∧ TokensAt css k block ∧ n + (textOf prelude).length < k ∧
      k + (textOf block).length = n + (textOf (prelude ++ t :: block)).length := by
  obtain ⟨hprelude, hback⟩ := h.append
  rw [← List.singleton_append] at hback
  obtain ⟨hopen, hblock⟩ := hback.append
  have hpos := hopen.length_pos (List.cons_ne_nil t [])
  refine ⟨_, hprelude, hblock, by omega, ?_⟩
  simp only [textOf_append, textOf_cons, textOf_nil, List.length_append, List.append_nil]
  omega

end TokensAt

/-- Trimming takes a piece out of a text. -/
theorem trim_isInfix (s : Text) : Text.trim s <:+: s := by
  obtain ⟨a, b, h, -⟩ := Text.trim_between s
  exact ⟨a, b, h.symm⟩

theorem slice_isInfix (ts : List Token) : slice ts <:+: textOf ts := trim_isInfix (textOf ts)

/-- So does splitting the annotation off. -/
theorem splitImportant_isInfix (s : Text) : (splitImportant s).1 <:+: s := by
  refine List.IsInfix.trans ?_ (trim_isInfix s)
  simp only [splitImportant]
  split
  · exact List.infix_rfl
  · next before after hbreak =>
    split
    · obtain ⟨hvalue, -⟩ := Text.breakAtLast?_eq_some_iff.mp hbreak
      obtain ⟨b, hb, -⟩ := Text.trimEnd_append before
      exact ⟨[], b ++ '!' :: after, by rw [hvalue, List.nil_append, ← List.append_assoc, ← hb]⟩
    · exact List.infix_rfl

/-! ## Values -/

/-- What the item at the front of a block comes to: nothing, or a declaration whose value is cut out
of tokens that do not come first. -/
theorem declarationStep_cases {u u' : Unit} {ts rest : List Token} {found : List Declaration}
    (h : declarationStep u ts = some (found, u', rest)) :
    (found = [] ∧ rest <:+ ts) ∨
      ∃ d before value after, found = [d] ∧ ts = before ++ (value ++ (after ++ rest)) ∧
        before ≠ [] ∧ d.value <:+: textOf value := by
  rw [declarationStep_eq_map, Option.map_eq_some_iff] at h
  obtain ⟨⟨xs, _, _⟩, hstep, heq⟩ := h
  cases heq
  rcases placedStep_cases hstep with ⟨rfl, hrest⟩ | ⟨x, before, after, rfl, hts, hbefore⟩
  · exact .inl ⟨rfl, hrest⟩
  · exact .inr ⟨x.declaration, before, x.value, after, rfl, hts, hbefore, splitImportant_isInfix _⟩

/-- The values in the block of a rule stand in the block, one behind the other. -/
theorem exists_row_declarations {css : Text} {n : Nat} {ts : List Token} (h : TokensAt css n ts) :
    ∃ xs, xs.map Span.text = (declarations ts).map Declaration.value ∧
      Row css (n + 1) (n + (textOf ts).length) xs := by
  induction hlen : ts.length using Nat.strong_induction_on generalizing n ts with
  | _ len ih =>
    subst hlen
    rw [declarations_eq]
    cases hstep : declarationStep () ts with
    | none => exact ⟨[], rfl, row_nil⟩
    | some x =>
      obtain ⟨found, u, rest⟩ := x
      have hlt := declarationStep_lt _ _ _ _ _ hstep
      rcases declarationStep_cases hstep with
        ⟨rfl, front, rfl⟩ | ⟨d, before, value, after, rfl, rfl, hbefore, hvalue⟩
      · obtain ⟨xs, htexts, hrow⟩ := ih _ hlt h.append.2 rfl
        refine ⟨xs, htexts, hrow.mono (by omega) ?_⟩
        rw [textOf_append, List.length_append, Nat.add_assoc]
      · obtain ⟨hfront, hback⟩ := h.append
        have hpos := hfront.length_pos hbefore
        obtain ⟨x, hx, hstands, hstart, hfinish⟩ :=
          exists_span_of_isInfix hback.append.1.stands hvalue
        obtain ⟨xs, htexts, hrow⟩ := ih _ hlt hback.append.2.append.2 rfl
        refine ⟨x :: xs, by simpa [hx] using htexts, ?_⟩
        simp only [textOf_append, List.length_append] at hrow ⊢
        have hone : Row css (n + 1) (n + (textOf before).length + (textOf value).length) [x] :=
          row_singleton hstands (by omega) hfinish
        exact hone.append (hrow.mono (Nat.le_refl _) (by omega)) (by omega) (by omega) (by omega)

/-! ## Rules -/

/-- The pieces of a rule. -/
structure RuleSpans where
  selector : Span
  values : List Span
  media : Option Span

namespace RuleSpans

def spans (r : RuleSpans) : List Span := r.selector :: r.values

/-- What the pieces of a rule read. -/
def texts (r : RuleSpans) : Text × List Text × Option Text :=
  (r.selector.text, r.values.map Span.text, r.media.map Span.text)

end RuleSpans

/-- The pieces of rules between two places: those in document order make a row, and each query stands
in front of the rules that carry it. -/
structure Laid (css : Text) (n m : Nat) (rs : List RuleSpans) : Prop where
  row : Row css n m (rs.flatMap RuleSpans.spans)
  media : ∀ r ∈ rs, InFront css r.selector.start r.media

section Laid
variable {css : Text} {n m : Nat} {rs : List RuleSpans}

theorem laid_nil : Laid css n m [] := ⟨row_nil, nofun⟩

theorem Laid.mono {n' m' : Nat} (h : Laid css n m rs) (hn : n' ≤ n) (hm : m ≤ m') :
    Laid css n' m' rs :=
  ⟨h.row.mono hn hm, h.media⟩

theorem Laid.append {k l : Nat} {rs' : List RuleSpans} (h : Laid css n k rs)
    (h' : Laid css l m rs') (hnl : n ≤ l) (hkl : k < l) (hkm : k ≤ m) :
    Laid css n m (rs ++ rs') :=
  ⟨by simpa only [List.flatMap_append] using h.row.append h'.row hnl hkl hkm,
    List.forall_mem_append.mpr ⟨h.media, h'.media⟩⟩

end Laid

end Css

/-- The texts of a rule that are taken as they are written. -/
def Rule.texts (r : Rule) : Text × List Text × Option Text :=
  (r.selector, r.declarations.map Declaration.value, r.media)

namespace Css

/-- The rules in any list of tokens, down to the depth of blocks, have their pieces in the list; only
the query may stand in front of it. -/
def Locates (css : Text) (depth : Nat) : Prop :=
  ∀ {n : Nat} {ts : List Token} (media : Option Span), TokensAt css n ts → InFront css n media →
    ∃ rs, rs.map RuleSpans.texts = (rulesFrom depth (media.map Span.text) ts).map Rule.texts ∧
      Laid css n (n + (textOf ts).length) rs

section Rules
variable {css : Text} {media : Option Span} {depth : Nat}

/-- A rule whose selector list stands in the prelude, and its values in the block. -/
theorem exists_laid_rule {n : Nat} {prelude block : List Token} {t : Token}
    (h : TokensAt css n (prelude ++ t :: block)) (hmedia : InFront css n media) :
    ∃ rs, rs.map RuleSpans.texts =
        ((Statement.qualified prelude (some block)).rules depth (media.map Span.text)).map Rule.texts ∧
      Laid css n (n + (textOf (prelude ++ t :: block)).length) rs := by
  obtain ⟨k, hprelude, hbody, hfront, hend⟩ := h.block
  rw [Statement.rules, ← hend]
  split
  · exact ⟨[], rfl, laid_nil⟩
  · obtain ⟨x, hx, hstands, hstart, hfinish⟩ :=
      exists_span_of_isInfix hprelude.stands (slice_isInfix prelude)
    obtain ⟨xs, htexts, hrow⟩ := exists_row_declarations hbody
    refine ⟨[⟨x, xs, media⟩], ?_, ?_, ?_⟩
    · simp only [List.map_cons, List.map_nil, RuleSpans.texts, Rule.texts, htexts, hx]
    · rw [List.flatMap_singleton]
      have hselector := row_singleton hstands hstart hfinish
      exact hselector.append (hrow.mono (Nat.le_succ k) (Nat.le_refl _)) (by omega) hfront (by omega)
    · rintro r hr q hq
      obtain rfl := List.mem_singleton.mp hr
      exact hmedia.mono hstart q hq

/-- A query stands in front of its block, and the rules it is put on in the block. -/
theorem exists_laid_atRule (hinside : Locates css depth) {n : Nat} {name : Text}
    {prelude block : List Token} {t : Token} (h : TokensAt css n (prelude ++ t :: block)) :
    ∃ rs, rs.map RuleSpans.texts =
        ((Statement.atRule name prelude (some block)).rules depth (media.map Span.text)).map
          Rule.texts ∧
      Laid css n (n + (textOf (prelude ++ t :: block)).length) rs := by
  obtain ⟨k, hprelude, hbody, hfront, hend⟩ := h.block
  rw [Statement.rules, ← hend]
  split
  · obtain ⟨x, hx, hstands, -, hfinish⟩ :=
      exists_span_of_isInfix hprelude.stands (slice_isInfix prelude)
    have hquery : InFront css k (some x) := by
      rintro q hq
      obtain rfl := Option.some.inj hq
      exact ⟨hstands, Nat.lt_of_le_of_lt hfinish hfront⟩
    obtain ⟨rs, htexts, hlaid⟩ := hinside _ hbody hquery
    refine ⟨rs, ?_, hlaid.mono (by omega) (Nat.le_refl _)⟩
    rw [htexts, Option.map_some, hx]
  · exact ⟨[], rfl, laid_nil⟩

/-- The rules of a statement stand in its prelude and its block. -/
theorem exists_laid_statement (hinside : Locates css depth) {n : Nat} {s : Statement} {t : Token}
    {block : List Token} (hblock : s.block? = some block)
    (h : TokensAt css n (s.prelude ++ t :: block)) (hmedia : InFront css n media) :
    ∃ rs, rs.map RuleSpans.texts = (s.rules depth (media.map Span.text)).map Rule.texts ∧
      Laid css n (n + (textOf (s.prelude ++ t :: block)).length) rs := by
  match s with
  | .qualified prelude (some block) =>
    obtain rfl := Option.some.inj hblock
    exact exists_laid_rule h hmedia
  | .atRule name prelude (some block) =>
    obtain rfl := Option.some.inj hblock
    exact exists_laid_atRule hinside h

theorem flatMap_rules_eq_nil (depth : Nat) (media : Option Text) {ss : List Statement}
    (h : ∀ s ∈ ss, s.block? = none) : ss.flatMap (Statement.rules depth media) = [] := by
  refine List.flatMap_eq_nil_iff.mpr fun s hs => ?_
  have hs := h s hs
  match s with
  | .qualified _ none => rfl
  | .atRule _ _ none => rfl

theorem exists_laid_statements (hinside : Locates css depth) {n : Nat} (fresh : Bool)
    {ts : List Token} (h : TokensAt css n ts) (hmedia : InFront css n media) :
    ∃ rs, rs.map RuleSpans.texts =
        ((statementsBehind fresh ts).flatMap (Statement.rules depth (media.map Span.text))).map
          Rule.texts ∧
      Laid css n (n + (textOf ts).length) rs := by
  induction hlen : ts.length using Nat.strong_induction_on generalizing n fresh ts with
  | _ len ih =>
    subst hlen
    rw [statementsBehind_eq]
    cases hstep : statementStep fresh ts with
    | none => exact ⟨[], rfl, laid_nil⟩
    | some x =>
      obtain ⟨found, fresh', rest⟩ := x
      have hlt := statementStep_lt _ _ _ _ _ hstep
      rcases statementStep_cases hstep with
        ⟨hnone, front, rfl⟩ | ⟨s, before, t, block, close, rfl, hblock, rfl, hclose⟩
      · have hfound := flatMap_rules_eq_nil depth (media.map Span.text) hnone
        obtain ⟨rs, htexts, hlaid⟩ := ih _ hlt (n := n + (textOf front).length) fresh'
          h.append.2 (hmedia.mono (Nat.le_add_right _ _)) rfl
        refine ⟨rs, ?_, hlaid.mono (by omega) ?_⟩
        · simpa only [List.flatMap_append, hfound, List.nil_append] using htexts
        · rw [textOf_append, List.length_append, Nat.add_assoc]
      · have hsplit : s.prelude ++ t :: (block ++ (close ++ rest)) =
            (s.prelude ++ t :: block) ++ (close ++ rest) := by simp
        rw [hsplit] at h ⊢
        obtain ⟨hstatement, hback⟩ := h.append.2.append
        obtain ⟨rs, htexts, hlaid⟩ := exists_laid_statement hinside hblock hstatement
          (hmedia.mono (Nat.le_add_right _ _))
        generalize s.prelude ++ t :: block = front at hback hlaid
        have hlength : (textOf (before ++ (front ++ (close ++ rest)))).length =
            (textOf before).length + (textOf front).length + (textOf close).length +
              (textOf rest).length := by
          simp only [textOf_append, List.length_append, Nat.add_assoc]
        simp only [List.flatMap_append, List.flatMap_singleton, List.map_append]
        cases close with
        | nil =>
          -- the block is not closed, so it goes on to the end
          obtain rfl := hclose rfl
          have hnil : statementsBehind fresh' [] = [] := statementsBehind_nil rfl
          refine ⟨rs, ?_, hlaid.mono (by omega) (by omega)⟩
          rw [htexts, hnil, List.flatMap_nil, List.map_nil, List.append_nil]
        | cons u close =>
          obtain ⟨hclosing, hrest⟩ := hback.append
          have hpos := hclosing.length_pos (List.cons_ne_nil u close)
          obtain ⟨rs', htexts', hlaid'⟩ := ih _ hlt fresh' hrest
            (hmedia.mono (by omega)) rfl
          refine ⟨rs ++ rs', by rw [List.map_append, htexts, htexts'], ?_⟩
          exact (hlaid.mono (by omega) (Nat.le_refl _)).append
            (hlaid'.mono (Nat.le_refl _) (by omega)) (by omega) (by omega) (by omega)

theorem locates (css : Text) (depth : Nat) : Locates css depth := by
  induction depth with
  | zero => exact fun _ _ _ => ⟨[], rfl, laid_nil⟩
  | succ depth ih => exact fun _ h hmedia => exists_laid_statements ih true h hmedia

end Rules

end Css

open Css

namespace Stylesheet

/-- Loading is verbatim and in document order.  The selector lists and the values of a loaded sheet
stand in the text, each behind the end of the one before it, and each query stands in front of the
selector lists of the rules that carry it. -/
theorem parse_verbatim {v : Validator} {css : Text} {s : Stylesheet} (h : v.parse css = .ok s) :
    ∃ rs : List RuleSpans, rs.map RuleSpans.texts = s.rules.map Rule.texts ∧
      (∀ r ∈ rs, ∀ x ∈ r.spans, x.StandsIn css) ∧
      (rs.flatMap RuleSpans.spans).Pairwise (fun x y => x.finish < y.start) ∧
      ∀ r ∈ rs, ∀ x ∈ r.media, x.StandsIn css ∧ x.finish < r.selector.start := by
  obtain ⟨-, rfl⟩ := Validator.parse_eq_ok_iff.mp h
  obtain ⟨rs, htexts, hlaid⟩ := locates css ((lex css).length + 1) none (tokensAt_lex css) nofun
  refine ⟨rs, htexts, fun r hr x hx => ?_, hlaid.row.ordered, hlaid.media⟩
  exact hlaid.row.stands x (List.mem_flatMap.mpr ⟨r, hr, hx⟩)

/-- Comments, strings and a query in a query: none of them moves what is loaded. -/
def commented : Text :=
  ("/* .x */ .a,\n.b \x7b color: 'red;' !important; margin: /* 1 */ ref(.c, margin) \x7d " ++
    "@media (color) \x7b @media print \x7b .c \x7b margin: 0 \x7d \x7d \x7d").toList

theorem parse_verbatim_commented :
    ∃ s, parse commented = .ok s ∧ ∃ rs : List RuleSpans,
      rs.map RuleSpans.texts =
        [(".a,\n.b".toList, ["'red;'".toList, "/* 1 */ ref(.c, margin)".toList], none),
          (".c".toList, ["0".toList], some "print".toList)] ∧
      (∀ r ∈ rs, ∀ x ∈ r.spans, x.StandsIn commented) ∧
      (rs.flatMap RuleSpans.spans).Pairwise (fun x y => x.finish < y.start) ∧
      ∀ r ∈ rs, ∀ x ∈ r.media, x.StandsIn commented ∧ x.finish < r.selector.start := by
  obtain ⟨haccepts, htexts⟩ : Validator.grammar.Accepts commented ∧
      (read commented).rules.map Rule.texts =
        [(".a,\n.b".toList, ["'red;'".toList, "/* 1 */ ref(.c, margin)".toList], none),
          (".c".toList, ["0".toList], some "print".toList)] := by
    decide +kernel
  have h : parse commented = .ok (read commented) :=
    Validator.parse_eq_ok_iff.mpr ⟨haccepts, rfl⟩
  obtain ⟨rs, hrs, hplaces⟩ := parse_verbatim h
  exact ⟨_, h, rs, hrs.trans htexts, hplaces⟩

end Stylesheet

end StyleRef
