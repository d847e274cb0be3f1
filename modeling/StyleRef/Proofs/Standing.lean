import StyleRef.Proofs.Placement
import StyleRef.Proofs.Validity

/-
# The rules that stand in a text

Which rules stand at the top of a text and in the blocks of `@media`, its entries
say as well as the reader.  In a text that a sound validator accepts they are the
same (`placed_eq_standing`), but for the rules that begin as custom properties do,
which the reader leaves out, and for a semicolon between rules, which it does not
leave out: an at-rule or a custom property behind one is read as a rule.
-/

namespace StyleRef

namespace Css

/-! ## The rules that stand in a text -/

/-- The rule without what separates it from the one before. -/
def PlacedRule.trimmed (r : PlacedRule) : PlacedRule :=
  { r with prelude := r.prelude.dropWhile Token.separates }

def PlacedRule.isCustom (r : PlacedRule) : Bool := startsCustomProperty r.prelude

/-- The rule is taken for one because of the semicolon in front of it. -/
def PlacedRule.isStray (r : PlacedRule) : Bool := strays r.prelude || r.trimmed.isCustom

/-- The rules that stand in an entry in the blocks of some preludes, where `inside` are those in the
block of an `@media`. -/
def Entry.standing (inside : List (List Token) → List Token → List PlacedRule)
    (media : List (List Token)) : Entry → List PlacedRule
  | .rule prelude (some block) => [⟨media, prelude, block⟩]
  | .atRule name prelude (some block) =>
    if Text.sameIgnoringCase name "media".toList then inside (media ++ [prelude]) block else []
  | _ => []

/-- The rules in the block of an `@media`, down to the given depth of blocks. -/
def standingFrom : Nat → List (List Token) → List Token → List PlacedRule
  | 0, _, _ => []
  | depth + 1, media, ts =>
    (entries none ts).flatMap fun e => e.2.standing (standingFrom depth) media

/-- The rules that stand at the top of a text or in blocks of `@media`. -/
def standing (css : Text) : List PlacedRule :=
  (statements (lex css)).flatMap fun s => s.entry.standing (standingFrom (lex css).length) []

/-- The rules that stand in a text and that no reader leaves out. -/
def styleRules (css : Text) : List PlacedRule := (standing css).filter (!·.isCustom)

theorem dropWhile_separates_ident {prelude rest : List Token} {name text : Text}
    (h : skipGaps prelude = ⟨.ident name, text⟩ :: rest) :
    prelude.dropWhile Token.separates = ⟨.ident name, text⟩ :: rest := by
  rw [← dropWhile_separates_skipGaps, h]
  exact List.dropWhile_cons_of_neg (by simp [Token.separates, Token.isGap, Token.isSemicolon])

/-- What begins as a custom property has nothing in front of it but gaps. -/
theorem startsCustomProperty_dropWhile {prelude : List Token}
    (h : startsCustomProperty prelude = true) :
    startsCustomProperty (prelude.dropWhile Token.separates) = true ∧ strays prelude = false := by
  rw [startsCustomProperty] at h
  split at h
  · next name text rest heq =>
    have hskip : skipGaps (⟨.ident name, text⟩ :: rest) = ⟨.ident name, text⟩ :: rest :=
      List.dropWhile_cons_of_neg (by simp [Token.isGap])
    rw [strays, dropWhile_separates_ident heq, startsCustomProperty, hskip]
    exact ⟨h, rfl⟩
  · cases h

section Standing
variable {inside : List (List Token) → List Token → List PlacedRule} {media : List (List Token)}

theorem standing_of_block_eq_none {e : Entry} (h : e.block? = none) :
    e.standing inside media = [] := by
  match e with
  | .rule _ none => rfl
  | .atRule _ _ none => rfl
  | .declaration _ _ => rfl

theorem not_media_of_charset {name : Text}
    (h : Text.sameIgnoringCase name "charset".toList = true) :
    Text.sameIgnoringCase name "media".toList = false :=
  (congrArg (· == _) (eq_of_beq h)).trans (by decide)

theorem matters_of_media {name : Text} (h : Text.sameIgnoringCase name "media".toList = true)
    (prelude block : List Token) : (Entry.atRule name prelude (some block)).matters = true := by
  have hcharset : Text.sameIgnoringCase name "charset".toList = false :=
    (congrArg (· == _) (eq_of_beq h)).trans (by decide)
  rw [Entry.matters, hcharset]
  rfl

theorem standing_charset {name : Text} {prelude : List Token} {block : Option (List Token)}
    (h : Text.sameIgnoringCase name "charset".toList = true) :
    Entry.standing inside media (.atRule name prelude block) = [] := by
  cases block with
  | none => rfl
  | some block => exact if_neg (Bool.eq_false_iff.mp (not_media_of_charset h))

theorem standing_media {name : Text} (hname : Text.sameIgnoringCase name "media".toList = true)
    (prelude block : List Token) :
    Entry.standing inside media (.atRule name prelude (some block)) =
      inside (media ++ [prelude]) block :=
  if_pos hname

end Standing

/-! ## Where they stand -/

/-- The prelude is that of an `@media` block that stands in the text. -/
def StandsAround (css : Text) (prelude : List Token) : Prop :=
  ∃ name block, Text.sameIgnoringCase name "media".toList = true ∧
    Stands css (.atRule name prelude (some block))

section Stands
variable {css : Text}

/-- A rule of a list stands in a text if the list does, and so do the blocks around it. -/
theorem stands_of_mem_standing_entry {inside : List (List Token) → List Token → List PlacedRule}
    {media : List (List Token)} {e : Entry} (he : Stands css e)
    (hmedia : ∀ q ∈ media, StandsAround css q)
    (hinside : ∀ media ts, (∀ e ∈ entries none ts, Stands css e.2) →
      (∀ q ∈ media, StandsAround css q) → ∀ r ∈ inside media ts,
        Stands css (.rule r.prelude (some r.block)) ∧ ∀ q ∈ r.media, StandsAround css q) :
    ∀ r ∈ e.standing inside media,
      Stands css (.rule r.prelude (some r.block)) ∧ ∀ q ∈ r.media, StandsAround css q := by
  match e with
  | .rule prelude (some block) =>
    intro r hr
    obtain rfl := List.mem_singleton.mp hr
    exact ⟨he, hmedia⟩
  | .atRule name prelude (some block) =>
    rw [Entry.standing]
    split
    · next hname =>
      refine hinside _ _ (fun e hmem => he.inside hname hmem) fun q hq => ?_
      rcases List.mem_append.mp hq with hq | hq
      · exact hmedia q hq
      · obtain rfl := List.mem_singleton.mp hq
        exact ⟨name, block, hname, he⟩
    · nofun
  | .rule _ none => nofun
  | .atRule _ _ none => nofun
  | .declaration _ _ => nofun

theorem stands_of_mem_standingFrom (depth : Nat) :
    ∀ media ts, (∀ e ∈ entries none ts, Stands css e.2) → (∀ q ∈ media, StandsAround css q) →
      ∀ r ∈ standingFrom depth media ts,
        Stands css (.rule r.prelude (some r.block)) ∧ ∀ q ∈ r.media, StandsAround css q := by
  induction depth with
  | zero =>
    intro media ts hts hmedia r hr
    cases hr
  | succ depth ih =>
    intro media ts hts hmedia r hr
    obtain ⟨e, he, hr⟩ := List.mem_flatMap.mp hr
    exact stands_of_mem_standing_entry (hts e he) hmedia ih r hr

theorem stands_of_mem_standing {r : PlacedRule} (hr : r ∈ standing css) :
    Stands css (.rule r.prelude (some r.block)) ∧ ∀ q ∈ r.media, StandsAround css q := by
  obtain ⟨s, hs, hr⟩ := List.mem_flatMap.mp hr
  exact stands_of_mem_standing_entry (.top hs) (List.forall_mem_nil _)
    (stands_of_mem_standingFrom _) r hr

end Stands

/-! ## What the reader finds -/

/-- The rules that the reader finds in a statement in the blocks of some preludes, where `inside` are
those in the block of an `@media`. -/
def Statement.placed (inside : List (List Token) → List Token → List PlacedRule)
    (media : List (List Token)) : Statement → List PlacedRule
  | .qualified prelude (some block) =>
    if startsCustomProperty prelude then [] else [⟨media, prelude, block⟩]
  | .atRule name prelude (some block) =>
    if Text.sameIgnoringCase name "media".toList then inside (media ++ [prelude]) block else []
  | _ => []

theorem placedFrom_succ (depth : Nat) (media : List (List Token)) (ts : List Token) :
    placedFrom (depth + 1) media ts =
      (statements ts).flatMap (Statement.placed (placedFrom depth) media) := by
  rw [placedFrom]
  rfl

theorem placed_media {inside : List (List Token) → List Token → List PlacedRule}
    {media : List (List Token)} {name : Text}
    (hname : Text.sameIgnoringCase name "media".toList = true) (prelude block : List Token) :
    Statement.placed inside media (.atRule name prelude (some block)) =
      inside (media ++ [prelude]) block :=
  if_pos hname

/-- A statement is read as its entry stands if its block is. -/
theorem Statement.placed_trimmed {inside inside' : List (List Token) → List Token → List PlacedRule}
    {media : List (List Token)} {s : Statement}
    (hstray : ∀ r ∈ s.placed inside media, r.isStray = false)
    (hinside : ∀ name prelude block, s = .atRule name prelude (some block) →
      Text.sameIgnoringCase name "media".toList = true →
        (inside (media ++ [prelude]) block).map PlacedRule.trimmed =
          (inside' (media ++ [prelude]) block).filter (!·.isCustom)) :
    (s.placed inside media).map PlacedRule.trimmed =
      (s.entry.standing inside' media).filter (!·.isCustom) := by
  match s with
  | .qualified prelude (some block) =>
    rw [Statement.placed] at hstray ⊢
    rw [Statement.entry, Entry.standing]
    split
    · next hcustom =>
      have htrimmed : PlacedRule.isCustom ⟨media, prelude.dropWhile Token.separates, block⟩ = true :=
        (startsCustomProperty_dropWhile hcustom).1
      rw [List.filter_cons_of_neg (by simp [htrimmed])]
      rfl
    · next hcustom =>
      rw [if_neg hcustom] at hstray
      have htrimmed : PlacedRule.isCustom ⟨media, prelude.dropWhile Token.separates, block⟩ = false :=
        (Bool.or_eq_false_iff.mp (hstray _ List.mem_cons_self)).2
      rw [List.filter_cons_of_pos (by simp [htrimmed])]
      rfl
  | .atRule name prelude (some block) =>
    by_cases hmedia : Text.sameIgnoringCase name "media".toList = true
    · rw [placed_media hmedia, Statement.entry, standing_media hmedia]
      exact hinside name prelude block rfl hmedia
    · rw [Statement.placed, if_neg hmedia, Statement.entry, Entry.standing, if_neg hmedia]
      rfl
  | .qualified _ none => rfl
  | .atRule _ _ none => rfl

/-- No selector begins with an at-word behind a semicolon if none that is read does: what begins as a
custom property begins with an identifier. -/
theorem strays_eq_false_of_placed {inner : List (List Token) → List Token → List PlacedRule}
    {media : List (List Token)} {prelude block : List Token}
    (hstray : ∀ r ∈ Statement.placed inner media (.qualified prelude (some block)),
      r.isStray = false) :
    strays prelude = false := by
  by_cases hcustom : startsCustomProperty prelude = true
  · exact (startsCustomProperty_dropWhile hcustom).2
  · rw [Statement.placed, if_neg hcustom] at hstray
    exact (Bool.or_eq_false_iff.mp (hstray _ List.mem_cons_self)).1

section Accepted
variable {v : Validator} {p : Parts} (hsound : v.Sound p) {css : Text} (h : v.Accepts css)
include hsound h

/-- No rule that stands in an accepted text begins with a mark. -/
theorem beginsMark_of_stands {e : Entry} (he : Stands css e) : e.beginsMark = false := by
  match e with
  | .rule (t :: ts) block =>
    refine Bool.eq_false_iff.mpr fun hmark => ?_
    have hkind : t.kind = .cdo ∨ t.kind = .cdc := by simpa [Entry.beginsMark] using hmark
    have hgap : t.isGap = false := by rcases hkind with hkind | hkind <;> simp [Token.isGap, hkind]
    have hcustom : startsCustomProperty (t :: ts) = false := by
      obtain ⟨kind, text⟩ := t
      rw [startsCustomProperty, skipGaps, List.dropWhile_cons_of_neg (by simp [hgap])]
      rcases hkind with hkind | hkind <;> obtain rfl := hkind <;> rfl
    have hlist := hsound.selectors css h _ _ he hcustom
    rw [withoutComments_cons (Token.isGap_eq_false_iff.mp hgap).2,
      hsound.marks t (by rcases hkind with hkind | hkind <;> simp [hkind])] at hlist
    cases hlist
  | .rule [] _ => rfl
  | .atRule _ _ _ => rfl
  | .declaration _ _ => rfl

/-- A list that stands in an accepted text is read as it stands. -/
theorem placedFrom_eq_standingFrom {depth : Nat} {media : List (List Token)} {ts : List Token}
    (hts : ∀ e ∈ entries none ts, Stands css e.2)
    (hstray : ∀ r ∈ placedFrom depth media ts, r.isStray = false) :
    (placedFrom depth media ts).map PlacedRule.trimmed =
      (standingFrom depth media ts).filter (!·.isCustom) := by
  induction depth generalizing media ts with
  | zero => rfl
  | succ depth ih =>
    have hmark : ∀ e ∈ entries none ts, e.2.beginsMark = false := fun e he =>
      beginsMark_of_stands hsound h (hts e he)
    rw [placedFrom_succ] at hstray ⊢
    have hstrays : ∀ prelude block, .qualified prelude (some block) ∈ statementsBehind true ts →
        strays prelude = false := fun _ _ hs =>
      strays_eq_false_of_placed fun r hr => hstray r (List.mem_flatMap.mpr ⟨_, hs, hr⟩)
    have hfound := @sameFound PlacedRule
      (fun e => (e.standing (standingFrom depth) media).filter (!·.isCustom))
      (fun e he => by rw [standing_of_block_eq_none he]; rfl)
      (fun _ _ _ hname => by rw [standing_charset hname]; rfl) ts true false hmark hstrays
    rw [standingFrom, List.filter_flatMap, entries, ← hfound, List.map_flatMap]
    refine List.flatMap_congr fun s hs => Statement.placed_trimmed ?_ ?_
    · exact fun r hr => hstray r (List.mem_flatMap.mpr ⟨s, hs, hr⟩)
    · rintro name prelude block rfl hname
      obtain ⟨e, he, heq⟩ :=
        exists_entry_of_statement hmark hstrays hs (matters_of_media hname prelude block)
      have hstands : Stands css (.atRule name prelude (some block)) := by
        have hstands := hts e he
        rwa [heq] at hstands
      refine ih (fun e he => hstands.inside hname he) fun r hr => hstray r ?_
      exact List.mem_flatMap.mpr ⟨_, hs, by rwa [placed_media hname]⟩

/-- The rules of an accepted text are read as they stand in it, but for those that begin as custom
properties, which are not read. -/
theorem placed_eq_standing (hstray : ∀ r ∈ placed css, r.isStray = false) :
    (placed css).map PlacedRule.trimmed = styleRules css := by
  rw [placed, placedFrom_succ] at hstray ⊢
  rw [styleRules, standing, List.filter_flatMap, List.map_flatMap]
  refine List.flatMap_congr fun s hs => Statement.placed_trimmed ?_ ?_
  · exact fun r hr => hstray r (List.mem_flatMap.mpr ⟨s, hs, hr⟩)
  · rintro name prelude block rfl hname
    refine placedFrom_eq_standingFrom hsound h (fun e he => (Stands.top hs).inside hname he)
      fun r hr => hstray r ?_
    exact List.mem_flatMap.mpr ⟨_, hs, by rwa [placed_media hname]⟩

/-- What a rule that is read is made of. -/
theorem stands_of_mem_placed (hstray : ∀ r ∈ placed css, r.isStray = false) {r : PlacedRule}
    (hr : r ∈ placed css) :
    p.isSelectorList (withoutComments r.trimmed.prelude) = true ∧
      (∀ e ∈ entries (some p.isValueOf) r.block, e.2.isWhole = true) ∧
      ∀ q ∈ r.media, p.isMediaList (withoutComments q) = true := by
  have hmem : r.trimmed ∈ styleRules css := by
    rw [← placed_eq_standing hsound h hstray]
    exact List.mem_map_of_mem hr
  obtain ⟨hmem, hcustom⟩ := List.mem_filter.mp hmem
  obtain ⟨hstands, haround⟩ := stands_of_mem_standing hmem
  have hcustom : r.trimmed.isCustom = false := by simpa using hcustom
  refine ⟨hsound.selectors css h _ _ hstands hcustom, hsound.blocks css h _ _ hstands hcustom, ?_⟩
  intro q hq
  obtain ⟨name, block, hname, hstands⟩ := haround q hq
  exact hsound.queries css h _ _ _ hstands hname

end Accepted

end Css

end StyleRef
