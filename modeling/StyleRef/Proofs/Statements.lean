import StyleRef.Proofs.Entries

/-
# Statements and entries

The reader goes through a list of rules statement by statement, and the blocks of
`@media` can be cut into entries as well.  Both agree on where rules and at-rules
begin and end, but for two things.  The reader does not leave out a semicolon
between rules, and takes an at-rule behind one for a rule; and it leaves out the
marks `<!--` and `-->`, which no list of selectors begins with.  Where neither
happens, what the reader takes for the statements of a list are its entries
(`sameFound`).
-/

namespace StyleRef

namespace Css

/-- Whether a rule begins with one of the marks that separate statements. -/
def Entry.beginsMark : Entry → Bool
  | .rule (t :: _) _ => t.kind = .cdo || t.kind = .cdc
  | _ => false

/-- Whether an at-word comes first, apart from what separates entries. -/
def strays (prelude : List Token) : Bool :=
  match prelude.dropWhile Token.separates with
  | ⟨.atKeyword _, _⟩ :: _ => true
  | _ => false

/-- The entry that a statement is, without what separates it from the one before. -/
def Statement.entry : Statement → Entry
  | .atRule name prelude block => .atRule name prelude block
  | .qualified prelude block => .rule (prelude.dropWhile Token.separates) block

theorem takeUntil_separates {sep : List Token} (hsep : ∀ t ∈ sep, t.separates = true)
    (ts : List Token) :
    takeUntil Token.opensBody (sep ++ ts) =
      (sep ++ (takeUntil Token.opensBody ts).1, (takeUntil Token.opensBody ts).2) := by
  induction sep with
  | nil => rfl
  | cons t sep ih =>
    have ht := hsep t (by simp)
    have ih := ih fun u hu => hsep u (List.mem_cons_of_mem t hu)
    have hopen : t.opens? = none := by
      rcases Token.separates_iff.mp ht with hgap | hsemicolon
      · exact Token.opens?_of_isGap hgap
      · simp [Token.opens?, hsemicolon]
    have hbody : t.opensBody = false := by
      rcases Token.separates_iff.mp ht with hgap | hsemicolon
      · exact Token.opensBody_of_isGap hgap
      · simp [Token.opensBody, hsemicolon]
    rw [List.cons_append, takeUntil_cons hopen hbody, ih]
    rfl

/-- The rule at the front, as a statement and as an entry. -/
theorem takeRuleEntry_eq {t : Token} (ht : t.separates = false) {sep : List Token}
    (hsep : ∀ t ∈ sep, t.separates = true) (rest : List Token) :
    takeRuleEntry false (t :: rest) =
      (Statement.entry (.qualified (takeUntil Token.opensBody (sep ++ t :: rest)).1
        (takeUntil Token.opensBody (sep ++ t :: rest)).2.1),
        (takeUntil Token.opensBody (sep ++ t :: rest)).2.2) := by
  have hstop : (fun t : Token => (false && t.isSemicolon) || t.opensBody) = Token.opensBody := by
    funext t
    simp
  have hprelude : (takeUntil Token.opensBody (t :: rest)).1.dropWhile Token.separates =
      (takeUntil Token.opensBody (t :: rest)).1 := by
    rw [takeUntil_fst, spanTop, spanNested]
    split
    · rfl
    · exact List.dropWhile_cons_of_neg (by simp [ht])
  simp only [takeRuleEntry, hstop, takeUntil_separates hsep, Statement.entry,
    List.dropWhile_append_of_pos hsep, hprelude]

theorem takeEntry_none {t : Token} (ht : ∀ name, t.kind ≠ .atKeyword name) (rest : List Token) :
    takeEntry none t rest = takeRuleEntry false (t :: rest) := by
  simp only [takeEntry]
  split
  · next name hkind => exact absurd hkind (ht name)
  · rfl
  · rfl

theorem dropWhile_dropWhile {p q : Token → Bool} (h : ∀ t, q t = true → p t = true)
    (ts : List Token) : (ts.dropWhile q).dropWhile p = ts.dropWhile p := by
  induction ts with
  | nil => rfl
  | cons t ts ih =>
    by_cases ht : q t = true
    · rw [List.dropWhile_cons_of_pos ht, List.dropWhile_cons_of_pos (h t ht), ih]
    · rw [List.dropWhile_cons_of_neg ht]

theorem dropWhile_separates_skipGaps (ts : List Token) :
    (skipGaps ts).dropWhile Token.separates = ts.dropWhile Token.separates :=
  dropWhile_dropWhile (fun _ => Token.separates_of_isGap) ts

/-- Where no rule begins with a mark, none comes first, so the reader passes over gaps only. -/
theorem dropWhile_isFiller {ts : List Token} {behind : Bool}
    (hmark : ∀ e ∈ entriesBehind none behind ts, e.2.beginsMark = false) :
    ts.dropWhile Token.isFiller = ts.dropWhile Token.isGap := by
  rw [← dropWhile_dropWhile fun _ => Token.isFiller_of_isGap]
  cases hts : ts.dropWhile Token.isGap with
  | nil => rfl
  | cons t rest =>
    refine List.dropWhile_cons_of_neg fun hfiller => ?_
    have hnot : t.isGap = false := isGap_of_skipGaps hts
    have hkind : t.kind = .cdo ∨ t.kind = .cdc := by
      simpa [Token.isFiller, hnot] using hfiller
    have hseparates : t.separates = false := by
      rcases hkind with hkind | hkind <;>
        simp [Token.separates, Token.isGap, Token.isSemicolon, hkind]
    have hfront : ts.dropWhile Token.separates = t :: rest := by
      rw [← dropWhile_separates_skipGaps, skipGaps, hts,
        List.dropWhile_cons_of_neg (by simp [hseparates])]
    have hat (name : Text) : t.kind ≠ .atKeyword name := by
      rcases hkind with hkind | hkind <;> simp [hkind]
    have hopen : t.opens? = none := by
      rcases hkind with hkind | hkind <;> simp [Token.opens?, hkind]
    have hstop : ((false && t.isSemicolon) || t.opensBody) = false := by
      rcases hkind with hkind | hkind <;> simp [Token.opensBody, hkind]
    rw [entriesBehind_cons hfront, takeEntry_none hat, takeRuleEntry] at hmark
    have hfalse := hmark _ List.mem_cons_self
    rw [takeUntil_cons hopen hstop, Entry.beginsMark] at hfalse
    rcases hkind with hkind | hkind <;> simp [hkind] at hfalse

def Entry.block? : Entry → Option (List Token)
  | .atRule _ _ block => block
  | .declaration _ _ => none
  | .rule _ block => block

theorem takeUntil_block_eq_none_iff {ts : List Token} :
    (takeUntil Token.opensBody ts).2.1 = none ↔ (spanTop Token.opensBody ts).2 = [] := by
  have hhead := spanTop_stop Token.opensBody ts
  rw [takeUntil]
  generalize spanTop Token.opensBody ts = x at hhead
  obtain ⟨prelude, after⟩ := x
  cases after with
  | nil => simp
  | cons t rest => simp [hhead t rfl]

/-- An at-rule of a list in which no body is opened. -/
theorem takeAtRule_of_block_eq_none {ts : List Token}
    (h : (takeUntil Token.opensBody ts).2.1 = none) :
    (takeAtRule ts).2.1 = none ∧ (takeUntil Token.opensBody (takeAtRule ts).2.2).2.1 = none := by
  rw [takeUntil_block_eq_none_iff] at h
  have himp (t : Token) (ht : t.opensBody = true) : (t.isSemicolon || t.opensBody) = true := by
    simp [ht]
  have hgo := spanTop_of_imp himp ts
  have hhead := spanTop_stop (fun t => t.isSemicolon || t.opensBody) ts
  rw [h] at hgo
  rw [takeAtRule, takeUntil]
  generalize spanTop (fun t => t.isSemicolon || t.opensBody) ts = x at hgo hhead
  obtain ⟨prelude, after⟩ := x
  cases after with
  | nil => exact ⟨rfl, rfl⟩
  | cons t rest =>
    by_cases hopen : t.opensBody = true
    · simp [spanTop_cons_of_pos hopen] at hgo
    · have hsemicolon : t.isSemicolon = true := by simpa [hopen] using hhead t rfl
      have hnone : t.opens? = none := by simp [Token.opens?, of_decide_eq_true hsemicolon]
      simp only [hopen, Bool.false_eq_true, ↓reduceIte, true_and]
      rw [takeUntil_block_eq_none_iff]
      simpa [spanTop_cons_of_neg hnone (Bool.eq_false_iff.mpr hopen)] using hgo.symm

/-- Where no body is opened, no entry has a block. -/
theorem block?_of_mem_entriesBehind {ts : List Token} {behind : Bool}
    (h : (takeUntil Token.opensBody ts).2.1 = none) :
    ∀ e ∈ entriesBehind none behind ts, e.2.block? = none := by
  induction behind, ts using entries_induction none with
  | nil behind ts hts =>
    rw [entriesBehind_nil hts]
    nofun
  | cons behind ts t rest hts ih =>
    have hsep : ∀ u ∈ ts.takeWhile Token.separates, u.separates = true :=
      List.all_eq_true.mp List.all_takeWhile
    rw [← List.takeWhile_append_dropWhile (p := Token.separates) (l := ts), hts,
      takeUntil_separates hsep] at h
    rw [entriesBehind_cons hts, List.forall_mem_cons]
    by_cases hat : ∃ name, t.kind = .atKeyword name
    · obtain ⟨name, hname⟩ := hat
      rw [takeUntil_cons (by simp [Token.opens?, hname]) (by simp [Token.opensBody, hname])] at h
      obtain ⟨hblock, hafter⟩ := takeAtRule_of_block_eq_none h
      rw [takeEntry_atRule hname] at ih ⊢
      exact ⟨hblock, ih hafter⟩
    · have hat : ∀ name, t.kind ≠ .atKeyword name := fun name h => hat ⟨name, h⟩
      have hentry :=
        takeRuleEntry_eq (Text.not_of_dropWhile_eq_cons hts) (List.forall_mem_nil _) rest
      rw [List.nil_append, takeUntil_eq_nil_of_block h] at hentry
      rw [takeEntry_none hat, hentry]
      refine ⟨h, ?_⟩
      rw [entriesBehind_nil rfl]
      nofun

section Front
variable {ts rest : List Token} {t : Token} (hts : ts.dropWhile Token.isGap = t :: rest)
include hts

theorem dropWhile_separates : (t :: rest).dropWhile Token.separates = ts.dropWhile Token.separates := by
  rw [← hts, ← skipGaps, dropWhile_separates_skipGaps]

theorem takeUntil_block_front :
    (takeUntil Token.opensBody ts).2.1 = (takeUntil Token.opensBody (t :: rest)).2.1 := by
  have hsep : ∀ u ∈ ts.takeWhile Token.isGap, u.separates = true := by
    intro u hu
    exact Token.separates_of_isGap (List.all_eq_true.mp List.all_takeWhile u hu)
  rw [← hts, ← congrArg (fun us => (takeUntil Token.opensBody us).2.1)
    (List.takeWhile_append_dropWhile (p := Token.isGap) (l := ts)), takeUntil_separates hsep]

/-- An at-rule at the front is an entry. -/
theorem entriesBehind_atRule {name : Text} (ht : t.kind = .atKeyword name) (behind : Bool) :
    ∃ b b', entriesBehind none behind ts =
      (b, .atRule name (takeAtRule rest).1 (takeAtRule rest).2.1) ::
        entriesBehind none b' (takeAtRule rest).2.2 := by
  have hseparates : t.separates = false := by
    simp [Token.separates, isGap_of_skipGaps hts, Token.isSemicolon, ht]
  have hfront := dropWhile_separates hts
  rw [List.dropWhile_cons_of_neg (by simp [hseparates])] at hfront
  rw [entriesBehind_cons hfront.symm, takeEntry_atRule ht]
  exact ⟨_, _, rfl⟩

/-- A rule at the front is an entry, if it does not begin with an at-word behind a semicolon. -/
theorem entriesBehind_qualified {block : List Token}
    (hblock : (takeUntil Token.opensBody (t :: rest)).2.1 = some block)
    (hstray : strays (takeUntil Token.opensBody (t :: rest)).1 = false) (behind : Bool) :
    ∃ b b', entriesBehind none behind ts =
      (b, Statement.entry (.qualified (takeUntil Token.opensBody (t :: rest)).1 (some block))) ::
        entriesBehind none b' (takeUntil Token.opensBody (t :: rest)).2.2 := by
  -- the prelude begins where the entry begins, or with what separates it from the one before
  have hsplit := List.takeWhile_append_dropWhile (p := Token.separates) (l := t :: rest)
  have hsep : ∀ u ∈ (t :: rest).takeWhile Token.separates, u.separates = true :=
    List.all_eq_true.mp List.all_takeWhile
  have hhead := Text.head?_dropWhile_not Token.separates ts
  rw [dropWhile_separates hts] at hsplit
  generalize (t :: rest).takeWhile Token.separates = sep at hsplit hsep
  rw [← hsplit] at hblock hstray ⊢
  cases hus : ts.dropWhile Token.separates with
  | nil =>
    rw [hus, takeUntil_separates hsep] at hblock
    cases hblock
  | cons u us =>
    have hu : u.separates = false := hhead u (by rw [hus]; rfl)
    rw [hus] at hblock hstray
    have hword (name : Text) : u.kind ≠ .atKeyword name := by
      intro hname
      rw [takeUntil_separates hsep, takeUntil_cons (by simp [Token.opens?, hname])
        (by simp [Token.opensBody, hname]), strays, List.dropWhile_append_of_pos hsep,
        List.dropWhile_cons_of_neg (by simp [hu])] at hstray
      obtain ⟨kind, text⟩ := u
      obtain rfl : kind = .atKeyword name := hname
      cases hstray
    rw [entriesBehind_cons hus, takeEntry_none hword, takeRuleEntry_eq hu hsep, hblock]
    exact ⟨_, _, rfl⟩

end Front

/-- However a list is entered, the same is found in its statements and in its entries, if no entry
begins with a mark and no rule with an at-word behind a semicolon. -/
def SameFound {α : Type} (found : Entry → List α) (ts : List Token) : Prop :=
  ∀ fresh behind, (∀ e ∈ entriesBehind none behind ts, e.2.beginsMark = false) →
    (∀ prelude block, .qualified prelude (some block) ∈ statementsBehind fresh ts →
      strays prelude = false) →
      (statementsBehind fresh ts).flatMap (fun s => found s.entry) =
        (entriesBehind none behind ts).flatMap (fun e => found e.2)

section SameFound
variable {α : Type} {found : Entry → List α}

/-- Behind an at-rule; a `@charset` that comes first is no statement. -/
theorem SameFound.atRule
    (hcharset : ∀ name prelude block, Text.sameIgnoringCase name "charset".toList = true →
      found (.atRule name prelude block) = [])
    {ts rest : List Token} {t : Token} (hts : ts.dropWhile Token.isGap = t :: rest) {name : Text}
    (hname : t.kind = .atKeyword name) (h : SameFound found (takeAtRule rest).2.2) :
    SameFound found ts := by
  intro fresh behind hmark hstray
  obtain ⟨b, b', hentries⟩ := entriesBehind_atRule hts hname behind
  rw [statementsBehind_atRule ((dropWhile_isFiller hmark).trans hts) hname] at hstray ⊢
  rw [hentries] at hmark ⊢
  rw [List.flatMap_append, List.flatMap_cons, h _ _ (List.forall_mem_cons.mp hmark).2
    fun prelude block hmem => hstray prelude block (List.mem_append_right _ hmem)]
  congr 1
  split
  · next hskip => exact (hcharset _ _ _ (Bool.and_eq_true_iff.mp hskip).2).symm
  · exact List.append_nil _

/-- Behind a rule; without a block it is the last statement, and nothing is found in the entries. -/
theorem SameFound.qualified (hnone : ∀ e : Entry, e.block? = none → found e = [])
    {ts rest : List Token} {t : Token} (hts : ts.dropWhile Token.isGap = t :: rest)
    (hat : ∀ name, t.kind ≠ .atKeyword name)
    (h : SameFound found (takeUntil Token.opensBody (t :: rest)).2.2) : SameFound found ts := by
  intro fresh behind hmark hstray
  rw [statementsBehind_qualified ((dropWhile_isFiller hmark).trans hts) hat] at hstray ⊢
  cases hblock : (takeUntil Token.opensBody (t :: rest)).2.1 with
  | none =>
    have hentries : (entriesBehind none behind ts).flatMap (fun e => found e.2) = [] := by
      refine List.flatMap_eq_nil_iff.mpr fun e he => hnone _ (block?_of_mem_entriesBehind ?_ e he)
      rwa [takeUntil_block_front hts]
    rw [takeUntil_eq_nil_of_block hblock, hentries, List.flatMap_cons, hnone _ rfl]
    rfl
  | some block =>
    rw [hblock] at hstray
    obtain ⟨b, b', hentries⟩ :=
      entriesBehind_qualified hts hblock (hstray _ _ List.mem_cons_self) behind
    rw [hentries] at hmark ⊢
    rw [List.flatMap_cons, List.flatMap_cons, h _ _ (List.forall_mem_cons.mp hmark).2
      fun prelude block hmem => hstray prelude block (List.mem_cons_of_mem _ hmem)]

/-- What the reader finds in the statements of a list is what stands in its entries, as far as only
entries with blocks matter. -/
theorem sameFound (hnone : ∀ e : Entry, e.block? = none → found e = [])
    (hcharset : ∀ name prelude block, Text.sameIgnoringCase name "charset".toList = true →
      found (.atRule name prelude block) = []) (ts : List Token) : SameFound found ts := by
  induction hn : ts.length using Nat.strongRecOn generalizing ts with
  | ind n ih =>
    have hlength : (ts.dropWhile Token.isGap).length ≤ ts.length :=
      (List.dropWhile_suffix _).length_le
    cases hts : ts.dropWhile Token.isGap with
    | nil =>
      intro fresh behind hmark _
      have hseparates : ts.dropWhile Token.separates = [] := by
        rw [← dropWhile_separates_skipGaps, skipGaps, hts]
        rfl
      rw [statementsBehind_nil ((dropWhile_isFiller hmark).trans hts),
        entriesBehind_nil hseparates]
      rfl
    | cons t rest =>
      rw [hts, List.length_cons] at hlength
      by_cases hat : ∃ name, t.kind = .atKeyword name
      · obtain ⟨name, hname⟩ := hat
        have hlt := length_takeAtRule_le rest
        exact .atRule hcharset hts hname (ih _ (by omega) _ rfl)
      · have hlt := length_takeUntil_le Token.opensBody (t :: rest)
        rw [List.length_cons] at hlt
        exact .qualified hnone hts (fun name hname => hat ⟨name, hname⟩) (ih _ (by omega) _ rfl)

end SameFound

/-- Whether the entry is one with a block that no list of rules leaves out. -/
def Entry.matters : Entry → Bool
  | .atRule name _ (some _) => !Text.sameIgnoringCase name "charset".toList
  | .rule _ (some _) => true
  | _ => false

/-- A statement with a block is an entry. -/
theorem exists_entry_of_statement {ts : List Token} {fresh behind : Bool}
    (hmark : ∀ e ∈ entriesBehind none behind ts, e.2.beginsMark = false)
    (hstray : ∀ prelude block, .qualified prelude (some block) ∈ statementsBehind fresh ts →
      strays prelude = false)
    {s : Statement} (hs : s ∈ statementsBehind fresh ts) (hmatters : s.entry.matters = true) :
    ∃ e ∈ entriesBehind none behind ts, e.2 = s.entry := by
  have hfound := @sameFound Entry (fun e => if e.matters then [e] else [])
    (fun e he => ?_) (fun name prelude block hcharset => ?_) ts fresh behind hmark hstray
  · have hmem : s.entry ∈ (statementsBehind fresh ts).flatMap
        fun s => if s.entry.matters then [s.entry] else [] :=
      List.mem_flatMap.mpr ⟨s, hs, by rw [if_pos hmatters]; exact List.mem_cons_self⟩
    rw [hfound] at hmem
    obtain ⟨e, he, hfind⟩ := List.mem_flatMap.mp hmem
    have heq : s.entry ∈ if e.2.matters then [e.2] else [] := hfind
    split at heq
    · exact ⟨e, he, (List.mem_singleton.mp heq).symm⟩
    · cases heq
  · match e with
    | .atRule _ _ none => rfl
    | .declaration _ _ => rfl
    | .rule _ none => rfl
  · cases block with
    | none => rfl
    | some block => simp only [Entry.matters, hcharset, Bool.not_true, Bool.false_eq_true, ↓reduceIte]

end Css

end StyleRef
