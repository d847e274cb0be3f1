import StyleRef.Css.Grammar.Selector
import StyleRef.Proofs.OuterSpace

/-
# White space around selectors

A selector is read compound by compound, a compound simple selector by simple
selector, and the arguments of functions as selectors again, each with as many
steps as there are tokens.  More steps make no difference, so white space at
either end of a list of selectors makes none (`isSelectorList_withoutOuterSpace`).

There is one exception: where the text ends behind the bar of a namespace a
missing name is forgiven, and with white space behind the bar it is not.
-/

namespace StyleRef

namespace Css

/-! ## Steps -/

section Simple
variable {check : ArgumentCheck} {trail trail' : Trail} {ts rest : List Token}

theorem eq_of_ofTrail?_found {trail? : Option Trail} {us : List Token}
    (h : Simple.ofTrail? trail? us = .found trail' rest) : rest = us := by
  cases trail? <;> cases h
  rfl

theorem length_pseudo_lt {double : Bool} (h : pseudo check double trail ts = .found trail' rest) :
    rest.length < ts.length := by
  rw [pseudo.eq_def] at h
  split at h
  · split at h
    · rw [eq_of_ofTrail?_found h]
      exact Nat.lt_succ_self _
    · split at h
      · cases h
        exact Nat.lt_succ_self _
      · cases h
  · next name text us =>
    have hblock := (length_takeBlock_le .round us).2
    simp only at h
    split at h <;>
      rw [eq_of_ofTrail?_found h] <;> exact Nat.lt_succ_of_le hblock
  · cases h

theorem length_simple_lt (h : simple check trail ts = .found trail' rest) :
    rest.length < ts.length := by
  rw [simple.eq_def] at h
  split at h
  · split at h <;> cases h
    exact Nat.lt_succ_self _
  · split at h <;> cases h
    simp only [List.length_cons]
    omega
  · cases h
  · cases h
    exact Nat.lt_succ_self _
  · next us =>
    have hblock := (length_takeBlock_le .square us).2
    simp only at h
    split at h <;> cases h
    exact Nat.lt_succ_of_le hblock
  · have := length_pseudo_lt h
    simp only [List.length_cons]
    omega
  · exact Nat.lt_succ_of_lt (length_pseudo_lt h)
  · cases h

theorem simples_nil (n : Nat) (begun : Bool) :
    simples check n begun trail [] = if begun then .found trail [] else .invalid trail := by
  cases n <;> rfl

/-- With steps enough for the tokens, more make no difference. -/
theorem simples_eq_of_le {n m : Nat} {begun : Bool} (hn : ts.length ≤ n) (hm : ts.length ≤ m) :
    simples check n begun trail ts = simples check m begun trail ts := by
  induction n generalizing m begun trail ts with
  | zero =>
    obtain rfl := List.length_eq_zero_iff.mp (Nat.le_zero.mp hn)
    rw [simples_nil, simples_nil]
  | succ n ih =>
    cases m with
    | zero =>
      obtain rfl := List.length_eq_zero_iff.mp (Nat.le_zero.mp hm)
      rw [simples_nil, simples_nil]
    | succ m =>
      simp only [simples]
      split
      · rfl
      · rfl
      · next hsimple =>
        have hlt := length_simple_lt hsimple
        exact ih (by omega) (by omega)

theorem length_simples_le {n : Nat} {begun : Bool}
    (h : simples check n begun trail ts = .found trail' rest) :
    rest.length ≤ ts.length ∧ (begun = false → rest.length < ts.length) := by
  induction n generalizing begun trail ts with
  | zero =>
    cases begun <;> cases h
    exact ⟨Nat.le_refl _, nofun⟩
  | succ n ih =>
    rw [simples] at h
    split at h
    · cases h
    · cases begun <;> cases h
      exact ⟨Nat.le_refl _, nofun⟩
    · next hsimple =>
      have hlt := length_simple_lt hsimple
      have hle := (ih h).1
      exact ⟨by omega, fun _ => by omega⟩

theorem length_typeName?_le {named : Bool} (h : typeName? ts = some (named, rest)) :
    rest.length ≤ ts.length ∧ (named = true → rest.length < ts.length) := by
  have hlocal {us : List Token} (h : localName? us = some (named, rest)) :
      rest.length ≤ us.length := by
    rw [localName?.eq_def] at h
    split at h <;> cases h <;> simp
  rw [typeName?.eq_def] at h
  split at h
  all_goals first
    | (have hle := hlocal h; simp only [List.length_cons]; omega)
    | (cases h; simp)

theorem length_compound_lt (h : compound check trail ts = .found trail' rest) :
    rest.length < ts.length := by
  have hle := length_skipSpace_le ts
  simp only [compound] at h
  split at h
  · cases h
  · next named us heq =>
    have hname := length_typeName?_le heq
    split at h
    · cases h
    · have hsimples := length_simples_le h
      cases hnesting : (skipSpace ts).head?.any (Token.isDelim '&') with
      | true =>
        have hpos : 0 < (skipSpace ts).length := by
          cases hts : skipSpace ts with
          | nil =>
            rw [hts] at hnesting
            cases hnesting
          | cons t us => simp
        rw [hnesting, if_pos rfl, List.length_drop] at hname
        omega
      | false =>
        rw [hnesting, if_neg Bool.false_ne_true] at hname
        rw [hnesting] at hsimples
        cases named with
        | true =>
          have := hname.2 rfl
          omega
        | false =>
          have := hsimples.2 rfl
          omega

theorem selectorFrom_eq_of_lt {n m : Nat} (hn : ts.length < n) (hm : ts.length < m) :
    selectorFrom check n trail ts = selectorFrom check m trail ts := by
  induction n generalizing m trail ts with
  | zero => cases hn
  | succ n ih =>
    obtain ⟨m, rfl⟩ : ∃ k, m = k + 1 := ⟨m - 1, by omega⟩
    simp only [selectorFrom]
    split
    · rfl
    · next trail' rest hcompound =>
      have hlt := length_compound_lt hcompound
      split
      · rfl
      · next t next heq =>
        have hle := length_skipSpace_le rest
        rw [heq, List.length_cons] at hle
        have hnext (trail : Trail) :
            selectorFrom check n trail next = selectorFrom check m trail next :=
          ih (by omega) (by omega)
        have hcons (trail : Trail) :
            selectorFrom check n trail (t :: next) = selectorFrom check m trail (t :: next) :=
          ih (by simp only [List.length_cons]; omega) (by simp only [List.length_cons]; omega)
        simp only [hnext, hcons]

end Simple

/-! ## Arguments -/

/-- The checks find the same in what is shorter than the given number. -/
def Agree (check check' : ArgumentCheck) (n : Nat) : Prop :=
  ∀ form trail us, us.length < n → check form trail us = check' form trail us

section Arguments
variable {check check' : ArgumentCheck} {trail : Trail} {ts : List Token}

theorem Agree.mono {n m : Nat} (h : Agree check check' n) (hm : m ≤ n) : Agree check check' m :=
  fun form trail us hus => h form trail us (Nat.lt_of_lt_of_le hus hm)

theorem pseudo_congr (h : Agree check check' ts.length) (double : Bool) :
    pseudo check double trail ts = pseudo check' double trail ts := by
  rw [pseudo.eq_def, pseudo.eq_def]
  split
  · rfl
  · next name text rest =>
    have hblock := (length_takeBlock_le .round rest).1
    have harguments (form trail) := h form trail (takeBlock .round rest).1 (Nat.lt_succ_of_le hblock)
    simp only [afterFunction?, afterElementFunction?, harguments]
  · rfl

theorem simple_congr (h : Agree check check' ts.length) :
    simple check trail ts = simple check' trail ts := by
  rw [simple.eq_def, simple.eq_def]
  split
  any_goals rfl
  · exact pseudo_congr (h.mono (by simp only [List.length_cons]; omega)) _
  · exact pseudo_congr (h.mono (Nat.le_succ _)) _

theorem simples_congr (h : Agree check check' ts.length) (n : Nat) (begun : Bool) :
    simples check n begun trail ts = simples check' n begun trail ts := by
  induction n generalizing begun trail ts with
  | zero => rfl
  | succ n ih =>
    simp only [simples, simple_congr h]
    split
    · rfl
    · rfl
    · next hsimple => exact ih (h.mono (Nat.le_of_lt (length_simple_lt hsimple))) _

theorem compound_congr (h : Agree check check' ts.length) :
    compound check trail ts = compound check' trail ts := by
  have hle := length_skipSpace_le ts
  simp only [compound]
  split
  · rfl
  · next named rest heq =>
    have hname := (length_typeName?_le heq).1
    have hrest : rest.length ≤ ts.length := by
      split at hname
      · rw [List.length_drop] at hname
        omega
      · omega
    rw [simples_congr (h.mono hrest)]

theorem selector_congr (h : Agree check check' ts.length) :
    selector check trail ts = selector check' trail ts := by
  suffices ∀ n, selectorFrom check n trail ts = selectorFrom check' n trail ts from this _
  intro n
  induction n generalizing trail ts with
  | zero => rfl
  | succ n ih =>
    simp only [selectorFrom, compound_congr h]
    split
    · rfl
    · next trail' rest hcompound =>
      have hlt := length_compound_lt hcompound
      split
      · rfl
      · next t next heq =>
        have hle := length_skipSpace_le rest
        rw [heq] at hle
        have hcons : selectorFrom check n trail' (t :: next) = selectorFrom check' n trail' (t :: next) :=
          ih (h.mono (by omega))
        have hnext : selectorFrom check n trail' next = selectorFrom check' n trail' next :=
          ih (h.mono (by rw [List.length_cons] at hle; omega))
        simp only [hnext, hcons]

end Arguments

theorem length_splitNested_le (sep : Token → Bool) (stack : List Bracket) (ts : List Token) :
    ∀ part ∈ splitNested sep stack ts, part.length ≤ ts.length := by
  induction ts generalizing stack with
  | nil => simp [splitNested]
  | cons t ts ih =>
    rw [splitNested]
    split
    · rw [List.forall_mem_cons]
      exact ⟨Nat.zero_le _, fun part h => Nat.le_succ_of_le (ih [] part h)⟩
    · have ih := ih (nest stack t)
      split
      · simp
      · next part parts heq =>
        rw [heq, List.forall_mem_cons] at ih
        rw [List.forall_mem_cons]
        exact ⟨Nat.succ_le_succ ih.1, fun part h => Nat.le_succ_of_le (ih.2 part h)⟩

theorem length_skipIf_le (p : Token → Bool) (ts : List Token) : (skipIf p ts).length ≤ ts.length := by
  have hle := length_skipSpace_le ts
  rw [skipIf]
  split
  · next t rest heq =>
    rw [heq, List.length_cons] at hle
    split
    · omega
    · exact Nat.le_refl _
  · exact Nat.le_refl _

/-- With steps enough for the tokens, more make no difference. -/
theorem argumentCheck_eq_of_lt {n m : Nat} {form : ArgumentForm} {trail : Trail} {ts : List Token}
    (hn : ts.length < n) (hm : ts.length < m) :
    argumentCheck n form trail ts = argumentCheck m form trail ts := by
  induction n generalizing m form trail ts with
  | zero => cases hn
  | succ n ih =>
    obtain ⟨m, rfl⟩ : ∃ k, m = k + 1 := ⟨m - 1, by omega⟩
    have hagree {us : List Token} (hus : us.length ≤ ts.length) :
        Agree (argumentCheck n) (argumentCheck m) us.length :=
      fun form trail vs hvs => ih (by omega) (by omega)
    cases form with
    | list =>
      simp only [argumentCheck]
      congr 1
      exact List.map_congr_left fun part hpart =>
        selector_congr (hagree (length_splitNested_le _ _ ts part hpart))
    | relativeList =>
      simp only [argumentCheck]
      congr 1
      refine List.map_congr_left fun part hpart => selector_congr (hagree ?_)
      exact Nat.le_trans (length_skipIf_le _ part) (length_splitNested_le _ _ ts part hpart)
    | single => exact selector_congr (hagree (Nat.le_refl _))

def isSelector (ts : List Token) : Bool := (selector (argumentCheck ts.length) .start ts).inForm

theorem isSelectorList_eq (ts : List Token) :
    isSelectorList false ts = (splitCommas ts).all isSelector := by
  simp only [isSelectorList, argumentCheck, Finding.all, List.all_map, Bool.false_eq_true,
    ↓reduceIte]
  refine all_congr_of_mem fun part hpart => ?_
  have hle := length_splitNested_le _ _ ts part hpart
  have hagree : Agree (argumentCheck ts.length) (argumentCheck part.length) part.length :=
    fun form trail us hus => argumentCheck_eq_of_lt (by omega) hus
  exact congrArg Finding.inForm (selector_congr hagree)

/-! ## White space at the front -/

section Front
variable {t : Token} (ht : t.kind = .space)
include ht

theorem selector_space_cons (check : ArgumentCheck) (trail : Trail) (ts : List Token) :
    selector check trail (t :: ts) = selector check trail ts := by
  have hcompound (trail : Trail) : compound check trail (t :: ts) = compound check trail ts := by
    simp only [compound, skipSpace_space_cons ht]
  have hfuel : selectorFrom check (ts.length + 1) trail ts =
      selectorFrom check (ts.length + 2) trail ts := selectorFrom_eq_of_lt (by omega) (by omega)
  rw [selector, selector, hfuel]
  simp only [selectorFrom, hcompound, List.length_cons]

theorem isSelector_space_cons (ts : List Token) : isSelector (t :: ts) = isSelector ts := by
  have hagree : Agree (argumentCheck (ts.length + 1)) (argumentCheck ts.length) ts.length :=
    fun form trail us hus => argumentCheck_eq_of_lt (by omega) hus
  rw [isSelector, selector_space_cons ht, isSelector]
  exact congrArg Finding.inForm (selector_congr hagree)

theorem isSelectorList_space_cons (ts : List Token) :
    isSelectorList false (t :: ts) = isSelectorList false ts := by
  have hsep : t.isComma = false := by simp [Token.isComma, ht]
  obtain ⟨part, parts, hparts, hcons⟩ := splitNested_space_cons ht hsep ts
  rw [isSelectorList_eq, isSelectorList_eq, splitCommas, hcons, splitCommas, hparts]
  simp only [List.all_cons, isSelector_space_cons ht]

end Front

/-! ## What is left -/

/-- The tokens are left of others, with all blocks closed. -/
structure Left (rest ts : List Token) : Prop where
  settles : settles [] rest = true
  suffix : rest <:+ ts

namespace Left

variable {rest ts : List Token} {u : Token}

theorem refl (h : Css.settles [] ts = true) : Left ts ts := ⟨h, List.suffix_rfl⟩

theorem trans {us : List Token} (h : Left us rest) (h' : Left rest ts) : Left us ts :=
  ⟨h.settles, h.suffix.trans h'.suffix⟩

theorem of_cons (hopen : u.opens? = none) (h : Css.settles [] (u :: rest) = true) :
    Left rest (u :: rest) :=
  ⟨settles_of_cons hopen h, List.suffix_cons u rest⟩

theorem takeBlock {b : Bracket} (hopen : u.opens? = some b)
    (h : Css.settles [] (u :: rest) = true) : Left (takeBlock b rest).2 (u :: rest) := by
  obtain ⟨close, happend⟩ := takeBlock_append b rest
  exact ⟨(settles_takeBlock (settles_block_of_cons hopen h)).2,
    List.IsSuffix.trans ⟨_, happend⟩ (List.suffix_cons u rest)⟩

theorem drop_of_isDelim {c : Char} (h : Css.settles [] ts = true)
    (hc : ts.head?.any (Token.isDelim c) = true) : Left (ts.drop 1) ts := by
  cases ts with
  | nil => cases hc
  | cons u ts =>
    have hkind : u.kind = .delim c := of_decide_eq_true hc
    exact .of_cons (by simp [Token.opens?, hkind]) h

theorem skipSpace (h : Css.settles [] ts = true) : Left (skipSpace ts) ts :=
  ⟨(settles_skipSpace [] ts).trans h, List.dropWhile_suffix _⟩

end Left

section Found
variable {check : ArgumentCheck} {trail trail' : Trail} {ts rest : List Token}
  (hts : settles [] ts = true)
include hts

theorem left_pseudo {double : Bool} (h : pseudo check double trail ts = .found trail' rest) :
    Left rest ts := by
  rw [pseudo.eq_def] at h
  split at h
  · have hleft := Left.of_cons rfl hts
    split at h
    · rwa [eq_of_ofTrail?_found h]
    · split at h
      · cases h
        exact hleft
      · cases h
  · have hleft := Left.takeBlock rfl hts
    simp only at h
    split at h <;> rwa [eq_of_ofTrail?_found h]
  · cases h

theorem left_simple (h : simple check trail ts = .found trail' rest) : Left rest ts := by
  rw [simple.eq_def] at h
  split at h
  · split at h <;> cases h
    exact .of_cons rfl hts
  · split at h <;> cases h
    have hleft := Left.of_cons rfl hts
    exact (Left.of_cons rfl hleft.settles).trans hleft
  · cases h
  · cases h
    exact .of_cons rfl hts
  · have hleft := Left.takeBlock rfl hts
    simp only at h
    split at h <;> cases h
    exact hleft
  · have hleft := Left.of_cons rfl hts
    have hleft' := Left.of_cons rfl hleft.settles
    exact ((left_pseudo hleft'.settles h).trans hleft').trans hleft
  · have hleft := Left.of_cons rfl hts
    exact (left_pseudo hleft.settles h).trans hleft
  · cases h

theorem left_simples {n : Nat} {begun : Bool}
    (h : simples check n begun trail ts = .found trail' rest) : Left rest ts := by
  induction n generalizing begun trail ts with
  | zero =>
    cases begun <;> cases h
    exact .refl hts
  | succ n ih =>
    rw [simples] at h
    split at h
    · cases h
    · cases begun <;> cases h
      exact .refl hts
    · next hsimple =>
      have hleft := left_simple hts hsimple
      exact (ih hleft.settles h).trans hleft

theorem left_typeName? {named : Bool} (h : typeName? ts = some (named, rest)) : Left rest ts := by
  have hlocal {us : List Token} (hus : settles [] us = true) (h : localName? us = some (named, rest)) :
      Left rest us := by
    rw [localName?.eq_def] at h
    split at h <;> cases h
    · exact .refl hus
    · exact .of_cons rfl hus
    · exact .of_cons rfl hus
  rw [typeName?.eq_def] at h
  split at h
  · have hleft := Left.of_cons rfl hts
    have hleft' := Left.of_cons rfl hleft.settles
    exact ((hlocal hleft'.settles h).trans hleft').trans hleft
  · cases h
    exact .of_cons rfl hts
  · have hleft := Left.of_cons rfl hts
    have hleft' := Left.of_cons rfl hleft.settles
    exact ((hlocal hleft'.settles h).trans hleft').trans hleft
  · cases h
    exact .of_cons rfl hts
  · have hleft := Left.of_cons rfl hts
    exact (hlocal hleft.settles h).trans hleft
  · cases h
    exact .refl hts

theorem left_compound (h : compound check trail ts = .found trail' rest) : Left rest ts := by
  have hskip := Left.skipSpace hts
  simp only [compound] at h
  split at h
  · cases h
  · next named us heq =>
    split at h
    · cases h
    · have hus : Left us ts := by
        split at heq
        · next hnesting =>
          have hdrop := Left.drop_of_isDelim hskip.settles hnesting
          exact ((left_typeName? hdrop.settles heq).trans hdrop).trans hskip
        · exact (left_typeName? hskip.settles heq).trans hskip
      exact (left_simples hus.settles h).trans hus

end Found

/-! ## White space at the end -/

def Simple.behind (t : Token) : Simple → Simple
  | .found trail rest => .found trail (rest ++ [t])
  | .nothing => .nothing
  | .invalid => .invalid

def Compound.behind (t : Token) : Compound → Compound
  | .found trail rest => .found trail (rest ++ [t])
  | .invalid trail => .invalid trail

theorem NoBar.of_suffix {us ts : List Token} (h : NoBar ts) (hus : us <:+ ts) : NoBar us := by
  obtain ⟨pre, rfl⟩ := hus
  intro u hu
  refine h u ?_
  rw [List.getLast?_append, Option.mem_def.mp hu]
  rfl

section Back
variable {t : Token} (ht : t.kind = .space) {check : ArgumentCheck} {trail : Trail} {ts : List Token}

theorem ofTrail?_behind (trail? : Option Trail) (rest : List Token) :
    Simple.ofTrail? trail? (rest ++ [t]) = (Simple.ofTrail? trail? rest).behind t := by
  cases trail? <;> rfl

include ht

theorem pseudo_append_space (hts : settles [] ts = true) (double : Bool) :
    pseudo check double trail (ts ++ [t]) = (pseudo check double trail ts).behind t := by
  match ts with
  | [] =>
    obtain ⟨kind, text⟩ := t
    obtain rfl : kind = .space := ht
    rfl
  | ⟨kind, text⟩ :: rest =>
    cases kind with
    | ident name =>
      simp only [List.cons_append, pseudo, ofTrail?_behind]
      split
      · rfl
      · split <;> rfl
    | function name =>
      have hblock := settles_block_of_cons rfl hts
      simp only [List.cons_append, pseudo, takeBlock_append_of_settles hblock, ofTrail?_behind]
      split <;> rfl
    | _ => rfl

theorem simple_dot_append_space (text : Text) (rest : List Token) :
    simple check trail (⟨.delim '.', text⟩ :: rest ++ [t]) =
      (simple check trail (⟨.delim '.', text⟩ :: rest)).behind t := by
  match rest with
  | [] =>
    obtain ⟨kind, text⟩ := t
    obtain rfl : kind = .space := ht
    rfl
  | ⟨kind, text⟩ :: rest =>
    cases kind with
    | ident name =>
      simp only [List.cons_append, simple]
      split <;> rfl
    | _ => rfl

theorem simple_colon_append_space (text : Text) {rest : List Token} (hrest : settles [] rest = true) :
    simple check trail (⟨.colon, text⟩ :: rest ++ [t]) =
      (simple check trail (⟨.colon, text⟩ :: rest)).behind t := by
  have hspace : pseudo check false trail (rest ++ [t]) =
      (pseudo check false trail rest).behind t := pseudo_append_space ht hrest false
  match rest with
  | [] =>
    obtain ⟨kind, text⟩ := t
    obtain rfl : kind = .space := ht
    rfl
  | ⟨kind, text⟩ :: rest =>
    cases kind with
    | colon => exact pseudo_append_space ht (settles_cons.mp hrest).2 true
    | _ => exact hspace

theorem simple_append_space (hts : settles [] ts = true) :
    simple check trail (ts ++ [t]) = (simple check trail ts).behind t := by
  match ts with
  | [] =>
    obtain ⟨kind, text⟩ := t
    obtain rfl : kind = .space := ht
    rfl
  | ⟨kind, text⟩ :: rest =>
    cases kind with
    | idHash name =>
      simp only [List.cons_append, simple]
      split <;> rfl
    | delim c =>
      by_cases hdot : c = '.'
      · subst hdot
        exact simple_dot_append_space ht text rest
      · by_cases hand : c = '&'
        · subst hand
          rfl
        · have hnothing (us : List Token) :
              simple check trail (⟨.delim c, text⟩ :: us) = .nothing := by
            simp [simple, hdot, hand]
          rw [List.cons_append, hnothing, hnothing]
          rfl
    | opening b =>
      cases b with
      | square =>
        have hblock := settles_block_of_cons rfl hts
        simp only [List.cons_append, simple, takeBlock_append_of_settles hblock]
        split <;> rfl
      | _ => rfl
    | colon => exact simple_colon_append_space ht text (settles_of_cons rfl hts)
    | _ => rfl

theorem simples_append_space (hts : settles [] ts = true) (n : Nat) (begun : Bool) :
    simples check n begun trail (ts ++ [t]) = (simples check n begun trail ts).behind t := by
  induction n generalizing begun trail ts with
  | zero => cases begun <;> rfl
  | succ n ih =>
    simp only [simples, simple_append_space ht hts]
    cases hsimple : simple check trail ts with
    | found trail' rest => exact ih (left_simple hts hsimple).settles true
    | nothing => cases begun <;> rfl
    | invalid => rfl

omit ht in
theorem localName?_append (hne : ts ≠ []) :
    localName? (ts ++ [t]) = (localName? ts).map fun (named, rest) => (named, rest ++ [t]) := by
  match ts with
  | ⟨kind, text⟩ :: rest =>
    cases kind with
    | delim c => by_cases hstar : c = '*' <;> simp [localName?, hstar]
    | _ => rfl

omit ht in
theorem NoBar.ne_nil (h : NoBar ts) {text : Text} {rest : List Token}
    (hbar : ⟨.delim '|', text⟩ :: rest <:+ ts) : rest ≠ [] := by
  rintro rfl
  obtain ⟨pre, rfl⟩ := hbar
  have := h ⟨.delim '|', text⟩ (by simp)
  simp [Token.isDelim] at this

/-- White space makes no difference behind the name of a type, but behind the bar of a namespace. -/
theorem typeName?_append_space (hbar : NoBar ts) :
    typeName? (ts ++ [t]) = (typeName? ts).map fun (named, rest) => (named, rest ++ [t]) := by
  obtain ⟨white, space⟩ := t
  obtain rfl : white = .space := ht
  -- a name, or the star in its place, may have the bar of a namespace behind it
  have hprefix {u : Token} {rest : List Token} (hbar : NoBar (u :: rest))
      (hu : (∃ name text, u = ⟨.ident name, text⟩) ∨ ∃ text, u = ⟨.delim '*', text⟩) :
      typeName? (u :: rest ++ [⟨.space, space⟩]) =
        (typeName? (u :: rest)).map fun (named, rest) => (named, rest ++ [⟨.space, space⟩]) := by
    match rest with
    | [] => rcases hu with ⟨name, text, rfl⟩ | ⟨text, rfl⟩ <;> rfl
    | ⟨kind, text⟩ :: rest =>
      by_cases hkind : kind = .delim '|'
      · subst hkind
        have hne : rest ≠ [] := hbar.ne_nil (List.suffix_cons u _)
        rcases hu with ⟨name, text, rfl⟩ | ⟨text, rfl⟩ <;> exact localName?_append hne
      · rcases hu with ⟨name, text, rfl⟩ | ⟨text, rfl⟩ <;> simp [typeName?, hkind]
  match ts with
  | [] => rfl
  | ⟨kind, text⟩ :: rest =>
    cases kind with
    | ident name => exact hprefix hbar (.inl ⟨name, text, rfl⟩)
    | delim c =>
      by_cases hstar : c = '*'
      · subst hstar
        exact hprefix hbar (.inr ⟨text, rfl⟩)
      · by_cases hc : c = '|'
        · subst hc
          exact localName?_append (hbar.ne_nil (List.suffix_refl _))
        · simp [typeName?, hstar, hc]
    | _ => rfl

theorem compound_append_space (hts : settles [] ts = true) (hbar : NoBar ts) :
    compound check trail (ts ++ [t]) = (compound check trail ts).behind t := by
  have hskip := Left.skipSpace hts
  have hbar' := hbar.of_suffix hskip.suffix
  simp only [compound, skipSpace_append_space ht]
  cases hus : skipSpace ts with
  | nil => rfl
  | cons u us =>
    rw [hus] at hskip hbar'
    rw [if_neg (List.cons_ne_nil u us)]
    have hhead : (u :: us ++ [t]).head?.any (Token.isDelim '&') =
        (u :: us).head?.any (Token.isDelim '&') := rfl
    have hfront : (if (u :: us).head?.any (Token.isDelim '&') = true then (u :: us ++ [t]).drop 1
        else u :: us ++ [t]) =
          (if (u :: us).head?.any (Token.isDelim '&') = true then (u :: us).drop 1 else u :: us) ++
            [t] := by
      split <;> rfl
    have hleft : Left (if (u :: us).head?.any (Token.isDelim '&') = true then (u :: us).drop 1
        else u :: us) (u :: us) := by
      split
      · next hnesting => exact .drop_of_isDelim hskip.settles hnesting
      · exact .refl hskip.settles
    rw [hhead, hfront, typeName?_append_space ht (hbar'.of_suffix hleft.suffix)]
    generalize (if (u :: us).head?.any (Token.isDelim '&') = true then (u :: us).drop 1 else u :: us) =
      vs at hleft
    cases hname : typeName? vs with
    | none => rfl
    | some x =>
      obtain ⟨named, rest⟩ := x
      have hrest := left_typeName? hleft.settles hname
      simp only [Option.map_some]
      split
      · rfl
      · rw [simples_eq_of_le (m := rest.length + 1) (by simp) (by simp),
          simples_append_space ht hrest.settles]
        rw [simples_eq_of_le (n := rest.length + 1) (m := rest.length) (by simp) (by simp)]

theorem selector_append_space (hts : settles [] ts = true) (hbar : NoBar ts) :
    selector check trail (ts ++ [t]) = selector check trail ts := by
  have hfrom (n : Nat) (trail : Trail) :
      selectorFrom check n trail (ts ++ [t]) = selectorFrom check n trail ts := by
    induction n generalizing trail ts with
    | zero => rfl
    | succ n ih =>
      simp only [selectorFrom, compound_append_space ht hts hbar]
      cases hcompound : compound check trail ts with
      | invalid trail' => rfl
      | found trail' rest =>
        have hleft := left_compound hts hcompound
        have hskip := Left.skipSpace hleft.settles
        simp only [Compound.behind, skipSpace_append_space ht]
        cases hus : skipSpace rest with
        | nil => rfl
        | cons u next =>
          rw [hus] at hskip
          have hbar' := hbar.of_suffix (hskip.trans hleft).suffix
          have hhead : (rest ++ [t]).head? = rest.head? := by
            cases rest with
            | nil => cases hus
            | cons v rest => rfl
          have hcons : selectorFrom check n trail' (u :: next ++ [t]) =
              selectorFrom check n trail' (u :: next) := ih hskip.settles hbar' trail'
          have hnext (hu : u.isCombinator = true) :
              selectorFrom check n trail' (next ++ [t]) = selectorFrom check n trail' next := by
            have hopen : u.opens? = none := by
              simp only [Token.isCombinator, Token.isDelim, Bool.or_eq_true, decide_eq_true_eq] at hu
              rcases hu with (hu | hu) | hu <;> simp [Token.opens?, hu]
            have hleft := Left.of_cons hopen hskip.settles
            exact ih hleft.settles (hbar'.of_suffix hleft.suffix) trail'
          rw [List.cons_append] at hcons
          rw [if_neg (List.cons_ne_nil u next), List.cons_append]
          simp only [hhead, hcons]
          by_cases hu : u.isCombinator = true
          · simp only [hu, ↓reduceIte, hnext hu]
          · simp only [hu, Bool.false_eq_true, ↓reduceIte]
  rw [selector, hfrom, selector]
  exact selectorFrom_eq_of_lt (by simp only [List.length_append]; omega) (Nat.lt_succ_self _)

theorem isSelector_append_space (hts : settles [] ts = true) (hbar : NoBar ts) :
    isSelector (ts ++ [t]) = isSelector ts := by
  have hagree : Agree (argumentCheck (ts ++ [t]).length) (argumentCheck ts.length) ts.length :=
    fun form trail us hus =>
      argumentCheck_eq_of_lt (by simp only [List.length_append]; omega) hus
  rw [isSelector, selector_append_space ht hts hbar, isSelector]
  exact congrArg Finding.inForm (selector_congr hagree)

theorem isSelectorList_append_space (hts : settles [] ts = true) (hbar : NoBar ts) :
    isSelectorList false (ts ++ [t]) = isSelectorList false ts := by
  have hsep : t.isComma = false := by simp [Token.isComma, ht]
  have hcomma (u : Token) (hu : u.isComma = true) : u.opens? = none := by
    simp [Token.opens?, of_decide_eq_true hu]
  obtain ⟨parts, last, hparts, hspace, ⟨hlast, -⟩, hsettles⟩ :=
    splitNested_append_space hsep hcomma hts
  have hsettles : settles [] last = true := by
    split at hsettles <;> exact hsettles
  rw [isSelectorList_eq, isSelectorList_eq, splitCommas, hspace, splitCommas, hparts]
  simp only [List.all_append, List.all_cons,
    isSelector_append_space ht hsettles (hbar.of_suffix hlast)]

end Back

/-- White space around a list of selectors makes no difference, if it does not end with the bar of a
namespace. -/
theorem isSelectorList_withoutOuterSpace {ts : List Token} (hts : settles [] ts = true)
    (hbar : NoBar (withoutOuterSpace ts)) :
    isSelectorList false ts = isSelectorList false (withoutOuterSpace ts) := by
  refine apply_withoutOuterSpace (p := NoBar) (fun _ us ht => isSelectorList_space_cons ht us)
    (fun _ _ ht hus hbar => isSelectorList_append_space ht hus hbar) (fun t us ht => ?_) hbar hts
  intro u hu
  obtain rfl : t = u := by simpa using hu
  simp [Token.isDelim, ht]

end Css

end StyleRef
