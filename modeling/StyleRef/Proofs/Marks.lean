import StyleRef.Proofs.Survival

/-
# Importance through a resolution

A declaration stays important, or not, while its value is put together from texts
of other declarations and of fallbacks.  Both are written as one text and read
back from its end, where the annotation stands, so the question is what a mark at
the end of a value can come from.

The annotation of a source is not among the texts: it was split off when the
source was loaded.  A mark in a string, an address or a comment has the end of
these behind it (`closedOff`), and that stays behind it.  There remain the
fallbacks, which are put in as they are written: `Stylesheet.Takes` says which
one a declaration takes, be it through others, and what ends up behind it.
-/

namespace StyleRef

namespace Css

/-! ## Marks that are closed off -/

/-- Behind every mark stands something that does not stand behind the mark of an annotation. -/
def closedOff : Text → Bool
  | [] => true
  | c :: s => (c ≠ '!' || s.any fun d => !isSoft d) && closedOff s

theorem exists_of_closedOff {a b : Text} (h : closedOff (a ++ '!' :: b) = true) :
    ∃ c ∈ b, isSoft c = false := by
  induction a with
  | nil =>
    simp only [List.nil_append, closedOff, Bool.and_eq_true] at h
    simpa using h.1
  | cons c a ih =>
    simp only [List.cons_append, closedOff, Bool.and_eq_true] at h
    exact ih h.2

theorem append_eq_append_cons {a b x y : Text} {c : Char} (h : a ++ b = x ++ c :: y) :
    (∃ z, a = x ++ c :: z ∧ y = z ++ b) ∨ ∃ z, x = a ++ z ∧ b = z ++ c :: y := by
  rcases List.append_eq_append_iff.mp h with ⟨z, rfl, rfl⟩ | ⟨z, rfl, hz⟩
  · exact .inr ⟨z, rfl, rfl⟩
  · cases z with
    | nil => exact .inr ⟨[], by simp, by simpa using hz.symm⟩
    | cons d z =>
      obtain ⟨rfl, rfl⟩ := List.cons.inj hz
      exact .inl ⟨z, rfl, rfl⟩

/-- Where a text is put between two others whose marks are closed off, a mark that is not comes from
the text. -/
theorem exists_mark_inside {before u after x b : Text} (hclosed : closedOff (before ++ after) = true)
    (h : before ++ u ++ after = x ++ '!' :: b) (hsoft : ∀ c ∈ b, isSoft c = true) :
    ∃ u₁ u₂, u = u₁ ++ '!' :: u₂ ∧ b = u₂ ++ after := by
  rcases append_eq_append_cons h with ⟨z, hz, rfl⟩ | ⟨z, rfl, rfl⟩
  · rcases append_eq_append_cons hz with ⟨z', rfl, rfl⟩ | ⟨z', rfl, rfl⟩
    · rw [List.append_assoc] at hclosed
      obtain ⟨c, hc, hhard⟩ := exists_of_closedOff hclosed
      have hmem : c ∈ z' ++ u ++ after := by
        rcases List.mem_append.mp hc with hc | hc <;> simp [hc]
      simp [hsoft c hmem] at hhard
    · exact ⟨z', z, rfl, rfl⟩
  · rw [← List.append_assoc] at hclosed
    obtain ⟨c, hc, hhard⟩ := exists_of_closedOff hclosed
    simp [hsoft c hc] at hhard

end Css

open Css

namespace RefToken

/-- What stands around the token of a value; without a token, the whole value. -/
def around (value : Text) : Text :=
  match find? value with
  | none => value
  | some (before, _, after) => before ++ after

theorem exists_text_eq (t : RefToken) : ∃ u, t.text = u ++ [')'] := by
  obtain ⟨selector, property, fallback⟩ := t
  cases fallback with
  | none => exact ⟨tokenStart ++ (selector ++ ',' :: property), by simp [text, tail]⟩
  | some f =>
    exact ⟨tokenStart ++ (selector ++ ',' :: property ++ ',' :: f), by simp [text, tail]⟩

/-- The closing bracket of a token stands behind the marks in it and before it. -/
theorem exists_of_closedOff {value x b : Text} (h : closedOff (around value) = true)
    (hvalue : value = x ++ '!' :: b) : ∃ c ∈ b, isSoft c = false := by
  rw [around] at h
  split at h
  · rw [hvalue] at h
    exact Css.exists_of_closedOff h
  · next before t after hfind =>
    by_contra hall
    have hsoft : ∀ c ∈ b, isSoft c = true := by simpa using hall
    rw [eq_of_find? hfind] at hvalue
    obtain ⟨u₁, u₂, htext, rfl⟩ := exists_mark_inside h hvalue hsoft
    obtain ⟨u, hu⟩ := t.exists_text_eq
    have hbracket : ')' ∈ u₂ := by
      rcases append_eq_append_cons (hu.symm.trans htext) with ⟨z, -, rfl⟩ | ⟨z, -, hz⟩
      · simp
      · cases z <;> simp at hz
    have hhard : isSoft ')' = false := by decide
    simp [hsoft ')' (List.mem_append_left _ hbracket)] at hhard

end RefToken

namespace Stylesheet

/-! ## Fallbacks -/

section Takes
variable {scope : Scope} {s : Stylesheet}

/-- The declaration takes a fallback, be it through others, and a text ends up behind it. -/
inductive Takes (scope : Scope) (s : Stylesheet) : Place → Text → Text → Prop
  | here {p : Place} {before f after : Text} {r : Reference} : s.Holds p before r after →
      s.supply? scope r.target = some (.fallback f) → Takes scope s p f after
  | there {p q : Place} {before f after after' : Text} {r : Reference} :
      s.Holds p before r after → s.supply? scope r.target = some (.declaration q) →
      Takes scope s q f after' → Takes scope s p f (after' ++ after)

/-- What a declaration takes stands at the end of the value that it comes to. -/
theorem Takes.exists_front {p : Place} {f after v : Text} (h : s.Takes scope p f after)
    (hv : s.Resolves scope p v) : ∃ front, v = front ++ (f ++ after) := by
  induction h generalizing v with
  | @here p before f after r hold hf =>
      exact ⟨before, by rw [hv.of_supply?_eq_fallback hold hf, List.append_assoc]⟩
  | @there p q before f after after' r hold hq _ ih =>
      obtain ⟨w, hw, rfl⟩ := hv.of_supply?_eq_declaration hold hq
      obtain ⟨front, rfl⟩ := ih hw
      exact ⟨before ++ front, by simp only [List.append_assoc]⟩

theorem Holds.around {p : Place} {before after : Text} {r : Reference}
    (h : s.Holds p before r after) :
    ∃ w, s.value? p = some w ∧ RefToken.around w = before ++ after := by
  obtain ⟨d, o, t, hd, -, hfind, -⟩ := h
  exact ⟨d.value, by simp [Stylesheet.value?, hd], by simp [RefToken.around, hfind]⟩

/-- Along the sources of a declaration the marks around the tokens are closed off. -/
def ClosedFrom (s : Stylesheet) (p : Place) : Prop :=
  ∀ q w, Relation.ReflTransGen s.Needs p q → s.value? q = some w →
    closedOff (RefToken.around w) = true

theorem ClosedFrom.source {p q : Place} (h : s.ClosedFrom p) (hpq : s.Needs p q) :
    s.ClosedFrom q :=
  fun q' w hq => h q' w (hq.head hpq)

theorem ClosedFrom.around {p : Place} {before after : Text} {r : Reference} (h : s.ClosedFrom p)
    (hold : s.Holds p before r after) : closedOff (before ++ after) = true := by
  obtain ⟨w, hw, haround⟩ := hold.around
  exact haround ▸ h p w .refl hw

/-- A mark that is not closed off in the value that a declaration comes to is one of a fallback. -/
theorem Resolves.exists_takes {p : Place} {v x b : Text} (h : s.Resolves scope p v)
    (hclosed : s.ClosedFrom p) (hv : v = x ++ '!' :: b) (hsoft : ∀ c ∈ b, isSoft c = true) :
    ∃ f after f₁ f₂, s.Takes scope p f after ∧ f = f₁ ++ '!' :: f₂ ∧ b = f₂ ++ after := by
  induction h generalizing x b with
  | @stays p d hd _ =>
      have hvalue : s.value? p = some d.value := by simp [value?, hd]
      obtain ⟨c, hc, hhard⟩ := RefToken.exists_of_closedOff (hclosed p _ .refl hvalue) hv
      simp [hsoft c hc] at hhard
  | @fallback p before f after r hold hf =>
      obtain ⟨f₁, f₂, hmark, rfl⟩ := exists_mark_inside (hclosed.around hold) hv hsoft
      exact ⟨f, after, f₁, f₂, .here hold hf, hmark, rfl⟩
  | @source p q before w after r hold hq _ ih =>
      have hneeds : s.Needs p q := ⟨r, hold.reference?, supply?_eq_declaration_iff.mp hq⟩
      obtain ⟨w₁, w₂, hmark, rfl⟩ := exists_mark_inside (hclosed.around hold) hv hsoft
      obtain ⟨f, after', f₁, f₂, htakes, rfl, rfl⟩ :=
        ih (hclosed.source hneeds) hmark fun c hc => hsoft c (List.mem_append_left _ hc)
      exact ⟨_, _, f₁, f₂, .there hold hq htakes, rfl, List.append_assoc _ _ _⟩

/-- A value comes to be annotated by the fallback that it takes, and by nothing else. -/
theorem Resolves.annotated_iff {p : Place} {v : Text} (h : s.Resolves scope p v)
    (hclosed : s.ClosedFrom p) :
    Annotated v ↔ ∃ f after, s.Takes scope p f after ∧ Annotated (f ++ after) := by
  constructor
  · rintro ⟨x, b, hv, hb⟩
    obtain ⟨f, after, f₁, f₂, htakes, rfl, rfl⟩ :=
      h.exists_takes hclosed hv (isSoft_of_annotated hb)
    exact ⟨_, after, htakes, f₁, f₂ ++ after, by simp, hb⟩
  · rintro ⟨f, after, htakes, hannotated⟩
    obtain ⟨front, rfl⟩ := htakes.exists_front h
    exact hannotated.append front

end Takes

/-! ## Reading a value back -/

theorem splitImportant_of_read {css : Text} {p : Place} {d : Declaration}
    (hd : (read css).declaration? p = some d) :
    splitImportant d.valueText = (d.value, d.important) := by
  obtain ⟨o, ho, hd⟩ := Option.bind_eq_some_iff.mp hd
  rw [read_rules] at ho
  obtain ⟨r, -, rfl⟩ := List.mem_map.mp (List.mem_of_getElem? ho)
  obtain ⟨property, value, hvalue⟩ := exists_declaration?_of_mem (List.mem_of_getElem? hd)
  exact splitImportant_of_declaration? hvalue

/-- Importance through a resolution.  Each declaration keeps its flag.  Read back from its text, an
important declaration is important and has its value, whatever was put in, and one in which nothing
was put is as it was loaded.  Where the marks along the sources are closed off, one that is not
important becomes so by a fallback that brings a mark, and by nothing else. -/
theorem resolve_importance {v : Validator} {scope : Scope} {css : Text} {s s' : Stylesheet}
    {report : Report} (hparse : v.parse css = .ok s) (hok : s.resolve scope = (s', .ok report))
    {p : Place} {d' : Declaration} (hd' : s'.declaration? p = some d') :
    ∃ d text, s.declaration? p = some d ∧ d'.property = d.property ∧
      d'.important = d.important ∧ d'.render = d'.property ++ ": ".toList ++ text ∧
      (d'.important = true → splitImportant text = (Text.trim d'.value, true)) ∧
      ((∀ r, s.reference? p = some r → s.supply? scope r.target = none) →
        d' = d ∧ splitImportant text = (d.value, d.important)) ∧
      (d'.important = false → s.ClosedFrom p →
        (splitImportant text = (Text.trim d'.value, false) ↔
          ∀ f after, s.Takes scope p f after → ¬ Annotated (f ++ after))) := by
  obtain ⟨-, rfl⟩ := Validator.parse_eq_ok_iff.mp hparse
  obtain ⟨hresolution, -⟩ := isResolution_of_resolve hok
  have hsome := isSome_declaration?_of_skeleton hresolution.skeleton p
  rw [hd', Option.isSome_some] at hsome
  obtain ⟨d, hd⟩ := Option.isSome_iff_exists.mp hsome.symm
  have hkept := declaration?_of_skeleton hresolution.skeleton p
  simp only [hd, hd', Option.map_some, Option.some.injEq, Prod.mk.injEq] at hkept
  obtain ⟨hproperty, himportant⟩ := hkept
  have hcomes := hresolution.resolves p d' hd'
  refine ⟨d, d'.value ++ if d'.important then " !important".toList else [], hd, hproperty,
    himportant, ?_, ?_, ?_, ?_⟩
  · simp only [Declaration.render, List.append_assoc]
  · intro h
    rw [h, if_pos rfl]
    exact splitImportant_annotated d'.value
  · intro hnone
    have hvalue := hcomes.unique (.stays hd hnone)
    have hsame : d' = d := by
      cases d
      cases d'
      simp only [Declaration.mk.injEq]
      exact ⟨hproperty, hvalue, himportant⟩
    refine ⟨hsame, ?_⟩
    rw [hsame, ← splitImportant_of_read hd, Declaration.valueText, List.cons_append,
      splitImportant_space_cons]
  · intro h hclosed
    rw [h, if_neg Bool.false_ne_true, List.append_nil, splitImportant_eq_false_iff,
      ← Bool.not_eq_true, splitImportant_snd_iff, hcomes.annotated_iff hclosed]
    simp only [not_exists, not_and]

/-- An important source with a mark of its own, and an important declaration that takes a fallback with
an annotation. -/
def shouting : Text :=
  (".a \x7b content: 'stop!' !important \x7d .b \x7b content: ref(.a, content) \x7d " ++
    ".c \x7b color: ref(.n, color, red !important) !important \x7d").toList

def shoutingSheet : Stylesheet where
  rules :=
    [⟨".a".toList, [⟨"content".toList, "'stop!'".toList, true⟩], none⟩,
      ⟨".b".toList, [⟨"content".toList, "ref(.a, content)".toList, false⟩], none⟩,
      ⟨".c".toList, [⟨"color".toList, "ref(.n, color, red !important)".toList, true⟩], none⟩]

theorem resolve_importance_shouting :
    parse shouting = .ok shoutingSheet ∧
    ∃ s' report, shoutingSheet.resolve .selector = (s', .ok report) ∧
      (∃ d text, s'.declaration? ⟨1, 0⟩ = some d ∧ d.render = d.property ++ ": ".toList ++ text ∧
        splitImportant text = ("'stop!'".toList, false)) ∧
      ∃ d text, s'.declaration? ⟨2, 0⟩ = some d ∧ d.render = d.property ++ ": ".toList ++ text ∧
        splitImportant text = ("red !important".toList, true) := by
  have hparse : parse shouting = .ok shoutingSheet :=
    Validator.parse_eq_ok_iff.mpr ⟨by decide +kernel, by decide +kernel⟩
  obtain ⟨hresult, hfirst, hlast⟩ :
      (shoutingSheet.resolve .selector).2 = .ok ⟨1, 1, 0⟩ ∧
      (shoutingSheet.resolve .selector).1.declaration? ⟨1, 0⟩ =
        some ⟨"content".toList, "'stop!'".toList, false⟩ ∧
      (shoutingSheet.resolve .selector).1.declaration? ⟨2, 0⟩ =
        some ⟨"color".toList, "red !important".toList, true⟩ := by
    decide +kernel
  obtain ⟨hclosed, hsource, hnone⟩ :
      (∀ r ∈ shoutingSheet.rules, ∀ d ∈ r.declarations,
        closedOff (RefToken.around d.value) = true) ∧
      ((shoutingSheet.reference? ⟨1, 0⟩).bind fun r => shoutingSheet.supply? .selector r.target) =
        some (.declaration ⟨0, 0⟩) ∧
      shoutingSheet.reference? ⟨0, 0⟩ = none := by
    decide +kernel
  have hok : shoutingSheet.resolve .selector =
      ((shoutingSheet.resolve .selector).1, .ok ⟨1, 1, 0⟩) := by rw [← hresult]
  refine ⟨hparse, _, _, hok, ?_, ?_⟩
  · obtain ⟨-, text, -, -, -, hrender, -, -, hplain⟩ := resolve_importance hparse hok hfirst
    have hchain : shoutingSheet.ClosedFrom ⟨1, 0⟩ :=
      fun q w _ => forall_value?_iff (P := fun v => closedOff (RefToken.around v) = true).mpr
        hclosed q w
    refine ⟨_, text, hfirst, hrender, (hplain rfl hchain).mpr fun f after htakes => ?_⟩
    -- it takes the value of the source, and the source takes nothing
    cases htakes with
    | here hold hf =>
        rw [hold.reference?, Option.bind_some, hf] at hsource
        cases hsource
    | there hold hq htakes =>
        rw [hold.reference?, Option.bind_some, hq] at hsource
        obtain rfl := Supply.declaration.inj (Option.some.inj hsource)
        cases htakes with
        | here hold _ | there hold _ _ => cases hold.reference?.symm.trans hnone
  · obtain ⟨-, text, -, -, -, hrender, himportant, -, -⟩ := resolve_importance hparse hok hlast
    exact ⟨_, text, hlast, hrender, himportant rfl⟩

/-- A fallback that brings an annotation. -/
def marked : Text := ".a \x7b color: ref(.n, color, red !important) \x7d".toList

/-- A fallback can make the declaration important that takes it. -/
theorem not_resolve_importance_marked :
    ¬ ∀ (scope : Scope) (css : Text) (s s' : Stylesheet) (report : Report), parse css = .ok s →
      s.resolve scope = (s', .ok report) → ∀ p d text, s'.declaration? p = some d →
        d.render = d.property ++ ": ".toList ++ text →
          splitImportant text = (Text.trim d.value, d.important) := by
  intro h
  obtain ⟨haccepts, hresult, hd⟩ : Validator.grammar.Accepts marked ∧
      ((read marked).resolve .selector).2 = .ok ⟨0, 1, 0⟩ ∧
      ((read marked).resolve .selector).1.declaration? ⟨0, 0⟩ =
        some ⟨"color".toList, "red !important".toList, false⟩ := by
    decide +kernel
  have hsplit := h .selector marked _ _ _ (Validator.parse_eq_ok_iff.mpr ⟨haccepts, rfl⟩)
    (Prod.ext rfl hresult) ⟨0, 0⟩ _ "red !important".toList hd rfl
  exact absurd hsplit (by decide)

end Stylesheet

end StyleRef
