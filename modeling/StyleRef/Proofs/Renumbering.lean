import StyleRef.Proofs.Outcome

/-
# Rules under new numbers

Putting the rules of a sheet in another order, or a rule between them, gives the
rules new numbers, and declarations are named by these.  So a run on the changed
sheet has nothing in common with a run on the old one but its outcome, and the
two are not compared.  What a declaration comes to is moved from one sheet to the
other instead, and the outcome is known from that.

`Rearranged f s s'` says that rule `i` of the one sheet is rule `f i` of the
other, which may have rules besides.  Then the references move along.  Whether
the selection does depends on the change; where it does, what declarations come
to and what is reported move along with it.
-/

namespace StyleRef

/-! ## Moving places -/

section Move
variable (f : Nat → Nat)

/-- The place of the same declaration when rule `i` has become rule `f i`. -/
def Place.move (p : Place) : Place := ⟨f p.rule, p.declaration⟩

def Reference.move (r : Reference) : Reference := { r with place := r.place.move f }

def Supply.move : Supply → Supply
  | .declaration p => .declaration (p.move f)
  | .fallback v => .fallback v

@[simp] theorem Reference.target_move (r : Reference) : (r.move f).target = r.target := rfl

@[simp] theorem Reference.fallback_move (r : Reference) : (r.move f).fallback = r.fallback := rfl

@[simp] theorem Supply.isDeclaration_move (x : Supply) :
    (x.move f).isDeclaration = x.isDeclaration := by
  cases x <;> rfl

end Move

namespace Asked

/-! Places do not matter to what is asked. -/

variable (f : Nat → Nat) (rs : List Reference)

theorem selectors_map_move : selectors (rs.map (Reference.move f)) = selectors rs := by
  rw [selectors, List.map_map]
  rfl

theorem targets_map_move : targets (rs.map (Reference.move f)) = targets rs := by
  simp only [targets, selectors_map_move, properties, List.filter_map, List.map_map]
  rfl

theorem fallback?_map_move (scope : Scope) (t : Target) :
    fallback? scope (rs.map (Reference.move f)) t = fallback? scope rs t := by
  rw [fallback?, List.filter_map, List.filterMap_map]
  rfl

end Asked

namespace Stylesheet

/-- Rule `i` of the first sheet is rule `f i` of the second. -/
def Rearranged (f : Nat → Nat) (s s' : Stylesheet) : Prop :=
  ∀ i, s'.rules[f i]? = s.rules[i]?

namespace Rearranged

variable {f : Nat → Nat} {s s' : Stylesheet}

theorem declaration? (h : s.Rearranged f s') (p : Place) :
    s'.declaration? (p.move f) = s.declaration? p := by
  simp only [Stylesheet.declaration?, Place.move, h p.rule]

theorem owner? (h : s.Rearranged f s') (p : Place) : s'.owner? (p.move f) = s.owner? p :=
  h p.rule

/-! ## Moving references -/

theorem holds (h : s.Rearranged f s') {p : Place} {before after : Text} {r : Reference}
    (hold : s.Holds p before r after) : s'.Holds (p.move f) before (r.move f) after := by
  obtain ⟨d, o, t, hd, ho, hfind, rfl⟩ := hold
  exact ⟨d, o, t, (h.declaration? p).trans hd, (h.owner? p).trans ho, hfind, rfl⟩

theorem reference? (h : s.Rearranged f s') (p : Place) :
    s'.reference? (p.move f) = (s.reference? p).map (Reference.move f) := by
  simp only [Stylesheet.reference?, h.declaration?, h.owner?, Reference.ofValue?, Option.map_bind,
    Function.comp_def, Option.map_map]
  rfl

theorem move_mem_references (h : s.Rearranged f s') {r : Reference} (hr : r ∈ s.references) :
    r.move f ∈ s'.references := by
  refine mem_references.mpr ?_
  rw [show (r.move f).place = r.place.move f from rfl, h.reference?, mem_references.mp hr]
  rfl

end Rearranged

/-! ## Moving what is selected -/

section Selection
variable {f : Nat → Nat} {s s' : Stylesheet} {scope : Scope}

/-- Where the source of a target moves along, and its fallback stays, the selection moves along. -/
theorem supply?_move {t : Target}
    (hserves : (∀ o ∈ s'.rules, ¬ o.Serves t) ↔ ∀ o ∈ s.rules, ¬ o.Serves t)
    (hsource : ∀ p, s.IsSource t p → s'.IsSource t (p.move f))
    (hfallback : Asked.fallback? scope s'.references t = Asked.fallback? scope s.references t) :
    s'.supply? scope t = (s.supply? scope t).map (Supply.move f) := by
  cases hsupply : s.supply? scope t with
  | none =>
      rw [supply?_eq_none_iff] at hsupply
      rw [Option.map_none, supply?_eq_none_iff, hserves, hfallback]
      exact hsupply
  | some x =>
      cases x with
      | declaration p =>
          rw [supply?_eq_declaration_iff] at hsupply
          exact supply?_eq_declaration_iff.mpr (hsource p hsupply)
      | fallback v =>
          rw [supply?_eq_fallback_iff] at hsupply
          refine supply?_eq_fallback_iff.mpr ?_
          rw [hserves, hfallback]
          exact hsupply

variable (hsupply : ∀ r ∈ s.references,
  s'.supply? scope r.target = (s.supply? scope r.target).map (Supply.move f))
include hsupply

/-- Where the selection moves along, a declaration comes to the value that it came to before. -/
theorem Resolves.move (h : s.Rearranged f s') {p : Place} {v : Text} (hv : s.Resolves scope p v) :
    s'.Resolves scope (p.move f) v := by
  induction hv with
  | stays hd hnone =>
      refine .stays ((h.declaration? _).trans hd) fun r' hr' => ?_
      rw [h.reference?, Option.map_eq_some_iff] at hr'
      obtain ⟨r, hr, rfl⟩ := hr'
      rw [Reference.target_move, hsupply r (mem_references_of_reference? hr), hnone r hr]
      rfl
  | fallback hold hf =>
      have hmoved := hsupply _ (mem_references_of_reference? hold.reference?)
      rw [hf] at hmoved
      exact .fallback (h.holds hold) hmoved
  | source hold hq _ ih =>
      have hmoved := hsupply _ (mem_references_of_reference? hold.reference?)
      rw [hq] at hmoved
      exact .source (h.holds hold) hmoved ih

/-- Where the selection moves along and no reference is added, the report stays. -/
theorem report_move (hperm : (s.references.map (Reference.move f)).Perm s'.references) :
    Report.ofBindings s'.references (s'.supply? scope) =
      Report.ofBindings s.references (s.supply? scope) := by
  simp only [Report.ofBindings, ← hperm.countP_eq, List.countP_map, Report.mk.injEq]
  refine ⟨?_, ?_, ?_⟩ <;>
    exact List.countP_congr fun r hr => by simp [hsupply r hr, Option.any_map]

end Selection

end Stylesheet

end StyleRef
