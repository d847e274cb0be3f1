import StyleRef.RefIndex
import StyleRef.Proofs.Filling
import Mathlib.Data.List.Induction
import Mathlib.Data.List.Perm.Lattice

/-
# What an index holds

An index is built by one registration after the other, and each registration
touches up to three tables.  Here the result is said in terms of the list of the
registered references alone: which targets there are and in which order, what
the group of a target is, and which fallback a target has; all of it stands together in
`RefIndex.lookups_ofReferences`.  Nothing after this module looks at the tables again.

`Asked` is the view of a list of references as questions.  It is what the index
is compared with, and it is stated without an index.
-/

namespace StyleRef

/-- Whether a fallback that was given for one target serves another. -/
def Scope.Reaches : Scope → (given : Target) → (asked : Target) → Prop
  | .selector, given, asked => given.selector = asked.selector
  | .property, given, asked => given = asked

instance decReaches (scope : Scope) (given asked : Target) :
    Decidable (scope.Reaches given asked) :=
  match scope with
  | .selector => inferInstanceAs (Decidable (given.selector = asked.selector))
  | .property => inferInstanceAs (Decidable (given = asked))

theorem Scope.Reaches.refl (scope : Scope) (t : Target) : scope.Reaches t t := by
  cases scope <;> rfl

/-- Fallbacks that serve one target serve each other's. -/
theorem Scope.Reaches.of_common {scope : Scope} {a b t : Target} (ha : scope.Reaches a t)
    (hb : scope.Reaches b t) : scope.Reaches a b := by
  cases scope <;> exact Eq.trans ha (Eq.symm hb)

namespace Asked

/-! ## A list of references as questions -/

/-- The selectors that are asked something, each at its first appearance. -/
def selectors (rs : List Reference) : List Text := (rs.map (·.target.selector)).eraseDups

/-- The properties that are asked of a selector, each at its first appearance. -/
def properties (rs : List Reference) (s : Text) : List Text :=
  ((rs.filter (·.target.selector = s)).map (·.target.property)).eraseDups

/-- The targets, by selector and then by property. -/
def targets (rs : List Reference) : List Target :=
  (selectors rs).flatMap fun s => (properties rs s).map fun p => ⟨s, p⟩

/-- The last fallback given by a reference from which it reaches the target. -/
def fallback? (scope : Scope) (rs : List Reference) (t : Target) : Option Text :=
  ((rs.filter fun r => scope.Reaches r.target t).filterMap (·.fallback)).getLast?

theorem mem_selectors {rs : List Reference} {s : Text} :
    s ∈ selectors rs ↔ ∃ r ∈ rs, r.target.selector = s := by
  simp [selectors]

theorem mem_properties {rs : List Reference} {s p : Text} :
    p ∈ properties rs s ↔ ∃ r ∈ rs, r.target = ⟨s, p⟩ := by
  simp only [properties, List.mem_eraseDups, List.mem_map, List.mem_filter, decide_eq_true_eq]
  constructor
  · rintro ⟨r, ⟨hr, rfl⟩, rfl⟩
    exact ⟨r, hr, rfl⟩
  · rintro ⟨r, hr, h⟩
    exact ⟨r, ⟨hr, by rw [h]⟩, by rw [h]⟩

theorem mem_targets {rs : List Reference} {t : Target} :
    t ∈ targets rs ↔ ∃ r ∈ rs, r.target = t := by
  simp only [targets, List.mem_flatMap, List.mem_map, mem_selectors, mem_properties]
  constructor
  · rintro ⟨s, -, p, h, rfl⟩
    exact h
  · rintro ⟨r, hr, rfl⟩
    exact ⟨_, ⟨r, hr, rfl⟩, _, ⟨r, hr, rfl⟩, rfl⟩

theorem nodup_targets (rs : List Reference) : (targets rs).Nodup := by
  refine List.nodup_flatMap.mpr ⟨fun s _ => ?_, ?_⟩
  · have hp : (properties rs s).Nodup := nodup_eraseDups _
    refine hp.map ?_
    intro p q h
    exact congrArg Target.property h
  · have hs : (selectors rs).Nodup := nodup_eraseDups _
    refine hs.imp fun {s s'} hne => ?_
    intro t ht ht'
    obtain ⟨p, -, rfl⟩ := List.mem_map.mp ht
    obtain ⟨q, -, h⟩ := List.mem_map.mp ht'
    exact hne (congrArg Target.selector h).symm

theorem fallback?_eq_none_iff {scope : Scope} {rs : List Reference} {t : Target} :
    fallback? scope rs t = none ↔ ∀ r ∈ rs, scope.Reaches r.target t → r.fallback = none := by
  simp [fallback?]

theorem exists_of_fallback? {scope : Scope} {rs : List Reference} {t : Target} {f : Text}
    (h : fallback? scope rs t = some f) :
    ∃ r ∈ rs, scope.Reaches r.target t ∧ r.fallback = some f := by
  have hmem := List.mem_of_getLast? h
  simp only [List.mem_filterMap, List.mem_filter, decide_eq_true_eq] at hmem
  obtain ⟨r, ⟨hr, hreach⟩, hf⟩ := hmem
  exact ⟨r, hr, hreach, hf⟩

end Asked

namespace RefIndex

/-! ## The entries -/

@[simp] theorem scope_ofReferences (scope : Scope) (rs : List Reference) :
    (ofReferences scope rs).scope = scope := by
  induction rs using List.reverseRecOn with
  | nil => rfl
  | append_singleton rs r ih => simpa [ofReferences] using ih

theorem ofReferences_concat (scope : Scope) (rs : List Reference) (r : Reference) :
    ofReferences scope (rs ++ [r]) = (ofReferences scope rs).register r := by
  simp [ofReferences]

theorem entries_ofReferences (scope : Scope) (rs : List Reference) :
    (ofReferences scope rs).entries =
      rs.foldl (fun t r => t.update r.target.selector fun old => (old.getD .empty).register r)
        .empty :=
  (List.foldl_hom entries fun _ _ => rfl).symm

theorem groups_foldl_register (rs : List Reference) (e : Entry) :
    (rs.foldl Entry.register e).groups =
      rs.foldl (fun t r => t.update r.target.property fun old => old.getD [] ++ [r]) e.groups :=
  (List.foldl_hom Entry.groups fun _ _ => rfl).symm

@[simp] theorem selectors_ofReferences (scope : Scope) (rs : List Reference) :
    (ofReferences scope rs).selectors = Asked.selectors rs := by
  rw [selectors, entries_ofReferences, Table.keys_foldl_update]
  rfl

/-- The entry of a selector, the empty one if nothing was asked of it. -/
theorem getD_entries (scope : Scope) (rs : List Reference) (s : Text) :
    ((ofReferences scope rs).entries.get? s).getD .empty =
      (rs.filter (·.target.selector = s)).foldl Entry.register .empty := by
  rw [entries_ofReferences, Table.get?_foldl_update]
  exact (List.foldl_hom (fun old : Option Entry => old.getD .empty) fun _ _ => rfl).symm

theorem keys_groups (scope : Scope) (rs : List Reference) (s : Text) :
    (((ofReferences scope rs).entries.get? s).getD .empty).groups.keys = Asked.properties rs s := by
  rw [getD_entries, groups_foldl_register, Table.keys_foldl_update]
  rfl

/-- A selector has an entry if something is asked of it. -/
theorem isSome_entries_iff (scope : Scope) (rs : List Reference) (s : Text) :
    ((ofReferences scope rs).entries.get? s).isSome = true ↔ s ∈ Asked.selectors rs := by
  rw [← Table.mem_keys_iff, ← selectors_ofReferences scope]
  rfl

/-- The properties that are listed under a selector, if the selector is. -/
theorem properties_ofReferences (scope : Scope) (rs : List Reference) (s : Text) :
    ((ofReferences scope rs).entries.get? s).map (·.groups.keys) =
      if s ∈ Asked.selectors rs then some (Asked.properties rs s) else none := by
  have hkeys := keys_groups scope rs s
  have hasked := isSome_entries_iff scope rs s
  cases he : (ofReferences scope rs).entries.get? s with
  | none =>
    rw [if_neg (by simpa [he] using hasked)]
    rfl
  | some e =>
    rw [he, Option.getD_some] at hkeys
    rw [if_pos (by simpa [he] using hasked), Option.map_some, hkeys]

/-! ## The groups -/

/-- A target has a group if it is asked for: the references to it, in the order of the list. -/
theorem group?_ofReferences (scope : Scope) (rs : List Reference) (t : Target) :
    (ofReferences scope rs).group? t =
      if t ∈ rs.map (·.target) then some (rs.filter (·.target = t)) else none := by
  induction rs using List.reverseRecOn with
  | nil => rfl
  | append_singleton rs r ih =>
      rw [ofReferences_concat, group?_register, ih, List.map_append, List.filter_append]
      by_cases h : t = r.target
      · subst h
        by_cases hrs : r.target ∈ rs.map (·.target)
        · simp [hrs]
        · -- this is the first reference to the target
          have hfilter : rs.filter (·.target = r.target) = [] := by simpa using hrs
          simp [hrs, hfilter]
      · simp [h, Ne.symm h]

theorem getD_group? (scope : Scope) (rs : List Reference) (t : Target) :
    ((ofReferences scope rs).group? t).getD [] = rs.filter (·.target = t) := by
  rw [group?_ofReferences]
  split
  · rfl
  · next h => exact (List.filter_eq_nil_iff.mpr (by simpa using h)).symm

/-- The groups of an index: the targets with the references to them. -/
theorem groups_ofReferences (scope : Scope) (rs : List Reference) :
    (ofReferences scope rs).groups =
      (Asked.targets rs).map fun t => (t, rs.filter (·.target = t)) := by
  have hkeys : (ofReferences scope rs).entries.keys = Asked.selectors rs :=
    selectors_ofReferences scope rs
  rw [groups, Table.entries_eq_map_keys _ .empty, hkeys, List.flatMap_map, Asked.targets,
    List.map_flatMap]
  refine List.flatMap_congr fun s _ => ?_
  dsimp only
  rw [Table.entries_eq_map_keys _ [], keys_groups, List.map_map, List.map_map]
  refine List.map_congr_left fun p _ => ?_
  simp only [Function.comp, Prod.mk.injEq, true_and]
  rw [← getD_group? scope rs ⟨s, p⟩, group?]
  cases (ofReferences scope rs).entries.get? s with
  | none => rfl
  | some e => rfl

theorem mem_groups_iff {scope : Scope} {rs : List Reference} {t : Target} {g : List Reference} :
    (t, g) ∈ (ofReferences scope rs).groups ↔ (ofReferences scope rs).group? t = some g := by
  have hasked : t ∈ rs.map (·.target) ↔ t ∈ Asked.targets rs := by
    rw [Asked.mem_targets, List.mem_map]
  rw [groups_ofReferences, group?_ofReferences, List.mem_map]
  constructor
  · rintro ⟨t', ht', heq⟩
    obtain ⟨rfl, rfl⟩ := Prod.mk.inj heq
    rw [if_pos (hasked.mpr ht')]
  · intro hg
    split at hg
    · next ht => exact ⟨t, hasked.mp ht, by rw [Option.some.inj hg]⟩
    · cases hg

@[simp] theorem targets_ofReferences (scope : Scope) (rs : List Reference) :
    (ofReferences scope rs).targets = Asked.targets rs := by
  rw [targets, groups_ofReferences, List.map_map]
  exact List.map_id _

theorem isEmpty_ofReferences {scope : Scope} {rs : List Reference} :
    (ofReferences scope rs).isEmpty = true ↔ rs = [] := by
  have h : (ofReferences scope rs).entries.keys = Asked.selectors rs :=
    selectors_ofReferences scope rs
  rw [isEmpty, List.isEmpty_iff]
  constructor
  · intro he
    rw [Table.keys, he] at h
    cases rs with
    | nil => rfl
    | cons r rs =>
        have : r.target.selector ∈ Asked.selectors (r :: rs) :=
          Asked.mem_selectors.mpr ⟨r, List.mem_cons_self, rfl⟩
        rw [← h] at this
        cases this
  · rintro rfl
    rfl

/-- Taken group by group, an index has the references that were registered, each as often. -/
theorem references_perm (scope : Scope) (rs : List Reference) :
    (ofReferences scope rs).references.Perm rs := by
  rw [references, groups_ofReferences, List.flatMap_map]
  suffices h : ∀ ts : List Target, ts.Nodup →
      (ts.flatMap fun t => rs.filter (·.target = t)).Perm (rs.filter (·.target ∈ ts)) by
    refine (h _ (Asked.nodup_targets rs)).trans (.of_eq (List.filter_eq_self.mpr fun r hr => ?_))
    simpa using Asked.mem_targets.mpr ⟨r, hr, rfl⟩
  intro ts hts
  induction ts with
  | nil => simp
  | cons t ts ih =>
      obtain ⟨ht, hts⟩ := List.nodup_cons.mp hts
      rw [List.flatMap_cons]
      refine ((ih hts).append_left _).trans ?_
      -- split the references by whether they ask for `t`
      refine .trans (.of_eq ?_) (List.filter_append_perm (fun r => r.target = t) _)
      rw [List.filter_filter, List.filter_filter]
      congr 1
      · refine List.filter_congr fun r _ => ?_
        by_cases h : r.target = t <;> simp [h]
      · refine List.filter_congr fun r _ => ?_
        by_cases h : r.target = t
        · simp [h, ht]
        · simp [h]

/-- What the declaration at a place asks for, if no declaration holds two references. -/
theorem askedAt?_eq_some_iff {scope : Scope} {rs : List Reference}
    (hplace : (rs.map (·.place)).Nodup) {p : Place} {t : Target} :
    (ofReferences scope rs).askedAt? p = some t ↔ ∃ r ∈ rs, r.place = p ∧ r.target = t := by
  have hperm := references_perm scope rs
  simp only [askedAt?, List.findRev?_eq_find?_reverse, Option.map_eq_some_iff]
  constructor
  · rintro ⟨r, hr, rfl⟩
    have hmem := List.mem_of_find?_eq_some hr
    have hp := List.find?_some hr
    exact ⟨r, hperm.mem_iff.mp (List.mem_reverse.mp hmem), by simpa using hp, rfl⟩
  · rintro ⟨r, hr, rfl, rfl⟩
    have hmem : r ∈ (ofReferences scope rs).references.reverse :=
      List.mem_reverse.mpr (hperm.mem_iff.mpr hr)
    cases hfind : (ofReferences scope rs).references.reverse.find? (·.place = r.place) with
    | none => simpa using List.find?_eq_none.mp hfind r hmem
    | some r' =>
        have hr' := hperm.mem_iff.mp (List.mem_reverse.mp (List.mem_of_find?_eq_some hfind))
        have hp : r'.place = r.place := by simpa using List.find?_some hfind
        exact ⟨r', rfl, congrArg _ (List.inj_on_of_nodup_map hplace hr' hr hp)⟩

/-! ## The fallbacks -/

theorem fallback?_register (x : RefIndex) (r : Reference) (t : Target) :
    (x.register r).fallback? t =
      if x.scope.Reaches r.target t then r.fallback.or (x.fallback? t) else x.fallback? t := by
  obtain ⟨s, p⟩ := t
  by_cases hs : s = r.target.selector
  · subst hs
    cases hscope : x.scope with
    | selector =>
        cases he : x.entries.get? r.target.selector <;>
          simp [fallback?, register, Scope.Reaches, Entry.register, Entry.empty, hscope, he]
    | property =>
        have hr : r.target = ⟨r.target.selector, p⟩ ↔ p = r.target.property :=
          ⟨fun h => by rw [h], fun h => by rw [h]⟩
        cases he : x.entries.get? r.target.selector <;> cases hf : r.fallback <;>
          by_cases hp : p = r.target.property <;>
          simp [fallback?, register, Scope.Reaches, Entry.register, Entry.empty, hscope, he, hf, hr,
            hp]
  · have h : ¬ x.scope.Reaches r.target ⟨s, p⟩ := by
      cases x.scope with
      | selector => exact fun h => hs h.symm
      | property => exact fun h => hs (congrArg Target.selector h).symm
    simp [fallback?, register, h, hs]

/-- The fallback of a target is the last one given that reaches it. -/
@[simp] theorem fallback?_ofReferences (scope : Scope) (rs : List Reference) (t : Target) :
    (ofReferences scope rs).fallback? t = Asked.fallback? scope rs t := by
  induction rs using List.reverseRecOn with
  | nil => rfl
  | append_singleton rs r ih =>
      rw [ofReferences_concat, fallback?_register, scope_ofReferences, ih, Asked.fallback?,
        Asked.fallback?, List.filter_append, List.filterMap_append, List.getLast?_append]
      by_cases h : scope.Reaches r.target t
      · cases hf : r.fallback <;> simp [h, hf]
      · simp [h]

/-- A selector is covered when something is asked of it and all that is asked has a fallback. -/
theorem isCovered_ofReferences {scope : Scope} {rs : List Reference} {s : Text} :
    (ofReferences scope rs).isCovered s = true ↔
      s ∈ Asked.selectors rs ∧
        ∀ r ∈ rs, r.target.selector = s → Asked.fallback? scope rs r.target ≠ none := by
  have hkeys := keys_groups scope rs s
  rw [← isSome_entries_iff scope, isCovered]
  cases he : (ofReferences scope rs).entries.get? s with
  | none => simp
  | some e =>
      simp only [he, Option.getD_some] at hkeys
      simp only [hkeys, List.all_eq_true, Asked.mem_properties, fallback?_ofReferences,
        Option.isSome_iff_ne_none, Option.isSome_some, true_and]
      constructor
      · rintro h r hr rfl
        exact h _ ⟨r, hr, rfl⟩
      · rintro h p ⟨r, hr, hp⟩
        have := h r hr (by rw [hp])
        rwa [hp] at this

/-! ## All that an index answers -/

/-- Main statement: what an index answers about the references that were registered, in terms of the
list of them.  The selectors, and the properties of each, come in the order in which they were first
asked for.  The group of a target has the references to it in their order, and each reference is in
one group, as often as it was registered.  The fallback is the last one given, with any reference to
the selector or with those to the target, as the scope has it; and a selector is covered if something
is asked of it and each property that is asked of it has a fallback. -/
theorem lookups_ofReferences (scope : Scope) (rs : List Reference) :
    (ofReferences scope rs).selectors = Asked.selectors rs ∧
      (∀ s, ((ofReferences scope rs).entries.get? s).map (·.groups.keys) =
        if s ∈ Asked.selectors rs then some (Asked.properties rs s) else none) ∧
      (∀ t, (ofReferences scope rs).group? t =
        if t ∈ rs.map (·.target) then some (rs.filter (·.target = t)) else none) ∧
      ((ofReferences scope rs).targets.Nodup ∧
        (∀ t g, (t, g) ∈ (ofReferences scope rs).groups ↔
          (ofReferences scope rs).group? t = some g) ∧
        (ofReferences scope rs).references.Perm rs) ∧
      (∀ t, (ofReferences scope rs).fallback? t =
        match scope with
        | .selector => ((rs.filter (·.target.selector = t.selector)).filterMap (·.fallback)).getLast?
        | .property => ((rs.filter (·.target = t)).filterMap (·.fallback)).getLast?) ∧
      ∀ s, (ofReferences scope rs).isCovered s = true ↔
        s ∈ Asked.selectors rs ∧
          ∀ p ∈ Asked.properties rs s, ((ofReferences scope rs).fallback? ⟨s, p⟩).isSome = true := by
  have htargets : (ofReferences scope rs).targets.Nodup := by
    rw [targets_ofReferences]
    exact Asked.nodup_targets rs
  refine ⟨selectors_ofReferences scope rs, properties_ofReferences scope rs,
    group?_ofReferences scope rs, ⟨htargets, fun t g => mem_groups_iff, references_perm scope rs⟩,
    fun t => ?_, fun s => ?_⟩
  · rw [fallback?_ofReferences]
    cases scope <;> rfl
  · rw [isCovered_ofReferences]
    refine and_congr_right fun _ => ?_
    simp only [Asked.mem_properties, fallback?_ofReferences, Option.isSome_iff_ne_none]
    constructor
    · rintro h p ⟨r, hr, hp⟩
      have hfallback := h r hr (by rw [hp])
      rwa [hp] at hfallback
    · rintro h r hr rfl
      exact h _ ⟨r, hr, rfl⟩

/-! ## The index of a sheet -/

@[simp] theorem selectors_ofSheet (scope : Scope) (s : Stylesheet) :
    (ofSheet scope s).selectors = Asked.selectors s.references :=
  selectors_ofReferences scope s.references

@[simp] theorem targets_ofSheet (scope : Scope) (s : Stylesheet) :
    (ofSheet scope s).targets = Asked.targets s.references :=
  targets_ofReferences scope s.references

@[simp] theorem fallback?_ofSheet (scope : Scope) (s : Stylesheet) (t : Target) :
    (ofSheet scope s).fallback? t = Asked.fallback? scope s.references t :=
  fallback?_ofReferences scope s.references t

end RefIndex

end StyleRef
