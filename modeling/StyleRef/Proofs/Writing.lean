import StyleRef.Commit
import StyleRef.Proofs.Extraction
import StyleRef.Proofs.Order
import Mathlib.Tactic.Common

/-
# Each declaration is written once, from a final value

The targets are written one after the other, and each reads its supply from the
sheet as it is by then.  Two facts make the result simple to say.  A declaration
holds one reference at most, so the writes of different targets never meet.  And
when a target is written, the declaration that supplies it is not written any
more: if it holds a reference to a bound target, that target came before.  So the
value that was read is the value that stands there in the end.

The sheet need not be the one that the index was made of.  All that is asked of
it is that it has the declarations that the bindings name.
-/

namespace StyleRef

namespace Stylesheet

/-! ## What no writing touches -/

/-- A style sheet without its values: selectors, queries, properties and importance. -/
def skeleton (s : Stylesheet) : List (Text × Option Text × List (Text × Bool)) :=
  s.rules.map fun r => (r.selector, r.media, r.declarations.map fun d => (d.property, d.important))

theorem map_modify_eq {α β : Type} {f : α → α} {g : α → β} (h : ∀ a, g (f a) = g a) (l : List α)
    (i : Nat) : (l.modify i f).map g = l.map g := by
  refine List.ext_getElem? fun j => ?_
  rw [List.getElem?_map, List.getElem?_map, List.getElem?_modify]
  cases l[j]? with
  | none => simp
  | some a => by_cases hij : i = j <;> simp [hij, h]

@[simp] theorem skeleton_modifyValue (s : Stylesheet) (p : Place) (f : Text → Text) :
    (s.modifyValue p f).skeleton = s.skeleton := by
  refine map_modify_eq (fun rule => ?_) s.rules p.rule
  have h := map_modify_eq (f := fun d : Declaration => { d with value := f d.value })
    (g := fun d => (d.property, d.important)) (fun _ => rfl) rule.declarations p.declaration
  simp only [h]

@[simp] theorem skeleton_substitute (s : Stylesheet) (v : Text) (r : Reference) :
    (s.substitute v r).skeleton = s.skeleton :=
  skeleton_modifyValue s r.place _

theorem skeleton_foldl_substitute (rs : List Reference) (v : Text) (s : Stylesheet) :
    (rs.foldl (·.substitute v) s).skeleton = s.skeleton := by
  induction rs generalizing s with
  | nil => rfl
  | cons r rs ih => rw [List.foldl_cons, ih, skeleton_substitute]

/-- Sheets of one skeleton have the same declarations up to their values. -/
theorem declaration?_of_skeleton {s s' : Stylesheet} (h : s'.skeleton = s.skeleton) (p : Place) :
    (s'.declaration? p).map (fun d => (d.property, d.important)) =
      (s.declaration? p).map fun d => (d.property, d.important) := by
  have hrule := congrArg (·[p.rule]?) h
  simp only [skeleton, List.getElem?_map] at hrule
  cases hr : s.rules[p.rule]? with
  | none =>
      cases hr' : s'.rules[p.rule]? with
      | none => simp [declaration?, hr, hr']
      | some r' => simp [hr, hr'] at hrule
  | some r =>
      cases hr' : s'.rules[p.rule]? with
      | none => simp [hr, hr'] at hrule
      | some r' =>
          simp only [hr, hr', Option.map_some, Option.some.injEq, Prod.mk.injEq] at hrule
          have hdecl := congrArg (·[p.declaration]?) hrule.2.2
          simpa [declaration?, hr, hr'] using hdecl

theorem isSome_declaration?_of_skeleton {s s' : Stylesheet} (h : s'.skeleton = s.skeleton)
    (p : Place) : (s'.declaration? p).isSome = (s.declaration? p).isSome := by
  have := congrArg Option.isSome (declaration?_of_skeleton h p)
  simpa using this

/-! ## Substituting for several references -/

/-- References to places of the sheet are all substituted for. -/
theorem substituteAll_eq {rs : List Reference} {s : Stylesheet}
    (h : ∀ r ∈ rs, (s.declaration? r.place).isSome = true) (v : Text) :
    s.substituteAll v rs = (rs.foldl (·.substitute v) s, .ok ()) := by
  induction rs generalizing s with
  | nil => rfl
  | cons r rs ih =>
      obtain ⟨hr, hrs⟩ := List.forall_mem_cons.mp h
      obtain ⟨d, hd⟩ := Option.isSome_iff_exists.mp hr
      have hrest : ∀ r' ∈ rs, ((s.substitute v r).declaration? r'.place).isSome = true := by
        intro r' hr'
        rw [isSome_declaration?_of_skeleton (skeleton_substitute s v r), hrs r' hr']
      rw [substituteAll, hd, List.foldl_cons]
      exact ih hrest

theorem declaration?_substitute (s : Stylesheet) (v : Text) (r : Reference) (p : Place) :
    (s.substitute v r).declaration? p =
      if r.place = p then
        (s.declaration? p).map fun d => { d with value := Text.replaceFirst r.token v d.value }
      else s.declaration? p :=
  declaration?_modify _ _ _ _

/-- A declaration without one of the references stays. -/
theorem declaration?_foldl_of_ne {rs : List Reference} {p : Place} (h : ∀ r ∈ rs, r.place ≠ p)
    (v : Text) (s : Stylesheet) :
    (rs.foldl (·.substitute v) s).declaration? p = s.declaration? p := by
  induction rs generalizing s with
  | nil => rfl
  | cons r rs ih =>
      obtain ⟨hr, hrs⟩ := List.forall_mem_cons.mp h
      rw [List.foldl_cons, ih hrs, declaration?_substitute, if_neg hr]

/-- A declaration with one of the references gets the value for its token, once. -/
theorem declaration?_foldl_of_mem {rs : List Reference} (hplace : (rs.map (·.place)).Nodup)
    {r : Reference} (hr : r ∈ rs) (v : Text) (s : Stylesheet) :
    (rs.foldl (·.substitute v) s).declaration? r.place =
      (s.declaration? r.place).map fun d =>
        { d with value := Text.replaceFirst r.token v d.value } := by
  induction rs generalizing s with
  | nil => cases hr
  | cons q rs ih =>
      obtain ⟨hq, hrs⟩ := List.nodup_cons.mp hplace
      have hne : ∀ r ∈ rs, r.place ≠ q.place := by
        intro r hr e
        exact hq (List.mem_map.mpr ⟨r, hr, e⟩)
      rw [List.foldl_cons]
      rcases List.mem_cons.mp hr with rfl | hr
      · rw [declaration?_foldl_of_ne hne, declaration?_substitute, if_pos rfl]
      · rw [ih hrs hr, declaration?_substitute, if_neg (hne r hr).symm]

end Stylesheet

namespace Ledger

/-! ## Writing in order -/

/-- What it means that the references to some targets have been written: each has the value of its
supply in the finished sheet for its token, and nothing else has changed. -/
structure Written (rs : List Reference) (b : Table Target Supply) (ts : List Target)
    (s s' : Stylesheet) : Prop where
  skeleton : s'.skeleton = s.skeleton
  frame : ∀ p, (∀ r ∈ rs, r.target ∈ ts → r.place ≠ p) → s'.declaration? p = s.declaration? p
  written : ∀ r ∈ rs, r.target ∈ ts → ∃ supply v, b.get? r.target = some supply ∧
    s'.supplied supply = .ok v ∧
    s'.declaration? r.place = (s.declaration? r.place).map fun d =>
      { d with value := Text.replaceFirst r.token v d.value }

/-- The bindings name declarations that the sheet has. -/
def InRange (b : Table Target Supply) (s : Stylesheet) : Prop :=
  ∀ t p, b.get? t = some (.declaration p) → (s.declaration? p).isSome = true

theorem InRange.of_skeleton {b : Table Target Supply} {s s' : Stylesheet} (h : InRange b s)
    (hs : s'.skeleton = s.skeleton) : InRange b s' := by
  intro t p ht
  rw [Stylesheet.isSome_declaration?_of_skeleton hs]
  exact h t p ht

theorem InRange.exists_supplied {b : Table Target Supply} {s : Stylesheet} (h : InRange b s)
    {t : Target} {supply : Supply} (ht : b.get? t = some supply) :
    ∃ v, s.supplied supply = .ok v := by
  cases supply with
  | fallback v => exact ⟨v, rfl⟩
  | declaration p =>
      obtain ⟨d, hd⟩ := Option.isSome_iff_exists.mp (h t p ht)
      exact ⟨d.value, by simp [Stylesheet.supplied, Stylesheet.value?, hd]⟩

/-- A supply gives the same in sheets that have the same declaration at its place. -/
theorem supplied_congr {s s' : Stylesheet} {supply : Supply}
    (h : ∀ p, supply = .declaration p → s'.declaration? p = s.declaration? p) :
    s'.supplied supply = s.supplied supply := by
  cases supply with
  | fallback v => rfl
  | declaration p => simp [Stylesheet.supplied, Stylesheet.value?, h p rfl]

section Write
variable {scope : Scope} {rs : List Reference} {l : Ledger} {b : Table Target Supply}

theorem referencesTo_eq (hindex : l.index = .ofReferences scope rs) (t : Target) :
    l.referencesTo t = rs.filter (·.target = t) := by
  rw [referencesTo, hindex, RefIndex.getD_group?]

/-- A supply is not written at the time its target is written, nor later: what it depends on stands
before the target in the order. -/
theorem place_ne_of_inOrder (hindex : l.index = .ofReferences scope rs)
    (hplace : (rs.map (·.place)).Nodup) {done ts : List Target} {t : Target} {p : Place}
    (horder : CommitOrder.InOrder (l.index.dependency? b) (done ++ t :: ts))
    (hnodup : (done ++ t :: ts).Nodup) (hbound : t :: ts ⊆ b.keys)
    (ht : b.get? t = some (.declaration p)) :
    ∀ r ∈ rs, r.target ∈ t :: ts → r.place ≠ p := by
  rintro r hr hmem rfl
  have hasked : l.index.askedAt? r.place = some r.target := by
    rw [hindex]
    exact (RefIndex.askedAt?_eq_some_iff hplace).mpr ⟨r, hr, rfl, rfl⟩
  have hdep : l.index.dependency? b t = some r.target :=
    RefIndex.dependency?_eq_some_iff.mpr ⟨r.place, ht, hasked, hbound hmem⟩
  have hdone : r.target ∈ done := horder done t ts rfl _ hdep
  exact (List.nodup_append.mp hnodup).2.2 _ hdone _ hmem rfl

/-- One target and then the others. -/
theorem Written.cons (hplace : (rs.map (·.place)).Nodup) {t : Target} {ts : List Target}
    (ht : t ∉ ts) {supply : Supply} {v : Text} {s s' : Stylesheet}
    (hsupply : b.get? t = some supply) (hv : s'.supplied supply = .ok v)
    (h : Written rs b ts ((rs.filter (·.target = t)).foldl (·.substitute v) s) s') :
    Written rs b (t :: ts) s s' where
  skeleton := by rw [h.skeleton, Stylesheet.skeleton_foldl_substitute]
  frame := by
    intro p hp
    rw [h.frame p fun r hr hrt => hp r hr (List.mem_cons_of_mem _ hrt)]
    refine Stylesheet.declaration?_foldl_of_ne (fun r hr => ?_) _ _
    obtain ⟨hr, hrt⟩ := List.mem_filter.mp hr
    exact hp r hr (List.mem_cons.mpr (Or.inl (by simpa using hrt)))
  written := by
    intro r hr hrt
    -- references to different targets stand at different places
    have hapart : ∀ q ∈ rs, q.target ≠ r.target → q.place ≠ r.place := by
      intro q hq hne e
      exact hne (congrArg _ (List.inj_on_of_nodup_map hplace hq hr e))
    by_cases hrt' : r.target = t
    · refine ⟨supply, v, hrt' ▸ hsupply, hv, ?_⟩
      rw [h.frame _ fun q hq hqt => hapart q hq fun e => ht (hrt' ▸ e ▸ hqt)]
      refine Stylesheet.declaration?_foldl_of_mem ?_ (List.mem_filter.mpr ⟨hr, by simpa⟩) _ _
      exact hplace.sublist (List.filter_sublist.map _)
    · have hmem : r.target ∈ ts := (List.mem_cons.mp hrt).resolve_left hrt'
      obtain ⟨supply', v', hs, hv', hd⟩ := h.written r hr hmem
      refine ⟨supply', v', hs, hv', ?_⟩
      rw [hd, Stylesheet.declaration?_foldl_of_ne]
      intro q hq
      obtain ⟨hq, hqt⟩ := List.mem_filter.mp hq
      have hqt : q.target = t := by simpa using hqt
      exact hapart q hq fun e => hrt' (e ▸ hqt)

/-- Writing in order ends, and what it leaves is written. -/
theorem written_write (hindex : l.index = .ofReferences scope rs)
    (hplace : (rs.map (·.place)).Nodup) (done : List Target) {ts : List Target}
    (horder : CommitOrder.InOrder (l.index.dependency? b) (done ++ ts))
    (hnodup : (done ++ ts).Nodup) (hbound : ts ⊆ b.keys) {s : Stylesheet} (hrange : InRange b s)
    (hplaces : ∀ r ∈ rs, (s.declaration? r.place).isSome = true) (report : Report) :
    ∃ s' report', l.write b ts s report = (s', .ok report') ∧ Written rs b ts s s' := by
  induction ts generalizing done s report with
  | nil => exact ⟨s, report, rfl, rfl, fun _ _ => rfl, fun _ _ h => absurd h List.not_mem_nil⟩
  | cons t ts ih =>
      obtain ⟨supply, hsupply⟩ :=
        Option.isSome_iff_exists.mp ((b.mem_keys_iff t).mp (hbound List.mem_cons_self))
      obtain ⟨v, hv⟩ := hrange.exists_supplied hsupply
      have ht : t ∉ ts := (List.nodup_cons.mp (List.nodup_append.mp hnodup).2.1).1
      have hskeleton := Stylesheet.skeleton_foldl_substitute (rs.filter (·.target = t)) v s
      obtain ⟨s', report', hwrite, hwritten⟩ := ih (done ++ [t]) (by simpa using horder)
        (by simpa using hnodup) (fun u hu => hbound (List.mem_cons_of_mem _ hu))
        (hrange.of_skeleton hskeleton)
        (fun r hr => by rw [Stylesheet.isSome_declaration?_of_skeleton hskeleton, hplaces r hr])
        (report.served supply (rs.filter (·.target = t)).length)
      refine ⟨s', report', ?_, ?_⟩
      · have hhere : ∀ r ∈ rs.filter (·.target = t), (s.declaration? r.place).isSome = true :=
          fun r hr => hplaces r (List.mem_filter.mp hr).1
        have hall := Stylesheet.substituteAll_eq hhere v
        rw [write, hsupply]
        simp only [hv, referencesTo_eq hindex, hall]
        exact hwrite
      · refine Written.cons hplace ht hsupply ?_ hwritten
        -- the value that was read is still there
        rw [← hv]
        refine supplied_congr fun p hp => ?_
        subst hp
        have hne := place_ne_of_inOrder hindex hplace horder hnodup hbound hsupply
        rw [hwritten.frame p fun r hr hrt => hne r hr (List.mem_cons_of_mem _ hrt)]
        refine Stylesheet.declaration?_foldl_of_ne (fun r hr => ?_) _ _
        obtain ⟨hr, hrt⟩ := List.mem_filter.mp hr
        exact hne r hr (List.mem_cons.mpr (Or.inl (by simpa using hrt)))

end Write

end Ledger

/-! ## Counting what was served -/

def Supply.isDeclaration : Supply → Bool
  | .declaration _ => true
  | .fallback _ => false

/-- How many of the references take a declaration, a fallback, or nothing. -/
def Report.ofBindings (rs : List Reference) (b : Target → Option Supply) : Report where
  resolved := rs.countP fun r => (b r.target).any (·.isDeclaration)
  fallbacks := rs.countP fun r => (b r.target).any (!·.isDeclaration)
  untouched := rs.countP fun r => (b r.target).isNone

theorem countP_target_mem_cons {t : Target} {ts : List Target} (ht : t ∉ ts)
    (rs : List Reference) :
    rs.countP (·.target ∈ t :: ts) = rs.countP (·.target = t) + rs.countP (·.target ∈ ts) := by
  induction rs with
  | nil => rfl
  | cons r rs ih =>
      simp only [List.countP_cons, ih]
      by_cases h : r.target = t
      · subst h
        simp [ht]
        omega
      · simp [h]
        omega

/-- References are counted target by target. -/
theorem length_flatMap_filter_target {ts : List Target} (hts : ts.Nodup) (rs : List Reference) :
    (ts.flatMap fun t => rs.filter (·.target = t)).length = rs.countP (·.target ∈ ts) := by
  induction ts with
  | nil => simp
  | cons t ts ih =>
      obtain ⟨ht, hts⟩ := List.nodup_cons.mp hts
      rw [List.flatMap_cons, List.length_append, ih hts, ← List.countP_eq_length_filter,
        countP_target_mem_cons ht]

namespace Ledger

section Count
variable {scope : Scope} {rs : List Reference} {l : Ledger} {b : Table Target Supply}

/-- What a writing adds to the report. -/
theorem report_write {ts : List Target} {s s' : Stylesheet} {report report' : Report}
    (h : l.write b ts s report = (s', .ok report')) :
    report' =
      { resolved := report.resolved +
          ((ts.filter fun t => (b.get? t).any (·.isDeclaration)).flatMap l.referencesTo).length
        fallbacks := report.fallbacks +
          ((ts.filter fun t => (b.get? t).any (!·.isDeclaration)).flatMap l.referencesTo).length
        untouched := report.untouched } := by
  induction ts generalizing s report with
  | nil =>
      simp only [write, Prod.mk.injEq, Except.ok.injEq] at h
      obtain ⟨-, rfl⟩ := h
      simp
  | cons t ts ih =>
      rw [write] at h
      cases hb : b.get? t with
      | none => simp [hb] at h
      | some supply =>
          rw [hb] at h
          dsimp only at h
          cases hv : s.supplied supply with
          | error fault => simp [hv] at h
          | ok v =>
              rw [hv] at h
              dsimp only at h
              split at h
              · simp at h
              · rw [ih h]
                cases supply <;> simp [hb, Report.served, Supply.isDeclaration, Nat.add_assoc]

theorem untouched_eq (hindex : l.index = .ofReferences scope rs) :
    l.untouched b = rs.countP fun r => (b.get? r.target).isNone := by
  have hnodup : ((Asked.targets rs).filter fun t => !b.contains t).Nodup :=
    (Asked.nodup_targets rs).filter _
  rw [untouched, hindex, RefIndex.groups_ofReferences, List.filter_map, List.flatMap_map]
  refine (length_flatMap_filter_target hnodup rs).trans (List.countP_congr fun r hr => ?_)
  have hmem : r.target ∈ Asked.targets rs := Asked.mem_targets.mpr ⟨r, hr, rfl⟩
  cases hb : b.get? r.target <;> simp [hmem, Table.contains, hb]

/-! ## Committing -/

/-- A ledger with an order is written, and its report counts the references by their bindings. -/
theorem commit_of_order (hindex : l.index = .ofReferences scope rs)
    (hplace : (rs.map (·.place)).Nodup) {s : Stylesheet} (hrange : InRange l.bindings s)
    (hplaces : ∀ r ∈ rs, (s.declaration? r.place).isSome = true)
    (hunresolved : l.unresolved = []) {order : List Target}
    (horder : l.index.commitOrder l.bindings = .ok order) :
    ∃ s', l.commit s = (s', .ok (Report.ofBindings rs l.bindings.get?)) ∧
      Written rs l.bindings l.bindings.keys s s' := by
  obtain ⟨hin, hperm⟩ := RefIndex.commitOrder_ok horder
  have hnodup : order.Nodup := hperm.nodup_iff.mpr l.bindings.nodup_keys
  obtain ⟨s', report, hwrite, hwritten⟩ := written_write hindex hplace [] hin hnodup
    hperm.subset hrange hplaces .zero
  refine ⟨s', ?_, hwritten.skeleton, fun p hp => hwritten.frame p fun r hr hrt => ?_, ?_⟩
  · -- a target that counts is bound, so it is in the order
    have hcount : ∀ f : Supply → Bool,
        ((order.filter fun t => (l.bindings.get? t).any f).flatMap l.referencesTo).length =
        rs.countP fun r => (l.bindings.get? r.target).any f := by
      intro f
      rw [funext (referencesTo_eq hindex), length_flatMap_filter_target (hnodup.filter _)]
      refine List.countP_congr fun r _ => ?_
      have hmem : (l.bindings.get? r.target).any f = true → r.target ∈ order := by
        intro h
        rw [hperm.mem_iff, Table.mem_keys_iff]
        cases hb : l.bindings.get? r.target <;> simp_all
      simpa using hmem
    have hreport := report_write hwrite
    simp only [hcount, Report.zero, Nat.zero_add] at hreport
    rw [commit, hunresolved, horder]
    simp only [ne_eq, not_true_eq_false, ↓reduceIte, hwrite, Except.map, hreport,
      untouched_eq hindex]
    rfl
  · exact hp r hr (hperm.mem_iff.mp hrt)
  · intro r hr hrt
    exact hwritten.written r hr (hperm.mem_iff.mpr hrt)

end Count

end Ledger

end StyleRef
