import StyleRef.Proofs.Passes
import Mathlib.Logic.Function.Iterate

/-
# The bindings are the selection

Any number of passes over the rules of a sheet, one at least, leaves the same
bindings: those that the sheet selects, in an order that the sheet gives.  The
proof reads them off the invariant of `StyleRef.Proofs.Passes`, at the list of
visits that the passes make, which is the numbered rules several times over.
-/

namespace StyleRef

namespace Ledger

/-! ## Passes as visits -/

/-- The ledger of a sheet after a number of passes over its rules. -/
def passes (scope : Scope) (s : Stylesheet) (n : Nat) : Ledger :=
  (fun l => l.visitAll s)^[n] (ofSheet scope s)

theorem visits_append (vs ws : List (Rule × Nat)) (l : Ledger) :
    visits (vs ++ ws) l = visits ws (visits vs l) :=
  List.foldl_append

/-- Without references a visit has nothing to take down. -/
theorem visit_of_isEmpty {l : Ledger} (h : l.index.isEmpty = true) (i : Nat) (r : Rule) :
    l.visit i r = l := by
  have hentries : l.index.entries.entries = [] := List.isEmpty_iff.mp h
  have htargets : l.index.targets = [] := by simp [RefIndex.targets, RefIndex.groups, hentries]
  have hcontains : ∀ s, l.index.contains s = false := by
    intro s
    rw [← Bool.not_eq_true, RefIndex.contains, Table.contains_iff, Table.keys, hentries]
    simp
  have hmatched : r.matched l.index = [] := by
    rw [Rule.matched, List.filter_eq_nil_iff.mpr (by simp [hcontains]), List.eraseDups_nil]
  simp [visit, fallbacksBeside, suppliesOf, hmatched, htargets]

theorem visits_of_isEmpty {l : Ledger} (h : l.index.isEmpty = true) (vs : List (Rule × Nat)) :
    visits vs l = l := by
  induction vs with
  | nil => rfl
  | cons v vs ih =>
      rw [visits, List.foldl_cons, visit_of_isEmpty h]
      exact ih

theorem visitAll_eq_visits (l : Ledger) (s : Stylesheet) :
    l.visitAll s = visits s.rules.zipIdx l := by
  rw [visitAll]
  split
  · next h => exact (visits_of_isEmpty h _).symm
  · rfl

def passVisits (s : Stylesheet) (n : Nat) : List (Rule × Nat) :=
  (List.replicate n s.rules.zipIdx).flatten

theorem passVisits_succ (s : Stylesheet) (n : Nat) :
    passVisits s (n + 1) = passVisits s n ++ s.rules.zipIdx := by
  simp [passVisits, List.replicate_succ']

theorem passes_eq_visits (scope : Scope) (s : Stylesheet) (n : Nat) :
    passes scope s n = visits (passVisits s n) (ofSheet scope s) := by
  induction n with
  | zero => rfl
  | succ n ih =>
      rw [passes, Function.iterate_succ_apply', ← passes, ih, visitAll_eq_visits, passVisits_succ,
        visits_append]

theorem visited_passes (scope : Scope) (s : Stylesheet) (n : Nat) :
    Visited (RefIndex.ofSheet scope s) (passVisits s n) (passes scope s n) := by
  rw [passes_eq_visits]
  refine visited_visits ?_ _
  rw [RefIndex.targets_ofSheet]
  exact Asked.nodup_targets _

/-- One pass visits every rule, and more passes visit no other. -/
theorem forall_mem_passVisits {s : Stylesheet} {n : Nat} {P : Rule → Prop} :
    (∀ v ∈ passVisits s (n + 1), P v.1) ↔ ∀ r ∈ s.rules, P r := by
  have hmem : ∀ v, v ∈ passVisits s (n + 1) ↔ v ∈ s.rules.zipIdx := by
    intro v
    simp [passVisits]
  constructor
  · intro h r hr
    obtain ⟨i, hi⟩ := List.getElem?_of_mem hr
    exact h (r, i) ((hmem _).mpr (List.mem_zipIdx_iff_getElem?.mpr hi))
  · intro h v hv
    exact h v.1 (List.mem_of_getElem? (List.mem_zipIdx_iff_getElem?.mp ((hmem v).mp hv)))

/-- Only a sheet without rules is passed over without a visit. -/
theorem rules_eq_nil_of_passVisits {s : Stylesheet} {n : Nat} (h : passVisits s (n + 1) = []) :
    s.rules = [] := by
  have hall : ∀ r ∈ s.rules, False :=
    (forall_mem_passVisits (n := n) (P := fun _ => False)).mp (by simp [h])
  exact List.eq_nil_iff_forall_not_mem.mpr hall

theorem unserved_passVisits {s : Stylesheet} {n : Nat} {t : Target} :
    Unserved (passVisits s (n + 1)) t ↔ s.source? t = none := by
  rw [Stylesheet.source?_eq_none_iff]
  exact forall_mem_passVisits (P := fun r => ¬ r.Serves t)

/-! ## The values of the bindings -/

/-- What the last supply of a target is does not depend on the number of passes. -/
theorem findSome?_passVisits (s : Stylesheet) (n : Nat) (t : Target) :
    (passVisits s (n + 1)).reverse.findSome? (fun v => v.1.serves? v.2 t) = s.source? t := by
  induction n with
  | zero => simp [passVisits, Stylesheet.source?]
  | succ n ih =>
      rw [passVisits_succ, List.reverse_append, List.findSome?_append, ih, ← Stylesheet.source?]
      cases s.source? t <;> rfl

theorem find?_supplies_passes (scope : Scope) (s : Stylesheet) (n : Nat) (t : Target) :
    (passes scope s (n + 1)).supplies.reverse.find? (·.1 = t) =
      if t ∈ Asked.targets s.references then (s.source? t).map (t, ·) else none := by
  rw [(visited_passes scope s (n + 1)).supplies, List.reverse_flatMap, List.find?_flatMap]
  simp only [Function.comp, find?_suppliesOf, RefIndex.targets_ofSheet]
  by_cases ht : t ∈ Asked.targets s.references
  · simp only [ht, ↓reduceIte]
    rw [← findSome?_passVisits s n t, List.map_findSome?]
    rfl
  · simp [ht]

/-- What is held for a target that no rule serves is its fallback. -/
theorem get?_pending_passes {scope : Scope} {s : Stylesheet} {n : Nat} {t : Target}
    (ht : t ∈ Asked.targets s.references) (hs : s.source? t = none) :
    (passes scope s (n + 1)).pending.get? t = Asked.fallback? scope s.references t := by
  have h := visited_passes scope s (n + 1)
  cases hget : (passes scope s (n + 1)).pending.get? t with
  | some f =>
      have hf := (h.held t f hget).2
      rw [RefIndex.fallback?_ofSheet] at hf
      exact hf.symm
  | none =>
      cases hf : Asked.fallback? scope s.references t with
      | none => rfl
      | some f =>
          -- there is a rule, that of the reference, so the first visit has put the fallback down
          have hne : passVisits s (n + 1) ≠ [] := by
            obtain ⟨r, hr, -⟩ := Asked.mem_targets.mp ht
            obtain ⟨d, o, _, _, _, -, ho, -⟩ := Stylesheet.exists_find?_of_mem_references hr
            intro hnil
            have hmem := List.mem_of_getElem? ho
            rw [rules_eq_nil_of_passVisits hnil] at hmem
            cases hmem
          have hmem : t ∈ (passes scope s (n + 1)).pending.keys.filter
              (Unserved (passVisits s (n + 1)) ·) := by
            rw [h.order, if_neg hne]
            simp [ht, unserved_passVisits.mpr hs, hf]
          have := (Table.mem_keys_iff _ _).mp (List.mem_filter.mp hmem).1
          simp [hget] at this

/-- A target takes its source, or else the fallback that reaches it. -/
theorem get?_bindings_passes (scope : Scope) (s : Stylesheet) (n : Nat) (t : Target) :
    (passes scope s (n + 1)).bindings.get? t =
      if t ∈ Asked.targets s.references then s.supply? scope t else none := by
  rw [get?_bindings, find?_supplies_passes, Stylesheet.supply?]
  by_cases ht : t ∈ Asked.targets s.references
  · simp only [ht, ↓reduceIte, Option.map_map]
    cases hs : s.source? t with
    | some p => simp
    | none => simp [get?_pending_passes ht hs]
  · have hnone : (passes scope s (n + 1)).pending.get? t = none := by
      rw [Option.eq_none_iff_forall_not_mem]
      intro f hf
      have htarget := ((visited_passes scope s (n + 1)).held t f hf).1
      rw [RefIndex.targets_ofSheet] at htarget
      exact ht htarget
    simp [ht, hnone]

/-! ## The order of the bindings -/

/-- Taking each target where it is served first sorts the targets by their first serving rule. -/
theorem eraseDups_flatMap_serves {ts : List Target} (hts : ts.Nodup) (rs : List Rule) :
    (rs.flatMap fun r => ts.filter (r.Serves ·)).eraseDups =
      (List.range rs.length).flatMap fun i =>
        ts.filter fun t => rs.findIdx? (fun r => r.Serves t) = some i := by
  induction rs using List.reverseRecOn with
  | nil => rfl
  | append_singleton rs r ih =>
      rw [List.flatMap_append, List.eraseDups_append, ih, List.length_append, List.length_singleton,
        List.range_succ, List.flatMap_append]
      congr 1
      · -- the rules before the last decide for themselves
        refine List.flatMap_congr fun i hi => List.filter_congr fun t _ => ?_
        have hi : i < rs.length := List.mem_range.mp hi
        rw [List.findIdx?_append]
        cases hfind : rs.findIdx? (fun r => r.Serves t) with
        | some j => simp
        | none =>
            have : i ≠ rs.length := Nat.ne_of_lt hi
            by_cases hr : r.Serves t <;> simp [List.findIdx?_cons, hr, this.symm]
      · -- the last rule adds the targets that it is the first to serve
        have hnodup : ((ts.filter (r.Serves ·)).removeAll
            (rs.flatMap fun r => ts.filter (r.Serves ·))).Nodup :=
          (hts.filter _).filter _
        simp only [List.flatMap_singleton]
        rw [eraseDups_eq_self hnodup, List.removeAll, List.filter_filter]
        refine List.filter_congr fun t ht => ?_
        rw [List.findIdx?_append]
        cases hfind : rs.findIdx? (fun r => r.Serves t) with
        | some j =>
            obtain ⟨hj, hserves, -⟩ := List.findIdx?_eq_some_iff_getElem.mp hfind
            have hserves : rs[j].Serves t := by simpa using hserves
            have : ∃ r ∈ rs, r.Serves t := ⟨rs[j], List.getElem_mem hj, hserves⟩
            simp [ht, this, Nat.ne_of_lt hj]
        | none =>
            have : ∀ r ∈ rs, ¬ r.Serves t := by simpa using List.findIdx?_eq_none_iff.mp hfind
            by_cases hr : r.Serves t
            · simpa [List.findIdx?_cons, hr, ht] using this
            · simp [List.findIdx?_cons, hr]

/-- The first supplies come in as one pass brings them. -/
theorem eraseDups_supplies_passes (scope : Scope) (s : Stylesheet) (n : Nat) :
    ((passes scope s (n + 1)).supplies.map (·.1)).eraseDups =
      (s.rules.flatMap fun r => (Asked.targets s.references).filter (r.Serves ·)).eraseDups := by
  have hflat : ∀ vs : List (Rule × Nat),
      (vs.flatMap fun v => suppliesOf (RefIndex.ofSheet scope s) v.2 v.1).map (·.1) =
        vs.flatMap fun v => (Asked.targets s.references).filter (v.1.Serves ·) := by
    intro vs
    simp only [List.map_flatMap, map_suppliesOf, RefIndex.targets_ofSheet]
  have hrules : (s.rules.zipIdx.flatMap fun v => (Asked.targets s.references).filter (v.1.Serves ·))
      = s.rules.flatMap fun r => (Asked.targets s.references).filter (r.Serves ·) := by
    conv => rhs; rw [← List.zipIdx_map_fst 0 s.rules, List.flatMap_map]
  rw [(visited_passes scope s (n + 1)).supplies, hflat, ← hrules]
  induction n with
  | zero => simp [passVisits]
  | succ n ih =>
      rw [passVisits_succ, List.flatMap_append, eraseDups_append_of_subset, ih]
      -- a later pass brings nothing that an earlier one has not brought
      intro t ht
      rw [passVisits_succ, List.flatMap_append]
      exact List.mem_append_right _ ht

theorem keys_bindings_passes (scope : Scope) (s : Stylesheet) (n : Nat) :
    (passes scope s (n + 1)).bindings.keys =
      ((List.range s.rules.length).flatMap fun i => (Asked.targets s.references).filter fun t =>
          s.rules.findIdx? (fun r => r.Serves t) = some i) ++
        (Asked.targets s.references).filter fun t =>
          s.source? t = none ∧ (Asked.fallback? scope s.references t).isSome := by
  have h := visited_passes scope s (n + 1)
  have hsupplied : ∀ t ∈ (passes scope s (n + 1)).pending.keys,
      (t ∉ (passes scope s (n + 1)).supplies.map (·.1) ↔ s.source? t = none) := by
    intro t ht
    obtain ⟨f, hf⟩ := Option.isSome_iff_exists.mp ((Table.mem_keys_iff _ _).mp ht)
    have htarget := (h.held t f hf).1
    rw [RefIndex.targets_ofSheet] at htarget
    rw [← List.mem_eraseDups, eraseDups_supplies_passes, List.mem_eraseDups,
      Stylesheet.source?_eq_none_iff]
    simp [htarget]
  rw [keys_bindings, eraseDups_supplies_passes,
    eraseDups_flatMap_serves (Asked.nodup_targets s.references)]
  congr 1
  -- the held fallbacks of unserved targets are in index order
  have hheld : (passes scope s (n + 1)).pending.keys.filter
        (· ∉ (passes scope s (n + 1)).supplies.map (·.1)) =
      (passes scope s (n + 1)).pending.keys.filter (s.source? · = none) :=
    List.filter_congr fun t ht => decide_eq_decide.mpr (hsupplied t ht)
  have horder := h.order
  simp only [unserved_passVisits, RefIndex.targets_ofSheet, RefIndex.fallback?_ofSheet] at horder
  rw [hheld, horder]
  split
  · next hnil =>
    -- no visits, hence no rules and no references
    simp [Stylesheet.references, Stylesheet.declarations, rules_eq_nil_of_passVisits hnil,
      Asked.targets, Asked.selectors]
  · rfl

theorem unmatched_passes (scope : Scope) (s : Stylesheet) (n : Nat) :
    (passes scope s (n + 1)).unmatched =
      (Asked.selectors s.references).filter fun sel => ∀ r ∈ s.rules, sel ∉ r.selectors := by
  rw [(visited_passes scope s (n + 1)).unmatched, RefIndex.selectors_ofSheet]
  refine List.filter_congr fun sel _ => decide_eq_decide.mpr ?_
  exact forall_mem_passVisits (P := fun r => sel ∉ r.selectors)

/-! ## The selection -/

/-- Passes over the rules, one or many, bind what the sheet selects.  Targets that a rule serves
come first, sorted by the first rule that serves them; then those that take a fallback.  Ties are in
the order of first reference. -/
theorem passes_select (scope : Scope) (s : Stylesheet) (k : Nat) :
    (passes scope s (k + 1)).index = RefIndex.ofSheet scope s ∧
    (RefIndex.ofSheet scope s).targets = Asked.targets s.references ∧
    (∀ t p, (passes scope s (k + 1)).bindings.get? t = some (.declaration p) ↔
      t ∈ Asked.targets s.references ∧ s.IsSource t p) ∧
    (∀ t f, (passes scope s (k + 1)).bindings.get? t = some (.fallback f) ↔
      t ∈ Asked.targets s.references ∧ (∀ r ∈ s.rules, ¬ r.Serves t) ∧
        (RefIndex.ofSheet scope s).fallback? t = some f) ∧
    (passes scope s (k + 1)).bindings.keys =
      ((List.range s.rules.length).flatMap fun i => (Asked.targets s.references).filter fun t =>
          s.rules.findIdx? (fun r => r.Serves t) = some i) ++
        ((Asked.targets s.references).filter fun t =>
          (∀ r ∈ s.rules, ¬ r.Serves t) ∧ ((RefIndex.ofSheet scope s).fallback? t).isSome) ∧
    (passes scope s (k + 1)).unmatched =
      (Asked.selectors s.references).filter fun sel => ∀ r ∈ s.rules, sel ∉ r.selectors := by
  refine ⟨(visited_passes scope s (k + 1)).index, RefIndex.targets_ofSheet scope s, ?_, ?_, ?_,
    unmatched_passes scope s k⟩
  · intro t p
    have hsource : s.supply? scope t = some (.declaration p) ↔ s.IsSource t p :=
      Stylesheet.supply?_eq_declaration_iff
    rw [get?_bindings_passes, ← hsource]
    by_cases ht : t ∈ Asked.targets s.references <;> simp [ht]
  · intro t f
    rw [get?_bindings_passes, RefIndex.fallback?_ofSheet, ← Stylesheet.supply?_eq_fallback_iff]
    by_cases ht : t ∈ Asked.targets s.references <;> simp [ht]
  · rw [keys_bindings_passes]
    simp only [Stylesheet.source?_eq_none_iff, RefIndex.fallback?_ofSheet]

end Ledger

end StyleRef
