import StyleRef.Proofs.Selection

/-
# What passes over the rules leave behind

A pass takes supplies and fallbacks down as it goes: fallbacks are put down,
struck out when a supply comes in, and put down again by every later rule that
does not serve their target.

`Ledger.bindings` is read for any ledger first, whatever is in it.  Then the
ledger of some visits is described by the visits (`Ledger.Visited`), one visit at
a time.  The part of the held fallbacks that moves about, those of targets that
some rule has served, is left out of the description: no binding is made of it.
-/

namespace StyleRef

namespace Ledger

/-! ## Reading the bindings -/

/-- A target takes its last supply, or else the fallback held for it. -/
theorem get?_bindings (l : Ledger) (t : Target) :
    l.bindings.get? t =
      ((l.supplies.reverse.find? (·.1 = t)).map fun e => Supply.declaration e.2).or
        ((l.pending.get? t).map Supply.fallback) := by
  have h₁ := Table.get?_foldl_setIfNew (·.1) (fun e => Supply.fallback e.2) l.pending.entries
    (l.supplies.foldl (fun b e => b.set e.1 (.declaration e.2)) .empty) t
  have h₂ := Table.get?_foldl_set (·.1) (fun e => Supply.declaration e.2) l.supplies .empty t
  refine h₁.trans ?_
  rw [h₂, ← Table.find?_entries l.pending t, Option.map_map]
  simp [Function.comp_def]

/-- Supplied targets are bound first, each at its first supply; then those with a held fallback. -/
theorem keys_bindings (l : Ledger) :
    l.bindings.keys =
      (l.supplies.map (·.1)).eraseDups ++
        l.pending.keys.filter (· ∉ l.supplies.map (·.1)) := by
  have h₁ := Table.keys_foldl_update (·.1) (fun e old => old.getD (Supply.fallback e.2))
    l.pending.entries (l.supplies.foldl (fun b e => b.set e.1 (.declaration e.2)) .empty)
  have h₂ := Table.keys_foldl_update (·.1) (fun e _ => Supply.declaration e.2) l.supplies
    (.empty : Table Target Supply)
  have hpending : (l.pending.keys.filter (· ∉ l.supplies.map (·.1))).Nodup :=
    l.pending.nodup_keys.filter _
  refine h₁.trans ?_
  refine (congrArg (fun ks => (ks ++ l.pending.keys).eraseDups) h₂).trans ?_
  rw [Table.keys_empty, List.nil_append, eraseDups_append_of_nodup (nodup_eraseDups _)]
  simp only [List.mem_eraseDups]
  exact congrArg _ (eraseDups_eq_self hpending)

/-! ## One visit -/

theorem foldl_hold (es : List (Target × Text)) (l : Ledger) :
    es.foldl (fun l (t, v) => l.hold t v) l =
      { l with pending := es.foldl (fun b e => b.set e.1 e.2) l.pending } := by
  induction es generalizing l with
  | nil => rfl
  | cons e es ih => exact ih _

theorem foldl_supply (es : List (Target × Place)) (l : Ledger) :
    es.foldl (fun l (t, p) => l.supply t p) l =
      { l with supplies := l.supplies ++ es,
               pending := (es.map (·.1)).foldl Table.erase l.pending } := by
  induction es generalizing l with
  | nil => simp
  | cons e es ih =>
      refine (ih _).trans ?_
      simp [supply]

theorem foldl_dropUnmatched (ss : List Text) (l : Ledger) :
    ss.foldl dropUnmatched l = { l with unmatched := l.unmatched.filter (· ∉ ss) } := by
  induction ss generalizing l with
  | nil => simp
  | cons s ss ih =>
      rw [List.foldl_cons, ih, dropUnmatched]
      simp only [List.filter_filter, Ledger.mk.injEq, true_and]
      refine List.filter_congr fun a _ => ?_
      by_cases h : a = s <;> simp [h]

@[simp] theorem index_visit (l : Ledger) (i : Nat) (r : Rule) :
    (l.visit i r).index = l.index := by
  simp [visit, foldl_hold, foldl_supply, foldl_dropUnmatched]

theorem supplies_visit (l : Ledger) (i : Nat) (r : Rule) :
    (l.visit i r).supplies = l.supplies ++ suppliesOf l.index i r := by
  simp [visit, foldl_hold, foldl_supply, foldl_dropUnmatched]

theorem unmatched_visit (l : Ledger) (i : Nat) (r : Rule) :
    (l.visit i r).unmatched = l.unmatched.filter (· ∉ r.matched l.index) := by
  simp [visit, foldl_hold, foldl_supply, foldl_dropUnmatched]

theorem pending_visit (l : Ledger) (i : Nat) (r : Rule) :
    (l.visit i r).pending =
      ((suppliesOf l.index i r).map (·.1)).foldl Table.erase
        ((fallbacksBeside l.index i r).foldl (fun b e => b.set e.1 e.2) l.pending) := by
  simp [visit, foldl_hold, foldl_supply, foldl_dropUnmatched]

/-- A rule supplies the targets that it serves, in the order of the index. -/
theorem map_suppliesOf (x : RefIndex) (i : Nat) (r : Rule) :
    (suppliesOf x i r).map (·.1) = x.targets.filter (r.Serves ·) := by
  rw [suppliesOf]
  induction x.targets with
  | nil => rfl
  | cons t ts ih =>
      by_cases h : r.Serves t
      · obtain ⟨p, hp⟩ := Option.isSome_iff_exists.mp (Rule.isSome_serves?_iff (i := i).mpr h)
        simp [h, hp, ih]
      · simp [h, Rule.serves?_eq_none_iff.mpr h, ih]

theorem mem_fallbacksBeside {x : RefIndex} {i : Nat} {r : Rule} {e : Target × Text}
    (h : e ∈ fallbacksBeside x i r) : e.1 ∈ x.targets ∧ x.fallback? e.1 = some e.2 := by
  obtain ⟨t, ht, he⟩ := List.mem_filterMap.mp h
  split at he
  · cases he
  · obtain ⟨f, hf, rfl⟩ := Option.map_eq_some_iff.mp he
    exact ⟨ht, hf⟩

/-- Fallbacks are put down for the targets that a rule does not serve, if they have one. -/
theorem map_fallbacksBeside (x : RefIndex) (i : Nat) (r : Rule) :
    (fallbacksBeside x i r).map (·.1) =
      x.targets.filter fun t => ¬ r.Serves t ∧ (x.fallback? t).isSome := by
  rw [fallbacksBeside]
  induction x.targets with
  | nil => rfl
  | cons t ts ih =>
      by_cases h : r.Serves t
      · obtain ⟨p, hp⟩ := Option.isSome_iff_exists.mp (Rule.isSome_serves?_iff (i := i).mpr h)
        simpa [h, hp] using ih
      · have hnone := Rule.serves?_eq_none_iff (i := i).mpr h
        cases hf : x.fallback? t with
        | none => simpa [h, hnone, hf] using ih
        | some f => simpa [h, hnone, hf] using ih

/-- What is held after a visit: the old targets, then the new ones, without those supplied. -/
theorem keys_pending_visit {l : Ledger} (hx : l.index.targets.Nodup) (i : Nat) (r : Rule) :
    (l.visit i r).pending.keys =
      ((l.pending.keys ++ (l.index.targets.filter fun t =>
        ¬ r.Serves t ∧ (l.index.fallback? t).isSome).filter (· ∉ l.pending.keys))).filter
          (· ∉ l.index.targets.filter (r.Serves ·)) := by
  have hbeside : (l.index.targets.filter fun t =>
      ¬ r.Serves t ∧ (l.index.fallback? t).isSome).Nodup := hx.filter _
  have hset := Table.keys_foldl_update (·.1) (fun e _ => e.2) (fallbacksBeside l.index i r)
    l.pending
  rw [map_fallbacksBeside, eraseDups_append_of_nodup l.pending.nodup_keys,
    eraseDups_eq_self (hbeside.filter _)] at hset
  rw [pending_visit, Table.keys_foldl_erase, map_suppliesOf]
  exact congrArg _ hset

/-- The last of the supplies of a rule for a target is the only one. -/
theorem find?_suppliesOf (x : RefIndex) (i : Nat) (r : Rule) (t : Target) :
    (suppliesOf x i r).reverse.find? (·.1 = t) =
      if t ∈ x.targets then (r.serves? i t).map (t, ·) else none := by
  rw [suppliesOf, ← List.filterMap_reverse]
  have hmem : t ∈ x.targets ↔ t ∈ x.targets.reverse := List.mem_reverse.symm
  simp only [hmem]
  induction x.targets.reverse with
  | nil => rfl
  | cons u ts ih =>
      by_cases h : u = t
      · subst h
        cases hp : r.serves? i u with
        | some p => simp [hp]
        | none => simp [hp, ih]
      · cases hp : r.serves? i u with
        | some p => simp [hp, ih, h, Ne.symm h]
        | none => simp [hp, ih, Ne.symm h]

/-! ## Many visits -/

def visits (vs : List (Rule × Nat)) (l : Ledger) : Ledger :=
  vs.foldl (fun l v => l.visit v.2 v.1) l

/-- None of the visited rules serves the target. -/
def Unserved (vs : List (Rule × Nat)) (t : Target) : Prop := ∀ v ∈ vs, ¬ v.1.Serves t

instance decUnserved (vs : List (Rule × Nat)) (t : Target) : Decidable (Unserved vs t) :=
  inferInstanceAs (Decidable (∀ v ∈ vs, _))

theorem unserved_concat {vs : List (Rule × Nat)} {v : Rule × Nat} {t : Target} :
    Unserved (vs ++ [v]) t ↔ Unserved vs t ∧ ¬ v.1.Serves t := by
  simp [Unserved, or_imp, forall_and]

/-- What a ledger holds after some visits. -/
structure Visited (x : RefIndex) (vs : List (Rule × Nat)) (l : Ledger) : Prop where
  index : l.index = x
  supplies : l.supplies = vs.flatMap fun v => suppliesOf x v.2 v.1
  unmatched : l.unmatched = x.selectors.filter fun s => ∀ v ∈ vs, s ∉ v.1.selectors
  held : ∀ t f, l.pending.get? t = some f → t ∈ x.targets ∧ x.fallback? t = some f
  /-- From the first visit on, the unserved targets that have a fallback are all held, in order. -/
  order : l.pending.keys.filter (Unserved vs ·) =
    if vs = [] then [] else x.targets.filter fun t => Unserved vs t ∧ (x.fallback? t).isSome

theorem visited_ofIndex (x : RefIndex) : Visited x [] (ofIndex x) where
  index := rfl
  supplies := rfl
  unmatched := by simp [ofIndex]
  held := by
    intro t f h
    cases h
  order := rfl

section Step
variable {x : RefIndex} {vs : List (Rule × Nat)} {l : Ledger}

theorem Visited.unmatched_step (h : Visited x vs l) (v : Rule × Nat) :
    (l.visit v.2 v.1).unmatched =
      x.selectors.filter fun s => ∀ w ∈ vs ++ [v], s ∉ w.1.selectors := by
  rw [unmatched_visit, h.unmatched, h.index, List.filter_filter]
  refine List.filter_congr fun s hs => ?_
  have hc : x.contains s = true := (Table.contains_iff _ s).mpr hs
  have hmatched : s ∈ v.1.matched x ↔ s ∈ v.1.selectors := by
    simp [Rule.matched, hc]
  rw [← Bool.decide_and]
  refine decide_eq_decide.mpr ?_
  simp [hmatched, or_imp, forall_and, and_comm]

theorem Visited.held_step (h : Visited x vs l) (v : Rule × Nat) {t : Target} {f : Text}
    (ht : (l.visit v.2 v.1).pending.get? t = some f) : t ∈ x.targets ∧ x.fallback? t = some f := by
  rw [pending_visit, h.index, Table.get?_foldl_erase] at ht
  split at ht
  · cases ht
  · rw [Table.get?_foldl_set Prod.fst Prod.snd] at ht
    cases hfind : (fallbacksBeside x v.2 v.1).reverse.find? (·.1 = t) with
    | none =>
        rw [hfind] at ht
        exact h.held t f ht
    | some e =>
        have hmem := List.mem_reverse.mp (List.mem_of_find?_eq_some hfind)
        have he : e.1 = t := by simpa using List.find?_some hfind
        simp only [hfind, Option.map_some, Option.some_or, Option.some.injEq] at ht
        exact he ▸ ht ▸ mem_fallbacksBeside hmem

theorem Visited.order_step (hx : x.targets.Nodup) (h : Visited x vs l) (v : Rule × Nat) :
    (l.visit v.2 v.1).pending.keys.filter (Unserved (vs ++ [v]) ·) =
      x.targets.filter fun t => Unserved (vs ++ [v]) t ∧ (x.fallback? t).isSome := by
  have hkeys := keys_pending_visit (h.index ▸ hx) v.2 v.1
  rw [h.index] at hkeys
  -- a target that is unserved is among those supplied in no case
  have hunserved : ∀ ks : List Target,
      (ks.filter (· ∉ x.targets.filter (v.1.Serves ·))).filter (Unserved (vs ++ [v]) ·) =
        (ks.filter (Unserved vs ·)).filter (¬ v.1.Serves ·) := by
    intro ks
    rw [List.filter_filter, List.filter_filter]
    refine List.filter_congr fun t _ => ?_
    by_cases hv : v.1.Serves t <;> simp [unserved_concat, hv]
  rw [hkeys, hunserved, List.filter_append, List.filter_append, h.order]
  by_cases hvs : vs = []
  · -- the first visit puts everything down
    subst hvs
    have hnone : l.pending.keys = [] := by simpa [Unserved] using h.order
    rw [hnone]
    simp only [↓reduceIte, List.filter_nil, List.nil_append, List.filter_filter]
    refine List.filter_congr fun t _ => ?_
    by_cases hv : v.1.Serves t <;> simp [Unserved, hv]
  · -- later visits put nothing new down for a target that no rule has served
    have hnew : ((x.targets.filter fun t => ¬ v.1.Serves t ∧ (x.fallback? t).isSome).filter
        (· ∉ l.pending.keys)).filter (Unserved vs ·) = [] := by
      rw [List.filter_eq_nil_iff]
      intro t ht
      simp only [List.mem_filter, decide_eq_true_eq] at ht
      obtain ⟨⟨htarget, -, hf⟩, hkey⟩ := ht
      intro hu
      have hu : Unserved vs t := by simpa using hu
      have hmem : t ∈ l.pending.keys.filter (Unserved vs ·) := by
        rw [h.order, if_neg hvs]
        simp [htarget, hu, hf]
      exact hkey (List.mem_filter.mp hmem).1
    rw [if_neg hvs, hnew, List.filter_nil, List.append_nil, List.filter_filter]
    refine List.filter_congr fun t _ => ?_
    by_cases hv : v.1.Serves t <;> simp [unserved_concat, hv]

theorem Visited.visit (hx : x.targets.Nodup) (h : Visited x vs l) (v : Rule × Nat) :
    Visited x (vs ++ [v]) (l.visit v.2 v.1) where
  index := by rw [index_visit, h.index]
  supplies := by rw [supplies_visit, h.supplies, h.index]; simp
  unmatched := h.unmatched_step v
  held := fun _ _ ht => h.held_step v ht
  order := by rw [if_neg (by simp)]; exact h.order_step hx v

end Step

theorem visited_visits {x : RefIndex} (hx : x.targets.Nodup) (vs : List (Rule × Nat)) :
    Visited x vs (visits vs (ofIndex x)) := by
  induction vs using List.reverseRecOn with
  | nil => exact visited_ofIndex x
  | append_singleton vs v ih =>
      have : visits (vs ++ [v]) (ofIndex x) = (visits vs (ofIndex x)).visit v.2 v.1 := by
        simp [visits]
      rw [this]
      exact ih.visit hx v

end Ledger

end StyleRef
