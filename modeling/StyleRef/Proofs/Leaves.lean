import StyleRef.Proofs.Order

/-
# Leaves do not matter to the order

A target that depends on nothing is a leaf: walks end there.  If some leaves are
taken out of the bindings, the targets that depended on them become leaves in
turn, but every walk meets the same targets up to its end.  So the order is the
old one without the leaves that were taken out, and a circle that is found is
the same circle, found from the same target.

The bound on the steps changes with the number of targets.  It is compared on
neither side: both walks have more steps than they can take.
-/

namespace StyleRef

namespace CommitOrder

variable {next next' : Target → Option Target} {keep : Target → Bool}
  {done keys keys' path ts : List Target} {t : Target}

/-- What a walk led to, with the targets of its path that are not kept left out. -/
def Walk.restrict (keep : Target → Bool) : Walk → Walk
  | .ends path => .ends (path.filter keep)
  | .circles chain => .circles chain

/-- The walks of `next'` are those of `next` without the targets that are not kept, all of which
depend on nothing. -/
structure Restricts (keep : Target → Bool) (next next' : Target → Option Target)
    (keys keys' : List Target) : Prop where
  leaf : ∀ t, keep t = false → next t = none
  next_eq : ∀ t, next' t = (next t).filter keep
  inside : ∀ t u, next t = some u → u ∈ keys
  keys_eq : keys' = keys.filter keep

namespace Restricts

theorem mem_keys' (h : Restricts keep next next' keys keys') (ht : t ∈ keys)
    (hkeep : keep t = true) : t ∈ keys' := by
  rw [h.keys_eq]
  exact List.mem_filter.mpr ⟨ht, hkeep⟩

/-- A walk that comes to a leaf that is not kept ends there, with or without it. -/
theorem restrict_walk_leaf (h : Restricts keep next next' keys keys') {n : Nat} (hp : t ∉ path)
    (hleaf : keep t = false) :
    (walk next done (n + 1) path t).restrict keep = .ends (path.filter keep) := by
  by_cases hd : t ∈ done
  · rw [walk_of_mem_done hd, Walk.restrict]
  · rw [walk_of_eq_none hd hp (h.leaf t hleaf), Walk.restrict, List.filter_cons_of_neg (by simp [hleaf])]

theorem walk_eq (h : Restricts keep next next' keys keys') {n n' : Nat}
    (htrail : Trail next done keys path t) (htrail' : Trail next' (done.filter keep) keys' path t)
    (hn : keys.length < n + path.length) (hn' : keys'.length < n' + path.length)
    (hkeep : ∀ u ∈ t :: path, keep u = true) :
    walk next' (done.filter keep) n' path t = (walk next done n path t).restrict keep := by
  induction n generalizing n' path t with
  | zero =>
      have := htrail.length_le
      omega
  | succ n ih =>
      obtain ⟨n', rfl⟩ : ∃ m, n' = m + 1 := by
        have := htrail'.length_le
        exact ⟨n' - 1, by omega⟩
      obtain ⟨ht, hpath⟩ := List.forall_mem_cons.mp hkeep
      have hmem : t ∈ done.filter keep ↔ t ∈ done := by simp [ht]
      have hnext' := h.next_eq t
      rcases walk_cases next done path t n with
        ⟨hd, heq⟩ | ⟨hd, hp, heq⟩ | ⟨hd, hp, hu, heq⟩ | ⟨hd, hp, u, hu, heq⟩ <;> rw [heq]
      · rw [walk_of_mem_done (hmem.mpr hd), Walk.restrict, List.filter_eq_self.mpr hpath]
      · rw [walk_of_mem_path (mt hmem.mp hd) hp, Walk.restrict]
      · rw [hu, Option.filter_none] at hnext'
        rw [walk_of_eq_none (mt hmem.mp hd) hp hnext', Walk.restrict, List.filter_eq_self.mpr hkeep]
      · have hstep := htrail.step hd hp hu (h.inside t u hu)
        by_cases hku : keep u = true
        · -- both walks go on to `u`
          rw [hu, Option.filter_some_pos hku] at hnext'
          have hstep' := htrail'.step (mt hmem.mp hd) hp hnext' (h.mem_keys' (h.inside t u hu) hku)
          rw [walk_of_eq_some (mt hmem.mp hd) hp hnext']
          refine ih hstep hstep' ?_ ?_ (List.forall_mem_cons.mpr ⟨hku, hkeep⟩)
          · simp only [List.length_cons]
            omega
          · simp only [List.length_cons]
            omega
        · -- one walk ends before the leaf `u`, the other with it
          have hku : keep u = false := by simpa using hku
          rw [hu, Option.filter_some_neg hku] at hnext'
          obtain ⟨m, rfl⟩ : ∃ m, n = m + 1 := by
            have := hstep.length_le
            simp only [List.length_cons] at this
            exact ⟨n - 1, by omega⟩
          rw [walk_of_eq_none (mt hmem.mp hd) hp hnext',
            h.restrict_walk_leaf (fun hmem => by simp [hkeep u hmem] at hku) hku,
            List.filter_eq_self.mpr hkeep]

theorem arrange_eq (h : Restricts keep next next' keys keys') (hts : ts ⊆ keys) :
    arrange next' (keys'.length + 1) (done.filter keep) (ts.filter keep) =
      (arrange next (keys.length + 1) done ts).map (List.filter keep) := by
  induction ts generalizing done with
  | nil => rfl
  | cons t ts ih =>
      obtain ⟨ht, hts⟩ := List.cons_subset.mp hts
      rw [arrange]
      by_cases hkeep : keep t = true
      · have hwalk : walk next' (done.filter keep) (keys'.length + 1) [] t =
            (walk next done (keys.length + 1) [] t).restrict keep :=
          h.walk_eq (trail_nil ht) (trail_nil (h.mem_keys' ht hkeep)) (by simp) (by simp) (by simpa)
        rw [List.filter_cons_of_pos hkeep, arrange, hwalk]
        cases walk next done (keys.length + 1) [] t with
        | circles chain => rfl
        | ends path =>
            simp only [Walk.restrict]
            rw [← List.filter_append]
            exact ih hts
      · -- a leaf is in order at once
        have hwalk : (walk next done (keys.length + 1) [] t).restrict keep = .ends ([].filter keep) :=
          h.restrict_walk_leaf List.not_mem_nil (by simpa using hkeep)
        rw [List.filter_cons_of_neg hkeep]
        cases hpath : walk next done (keys.length + 1) [] t with
        | circles chain =>
            rw [hpath] at hwalk
            cases hwalk
        | ends path =>
            rw [hpath, Walk.restrict, Walk.ends.injEq] at hwalk
            rw [← ih hts, List.filter_append, hwalk, List.filter_nil, List.append_nil]

end Restricts

end CommitOrder

/-- Bindings without some targets that depend on nothing are put in the same order, or the same
circle is found. -/
theorem RefIndex.commitOrder_restrict {x x' : RefIndex} {b b' : Table Target Supply}
    (hleaf : ∀ t, b'.contains t = false → x.dependency? b t = none)
    (hnext : ∀ t, x'.dependency? b' t = (x.dependency? b t).filter b'.contains)
    (hkeys : b'.keys = b.keys.filter b'.contains) :
    x'.commitOrder b' = (x.commitOrder b).map (List.filter b'.contains) := by
  have h : CommitOrder.Restricts b'.contains (x.dependency? b) (x'.dependency? b') b.keys b'.keys :=
    ⟨hleaf, hnext, fun _ _ hu => (dependency?_eq_some_iff.mp hu).choose_spec.2.2, hkeys⟩
  have harrange : CommitOrder.arrange (x'.dependency? b') (b'.keys.length + 1)
      ([].filter b'.contains) (b.keys.filter b'.contains) =
        (CommitOrder.arrange (x.dependency? b) (b.keys.length + 1) [] b.keys).map
          (List.filter b'.contains) :=
    h.arrange_eq (List.Subset.refl b.keys)
  rwa [← hkeys] at harrange

end StyleRef
