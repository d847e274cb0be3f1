import StyleRef.CommitOrder
import Mathlib.Data.List.Chain
import Mathlib.Data.List.Nodup
import Mathlib.Data.List.Perm.Subperm
import Mathlib.Logic.Relation

/-
# The order of writing is topological

Each bound target depends on one other at most, so the walk from a target is a
chain.  A walk that ends gives its targets, far end first, and each of them
depends on what was in order already or on its neighbour: appended to the order,
the order stays one.  A walk that does not end meets a target a second time, and
from there on it has gone round a circle.

Both outcomes are evidence: an order in which every target stands behind what it
depends on leaves no room for a circle (`not_transGen_self_of_inOrder`), and a
circle that is reported is one (`exists_transGen_of_circle`).  The bound on the
steps of a walk is never what ends it, because a walk passes no target twice.
-/

namespace StyleRef

namespace CommitOrder

variable {next : Target → Option Target}

/-! ## Orders and circles -/

/-- Every target of the list stands behind the one it depends on. -/
def InOrder (next : Target → Option Target) (l : List Target) : Prop :=
  ∀ before t after, l = before ++ t :: after → ∀ u, next t = some u → u ∈ before

/-- Targets that depend on each other in a row, the last on the first; the first is repeated. -/
def Circle (next : Target → Option Target) (chain : List Target) : Prop :=
  ∃ t l, chain = t :: l ++ [t] ∧ (t :: l).Nodup ∧ chain.IsChain fun a b => next a = some b

theorem inOrder_nil : InOrder next [] := by
  intro before t after h
  simp at h

theorem inOrder_concat {l : List Target} {t : Target} (hl : InOrder next l)
    (ht : ∀ u, next t = some u → u ∈ l) : InOrder next (l ++ [t]) := by
  intro before v after h u hu
  rcases List.eq_nil_or_concat after with rfl | ⟨after', w, rfl⟩
  · obtain ⟨rfl, hv⟩ := List.append_inj' h rfl
    simp only [List.cons.injEq, and_true] at hv
    subst hv
    exact ht u hu
  · have h' : l ++ [t] = (before ++ v :: after') ++ [w] := by simpa using h
    exact hl before v after' (List.append_inj' h' rfl).1 u hu

/-- A target stands behind what it depends on, by position. -/
theorem idxOf_lt_of_inOrder {l : List Target} (hl : InOrder next l) {t u : Target} (ht : t ∈ l)
    (hu : next t = some u) : l.idxOf u < l.idxOf t := by
  obtain ⟨before, after, rfl, hbefore⟩ := List.eq_append_cons_of_mem ht
  have hmem : u ∈ before := hl before t after rfl u hu
  rw [List.idxOf_append_of_mem hmem, List.idxOf_append_of_notMem hbefore]
  exact Nat.lt_of_lt_of_le (List.idxOf_lt_length_of_mem hmem) (Nat.le_add_right _ _)

theorem mem_of_inOrder {l : List Target} (hl : InOrder next l) {t u : Target} (ht : t ∈ l)
    (hu : next t = some u) : u ∈ l := by
  obtain ⟨before, after, rfl, -⟩ := List.eq_append_cons_of_mem ht
  exact List.mem_append_left _ (hl before t after rfl u hu)

theorem not_transGen_self_of_inOrder {l : List Target} (hl : InOrder next l) {t : Target}
    (ht : t ∈ l) : ¬ Relation.TransGen (fun a b => next a = some b) t t := by
  have key : ∀ u, Relation.TransGen (fun a b => next a = some b) t u →
      u ∈ l ∧ l.idxOf u < l.idxOf t := by
    intro u h
    induction h with
    | single h => exact ⟨mem_of_inOrder hl ht h, idxOf_lt_of_inOrder hl ht h⟩
    | tail _ h ih =>
        exact ⟨mem_of_inOrder hl ih.1 h, Nat.lt_trans (idxOf_lt_of_inOrder hl ih.1 h) ih.2⟩
  intro h
  exact Nat.lt_irrefl _ (key t h).2

/-- The first target of a circle depends on itself. -/
theorem exists_transGen_of_circle {chain : List Target} (h : Circle next chain) :
    ∃ t, Relation.TransGen (fun a b => next a = some b) t t := by
  obtain ⟨t, l, rfl, -, hchain⟩ := h
  have key : ∀ (l : List Target) (a b : Target),
      (a :: l ++ [b]).IsChain (fun a b => next a = some b) →
        Relation.TransGen (fun a b => next a = some b) a b := by
    intro l
    induction l with
    | nil =>
        intro a b h
        exact .single (List.isChain_cons_cons.mp h).1
    | cons c l ih =>
        intro a b h
        obtain ⟨hac, h⟩ := List.isChain_cons_cons.mp h
        exact .head hac (ih c b h)
  exact ⟨t, key l t t hchain⟩

/-! ## One walk -/

/-- Where a walk stands: `path` has been passed, last one first, and `t` comes next. -/
structure Trail (next : Target → Option Target) (done keys path : List Target) (t : Target) :
    Prop where
  linked : (t :: path).IsChain fun a b => next b = some a
  nodup : path.Nodup
  fresh : ∀ u ∈ path, u ∉ done
  inside : ∀ u ∈ t :: path, u ∈ keys

/-- What a walk that ends has passed, far end first. -/
structure Passed (next : Target → Option Target) (done keys path : List Target) : Prop where
  linked : path.IsChain fun a b => next b = some a
  nodup : path.Nodup
  fresh : ∀ u ∈ path, u ∉ done
  inside : ∀ u ∈ path, u ∈ keys
  /-- The far end depends on nothing, or on what was in order before. -/
  ended : ∀ t ∈ path.head?, ∀ u, next t = some u → u ∈ done

section Walk
variable {done keys path : List Target} {t u : Target}

/-- A path without repetitions is not longer than the list of keys. -/
theorem Trail.length_le (h : Trail next done keys path t) : path.length ≤ keys.length := by
  have hsub : path ⊆ keys := fun u hu => h.inside u (List.mem_cons_of_mem _ hu)
  exact (List.subperm_of_subset h.nodup hsub).length_le

theorem trail_nil (ht : t ∈ keys) : Trail next done keys [] t where
  linked := List.isChain_singleton _
  nodup := List.nodup_nil
  fresh := by simp
  inside := by simpa using ht

theorem Trail.step (h : Trail next done keys path t) (hd : t ∉ done) (hp : t ∉ path)
    (hu : next t = some u) (hk : u ∈ keys) : Trail next done keys (t :: path) u where
  linked := List.isChain_cons_cons.mpr ⟨hu, h.linked⟩
  nodup := List.nodup_cons.mpr ⟨hp, h.nodup⟩
  fresh := List.forall_mem_cons.mpr ⟨hd, h.fresh⟩
  inside := List.forall_mem_cons.mpr ⟨hk, h.inside⟩

theorem Trail.passed_of_mem (h : Trail next done keys path t) (hd : t ∈ done) :
    Passed next done keys path where
  linked := h.linked.tail
  nodup := h.nodup
  fresh := h.fresh
  inside := fun u hu => h.inside u (List.mem_cons_of_mem _ hu)
  ended := by
    intro p hp u hu
    have : next p = some t := h.linked.rel_head? hp
    rw [this] at hu
    exact Option.some.inj hu ▸ hd

theorem Trail.passed_of_none (h : Trail next done keys path t) (hd : t ∉ done) (hp : t ∉ path)
    (hu : next t = none) : Passed next done keys (t :: path) where
  linked := h.linked
  nodup := List.nodup_cons.mpr ⟨hp, h.nodup⟩
  fresh := List.forall_mem_cons.mpr ⟨hd, h.fresh⟩
  inside := h.inside
  ended := by
    intro p hp u hpu
    obtain rfl : t = p := by simpa using hp
    rw [hu] at hpu
    cases hpu

theorem takeWhile_ne_append_cons {recent old : List Target} (ht : t ∉ recent) :
    (recent ++ t :: old).takeWhile (· ≠ t) = recent := by
  have hne : ∀ a ∈ recent, a ≠ t := fun a ha e => ht (e ▸ ha)
  rw [List.takeWhile_append_of_pos (by simpa using hne)]
  simp

/-- The walk meets a target that it has passed. -/
theorem Trail.circle (h : Trail next done keys path t) (hp : t ∈ path) :
    Circle next (t :: (path.takeWhile (· ≠ t)).reverse ++ [t]) := by
  obtain ⟨recent, old, rfl, ht⟩ := List.eq_append_cons_of_mem hp
  rw [takeWhile_ne_append_cons ht]
  refine ⟨t, recent.reverse, rfl, ?_, ?_⟩
  · have hrecent : recent.Nodup := (List.nodup_append.mp h.nodup).1
    exact List.nodup_cons.mpr ⟨by simpa using ht, List.nodup_reverse.mpr hrecent⟩
  · -- the circle is the walk since `t` was passed, read forwards
    have hsplit : t :: (recent ++ t :: old) = (t :: recent ++ [t]) ++ old := by simp
    have hlinked := h.linked
    rw [hsplit] at hlinked
    have := List.isChain_reverse.mpr hlinked.left_of_append
    simpa using this

/-- What a walk may lead to. -/
def Walk.Sound (next : Target → Option Target) (done keys path : List Target) (t : Target) :
    Walk → Prop
  | .ends path' => Passed next done keys path' ∧ path <:+ path' ∧ (t ∈ done ∨ t ∈ path')
  | .circles chain => Circle next chain

/-- Where a walk leads to after one more step, it leads to before it. -/
theorem Walk.Sound.of_step {w : Walk} (h : w.Sound next done keys (t :: path) u) :
    w.Sound next done keys path t := by
  cases w with
  | circles chain => exact h
  | ends path' =>
      obtain ⟨hpassed, hsuffix, -⟩ := h
      exact ⟨hpassed, (List.suffix_cons _ _).trans hsuffix,
        Or.inr (hsuffix.subset List.mem_cons_self)⟩

/-! What one step of a walk does. -/

theorem walk_of_mem_done {n : Nat} (hd : t ∈ done) :
    walk next done (n + 1) path t = .ends path :=
  if_pos hd

theorem walk_of_mem_path {n : Nat} (hd : t ∉ done) (hp : t ∈ path) :
    walk next done (n + 1) path t =
      .circles (t :: (path.takeWhile (· ≠ t)).reverse ++ [t]) := by
  rw [walk, if_neg hd, if_pos hp]

theorem walk_of_eq_none {n : Nat} (hd : t ∉ done) (hp : t ∉ path) (hu : next t = none) :
    walk next done (n + 1) path t = .ends (t :: path) := by
  rw [walk, if_neg hd, if_neg hp, hu]

theorem walk_of_eq_some {n : Nat} (hd : t ∉ done) (hp : t ∉ path) (hu : next t = some u) :
    walk next done (n + 1) path t = walk next done n (t :: path) u := by
  rw [walk, if_neg hd, if_neg hp, hu]

/-- A step ends the walk at a target that is in order, or at one that depends on nothing; it closes a
circle; or it goes on. -/
theorem walk_cases (next : Target → Option Target) (done path : List Target) (t : Target) (n : Nat) :
    (t ∈ done ∧ walk next done (n + 1) path t = .ends path) ∨
    (t ∉ done ∧ t ∈ path ∧ walk next done (n + 1) path t =
      .circles (t :: (path.takeWhile (· ≠ t)).reverse ++ [t])) ∨
    (t ∉ done ∧ t ∉ path ∧ next t = none ∧ walk next done (n + 1) path t = .ends (t :: path)) ∨
    (t ∉ done ∧ t ∉ path ∧ ∃ u, next t = some u ∧
      walk next done (n + 1) path t = walk next done n (t :: path) u) := by
  by_cases hd : t ∈ done
  · exact .inl ⟨hd, walk_of_mem_done hd⟩
  · by_cases hp : t ∈ path
    · exact .inr (.inl ⟨hd, hp, walk_of_mem_path hd hp⟩)
    · cases hu : next t with
      | none => exact .inr (.inr (.inl ⟨hd, hp, rfl, walk_of_eq_none hd hp hu⟩))
      | some u => exact .inr (.inr (.inr ⟨hd, hp, u, rfl, walk_of_eq_some hd hp hu⟩))

/-- A walk with enough steps ends by itself, or it finds a circle. -/
theorem walk_sound (hnext : ∀ a b, next a = some b → b ∈ keys) {n : Nat}
    (h : Trail next done keys path t) (hn : keys.length < n + path.length) :
    (walk next done n path t).Sound next done keys path t := by
  induction n generalizing path t with
  | zero =>
      have := h.length_le
      omega
  | succ n ih =>
      rcases walk_cases next done path t n with
        ⟨hd, heq⟩ | ⟨-, hp, heq⟩ | ⟨hd, hp, hu, heq⟩ | ⟨hd, hp, u, hu, heq⟩ <;> rw [heq]
      · exact ⟨h.passed_of_mem hd, List.suffix_refl _, Or.inl hd⟩
      · exact h.circle hp
      · exact ⟨h.passed_of_none hd hp hu, List.suffix_cons _ _, Or.inr List.mem_cons_self⟩
      · refine (ih (h.step hd hp hu (hnext t u hu)) ?_).of_step
        simp only [List.length_cons]
        omega

end Walk

/-! ## All walks -/

/-- What a walk has passed goes behind what is in order. -/
theorem inOrder_append {done keys path : List Target} (hdone : InOrder next done)
    (h : Passed next done keys path) : InOrder next (done ++ path) := by
  have key : ∀ (path done : List Target), InOrder next done →
      path.IsChain (fun a b => next b = some a) →
      (∀ t ∈ path.head?, ∀ u, next t = some u → u ∈ done) → InOrder next (done ++ path) := by
    intro path
    induction path with
    | nil =>
        intro done hdone _ _
        simpa using hdone
    | cons a path ih =>
        intro done hdone hlinked hended
        obtain ⟨hhead, hlinked⟩ := List.isChain_cons.mp hlinked
        have hconcat := inOrder_concat hdone (hended a (by simp))
        have := ih (done ++ [a]) hconcat hlinked ?_
        · simpa using this
        · -- the next one depends on `a`
          intro t ht u hu
          rw [hhead t ht] at hu
          simp [Option.some.inj hu]
  exact key path done hdone h.linked h.ended

/-- What arranging may lead to: an order of all targets, or a circle. -/
def Arranged (next : Target → Option Target) (keys done ts : List Target) :
    Except (List Target) (List Target) → Prop
  | .ok order => InOrder next order ∧ order.Nodup ∧ order ⊆ keys ∧ done ⊆ order ∧ ts ⊆ order
  | .error chain => Circle next chain

theorem arranged_arrange {keys : List Target} (hnext : ∀ a b, next a = some b → b ∈ keys)
    {done ts : List Target} (hdone : InOrder next done) (hnodup : done.Nodup) (hsub : done ⊆ keys)
    (hts : ts ⊆ keys) :
    Arranged next keys done ts (arrange next (keys.length + 1) done ts) := by
  induction ts generalizing done with
  | nil => exact ⟨hdone, hnodup, hsub, List.Subset.refl _, List.nil_subset _⟩
  | cons t ts ih =>
      have htrail : Trail next done keys [] t := trail_nil (hts List.mem_cons_self)
      have hwalk := walk_sound hnext htrail (n := keys.length + 1) (by simp)
      rw [arrange]
      cases hw : walk next done (keys.length + 1) [] t with
      | circles chain =>
          rw [hw] at hwalk
          exact hwalk
      | ends path =>
          rw [hw] at hwalk
          obtain ⟨hpassed, -, ht⟩ := hwalk
          have hdisjoint : ∀ a ∈ done, ∀ b ∈ path, a ≠ b :=
            fun a ha b hb e => hpassed.fresh b hb (e ▸ ha)
          have hrest := ih (inOrder_append hdone hpassed)
            (List.nodup_append.mpr ⟨hnodup, hpassed.nodup, hdisjoint⟩)
            (List.append_subset.mpr ⟨hsub, hpassed.inside⟩)
            (fun u hu => hts (List.mem_cons_of_mem _ hu))
          dsimp only
          cases ha : arrange next (keys.length + 1) (done ++ path) ts with
          | error chain =>
              rw [ha] at hrest
              exact hrest
          | ok order =>
              rw [ha] at hrest
              obtain ⟨horder, hnodup, hinside, hbefore, hafter⟩ := hrest
              refine ⟨horder, hnodup, hinside, fun u hu => hbefore (List.mem_append_left _ hu), ?_⟩
              exact List.cons_subset.mpr ⟨hbefore (List.mem_append.mpr ht), hafter⟩

end CommitOrder

/-! ## The order of an index -/

namespace RefIndex

variable {x : RefIndex} {b : Table Target Supply}

theorem dependency?_eq_some_iff {t u : Target} :
    x.dependency? b t = some u ↔
      ∃ p, b.get? t = some (.declaration p) ∧ x.askedAt? p = some u ∧ u ∈ b.keys := by
  rw [dependency?]
  cases b.get? t with
  | none => simp
  | some supply =>
      cases supply with
      | fallback f => simp
      | declaration p => simp [Option.filter_eq_some_iff, Table.contains_iff]

theorem mem_keys_of_dependency? (t u : Target) (h : x.dependency? b t = some u) : u ∈ b.keys := by
  obtain ⟨-, -, -, hu⟩ := dependency?_eq_some_iff.mp h
  exact hu

theorem arranged_commitOrder :
    CommitOrder.Arranged (x.dependency? b) b.keys [] b.keys (x.commitOrder b) :=
  CommitOrder.arranged_arrange mem_keys_of_dependency? CommitOrder.inOrder_nil List.nodup_nil
    (List.nil_subset _) (List.Subset.refl _)

/-- An order of the bound targets has each of them once, behind what it depends on. -/
theorem commitOrder_ok {order : List Target} (h : x.commitOrder b = .ok order) :
    CommitOrder.InOrder (x.dependency? b) order ∧ order.Perm b.keys := by
  have harranged := arranged_commitOrder (x := x) (b := b)
  rw [h] at harranged
  obtain ⟨horder, hnodup, hinside, -, hall⟩ := harranged
  exact ⟨horder, (List.perm_ext_iff_of_nodup hnodup b.nodup_keys).mpr
    fun t => ⟨fun ht => hinside ht, fun ht => hall ht⟩⟩

/-- What is reported instead of an order is a circle of dependencies. -/
theorem commitOrder_error {chain : List Target} (h : x.commitOrder b = .error chain) :
    CommitOrder.Circle (x.dependency? b) chain := by
  have harranged := arranged_commitOrder (x := x) (b := b)
  rw [h] at harranged
  exact harranged

/-- There is no order exactly when some target depends on itself, be it through others. -/
theorem exists_commitOrder_error_iff :
    (∃ chain, x.commitOrder b = .error chain) ↔
      ∃ t, Relation.TransGen (fun t u => x.dependency? b t = some u) t t := by
  constructor
  · rintro ⟨chain, h⟩
    exact CommitOrder.exists_transGen_of_circle (commitOrder_error h)
  · rintro ⟨t, ht⟩
    cases h : x.commitOrder b with
    | error chain => exact ⟨chain, rfl⟩
    | ok order =>
        obtain ⟨horder, hperm⟩ := commitOrder_ok h
        -- a target that depends on something is bound, so it is in the order
        have hmem : t ∈ order := by
          obtain ⟨u, hu, -⟩ := Relation.TransGen.head'_iff.mp ht
          obtain ⟨p, hp, -⟩ := dependency?_eq_some_iff.mp hu
          exact hperm.mem_iff.mpr ((b.mem_keys_iff t).mpr (by simp [hp]))
        exact absurd ht (CommitOrder.not_transGen_self_of_inOrder horder hmem)

end RefIndex

end StyleRef
