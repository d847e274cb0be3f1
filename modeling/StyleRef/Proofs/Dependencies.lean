import StyleRef.Commit
import StyleRef.Proofs.Order
import StyleRef.Proofs.Extraction

/-
# Which circle is reported, and which order is found

The order of writing is sought for any bindings of the targets of a sheet,
whether or not a resolution would have come to them.  One target depends on
another when it is bound to a declaration that asks for the other, and the other
is bound.

The search goes through the bindings from the earliest.  Whatever has been put
in order leads into no circle, so the walk that fails is that of the earliest
binding that leads into one; it goes along a way of targets that are on no
circle, enters the circle, and what is reported begins where it entered.

A walk that ends puts in order what its first target depends on, and nothing
else.  So a target that comes before an earlier binding was needed for that
binding, or for one before it: otherwise the bindings keep their order.
-/

namespace StyleRef

open Relation

/-- The target `g` is bound to a declaration that asks for `h`, which is bound as well. -/
def Stylesheet.DependsOn (s : Stylesheet) (b : Table Target Supply) (g h : Target) : Prop :=
  ∃ r ∈ s.references, b.get? g = some (.declaration r.place) ∧ r.target = h ∧ h ∈ b.keys

theorem RefIndex.dependency?_ofSheet_iff {scope : Scope} {s : Stylesheet}
    {b : Table Target Supply} {g h : Target} :
    (RefIndex.ofSheet scope s).dependency? b g = some h ↔ s.DependsOn b g h := by
  rw [dependency?_eq_some_iff]
  constructor
  · rintro ⟨p, hp, hasked, hkey⟩
    obtain ⟨r, hr, rfl, htarget⟩ := (askedAt?_eq_some_iff s.nodup_places).mp hasked
    exact ⟨r, hr, hp, htarget, hkey⟩
  · rintro ⟨r, hr, hp, htarget, hkey⟩
    exact ⟨r.place, hp, (askedAt?_eq_some_iff s.nodup_places).mpr ⟨r, hr, rfl, htarget⟩, hkey⟩

namespace CommitOrder

variable {next : Target → Option Target}

/-! ## One walk -/

/-- A way along dependencies from `start` to the first target of a circle, which it meets only
there. -/
def Enters (next : Target → Option Target) (start : Target) (circle : List Target) : Prop :=
  ∃ way g, circle.head? = some g ∧ (way ++ [g]).head? = some start ∧
    (way ++ [g]).IsChain (fun a b => next a = some b) ∧ ∀ t ∈ way, t ∉ circle

section Walk
variable {done keys path : List Target} {t start : Target} {n : Nat}

/-- What was passed before the target that is met again leads to it from outside the circle. -/
theorem Trail.enters (h : Trail next done keys path t) (hp : t ∈ path)
    (hstart : (t :: path).getLast? = some start) :
    Enters next start (t :: (path.takeWhile (· ≠ t)).reverse ++ [t]) := by
  obtain ⟨recent, old, rfl, hrecent⟩ := List.eq_append_cons_of_mem hp
  rw [takeWhile_ne_append_cons hrecent]
  refine ⟨old.reverse, t, rfl, ?_, ?_, ?_⟩
  · -- the path began where the way begins
    have hlast : (t :: (recent ++ t :: old)).getLast? = (t :: old).getLast? := by
      simp [List.getLast?_cons, List.getLast?_append]
    rw [← List.reverse_cons, List.head?_reverse, ← hlast]
    exact hstart
  · rw [← List.reverse_cons, List.isChain_reverse]
    have hsplit : t :: (recent ++ t :: old) = (t :: recent) ++ t :: old := rfl
    have hlinked := h.linked
    rw [hsplit] at hlinked
    exact hlinked.right_of_append
  · intro a ha
    have hold : a ∈ old := List.mem_reverse.mp ha
    obtain ⟨-, hcons, hdisjoint⟩ := List.nodup_append.mp h.nodup
    have hat : a ≠ t := fun e => (List.nodup_cons.mp hcons).1 (e ▸ hold)
    have har : a ∉ recent := fun har => hdisjoint a har a (List.mem_cons_of_mem _ hold) rfl
    simp [hat, har]

/-- A walk that goes round a circle has entered it from where it began. -/
theorem enters_of_walk (hnext : ∀ a b, next a = some b → b ∈ keys) {chain : List Target}
    (h : Trail next done keys path t) (hstart : (t :: path).getLast? = some start)
    (hwalk : walk next done n path t = .circles chain) : Enters next start chain := by
  induction n generalizing path t with
  | zero => cases hwalk
  | succ n ih =>
      rcases walk_cases next done path t n with
        ⟨-, heq⟩ | ⟨-, hp, heq⟩ | ⟨-, -, -, heq⟩ | ⟨hd, hp, u, hu, heq⟩ <;> rw [heq] at hwalk
      · cases hwalk
      · rw [Walk.circles.injEq] at hwalk
        exact hwalk ▸ h.enters hp hstart
      · cases hwalk
      · refine ih (h.step hd hp hu (hnext t u hu)) ?_ hwalk
        rwa [List.getLast?_cons_cons]

/-- A walk that ends passes only what its first target depends on. -/
theorem reflTransGen_of_walk {path' : List Target} (hwalk : walk next done n path t = .ends path') :
    ∀ u ∈ path', u ∈ path ∨ ReflTransGen (fun a b => next a = some b) t u := by
  induction n generalizing path t with
  | zero =>
      rw [walk, Walk.ends.injEq] at hwalk
      exact fun u hu => .inl (hwalk ▸ hu)
  | succ n ih =>
      have hfirst {u : Target} (hu : u ∈ t :: path) :
          u ∈ path ∨ ReflTransGen (fun a b => next a = some b) t u := by
        rcases List.mem_cons.mp hu with rfl | hu
        · exact .inr .refl
        · exact .inl hu
      intro u hu
      rcases walk_cases next done path t n with
        ⟨-, heq⟩ | ⟨-, -, heq⟩ | ⟨-, -, -, heq⟩ | ⟨-, -, v, hv, heq⟩ <;> rw [heq] at hwalk
      · rw [Walk.ends.injEq] at hwalk
        exact .inl (hwalk ▸ hu)
      · cases hwalk
      · rw [Walk.ends.injEq] at hwalk
        exact hfirst (hwalk ▸ hu)
      · rcases ih hwalk u hu with hu | hu
        · exact hfirst hu
        · exact .inr (.head hv hu)

end Walk

/-! ## All walks -/

section Arrange
variable {done keys ts : List Target}

/-- What can be reached from an order is in it. -/
theorem mem_of_reflTransGen {l : List Target} (hl : InOrder next l) {t u : Target} (ht : t ∈ l)
    (h : ReflTransGen (fun a b => next a = some b) t u) : u ∈ l := by
  induction h with
  | refl => exact ht
  | tail _ hu ih => exact mem_of_inOrder hl ih hu

/-- Of a walk from a key, the targets that it passed go behind the order, with the key among
them. -/
theorem inOrder_of_walk (hnext : ∀ a b, next a = some b → b ∈ keys) (hdone : InOrder next done)
    {t : Target} (ht : t ∈ keys) {path : List Target}
    (hwalk : walk next done (keys.length + 1) [] t = .ends path) :
    InOrder next (done ++ path) ∧ t ∈ done ++ path := by
  have hnil : Trail next done keys [] t := trail_nil ht
  have hsound := walk_sound hnext hnil (n := keys.length + 1) (by simp)
  rw [hwalk] at hsound
  obtain ⟨hpassed, -, hmem⟩ := hsound
  exact ⟨inOrder_append hdone hpassed, List.mem_append.mpr hmem⟩

/-- The walk that finds a circle is the first that leads into one. -/
theorem exists_enters_of_arrange (hnext : ∀ a b, next a = some b → b ∈ keys)
    (hdone : InOrder next done) (hts : ts ⊆ keys) {chain : List Target}
    (h : arrange next (keys.length + 1) done ts = .error chain) :
    ∃ before start after, ts = before ++ start :: after ∧ Enters next start chain ∧
      ∀ t ∈ before, ∀ u, ReflTransGen (fun a b => next a = some b) t u →
        ¬ TransGen (fun a b => next a = some b) u u := by
  induction ts generalizing done with
  | nil => cases h
  | cons t ts ih =>
      obtain ⟨ht, hts⟩ := List.cons_subset.mp hts
      rw [arrange] at h
      cases hwalk : walk next done (keys.length + 1) [] t with
      | circles circle =>
          rw [hwalk, Except.error.injEq] at h
          subst h
          exact ⟨[], t, ts, rfl, enters_of_walk hnext (trail_nil ht) rfl hwalk, by simp⟩
      | ends path =>
          rw [hwalk] at h
          obtain ⟨horder, hmem⟩ := inOrder_of_walk hnext hdone ht hwalk
          obtain ⟨before, start, after, rfl, henters, hbefore⟩ := ih horder hts h
          refine ⟨t :: before, start, after, rfl, henters, List.forall_mem_cons.mpr ⟨?_, hbefore⟩⟩
          intro u hu
          exact not_transGen_self_of_inOrder horder (mem_of_reflTransGen horder hmem hu)

theorem isPrefix_of_arrange {n : Nat} {order : List Target}
    (h : arrange next n done ts = .ok order) : done <+: order := by
  induction ts generalizing done with
  | nil =>
      rw [arrange, Except.ok.injEq] at h
      exact h ▸ List.prefix_refl _
  | cons t ts ih =>
      rw [arrange] at h
      cases hwalk : walk next done n [] t with
      | circles circle => simp [hwalk] at h
      | ends path =>
          rw [hwalk] at h
          exact (List.prefix_append _ _).trans (ih h)

/-- A target comes into the order with the walk of a target that depends on it, behind whatever was
to be arranged before that one. -/
theorem exists_walk_of_mem_arrange (hnext : ∀ a b, next a = some b → b ∈ keys)
    (hdone : InOrder next done) (hts : ts ⊆ keys) {order : List Target}
    (h : arrange next (keys.length + 1) done ts = .ok order) {u : Target} (hu : u ∈ order)
    (hud : u ∉ done) :
    ∃ before t after, ts = before ++ t :: after ∧
      ReflTransGen (fun a b => next a = some b) t u ∧
      ∃ front, front <+: order ∧ done ⊆ front ∧ before ⊆ front ∧ u ∉ front := by
  induction ts generalizing done with
  | nil =>
      rw [arrange, Except.ok.injEq] at h
      exact absurd (h ▸ hu) hud
  | cons t ts ih =>
      obtain ⟨ht, hts⟩ := List.cons_subset.mp hts
      have hprefix := isPrefix_of_arrange h
      rw [arrange] at h
      cases hwalk : walk next done (keys.length + 1) [] t with
      | circles circle => simp [hwalk] at h
      | ends path =>
          rw [hwalk] at h
          by_cases hup : u ∈ path
          · -- `u` comes in with this walk
            have hreach := (reflTransGen_of_walk hwalk u hup).resolve_left List.not_mem_nil
            exact ⟨[], t, ts, rfl, hreach, done, hprefix, List.Subset.refl _, List.nil_subset _,
              hud⟩
          · obtain ⟨horder, hmem⟩ := inOrder_of_walk hnext hdone ht hwalk
            have hudp : u ∉ done ++ path := by simp [hud, hup]
            obtain ⟨before, t', after, rfl, hreach, front, hfront, hdf, hbefore, huf⟩ :=
              ih horder hts h hudp
            exact ⟨t :: before, t', after, rfl, hreach, front, hfront,
              List.Subset.trans (List.subset_append_left _ _) hdf,
              List.cons_subset.mpr ⟨hdf hmem, hbefore⟩, huf⟩

end Arrange

end CommitOrder

/-! ## The bindings of a sheet -/

namespace Stylesheet

theorem dependency?_eq_dependsOn (scope : Scope) (s : Stylesheet) (b : Table Target Supply) :
    (fun g h => (RefIndex.ofSheet scope s).dependency? b g = some h) = s.DependsOn b :=
  funext₂ fun _ _ => propext RefIndex.dependency?_ofSheet_iff

/-- When there is no order, and what is reported then.  A circle is found exactly when there is one.
It is a circle of dependencies that passes no target twice, and it is the one into which the
earliest binding leads that leads into any; it begins with the first of its targets on the way. -/
theorem commitOrder_circle (scope : Scope) (s : Stylesheet) (b : Table Target Supply) :
    ((∃ chain, (RefIndex.ofSheet scope s).commitOrder b = .error chain) ↔
      ∃ g, TransGen (s.DependsOn b) g g) ∧
    ∀ chain, (RefIndex.ofSheet scope s).commitOrder b = .error chain →
      (∃ g rest, chain = g :: rest ++ [g] ∧ (g :: rest).Nodup ∧ chain.IsChain (s.DependsOn b) ∧
        ∃ before start after way, b.keys = before ++ start :: after ∧
          (∀ t ∈ before, ∀ u, ReflTransGen (s.DependsOn b) t u →
            ¬ TransGen (s.DependsOn b) u u) ∧
          (way ++ [g]).head? = some start ∧ (way ++ [g]).IsChain (s.DependsOn b) ∧
          ∀ t ∈ way, t ∉ chain) ∧
      ∀ l : Ledger, l.index = .ofSheet scope s → l.bindings = b → l.unresolved = [] →
        ∀ now, l.commit now = (now, .error (.cyclic (chain.map Target.render))) := by
  rw [← dependency?_eq_dependsOn scope]
  refine ⟨RefIndex.exists_commitOrder_error_iff, fun chain h => ⟨?_, ?_⟩⟩
  · obtain ⟨g, rest, rfl, hnodup, hchain⟩ := RefIndex.commitOrder_error h
    obtain ⟨before, start, after, hkeys, ⟨way, g', hg, hstart, hway, hout⟩, hbefore⟩ :=
      CommitOrder.exists_enters_of_arrange RefIndex.mem_keys_of_dependency? CommitOrder.inOrder_nil
        (List.Subset.refl _) h
    obtain rfl : g = g' := by simpa using hg
    exact ⟨g, rest, rfl, hnodup, hchain, before, start, after, way, hkeys, hbefore, hstart, hway,
      hout⟩
  · intro l hindex hbindings hserved now
    subst hbindings
    rw [Ledger.commit, if_neg (by simp [hserved]), hindex, h]

def width (selector : String) : Target := ⟨selector.toList, "width".toList⟩

/-- Two rules that ask for each other's value, and one that asks for that of the second. -/
def sidetrack : Stylesheet where
  rules :=
    [⟨".a".toList, [⟨"width".toList, "ref(.b, width)".toList, false⟩], none⟩,
      ⟨".b".toList, [⟨"width".toList, "ref(.a, width)".toList, false⟩], none⟩,
      ⟨".c".toList, [⟨"width".toList, "ref(.b, width)".toList, false⟩], none⟩]

/-- Bindings for the sheet that begin outside the circle. -/
def roundabout : Table Target Supply where
  entries :=
    [(width ".d", .fallback "1px".toList), (width ".c", .declaration ⟨2, 0⟩),
      (width ".a", .declaration ⟨0, 0⟩), (width ".b", .declaration ⟨1, 0⟩)]
  nodup := by decide

theorem commitOrder_circle_sidetrack :
    ∃ chain, (RefIndex.ofSheet .selector sidetrack).commitOrder roundabout = .error chain ∧
      chain.head? = some (width ".b") ∧ chain.IsChain (sidetrack.DependsOn roundabout) ∧
      width ".c" ∉ chain := by
  have h : (RefIndex.ofSheet .selector sidetrack).commitOrder roundabout =
      .error [width ".b", width ".a", width ".b"] := by decide +kernel
  obtain ⟨⟨-, -, -, -, hchain, -⟩, -⟩ := (commitOrder_circle .selector sidetrack roundabout).2 _ h
  exact ⟨_, h, rfl, hchain, by decide⟩

/-- The order of writing.  It has each bound target once, behind the one that it depends on, and it
keeps the bindings in their order but for what is needed earlier: a target that overtakes another is
a dependency, be it through others, of that one or of one bound before it. -/
theorem commitOrder_stable {scope : Scope} {s : Stylesheet} {b : Table Target Supply}
    {order : List Target} (h : (RefIndex.ofSheet scope s).commitOrder b = .ok order) :
    order.Nodup ∧ (∀ g, g ∈ order ↔ g ∈ b.keys) ∧
      (∀ g u, s.DependsOn b g u → u ∈ order ∧ order.idxOf u < order.idxOf g) ∧
      ∀ g₁ g₂, b.keys.idxOf g₁ < b.keys.idxOf g₂ → order.idxOf g₂ < order.idxOf g₁ →
        ∃ g ∈ b.keys, b.keys.idxOf g ≤ b.keys.idxOf g₁ ∧ TransGen (s.DependsOn b) g g₂ := by
  obtain ⟨hin, hperm⟩ := RefIndex.commitOrder_ok h
  refine ⟨hperm.nodup_iff.mpr b.nodup_keys, fun g => hperm.mem_iff, fun g u hgu => ?_,
    fun g₁ g₂ hkeys horder => ?_⟩
  · have hg : g ∈ order := by
      obtain ⟨r, -, hr, -⟩ := hgu
      exact hperm.mem_iff.mpr ((b.mem_keys_iff g).mpr (by simp [hr]))
    have hnext : (RefIndex.ofSheet scope s).dependency? b g = some u :=
      RefIndex.dependency?_ofSheet_iff.mpr hgu
    exact ⟨CommitOrder.mem_of_inOrder hin hg hnext, CommitOrder.idxOf_lt_of_inOrder hin hg hnext⟩
  · have hg₂ : g₂ ∈ order := by
      refine List.idxOf_lt_length_iff.mp (Nat.lt_of_lt_of_le horder ?_)
      exact List.idxOf_le_length
    obtain ⟨before, t, after, hsplit, hreach, front, ⟨back, rfl⟩, -, hbefore, hfront⟩ :=
      CommitOrder.exists_walk_of_mem_arrange RefIndex.mem_keys_of_dependency?
        CommitOrder.inOrder_nil (List.Subset.refl _) h hg₂ List.not_mem_nil
    rw [dependency?_eq_dependsOn] at hreach
    -- what stands before `t` among the keys is in order before `g₂`
    have hg₁ : g₁ ∉ before := by
      intro hmem
      rw [List.idxOf_append_of_mem (hbefore hmem), List.idxOf_append_of_notMem hfront] at horder
      have := List.idxOf_lt_length_of_mem (hbefore hmem)
      omega
    have ht : t ∉ before := by
      have hnodup := b.nodup_keys
      rw [hsplit] at hnodup
      exact fun hmem => (List.nodup_append.mp hnodup).2.2 t hmem t List.mem_cons_self rfl
    have hle : b.keys.idxOf t ≤ b.keys.idxOf g₁ := by
      rw [hsplit, List.idxOf_append_of_notMem ht, List.idxOf_append_of_notMem hg₁]
      simp
    refine ⟨t, by simp [hsplit], hle, ?_⟩
    rcases reflTransGen_iff_eq_or_transGen.mp hreach with rfl | htrans
    · omega
    · exact htrans

/-- Three rules, each of which asks for a value of the next. -/
def handedDown : Stylesheet where
  rules :=
    [⟨".a".toList, [⟨"width".toList, "ref(.b, width)".toList, false⟩], none⟩,
      ⟨".b".toList, [⟨"width".toList, "ref(.c, width)".toList, false⟩], none⟩,
      ⟨".c".toList, [⟨"width".toList, "2px".toList, false⟩], none⟩]

/-- Bindings for the sheet in which a target that nothing depends on stands between the two. -/
def interposed : Table Target Supply where
  entries :=
    [(width ".b", .declaration ⟨1, 0⟩), (width ".d", .fallback "1px".toList),
      (width ".c", .declaration ⟨2, 0⟩)]
  nodup := by decide

theorem commitOrder_stable_interposed :
    ∃ order, (RefIndex.ofSheet .property handedDown).commitOrder interposed = .ok order ∧
      order.idxOf (width ".c") < order.idxOf (width ".d") ∧
      ∃ g ∈ interposed.keys, interposed.keys.idxOf g ≤ interposed.keys.idxOf (width ".d") ∧
        TransGen (handedDown.DependsOn interposed) g (width ".c") := by
  have h : (RefIndex.ofSheet .property handedDown).commitOrder interposed =
      .ok [width ".c", width ".b", width ".d"] := by decide +kernel
  obtain ⟨-, -, -, hstable⟩ := commitOrder_stable h
  exact ⟨_, h, by decide, hstable (width ".d") (width ".c") (by decide) (by decide)⟩

end Stylesheet

end StyleRef
