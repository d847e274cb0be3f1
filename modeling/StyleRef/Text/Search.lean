import StyleRef.Text.Blank

/-
# Searching a text

The first place at which a character or a pattern stands, as the two texts
around it.  Main statements: the parts and what was found between them make up
the text again, and nothing was found any earlier.
-/

namespace StyleRef.Text

/-! ## The first occurrence of a character -/

def breakAt? (c : Char) : Text → Option (Text × Text)
  | [] => none
  | d :: s => if d = c then some ([], s) else (breakAt? c s).map fun (a, b) => (d :: a, b)

/-- What `breakAt?` returns surrounds the first `c`, and before it there is none. -/
theorem breakAt?_eq_some_iff {c : Char} {s a b : Text} :
    breakAt? c s = some (a, b) ↔ s = a ++ c :: b ∧ c ∉ a := by
  induction s generalizing a with
  | nil => simp [breakAt?]
  | cons d s ih =>
    by_cases h : d = c
    · subst h
      constructor
      · intro e
        simp only [breakAt?, ↓reduceIte, Option.some.injEq, Prod.mk.injEq] at e
        obtain ⟨rfl, rfl⟩ := e
        simp
      · rintro ⟨e, hn⟩
        cases a with
        | nil => simp_all [breakAt?]
        | cons x a => simp_all
    · constructor
      · intro e
        simp only [breakAt?, h, ↓reduceIte, Option.map_eq_some_iff, Prod.exists,
          Prod.mk.injEq] at e
        obtain ⟨a', b', e', rfl, rfl⟩ := e
        obtain ⟨rfl, hn⟩ := ih.mp e'
        exact ⟨rfl, by simpa [Ne.symm h] using hn⟩
      · rintro ⟨e, hn⟩
        cases a with
        | nil => simp_all
        | cons x a =>
          simp only [List.cons_append, List.cons.injEq] at e
          obtain ⟨rfl, rfl⟩ := e
          have := (ih (a := a)).mpr ⟨rfl, by simp_all⟩
          simp [breakAt?, h, this]

theorem breakAt?_eq_none_iff {c : Char} {s : Text} : breakAt? c s = none ↔ c ∉ s := by
  induction s with
  | nil => simp [breakAt?]
  | cons d s ih =>
    by_cases h : d = c
    · simp [breakAt?, h]
    · simp [breakAt?, h, ih, Ne.symm h]

def breakAtLast? (c : Char) (s : Text) : Option (Text × Text) :=
  (breakAt? c s.reverse).map fun (b, a) => (a.reverse, b.reverse)

/-- What `breakAtLast?` returns surrounds the last `c`, and after it there is none. -/
theorem breakAtLast?_eq_some_iff {c : Char} {s a b : Text} :
    breakAtLast? c s = some (a, b) ↔ s = a ++ c :: b ∧ c ∉ b := by
  simp only [breakAtLast?, Option.map_eq_some_iff, Prod.exists, Prod.mk.injEq]
  constructor
  · rintro ⟨b', a', h, rfl, rfl⟩
    obtain ⟨h, hn⟩ := breakAt?_eq_some_iff.mp h
    exact ⟨by rw [← s.reverse_reverse, h]; simp, by simpa using hn⟩
  · rintro ⟨rfl, hn⟩
    exact ⟨b.reverse, a.reverse, breakAt?_eq_some_iff.mpr ⟨by simp, by simpa using hn⟩,
      by simp, by simp⟩

/-! ## The first occurrence of a pattern -/

/-- The texts before and after the first place at which `pattern` stands. -/
def cut? (pattern : Text) : Text → Option (Text × Text)
  | [] => (pattern.isPrefixOf? []).map (([], ·))
  | c :: s =>
    match pattern.isPrefixOf? (c :: s) with
    | some r => some ([], r)
    | none => (cut? pattern s).map fun (a, b) => (c :: a, b)

/-- Replaces the first place at which `pattern` stands; without one, nothing changes. -/
def replaceFirst (pattern replacement s : Text) : Text :=
  match cut? pattern s with
  | none => s
  | some (a, b) => a ++ replacement ++ b

theorem isPrefixOf?_eq_some_iff {p s r : Text} : p.isPrefixOf? s = some r ↔ s = p ++ r := by
  induction p generalizing s with
  | nil =>
    have hstep : List.isPrefixOf? [] s = some s := by cases s <;> rfl
    simp [hstep, eq_comm]
  | cons a p ih =>
    cases s with
    | nil =>
      have hstep : (a :: p).isPrefixOf? [] = none := rfl
      simp [hstep]
    | cons c s =>
      have hstep : (a :: p).isPrefixOf? (c :: s) = if a == c then p.isPrefixOf? s else none := rfl
      by_cases h : a = c
      · subst h; simp [hstep, ih]
      · simp [hstep, h, Ne.symm h]

theorem eq_of_cut? {pattern s a b : Text} (h : cut? pattern s = some (a, b)) :
    s = a ++ pattern ++ b := by
  induction s generalizing a with
  | nil =>
    simp only [cut?, Option.map_eq_some_iff, Prod.mk.injEq] at h
    obtain ⟨r, hr, rfl, rfl⟩ := h
    exact isPrefixOf?_eq_some_iff.mp hr
  | cons c s ih =>
    simp only [cut?] at h
    split at h
    · next r hr =>
      simp only [Option.some.injEq, Prod.mk.injEq] at h
      obtain ⟨rfl, rfl⟩ := h
      exact isPrefixOf?_eq_some_iff.mp hr
    · simp only [Option.map_eq_some_iff, Prod.exists, Prod.mk.injEq] at h
      obtain ⟨a', b', e, rfl, rfl⟩ := h
      simp [ih e]

theorem cut?_eq_none_iff {pattern s : Text} : cut? pattern s = none ↔ ¬ pattern <:+: s := by
  induction s with
  | nil =>
    cases pattern with
    | nil =>
      have hstep : List.isPrefixOf? ([] : Text) [] = some [] := rfl
      simp [cut?, hstep]
    | cons a p =>
      have hstep : (a :: p).isPrefixOf? [] = none := rfl
      simp [cut?, hstep]
  | cons c s ih =>
    rw [List.infix_cons_iff, not_or, ← ih, cut?]
    cases hp : pattern.isPrefixOf? (c :: s) with
    | some r =>
      have := isPrefixOf?_eq_some_iff.mp hp
      simp only [reduceCtorEq, false_iff, not_and]
      exact fun hn => absurd ⟨r, this.symm⟩ hn
    | none =>
      simp only [Option.map_eq_none_iff, iff_and_self]
      rintro - ⟨r, hr⟩
      rw [isPrefixOf?_eq_some_iff.mpr hr.symm] at hp
      cases hp

/-! ## Expanding a placeholder, comparing without case -/

def expand (placeholder : Char) (replacement s : Text) : Text :=
  s.flatMap fun c => if c = placeholder then replacement else [c]

theorem expand_eq_self {p : Char} {r s : Text} (h : p ∉ s) : expand p r s = s := by
  induction s with
  | nil => rfl
  | cons c s ih =>
    simp only [List.mem_cons, not_or] at h
    simp only [expand, List.flatMap_cons, Ne.symm h.1, ↓reduceIte, List.singleton_append]
    exact congrArg _ (ih h.2)

/-- Equality up to the case of ASCII letters. -/
def sameIgnoringCase (s t : Text) : Bool := s.map Char.toLower == t.map Char.toLower

end StyleRef.Text
