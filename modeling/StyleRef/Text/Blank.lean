/-
# Texts and their blanks

A text is a list of Unicode scalar values.  Every cut, search and comparison in
this library is by scalar value, never by byte, so a text is what an induction
wants it to be: a list.

A *blank* is a character with the Unicode property `White_Space`.  This is the
set that trimming removes; the white space of style sheets is a smaller set of
its own (`Css.isSpace`).  Main statements: trimming leaves no blank at either
end, takes away nothing but blanks, and does nothing the second time
(`trim_trim`).
-/

namespace StyleRef

/-- A text: its Unicode scalar values in order. -/
abbrev Text := List Char

/-- Named once, so that a search in a list of texts is the same one everywhere. -/
instance : LawfulBEq Text := inferInstance

/-! What is said of the characters of a text is decided by going through the text, not through all
characters that there are. -/

section Decide
variable (p : Char → Prop) [DecidablePred p]

instance (priority := high) decForallChar (s : Text) : Decidable (∀ c ∈ s, p c) :=
  List.decidableBAll p s

instance (priority := high) decForallEnd (c? : Option Char) : Decidable (∀ c ∈ c?, p c) :=
  Option.decidableForallMem c?

instance (priority := high) decExistsEnd (c? : Option Char) : Decidable (∃ c ∈ c?, p c) :=
  Option.decidableExistsMem c?

end Decide

/-- The characters with the Unicode property `White_Space`. -/
def isBlank (c : Char) : Bool :=
  let n := c.toNat
  (0x9 ≤ n && n ≤ 0xD) || n == 0x20 || n == 0x85 || n == 0xA0 || n == 0x1680
    || (0x2000 ≤ n && n ≤ 0x200A) || n == 0x2028 || n == 0x2029 || n == 0x202F
    || n == 0x205F || n == 0x3000

namespace Text

/-! ## Trimming -/

def trimStart (s : Text) : Text := s.dropWhile isBlank

def trimEnd (s : Text) : Text := (s.reverse.dropWhile isBlank).reverse

def trim (s : Text) : Text := trimEnd (trimStart s)

/-- A text is *tidy* when neither end of it is a blank. -/
def Tidy (s : Text) : Prop :=
  (∀ c ∈ s.head?, isBlank c = false) ∧ (∀ c ∈ s.getLast?, isBlank c = false)

instance (s : Text) : Decidable (Tidy s) :=
  @instDecidableAnd _ _ (Option.decidableForallMem s.head?) (Option.decidableForallMem s.getLast?)

theorem head?_dropWhile_not {α : Type} (p : α → Bool) (s : List α) :
    ∀ a ∈ (s.dropWhile p).head?, p a = false := by
  intro a ha
  have h := List.head?_dropWhile_not p s
  rw [Option.mem_def.mp ha] at h
  simpa using h

theorem not_of_dropWhile_eq_cons {α : Type} {p : α → Bool} {s rest : List α} {a : α}
    (h : s.dropWhile p = a :: rest) : p a = false :=
  head?_dropWhile_not p s a (by rw [h]; rfl)

theorem dropWhile_eq_self {α : Type} {p : α → Bool} {l : List α}
    (h : ∀ a ∈ l.head?, p a = false) : l.dropWhile p = l := by
  cases l with
  | nil => rfl
  | cons a l => exact List.dropWhile_cons_of_neg (by simp [h a rfl])

theorem getLast?_trimEnd (s : Text) : ∀ c ∈ (trimEnd s).getLast?, isBlank c = false := by
  simpa [trimEnd] using head?_dropWhile_not isBlank s.reverse

theorem trimEnd_append (s : Text) :
    ∃ b : Text, s = trimEnd s ++ b ∧ ∀ c ∈ b, isBlank c = true := by
  refine ⟨(s.reverse.takeWhile isBlank).reverse, ?_, ?_⟩
  · have h := congrArg List.reverse (List.takeWhile_append_dropWhile (p := isBlank) (l := s.reverse))
    rw [List.reverse_append, List.reverse_reverse] at h
    exact h.symm
  · intro c hc
    rw [List.mem_reverse] at hc
    exact List.all_eq_true.mp List.all_takeWhile c hc

theorem append_trimStart (s : Text) :
    ∃ a : Text, s = a ++ trimStart s ∧ ∀ c ∈ a, isBlank c = true :=
  ⟨s.takeWhile isBlank, (List.takeWhile_append_dropWhile).symm,
    fun c hc => List.all_eq_true.mp List.all_takeWhile c hc⟩

/-- A text is its trimmed part between two runs of blanks. -/
theorem trim_between (s : Text) :
    ∃ a b : Text, s = a ++ trim s ++ b ∧ (∀ c ∈ a, isBlank c = true) ∧
      ∀ c ∈ b, isBlank c = true := by
  obtain ⟨a, ha, hab⟩ := append_trimStart s
  obtain ⟨b, hb, hbb⟩ := trimEnd_append (trimStart s)
  refine ⟨a, b, ?_, hab, hbb⟩
  rw [List.append_assoc, trim, ← hb]
  exact ha

theorem trimEnd_eq_self {s : Text} (h : ∀ c ∈ s.getLast?, isBlank c = false) :
    trimEnd s = s := by
  have hr : s.reverse.dropWhile isBlank = s.reverse := dropWhile_eq_self (by simpa using h)
  rw [trimEnd, hr, List.reverse_reverse]

theorem trim_eq_self {s : Text} (h : Tidy s) : trim s = s := by
  have hs : trimStart s = s := dropWhile_eq_self h.1
  rw [trim, hs, trimEnd_eq_self h.2]

theorem tidy_trim (s : Text) : Tidy (trim s) := by
  refine ⟨?_, getLast?_trimEnd _⟩
  intro c hc
  obtain ⟨b, hb, -⟩ := trimEnd_append (trimStart s)
  have hne : trim s ≠ [] := by
    intro h0
    rw [h0] at hc
    cases hc
  have hhead : (trimStart s).head? = (trim s).head? := by
    conv => lhs; rw [hb]
    cases ht : trim s with
    | nil => exact absurd ht hne
    | cons a r =>
      have : trimEnd (trimStart s) = a :: r := ht
      rw [this]
      rfl
  exact head?_dropWhile_not isBlank s c (by rw [← trimStart, hhead]; exact hc)

theorem trim_trim (s : Text) : trim (trim s) = trim s :=
  trim_eq_self (tidy_trim s)

/-! ## Blanks around a text -/

theorem trimStart_append {a : Text} (ha : ∀ c ∈ a, isBlank c = true) (s : Text) :
    trimStart (a ++ s) = trimStart s :=
  List.dropWhile_append_of_pos ha

theorem trimStart_eq_nil_iff {s : Text} : trimStart s = [] ↔ ∀ c ∈ s, isBlank c = true := by
  constructor
  · intro h
    obtain ⟨a, ha, hblank⟩ := append_trimStart s
    rw [h, List.append_nil] at ha
    rwa [ha]
  · intro h
    simpa [trimStart] using trimStart_append h []

theorem trimEnd_append_blanks {b : Text} (hb : ∀ c ∈ b, isBlank c = true) (s : Text) :
    trimEnd (s ++ b) = trimEnd s := by
  have hdrop := trimStart_append (a := b.reverse) (by simpa using hb) s.reverse
  simpa [trimEnd, trimStart] using hdrop

theorem trim_append {a b : Text} (ha : ∀ c ∈ a, isBlank c = true) (hb : ∀ c ∈ b, isBlank c = true)
    (s : Text) : trim (a ++ s ++ b) = trim s := by
  rw [List.append_assoc, trim, trimStart_append ha, trim]
  by_cases hs : trimStart s = []
  · have hall : ∀ c ∈ s ++ b, isBlank c = true := by
      intro c hc
      exact (List.mem_append.mp hc).elim (trimStart_eq_nil_iff.mp hs c) (hb c)
    rw [trimStart_eq_nil_iff.mpr hall, hs]
  · rw [trimStart, List.dropWhile_append, if_neg (by simpa [trimStart] using hs)]
    exact trimEnd_append_blanks hb _

theorem trim_trimEnd (s : Text) : trim (trimEnd s) = trim s := by
  obtain ⟨b, hb, hblank⟩ := trimEnd_append s
  conv => rhs; rw [hb]
  exact (trim_append (a := []) nofun hblank (trimEnd s)).symm

theorem trimStart_append_cons {c : Char} (hc : isBlank c = false) (a b : Text) :
    trimStart (a ++ c :: b) = trimStart a ++ c :: b := by
  induction a with
  | nil => simp [trimStart, hc]
  | cons d a ih =>
    by_cases hd : isBlank d = true
    · simpa [trimStart, hd] using ih
    · simp [trimStart, hd]

/-- Two texts around a character that is no blank are trimmed at their outer ends. -/
theorem trim_append_cons {c : Char} (hc : isBlank c = false) (a b : Text) :
    trim (a ++ c :: b) = trimStart a ++ c :: trimEnd b := by
  have hend := trimStart_append_cons hc b.reverse (trimStart a).reverse
  rw [trim, trimStart_append_cons hc, trimEnd, List.reverse_append, List.reverse_cons,
    List.append_assoc, List.singleton_append, ← trimStart, hend]
  simp [trimEnd, trimStart]

/-- A tidy text between blanks is found again. -/
theorem trim_of_tidy {a v b : Text} (hv : Tidy v) (ha : ∀ c ∈ a, isBlank c = true)
    (hb : ∀ c ∈ b, isBlank c = true) : trim (a ++ v ++ b) = v := by
  rw [trim_append ha hb, trim_eq_self hv]

end Text

end StyleRef
