import StyleRef.Table
import Mathlib.Data.List.Basic
import Mathlib.Data.List.Nodup
import Mathlib.Data.List.Perm.Basic

/-
# Filling a table from a list

Tables are filled by one pass over a list: the entries of an index, the groups
of an entry and the bindings of a ledger all come about in this way.  What such
a pass leaves behind is said here for each view of a table.  As a list of keys it
is the keys of the list, each at its first appearance; as a function it is, at a
key, the same pass over the part of the list that has this key.
-/

namespace StyleRef

/-! ## First appearances -/

section FirstAppearance
variable {α : Type} [BEq α] [LawfulBEq α]

theorem eraseDups_append_cons_of_mem {l : List α} {a : α} (h : a ∈ l) (m : List α) :
    (l ++ a :: m).eraseDups = (l ++ m).eraseDups := by
  rw [List.eraseDups_append, List.eraseDups_append]
  simp [List.removeAll, h]

theorem nodup_eraseDups : ∀ l : List α, l.eraseDups.Nodup
  | [] => by simp
  | a :: l => by
      -- the recursion is on the rest without `a`, which is no longer than the rest
      have : (l.filter fun b => !b == a).length < l.length + 1 :=
        Nat.lt_succ_of_le (List.length_filter_le _ l)
      rw [List.eraseDups_cons]
      exact List.nodup_cons.mpr ⟨by simp, nodup_eraseDups _⟩
termination_by l => l.length

theorem eraseDups_eq_self {l : List α} (h : l.Nodup) : l.eraseDups = l := by
  induction l with
  | nil => rfl
  | cons a l ih =>
      obtain ⟨ha, hl⟩ := List.nodup_cons.mp h
      have hfilter : (l.filter fun b => !b == a) = l := by
        refine List.filter_eq_self.mpr fun b hb => ?_
        have : b ≠ a := fun e => ha (e ▸ hb)
        simpa using this
      rw [List.eraseDups_cons, hfilter, ih hl]

/-- What is appended to a list without repetitions adds the new elements only. -/
theorem eraseDups_append_of_nodup {l : List α} (h : l.Nodup) (m : List α) :
    (l ++ m).eraseDups = l ++ (m.filter (· ∉ l)).eraseDups := by
  rw [List.eraseDups_append, eraseDups_eq_self h]
  congr 2
  simp [List.removeAll]

/-- Elements that were seen before add nothing. -/
theorem eraseDups_append_of_subset {l m : List α} (h : m ⊆ l) :
    (l ++ m).eraseDups = l.eraseDups := by
  induction m with
  | nil => simp
  | cons a m ih =>
      rw [eraseDups_append_cons_of_mem (h List.mem_cons_self)]
      exact ih fun b hb => h (List.mem_cons_of_mem _ hb)

end FirstAppearance

namespace Table

variable {κ ν ε : Type} [DecidableEq κ]

/-! ## One pass over a list -/

/-- The keys after a pass: those that were there, then the new ones as they come. -/
theorem keys_foldl_update [BEq κ] [LawfulBEq κ] (key : ε → κ) (f : ε → Option ν → ν) (l : List ε)
    (t : Table κ ν) :
    (l.foldl (fun t e => t.update (key e) (f e)) t).keys = (t.keys ++ l.map key).eraseDups := by
  induction l generalizing t with
  | nil =>
      have : t.keys.Nodup := t.nodup_keys
      simp [eraseDups_eq_self this]
  | cons e l ih =>
      rw [List.foldl_cons, ih, keys_update, List.map_cons]
      split
      · next h => rw [eraseDups_append_cons_of_mem h]
      · simp

/-- The value of a key after a pass: the same pass over what the list has for the key. -/
theorem get?_foldl_update (key : ε → κ) (f : ε → Option ν → ν) (l : List ε) (t : Table κ ν)
    (k : κ) :
    (l.foldl (fun t e => t.update (key e) (f e)) t).get? k =
      (l.filter (key · = k)).foldl (fun old e => some (f e old)) (t.get? k) := by
  induction l generalizing t with
  | nil => rfl
  | cons e l ih =>
      rw [List.foldl_cons, ih, get?_update]
      by_cases h : key e = k
      · subst h; simp
      · simp [h, Ne.symm h]

/-- A pass that sets leaves the last value that the list has for the key. -/
theorem get?_foldl_set (key : ε → κ) (f : ε → ν) (l : List ε) (t : Table κ ν) (k : κ) :
    (l.foldl (fun t e => t.set (key e) (f e)) t).get? k =
      ((l.reverse.find? (key · = k)).map f).or (t.get? k) := by
  induction l generalizing t with
  | nil => rfl
  | cons e l ih =>
      rw [List.foldl_cons, ih, get?_set, List.reverse_cons, List.find?_append]
      by_cases h : key e = k
      · subst h
        cases l.reverse.find? (key · = key e) <;> simp
      · simp [h, Ne.symm h]

/-- A pass that sets only new keys leaves what was there, and else the first value that the list
has for the key. -/
theorem get?_foldl_setIfNew (key : ε → κ) (f : ε → ν) (l : List ε) (t : Table κ ν) (k : κ) :
    (l.foldl (fun t e => t.setIfNew (key e) (f e)) t).get? k =
      (t.get? k).or ((l.find? (key · = k)).map f) := by
  induction l generalizing t with
  | nil => simp
  | cons e l ih =>
      rw [List.foldl_cons, ih, get?_setIfNew]
      by_cases h : key e = k
      · subst h
        cases t.get? (key e) <;> simp
      · simp [h, Ne.symm h]

/-- A pass that erases takes out the keys of the list. -/
theorem get?_foldl_erase (l : List κ) (t : Table κ ν) (k : κ) :
    (l.foldl erase t).get? k = if k ∈ l then none else t.get? k := by
  induction l generalizing t with
  | nil => rfl
  | cons a l ih =>
      rw [List.foldl_cons, ih, get?_erase]
      by_cases h : k = a <;> simp [h]

theorem keys_foldl_erase (l : List κ) (t : Table κ ν) :
    (l.foldl erase t).keys = t.keys.filter (· ∉ l) := by
  induction l generalizing t with
  | nil => simp
  | cons a l ih =>
      rw [List.foldl_cons, ih, keys_erase, List.filter_filter]
      refine List.filter_congr fun k _ => ?_
      by_cases h : k = a <;> simp [h]

/-! ## Listing a table by its keys -/

theorem entries_eq_map_keys (t : Table κ ν) (d : ν) :
    t.entries = t.keys.map fun k => (k, (t.get? k).getD d) := by
  conv => lhs; rw [← List.map_id t.entries]
  rw [keys, List.map_map]
  refine List.map_congr_left fun e he => ?_
  simp [(mem_entries_iff t e.1 e.2).mp he]

theorem find?_entries (t : Table κ ν) (k : κ) :
    (t.entries.find? (·.1 = k)).map (·.2) = t.get? k := by
  rw [get?]
  induction t.entries with
  | nil => rfl
  | cons e l ih =>
      obtain ⟨a, v⟩ := e
      by_cases h : a = k <;> simp [valueIn?, h, ih]

end Table

end StyleRef
