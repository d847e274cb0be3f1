/-
# Tables that remember their order

A finite map from keys to values, listed in the order in which the keys first
came in.  Setting a key again keeps its position; erasing it moves the later
keys up; setting it after that appends it anew.  No key is listed twice: that is
part of the type, so a table can be read as a function (`get?`) or as a list
(`entries`), and the two views never disagree.

Each operation has one lemma for each view, and nothing else unfolds it.
-/

namespace StyleRef

/-- A finite map whose keys keep the order in which they first came in. -/
structure Table (κ ν : Type) where
  /-- The keys with their values, oldest first. -/
  entries : List (κ × ν)
  nodup : (entries.map Prod.fst).Nodup
deriving DecidableEq

namespace Table

variable {κ ν : Type} [DecidableEq κ]

def empty : Table κ ν := ⟨[], List.nodup_nil⟩

instance : Inhabited (Table κ ν) := ⟨empty⟩

def keys (t : Table κ ν) : List κ := t.entries.map Prod.fst

def valueIn? (k : κ) : List (κ × ν) → Option ν
  | [] => none
  | (a, v) :: r => if a = k then some v else valueIn? k r

def get? (t : Table κ ν) (k : κ) : Option ν := valueIn? k t.entries

def contains (t : Table κ ν) (k : κ) : Bool := (t.get? k).isSome

/-! ## The listed entries -/

/-- Puts `f` of the present value at `k`: in place when `k` is listed, else at the end. -/
def upsert (k : κ) (f : Option ν → ν) : List (κ × ν) → List (κ × ν)
  | [] => [(k, f none)]
  | (a, v) :: r => if a = k then (a, f (some v)) :: r else (a, v) :: upsert k f r

theorem keys_upsert (k : κ) (f : Option ν → ν) (l : List (κ × ν)) :
    (upsert k f l).map Prod.fst =
      if k ∈ l.map Prod.fst then l.map Prod.fst else l.map Prod.fst ++ [k] := by
  induction l with
  | nil => simp [upsert]
  | cons e r ih =>
    obtain ⟨a, v⟩ := e
    by_cases h : a = k
    · simp [upsert, h]
    · simp only [upsert, h, ↓reduceIte, List.map_cons, ih, List.mem_cons, Ne.symm h, false_or]
      split <;> simp

theorem nodup_upsert {k : κ} {f : Option ν → ν} {l : List (κ × ν)}
    (h : (l.map Prod.fst).Nodup) : ((upsert k f l).map Prod.fst).Nodup := by
  rw [keys_upsert]
  split
  · exact h
  · next hk => exact List.nodup_append.mpr ⟨h, by simp, by simp_all; grind⟩

theorem valueIn?_upsert (k : κ) (f : Option ν → ν) (l : List (κ × ν)) (j : κ) :
    valueIn? j (upsert k f l) = if j = k then some (f (valueIn? k l)) else valueIn? j l := by
  induction l with
  | nil => grind [upsert, valueIn?]
  | cons e r ih =>
    obtain ⟨a, v⟩ := e
    by_cases h : a = k
    · by_cases hj : j = k <;> grind [upsert, valueIn?]
    · by_cases hj : a = j <;> grind [upsert, valueIn?]

/-! ## Operations -/

def update (t : Table κ ν) (k : κ) (f : Option ν → ν) : Table κ ν :=
  ⟨upsert k f t.entries, nodup_upsert t.nodup⟩

def set (t : Table κ ν) (k : κ) (v : ν) : Table κ ν := t.update k fun _ => v

/-- Puts `v` at `k` unless something stands there. -/
def setIfNew (t : Table κ ν) (k : κ) (v : ν) : Table κ ν := t.update k fun old => old.getD v

/-- Takes `k` out; the keys after it move up. -/
def erase (t : Table κ ν) (k : κ) : Table κ ν :=
  ⟨t.entries.filter (·.1 ≠ k),
    t.nodup.sublist (List.Sublist.map _ List.filter_sublist)⟩

omit [DecidableEq κ] in
@[simp] theorem keys_empty : (empty : Table κ ν).keys = [] := rfl

@[simp] theorem get?_empty (k : κ) : (empty : Table κ ν).get? k = none := rfl

@[simp] theorem get?_update (t : Table κ ν) (k : κ) (f : Option ν → ν) (j : κ) :
    (t.update k f).get? j = if j = k then some (f (t.get? k)) else t.get? j :=
  valueIn?_upsert k f t.entries j

@[simp] theorem keys_update (t : Table κ ν) (k : κ) (f : Option ν → ν) :
    (t.update k f).keys = if k ∈ t.keys then t.keys else t.keys ++ [k] :=
  keys_upsert k f t.entries

@[simp] theorem get?_set (t : Table κ ν) (k : κ) (v : ν) (j : κ) :
    (t.set k v).get? j = if j = k then some v else t.get? j :=
  get?_update t k _ j

@[simp] theorem keys_set (t : Table κ ν) (k : κ) (v : ν) :
    (t.set k v).keys = if k ∈ t.keys then t.keys else t.keys ++ [k] :=
  keys_update t k _

@[simp] theorem get?_setIfNew (t : Table κ ν) (k : κ) (v : ν) (j : κ) :
    (t.setIfNew k v).get? j = if j = k then some ((t.get? k).getD v) else t.get? j :=
  get?_update t k _ j

@[simp] theorem keys_erase (t : Table κ ν) (k : κ) : (t.erase k).keys = t.keys.filter (· ≠ k) := by
  simp only [erase, keys, List.filter_map]
  rfl

@[simp] theorem get?_erase (t : Table κ ν) (k j : κ) :
    (t.erase k).get? j = if j = k then none else t.get? j := by
  simp only [get?, erase]
  induction t.entries with
  | nil => simp [valueIn?]
  | cons e r ih =>
    obtain ⟨a, v⟩ := e
    by_cases ha : a = k <;> grind [valueIn?]

/-! ## The two views agree -/

theorem mem_keys_iff (t : Table κ ν) (k : κ) : k ∈ t.keys ↔ (t.get? k).isSome = true := by
  simp only [keys, get?]
  induction t.entries with
  | nil => simp [valueIn?]
  | cons e r ih =>
    obtain ⟨a, v⟩ := e
    by_cases h : a = k <;> grind [valueIn?]

theorem contains_iff (t : Table κ ν) (k : κ) : t.contains k = true ↔ k ∈ t.keys :=
  (mem_keys_iff t k).symm

/-- An entry is listed exactly when its value is that of its key. -/
theorem mem_entries_iff (t : Table κ ν) (k : κ) (v : ν) :
    (k, v) ∈ t.entries ↔ t.get? k = some v := by
  have hn := t.nodup
  simp only [get?]
  generalize t.entries = l at hn
  induction l with
  | nil => simp [valueIn?]
  | cons e r ih =>
    obtain ⟨a, w⟩ := e
    simp only [List.map_cons, List.nodup_cons] at hn
    by_cases h : a = k
    · subst h
      have hr : (a, v) ∉ r := fun hm => hn.1 (List.mem_map_of_mem (f := Prod.fst) hm)
      simp [valueIn?, hr, eq_comm]
    · simp [valueIn?, h, Ne.symm h, ih hn.2]

omit [DecidableEq κ] in
theorem nodup_keys (t : Table κ ν) : t.keys.Nodup := t.nodup

end Table

end StyleRef
