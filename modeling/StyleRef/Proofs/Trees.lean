import StyleRef.CommandLine

/-
# Trees that grow

Whatever a program does to a tree of files, a folder stays a folder: a file is
written only where no folder is, and folders are made and never removed.  So a
name that leads somewhere leads there ever after, which is what makes several
operations on one tree independent of each other.

A name in a folder leads to where the folder is, and one step on.  Where a file
can be written, that step is a name of its own: no way back, and not nothing.
-/

namespace StyleRef

namespace FileTree

/-! ## Following a name -/

/-- Where a part of a name leads to from a folder. -/
def enter (here : Path) (part : Text) : Path :=
  if isIdle part then here else if isUp part then above here else here ++ [part]

theorem follow_cons_eq_ok_iff {t : FileTree} {here p : Path} {part : Text} {rest : List Text} :
    t.follow here (part :: rest) = .ok p ↔
      t.isFile here = false ∧ t.isFolder here = true ∧ t.follow (enter here part) rest = .ok p := by
  rw [follow, enter]
  cases t.isFile here with
  | true => simp
  | false =>
      cases t.isFolder here with
      | false => simp
      | true =>
          cases isIdle part with
          | true => simp
          | false => cases isUp part <;> simp

theorem follow_append_eq_ok_iff {t : FileTree} {here p : Path} {ps qs : List Text} :
    t.follow here (ps ++ qs) = .ok p ↔
      ∃ q, t.follow here ps = .ok q ∧ t.follow q qs = .ok p := by
  induction ps generalizing here with
  | nil => simp [follow]
  | cons part ps ih =>
      simp only [List.cons_append, follow_cons_eq_ok_iff, ih]
      constructor
      · rintro ⟨hfile, hfolder, q, hq, hp⟩
        exact ⟨q, ⟨hfile, hfolder, hq⟩, hp⟩
      · rintro ⟨q, ⟨hfile, hfolder, hq⟩, hp⟩
        exact ⟨hfile, hfolder, q, hq, hp⟩

/-- The folder above a folder is one. -/
theorem isFolder_above {t : FileTree} {p : Path} (h : t.isFolder p = true) :
    t.isFolder (above p) = true := by
  rw [above]
  by_cases hroot : p = root
  · rwa [if_pos hroot]
  · rw [if_neg hroot]
    by_cases hup : p.all isUp = true
    · have : (p ++ [['.', '.']]).all isUp = true := by
        rw [List.all_append, hup]
        rfl
      rw [if_pos hup, isFolder, this]
      rfl
    · rw [if_neg hup]
      simp only [isFolder, Bool.or_eq_true, hup, hroot, decide_false, Bool.false_eq_true, false_or,
        List.any_eq_true, Bool.and_eq_true, List.isPrefixOf_iff_prefix, decide_eq_true_eq] at h ⊢
      -- what lies below `p` lies below the folder above it
      rcases h with ⟨q, hq, hpre⟩ | ⟨q, hq, hpre, -⟩
      · exact .inl (.inr ⟨q, hq, (List.dropLast_prefix p).trans hpre⟩)
      · refine .inr ⟨q, hq, (List.dropLast_prefix p).trans hpre, fun heq => hup ?_⟩
        have hlength := hpre.length_le
        rw [← heq, List.length_dropLast] at hlength
        have hnil : p = [] := List.length_eq_zero_iff.mp (by omega)
        rw [hnil]
        rfl

/-- A name whose last part leads nowhere or up leads to a folder. -/
theorem isFolder_of_follow {t : FileTree} {here p : Path} {ps : List Text} {part : Text}
    (h : t.follow here (ps ++ [part]) = .ok p) (hpart : isIdle part = true ∨ isUp part = true) :
    t.isFolder p = true := by
  obtain ⟨q, -, hq⟩ := follow_append_eq_ok_iff.mp h
  obtain ⟨-, hfolder, hp⟩ := follow_cons_eq_ok_iff.mp hq
  obtain rfl : enter q part = p := Except.ok.inj hp
  rw [enter]
  by_cases hidle : isIdle part = true
  · rwa [if_pos hidle]
  · rw [if_neg hidle, if_pos (hpart.resolve_left hidle)]
    exact isFolder_above hfolder

/-! ## Growing -/

/-- The second tree has the folders of the first, and none of them has become a file. -/
structure Grows (t t' : FileTree) : Prop where
  folders : ∀ p, t.isFolder p = true → t'.isFolder p = true
  files : ∀ p, t.isFolder p = true → t.isFile p = false → t'.isFile p = false

theorem Grows.refl (t : FileTree) : t.Grows t := ⟨fun _ h => h, fun _ _ h => h⟩

theorem Grows.trans {t t' t'' : FileTree} (h : t.Grows t') (h' : t'.Grows t'') : t.Grows t'' where
  folders := fun p hp => h'.folders p (h.folders p hp)
  files := fun p hp hfile => h'.files p (h.folders p hp) (h.files p hp hfile)

/-- A name that leads somewhere leads there in a grown tree. -/
theorem Grows.follow {t t' : FileTree} (h : t.Grows t') {here p : Path} {ps : List Text}
    (hp : t.follow here ps = .ok p) : t'.follow here ps = .ok p := by
  induction ps generalizing here with
  | nil => exact hp
  | cons part ps ih =>
      obtain ⟨hfile, hfolder, hp⟩ := follow_cons_eq_ok_iff.mp hp
      exact follow_cons_eq_ok_iff.mpr
        ⟨h.files here hfolder hfile, h.folders here hfolder, ih hp⟩

theorem Grows.locate {t t' : FileTree} (h : t.Grows t') {name : Text} {p : Path}
    (hp : t.locate name = .ok p) : t'.locate name = .ok p :=
  h.follow hp

theorem isFile_eq_isSome (t : FileTree) (p : Path) : t.isFile p = (t.files.get? p).isSome := rfl

/-! ## Writing -/

/-- A file is written where the name leads to, if that is no folder and is not named as one. -/
theorem write_eq_ok_iff {t t' : FileTree} {name content : Text} :
    t.write name content = .ok t' ↔
      ∃ p, t.locate name = .ok p ∧ t.isFolder p = false ∧ name.getLast? ≠ some '/' ∧
        t' = { t with files := t.files.set p (.text content) } := by
  by_cases hslash : name.getLast? = some '/'
  · -- a name that ends with a slash is refused wherever it leads to
    simp only [hslash, ne_eq, not_true_eq_false, false_and, and_false, exists_false, iff_false]
    rw [write]
    split <;> simp [hslash]
  · have hname : (name.reverse.dropWhile (· = '/')).reverse = name := by
      rw [← List.head?_reverse] at hslash
      cases hrev : name.reverse with
      | nil => simpa using hrev
      | cons c cs =>
          have hc : c ≠ '/' := fun hc => hslash (by simp [hrev, hc])
          rw [List.dropWhile_cons_of_neg (by simpa using hc), ← hrev, List.reverse_reverse]
    rw [write, hname]
    cases hlocate : t.locate name with
    | error fault => simp
    | ok p =>
        cases hfolder : t.isFolder p with
        | true => simp [hfolder]
        | false => simpa [hfolder, hslash] using eq_comm

/-- What a write leaves: the file has the text, all other files have what they had, and the tree has
grown. -/
theorem write_spec {t t' : FileTree} {name content : Text} (h : t.write name content = .ok t') :
    t.Grows t' ∧ ∃ p, t'.locate name = .ok p ∧
      ∀ q, t'.files.get? q = if q = p then some (.text content) else t.files.get? q := by
  obtain ⟨p, hp, hfolder, -, rfl⟩ := write_eq_ok_iff.mp h
  have hget : ∀ q, (t.files.set p (.text content)).get? q =
      if q = p then some (.text content) else t.files.get? q := Table.get?_set t.files p _
  have hgrows : t.Grows { t with files := t.files.set p (.text content) } := by
    constructor
    · intro q hq
      simp only [isFolder, Bool.or_eq_true, List.any_eq_true] at hq ⊢
      refine hq.imp_right fun ⟨file, hfile, hbelow⟩ => ⟨file, ?_, hbelow⟩
      rw [Table.keys_set]
      split
      · exact hfile
      · exact List.mem_append_left _ hfile
    · intro q hq hfile
      have hne : q ≠ p := fun e => by simp [e, hfolder] at hq
      rw [isFile_eq_isSome] at hfile ⊢
      rwa [hget, if_neg hne]
  exact ⟨hgrows, p, hgrows.locate hp, hget⟩

theorem read_eq_ok_of_get? {t : FileTree} {name content : Text} {p : Path}
    (hp : t.locate name = .ok p) (h : t.files.get? p = some (.text content)) :
    t.read name = .ok content := by
  simp [read, hp, h]

theorem run_write (t : FileTree) (name content : Text) :
    host.write name content t =
      match t.write name content with
      | .ok t' => (.ok (), t')
      | .error fault => (.error fault, t) :=
  rfl

/-- What was written is read. -/
theorem read_write {t t' : FileTree} {name content : Text} (h : t.write name content = .ok t') :
    t'.read name = .ok content := by
  obtain ⟨-, p, hp, hget⟩ := write_spec h
  exact read_eq_ok_of_get? hp (by rw [hget, if_pos rfl])

/-! ## Making folders -/

/-- The second tree is the first with folders added. -/
def Widens (t t' : FileTree) : Prop := t'.files = t.files ∧ t.folders <+: t'.folders

theorem Widens.refl (t : FileTree) : t.Widens t := ⟨rfl, List.prefix_refl _⟩

theorem Widens.trans {t t' t'' : FileTree} (h : t.Widens t') (h' : t'.Widens t'') :
    t.Widens t'' :=
  ⟨h'.1.trans h.1, h.2.trans h'.2⟩

theorem Widens.grows {t t' : FileTree} (h : t.Widens t') : t.Grows t' := by
  obtain ⟨hfiles, hfolders⟩ := h
  constructor
  · intro p hp
    simp only [isFolder, Bool.or_eq_true, List.any_eq_true, hfiles] at hp ⊢
    exact hp.imp_left (Or.imp_right fun ⟨q, hq, hbelow⟩ => ⟨q, hfolders.subset hq, hbelow⟩)
  · intro p _ hfile
    rwa [isFile, hfiles]

theorem widens_makeOne {t t' : FileTree} {here : Path} {ps : List Text}
    (h : t.makeOne here ps = .ok t') : t.Widens t' := by
  rw [makeOne] at h
  cases hp : t.follow here ps with
  | error fault => simp [hp, Except.bind] at h
  | ok p =>
      simp only [hp, Except.bind] at h
      split at h
      · cases h
      · obtain rfl := Except.ok.inj h
        exact ⟨rfl, List.prefix_append _ _⟩

theorem widens_makeNew {t t' : FileTree} {here : Path} {ps : List Text}
    (h : t.makeNew here ps = .ok t') : t.Widens t' := by
  rw [makeNew] at h
  cases hone : t.makeOne here ps with
  | ok t₁ =>
      rw [hone] at h
      obtain rfl := Except.ok.inj h
      exact widens_makeOne hone
  | error fault =>
      simp only [hone] at h
      split at h
      · split at h
        · obtain rfl := Except.ok.inj h
          exact .refl t
        · cases h
      · cases h

theorem widens_makeAll {n : Nat} {t t' : FileTree} {here : Path} {ps : List Text}
    (h : makeAll n t here ps = .ok t') : t.Widens t' := by
  induction n generalizing t t' ps with
  | zero =>
      obtain rfl := Except.ok.inj h
      exact .refl t
  | succ n ih =>
      rw [makeAll] at h
      split at h
      · -- the folder above is made first
        cases habove : makeAll n t here (steps ps).dropLast with
        | error fault => simp [habove, Except.bind] at h
        | ok t₁ =>
            rw [habove] at h
            exact (ih habove).trans (widens_makeNew h)
      · exact widens_makeNew h

theorem widens_makeFolder {t t' : FileTree} {name : Text} (h : t.makeFolder name = .ok t') :
    t.Widens t' :=
  widens_makeAll h

theorem run_makeFolder (t : FileTree) (name : Text) :
    host.makeFolder name t =
      match t.makeFolder name with
      | .ok t' => (.ok (), t')
      | .error fault => (.error fault, t) :=
  rfl

/-! ## Names -/

/-- A text that leads one step on from a folder. -/
structure IsName (n : Text) : Prop where
  parts : parts n = [n]
  idle : isIdle n = false
  up : isUp n = false

theorem slash_not_mem_of_mem_parts {name part : Text} (h : part ∈ parts name) : '/' ∉ part := by
  induction name generalizing part with
  | nil =>
      obtain rfl : part = [] := by simpa [parts] using h
      simp
  | cons c name ih =>
      rw [parts, List.splitOn_cons_eq_if_modifyHead] at h
      by_cases hc : c = '/'
      · rw [if_pos (by simpa using hc)] at h
        rcases List.mem_cons.mp h with rfl | h
        · simp
        · exact ih h
      · rw [if_neg (by simpa using hc)] at h
        obtain ⟨first, others, hparts⟩ := List.exists_cons_of_ne_nil (List.splitOn_ne_nil '/' name)
        rw [hparts, List.modifyHead_cons] at h
        rcases List.mem_cons.mp h with rfl | h
        · have hfirst : '/' ∉ first := ih (by rw [parts, hparts]; exact List.mem_cons_self)
          simp [Ne.symm hc, hfirst]
        · exact ih (by rw [parts, hparts]; exact List.mem_cons_of_mem _ h)

/-- The last name in the name of a file is a name. -/
theorem isName_of_fileName? {name n : Text} (h : fileName? name = some n) : IsName n := by
  rw [fileName?] at h
  split at h
  · next part hpart =>
      split at h
      · cases h
      · next hup =>
          obtain rfl := Option.some.inj h
          have hmem := List.mem_of_getLast? hpart
          obtain ⟨hparts, hidle⟩ := List.mem_filter.mp hmem
          exact ⟨List.splitOn_eq_singleton (slash_not_mem_of_mem_parts hparts),
            by simpa using hidle, by simpa using hup⟩
  · cases h

/-- If the last part of a name leads one step on, the name has it as its last name. -/
theorem exists_fileName? {name part : Text} {ps : List Text} (h : parts name = ps ++ [part])
    (hidle : isIdle part = false) (hup : isUp part = false) : fileName? name = some part := by
  simp [fileName?, h, List.filter_append, hidle, hup]

/-- A name in a folder has the parts of the folder in front of its own. -/
theorem exists_parts_inFolder (folder : Text) :
    ∃ ps, ∀ name, parts (inFolder folder name) = ps ++ parts name ∧
      origin (inFolder folder name) = origin (inFolder folder []) := by
  rcases List.eq_nil_or_concat folder with rfl | ⟨front, c, rfl⟩
  · exact ⟨[[]], fun name => ⟨List.splitOn_append_cons_self [] name, rfl⟩⟩
  · by_cases hc : c = '/'
    · subst hc
      refine ⟨parts front, fun name => ?_⟩
      simp only [inFolder, List.concat_eq_append, List.getLast?_concat, if_true,
        List.append_assoc, List.singleton_append, List.append_nil]
      refine ⟨List.splitOn_append_cons_self front name, ?_⟩
      cases front <;> simp [origin]
    · refine ⟨parts (front ++ [c]), fun name => ?_⟩
      simp only [inFolder, List.concat_eq_append, List.getLast?_concat, Option.some.injEq, hc,
        if_false]
      refine ⟨List.splitOn_append_cons_self (front ++ [c]) name, ?_⟩
      cases front <;> simp [origin]

/-- Different names in a folder lead to different places. -/
theorem eq_of_locate_inFolder {t : FileTree} {folder n m : Text} {p : Path} (hn : IsName n)
    (hm : IsName m) (hp : t.locate (inFolder folder n) = .ok p)
    (hp' : t.locate (inFolder folder m) = .ok p) : n = m := by
  obtain ⟨ps, hps⟩ := exists_parts_inFolder folder
  have key : ∀ k, IsName k → t.locate (inFolder folder k) = .ok p →
      ∃ q, t.follow (origin (inFolder folder [])) ps = .ok q ∧ p = q ++ [k] := by
    intro k hk hlocate
    rw [locate, (hps k).1, (hps k).2, hk.parts] at hlocate
    obtain ⟨q, hq, hlast⟩ := follow_append_eq_ok_iff.mp hlocate
    obtain ⟨-, -, hlast⟩ := follow_cons_eq_ok_iff.mp hlast
    have hstep : enter q k = p := Except.ok.inj hlast
    exact ⟨q, hq, by simp [← hstep, enter, hk.idle, hk.up]⟩
  obtain ⟨q, hq, hpq⟩ := key n hn hp
  obtain ⟨q', hq', hpq'⟩ := key m hm hp'
  obtain rfl : q = q' := Except.ok.inj (hq.symm.trans hq')
  simpa using hpq.symm.trans hpq'

/-- Where a file can be written in a folder, its name has a last name. -/
theorem exists_fileName?_of_write {t t' : FileTree} {folder name content : Text}
    (h : t.write (inFolder folder name) content = .ok t') : ∃ n, fileName? name = some n := by
  obtain ⟨p, hp, hfolder, -⟩ := write_eq_ok_iff.mp h
  obtain ⟨ps, hps⟩ := exists_parts_inFolder folder
  obtain ⟨qs, part, hparts⟩ := List.eq_nil_or_concat (parts name) |>.resolve_left
    (List.splitOn_ne_nil '/' name)
  rw [List.concat_eq_append] at hparts
  rw [locate, (hps name).1, hparts, ← List.append_assoc] at hp
  have hlast : ¬ (isIdle part = true ∨ isUp part = true) := by
    intro hpart
    rw [isFolder_of_follow hp hpart] at hfolder
    cases hfolder
  exact ⟨part, exists_fileName? hparts (by simpa using fun h => hlast (.inl h))
    (by simpa using fun h => hlast (.inr h))⟩

end FileTree

end StyleRef
