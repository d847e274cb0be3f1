import StyleRef.Proofs.Isolation

/-
# Several inputs in one folder

With several inputs and an output, each transform goes to a file of the output
folder that is named as the input is.  The folder may hold inputs, two inputs
may have one name, and an input may be given twice: since all is read before
anything is written, a file ends up with the transform of what the last input of
its name held before the run.

`putAll` is the writing by itself, without reports.  It succeeds exactly when a
run has no failed delivery to report (`exists_putAll_iff`).  Then the tree has
only grown, so every file of the folder lies at the end where it lay when it was
written, and files of different names lie in different places.
-/

namespace StyleRef

namespace FileTree

/-- Puts files into a folder one after the other.  The folder is made before each. -/
def putAll (folder : Text) : List (Text × Text) → FileTree → Except FileFault FileTree
  | [], t => .ok t
  | (name, content) :: files, t =>
    (t.makeFolder folder).bind fun t =>
      (t.write (inFolder folder name) content).bind (putAll folder files)

/-- The transforms that inputs come to, each under the last name of its input. -/
def deliveries (t : FileTree) (v : Validator) (scope : Scope) (inputs : List Text) :
    List (Text × Text) :=
  (t.transforms v scope inputs).map fun (input, css) => ((fileName? input).getD input, css)

/-! ## Putting files into a folder -/

section PutAll
variable {folder : Text} {t t' : FileTree} {files : List (Text × Text)}

theorem putAll_cons_eq_ok_iff {name content : Text} :
    putAll folder ((name, content) :: files) t = .ok t' ↔
      ∃ t₁ t₂, t.makeFolder folder = .ok t₁ ∧ t₁.write (inFolder folder name) content = .ok t₂ ∧
        putAll folder files t₂ = .ok t' := by
  rw [putAll]
  cases hmake : t.makeFolder folder with
  | error fault => simp [Except.bind]
  | ok t₁ =>
      cases hwrite : t₁.write (inFolder folder name) content with
      | error fault => simp [Except.bind, hwrite]
      | ok t₂ => simp [Except.bind, hwrite]

/-- One file after another: what is known after a front part is where the rest begins. -/
theorem exists_putAll_append {front back : List (Text × Text)}
    (h : putAll folder (front ++ back) t = .ok t') :
    ∃ t₁, putAll folder front t = .ok t₁ ∧ putAll folder back t₁ = .ok t' := by
  induction front generalizing t with
  | nil => exact ⟨t, rfl, h⟩
  | cons file front ih =>
      obtain ⟨t₁, t₂, hmake, hwrite, hrest⟩ := putAll_cons_eq_ok_iff.mp h
      obtain ⟨t₃, hfront, hback⟩ := ih hrest
      exact ⟨t₃, putAll_cons_eq_ok_iff.mpr ⟨t₁, t₂, hmake, hwrite, hfront⟩, hback⟩

theorem grows_putAll (h : putAll folder files t = .ok t') : t.Grows t' := by
  induction files generalizing t with
  | nil =>
      obtain rfl := Except.ok.inj h
      exact .refl t
  | cons file files ih =>
      obtain ⟨t₁, t₂, hmake, hwrite, hrest⟩ := putAll_cons_eq_ok_iff.mp h
      exact (widens_makeFolder hmake).grows.trans ((write_spec hwrite).1.trans (ih hrest))

/-- Whatever could be put into the folder has a last name. -/
theorem exists_fileName?_of_putAll (h : putAll folder files t = .ok t') {file : Text × Text}
    (hfile : file ∈ files) : ∃ n, fileName? file.1 = some n := by
  obtain ⟨front, back, rfl⟩ := List.append_of_mem hfile
  obtain ⟨t₁, -, hback⟩ := exists_putAll_append h
  obtain ⟨t₂, t₃, -, hwrite, -⟩ := putAll_cons_eq_ok_iff.mp hback
  exact exists_fileName?_of_write hwrite

/-- Nothing is written but the files that are put into the folder. -/
theorem get?_putAll (h : putAll folder files t = .ok t') {q : Path}
    (hq : ∀ file ∈ files, t'.locate (inFolder folder file.1) ≠ .ok q) :
    t'.files.get? q = t.files.get? q := by
  induction files generalizing t with
  | nil =>
      obtain rfl := Except.ok.inj h
      rfl
  | cons file files ih =>
      obtain ⟨t₁, t₂, hmake, hwrite, hrest⟩ := putAll_cons_eq_ok_iff.mp h
      obtain ⟨-, p, hp, hget⟩ := write_spec hwrite
      obtain ⟨hne, hq⟩ := List.forall_mem_cons.mp hq
      have hqp : q ≠ p := fun e => hne (e ▸ (grows_putAll hrest).locate hp)
      calc t'.files.get? q
          _ = t₂.files.get? q := ih hrest hq
          _ = t₁.files.get? q := by rw [hget, if_neg hqp]
          _ = t.files.get? q := by rw [(widens_makeFolder hmake).1]

/-- A file of the folder has the content that was put last under its name. -/
theorem read_putAll {front back : List (Text × Text)} {n content : Text}
    (h : putAll folder (front ++ (n, content) :: back) t = .ok t') (hn : IsName n)
    (hnames : ∀ file ∈ back, IsName file.1) (hlast : ∀ file ∈ back, file.1 ≠ n) :
    t'.read (inFolder folder n) = .ok content := by
  obtain ⟨t₁, -, hback⟩ := exists_putAll_append h
  obtain ⟨t₂, t₃, -, hwrite, hrest⟩ := putAll_cons_eq_ok_iff.mp hback
  obtain ⟨-, p, hp, hget⟩ := write_spec hwrite
  have hp' : t'.locate (inFolder folder n) = .ok p := (grows_putAll hrest).locate hp
  have hkept : t'.files.get? p = t₃.files.get? p := by
    refine get?_putAll hrest fun file hfile hlocate => hlast file hfile ?_
    exact eq_of_locate_inFolder (hnames file hfile) hn hlocate hp'
  exact read_eq_ok_of_get? hp' (by rw [hkept, hget, if_pos rfl])

end PutAll

/-! ## Putting transforms into a folder -/

section Deliveries
variable {folder : Text} {v : Validator} {scope : Scope} {t now t' : FileTree}
  {inputs : List Text}

theorem mem_deliveries {file : Text × Text} :
    file ∈ t.deliveries v scope inputs ↔
      ∃ input ∈ inputs, t.transformOf v scope input = .ok file.2 ∧
        (fileName? input).getD input = file.1 := by
  rw [deliveries, List.mem_map]
  constructor
  · rintro ⟨⟨input, css⟩, hmem, rfl⟩
    obtain ⟨hinput, hcss⟩ := mem_transforms.mp hmem
    exact ⟨input, hinput, hcss, rfl⟩
  · rintro ⟨input, hinput, hcss, hname⟩
    exact ⟨(input, file.2), mem_transforms.mpr ⟨hinput, hcss⟩, Prod.ext hname rfl⟩

/-- Every input that comes to a transform that can be put into the folder has a last name. -/
theorem exists_fileName?_of_deliveries (h : putAll folder (t.deliveries v scope inputs) now = .ok t')
    {input css : Text} (hinput : input ∈ inputs) (hcss : t.transformOf v scope input = .ok css) :
    ∃ n, fileName? input = some n := by
  have hmem : ((fileName? input).getD input, css) ∈ t.deliveries v scope inputs :=
    mem_deliveries.mpr ⟨input, hinput, hcss, rfl⟩
  obtain ⟨n, hn⟩ := exists_fileName?_of_putAll h hmem
  cases hname : fileName? input with
  | some m => exact ⟨m, rfl⟩
  | none =>
      rw [hname, Option.getD_none, hname] at hn
      cases hn

/-- What is put into the folder for some of the inputs goes under their last names. -/
theorem isName_of_mem_deliveries (h : putAll folder (t.deliveries v scope inputs) now = .ok t')
    {chosen : List Text} (hsub : chosen ⊆ inputs) {file : Text × Text}
    (hfile : file ∈ t.deliveries v scope chosen) :
    IsName file.1 ∧ ∃ input ∈ chosen, fileName? input = some file.1 ∧
      t.transformOf v scope input = .ok file.2 := by
  obtain ⟨input, hinput, hcss, hname⟩ := mem_deliveries.mp hfile
  obtain ⟨n, hn⟩ := exists_fileName?_of_deliveries h (hsub hinput) hcss
  rw [hn, Option.getD_some] at hname
  subst hname
  exact ⟨isName_of_fileName? hn, input, hinput, hn, hcss⟩

theorem deliveries_append_cons {front back : List Text} {input css n : Text}
    (hcss : t.transformOf v scope input = .ok css) (hn : fileName? input = some n) :
    t.deliveries v scope (front ++ input :: back) =
      t.deliveries v scope front ++ (n, css) :: t.deliveries v scope back := by
  have happend : t.transforms v scope (front ++ input :: back) =
      t.transforms v scope front ++ t.transforms v scope (input :: back) := picked_append
  simp [deliveries, happend, transforms_cons_ok hcss, hn]

/-- Where no later input of its name comes to a transform, an input's own is what is left. -/
theorem read_putAll_deliveries {front back : List Text} {input css n : Text}
    (h : putAll folder (t.deliveries v scope (front ++ input :: back)) now = .ok t')
    (hcss : t.transformOf v scope input = .ok css) (hn : fileName? input = some n)
    (hlater : ∀ later ∈ back, fileName? later = some n →
      ∃ fault, t.transformOf v scope later = .error fault) :
    t'.read (inFolder folder n) = .ok css := by
  have hback : ∀ file ∈ t.deliveries v scope back, IsName file.1 ∧ file.1 ≠ n := by
    intro file hfile
    have hsub : back ⊆ front ++ input :: back := by simp
    obtain ⟨hisName, later, hmem, hname, hlatercss⟩ := isName_of_mem_deliveries h hsub hfile
    refine ⟨hisName, fun heq => ?_⟩
    obtain ⟨fault, hfault⟩ := hlater later hmem (heq ▸ hname)
    rw [hfault] at hlatercss
    cases hlatercss
  rw [deliveries_append_cons hcss hn] at h
  exact read_putAll h (isName_of_fileName? hn) (fun file hfile => (hback file hfile).1)
    fun file hfile => (hback file hfile).2

end Deliveries

/-- Of the members with a property there is a last one. -/
theorem exists_last_of_mem {α : Type} {P : α → Prop} {l : List α} (h : ∃ a ∈ l, P a) :
    ∃ front a back, l = front ++ a :: back ∧ P a ∧ ∀ b ∈ back, ¬ P b := by
  induction l with
  | nil => simp at h
  | cons a l ih =>
      by_cases hl : ∃ b ∈ l, P b
      · obtain ⟨front, b, back, rfl, hb, hback⟩ := ih hl
        exact ⟨a :: front, b, back, rfl, hb, hback⟩
      · obtain ⟨b, hb, hP⟩ := h
        rcases List.mem_cons.mp hb with rfl | hb
        · exact ⟨[], b, l, rfl, hP, fun c hc hc' => hl ⟨c, hc, hc'⟩⟩
        · exact absurd ⟨b, hb, hP⟩ hl

end FileTree

/-! ## Running -/

namespace Request

variable {v : Validator}

open FileTree in
theorem deliver_several {r : Request} {folder : Text} (houtput : r.output = some folder)
    (hseveral : r.several = true) (input css : Text) {t t₁ t₂ : FileTree}
    (hmake : t.makeFolder folder = .ok t₁)
    (hwrite : t₁.write (inFolder folder ((fileName? input).getD input)) css = .ok t₂) :
    r.deliver host input css t = (.ok [], t₂) := by
  rw [deliver, houtput]
  simp only [hseveral, if_true, bind, StateT.bind, run_makeFolder, hmake, run_write, hwrite]
  rfl

/-- Where all transforms can be put into the folder, that is what a run does, and all that it
reports is the inputs without one. -/
theorem settleAll_collecting {r : Request} {folder : Text} (houtput : r.output = some folder)
    (hseveral : r.several = true) {t now t' : FileTree} {inputs : List Text} (o : Outcome)
    (h : FileTree.putAll folder (t.deliveries v r.scope inputs) now = .ok t') :
    r.settleAll v t inputs o now = (⟨o.printed, o.failures ++ t.faults v r.scope inputs⟩, t') := by
  induction inputs generalizing o now with
  | nil =>
      obtain rfl := Except.ok.inj h
      simp [settleAll_nil, FileTree.faults, FileTree.picked_nil]
  | cons input inputs ih =>
      cases hcss : t.transformOf v r.scope input with
      | error fault =>
          rw [FileTree.deliveries, FileTree.transforms_cons_error hcss] at h
          rw [settleAll_cons_error hcss, ih _ h, FileTree.faults_cons_error hcss]
          simp [Outcome.add]
      | ok css =>
          rw [FileTree.deliveries, FileTree.transforms_cons_ok hcss, List.map_cons] at h
          obtain ⟨t₁, t₂, hmake, hwrite, hrest⟩ := FileTree.putAll_cons_eq_ok_iff.mp h
          rw [settleAll_cons_ok hcss, deliver_several houtput hseveral input css hmake hwrite,
            ih _ hrest, FileTree.faults_cons_ok hcss]
          simp [Outcome.add]

theorem deliver_several_error {r : Request} {folder : Text} (houtput : r.output = some folder)
    (hseveral : r.several = true) (input css : Text) {t : FileTree}
    (h : ¬ ∃ t₁ t₂, t.makeFolder folder = .ok t₁ ∧
      t₁.write (inFolder folder ((fileName? input).getD input)) css = .ok t₂) :
    ∃ fault, (r.deliver FileTree.host input css t).1 = .error fault := by
  rw [deliver, houtput]
  simp only [hseveral, if_true, bind, StateT.bind, FileTree.run_makeFolder]
  cases hmake : t.makeFolder folder with
  | error fault => exact ⟨_, rfl⟩
  | ok t₁ =>
      cases hwrite : t₁.write (inFolder folder ((fileName? input).getD input)) css with
      | error fault =>
          simp only [StateT.bind, FileTree.run_write, hwrite]
          exact ⟨_, rfl⟩
      | ok t₂ => exact absurd ⟨t₁, t₂, hmake, hwrite⟩ h

/-- Every input without a transform is reported, whatever becomes of the others. -/
theorem length_faults_le (v : Validator) (r : Request) (t now : FileTree) (inputs : List Text)
    (o : Outcome) :
    o.failures.length + (t.faults v r.scope inputs).length ≤
      (r.settleAll v t inputs o now).1.failures.length := by
  induction inputs generalizing o now with
  | nil => exact Nat.le_refl _
  | cons input inputs ih =>
      cases hcss : t.transformOf v r.scope input with
      | error fault =>
          have hrest := ih now (o.add input (.error fault))
          rw [settleAll_cons_error hcss, FileTree.faults_cons_error hcss]
          simp only [Outcome.add, List.length_append, List.length_cons, List.length_nil] at hrest ⊢
          omega
      | ok css =>
          have hrest := ih (r.deliver FileTree.host input css now).2
            (o.add input (r.deliver FileTree.host input css now).1)
          rw [settleAll_cons_ok hcss, FileTree.faults_cons_ok hcss]
          refine Nat.le_trans (Nat.add_le_add_right ?_ _) hrest
          cases (r.deliver FileTree.host input css now).1 with
          | ok printed => exact Nat.le_refl _
          | error fault => simp [Outcome.add]

/-- When no more is reported than the inputs without a transform, all transforms can be put into
the folder. -/
theorem exists_putAll_of_settleAll {r : Request} {folder : Text} (houtput : r.output = some folder)
    (hseveral : r.several = true) {t now : FileTree} {inputs : List Text} {o : Outcome}
    (h : (r.settleAll v t inputs o now).1.failures = o.failures ++ t.faults v r.scope inputs) :
    ∃ t', FileTree.putAll folder (t.deliveries v r.scope inputs) now = .ok t' := by
  induction inputs generalizing o now with
  | nil => exact ⟨now, rfl⟩
  | cons input inputs ih =>
      cases hcss : t.transformOf v r.scope input with
      | error fault =>
          rw [settleAll_cons_error hcss, FileTree.faults_cons_error hcss] at h
          rw [FileTree.deliveries, FileTree.transforms_cons_error hcss]
          exact ih (by rw [h]; simp [Outcome.add])
      | ok css =>
          rw [settleAll_cons_ok hcss, FileTree.faults_cons_ok hcss] at h
          rw [FileTree.deliveries, FileTree.transforms_cons_ok hcss, List.map_cons]
          by_cases hdone : ∃ t₁ t₂, now.makeFolder folder = .ok t₁ ∧
              t₁.write (inFolder folder ((fileName? input).getD input)) css = .ok t₂
          · obtain ⟨t₁, t₂, hmake, hwrite⟩ := hdone
            rw [deliver_several houtput hseveral input css hmake hwrite] at h
            obtain ⟨t', ht'⟩ := ih h
            exact ⟨t', FileTree.putAll_cons_eq_ok_iff.mpr ⟨t₁, t₂, hmake, hwrite, ht'⟩⟩
          · -- the report of this delivery is one too many
            obtain ⟨fault, hfault⟩ := deliver_several_error houtput hseveral input css hdone
            have hle := length_faults_le v r t (r.deliver FileTree.host input css now).2 inputs
              (o.add input (r.deliver FileTree.host input css now).1)
            rw [h, hfault] at hle
            simp only [Outcome.add, List.length_append, List.length_cons, List.length_nil] at hle
            omega

/-- The transforms can be put into the folder one after the other exactly when the run reports no
failed delivery. -/
theorem exists_putAll_iff {t : FileTree} {scope : Scope} {inputs : List Text} {folder : Text}
    (hseveral : 2 ≤ inputs.length) :
    (∃ t', FileTree.putAll folder (t.deliveries v scope inputs) t = .ok t') ↔
      (runWith v FileTree.host ⟨inputs, some folder, scope⟩ t).1.failures =
        t.faults v scope inputs := by
  rw [runWith_eq]
  constructor
  · rintro ⟨t', h⟩
    rw [settleAll_collecting (r := ⟨inputs, some folder, scope⟩) rfl (decide_eq_true hseveral) _ h]
    rfl
  · intro h
    exact exists_putAll_of_settleAll (r := ⟨inputs, some folder, scope⟩) rfl
      (decide_eq_true hseveral) h

/-- Several inputs with an output folder.  Every write succeeds, with the folder there or made, just
when the run reports the inputs without a transform and nothing else.  Then, for each name that an
input with a transform has, the file of that name in the folder ends up with the transform of what the
last such input held before the run, whatever lies there or is read from there.  All other files are
as they were; without any transform the whole tree is, so no folder is made.  Nothing is printed, and
the failing inputs are reported in order. -/
theorem run_collected {t : FileTree} {scope : Scope} {inputs : List Text} {folder : Text}
    (hseveral : 2 ≤ inputs.length) :
    ((∃ t', FileTree.putAll folder (t.deliveries v scope inputs) t = .ok t') ↔
      (runWith v FileTree.host ⟨inputs, some folder, scope⟩ t).1.failures =
        t.faults v scope inputs) ∧
    ∀ t', FileTree.putAll folder (t.deliveries v scope inputs) t = .ok t' →
      ∃ o, runWith v FileTree.host ⟨inputs, some folder, scope⟩ t = (o, t') ∧
        o.Reports t v scope inputs ∧ o.printed = [] ∧
        (∀ n, (∃ input ∈ inputs, fileName? input = some n ∧
            ∃ css, t.transformOf v scope input = .ok css) →
          ∃ before input after css, inputs = before ++ input :: after ∧
            fileName? input = some n ∧ t.transformOf v scope input = .ok css ∧
            (∀ later ∈ after, fileName? later = some n →
              ∃ fault, t.transformOf v scope later = .error fault) ∧
            t'.read (inFolder folder n) = .ok css) ∧
        (∀ q, (∀ input ∈ inputs, ∀ n css, fileName? input = some n →
            t.transformOf v scope input = .ok css → t'.locate (inFolder folder n) ≠ .ok q) →
          t'.files.get? q = t.files.get? q) ∧
        ((∀ input ∈ inputs, ∃ fault, t.transformOf v scope input = .error fault) → t' = t) := by
  refine ⟨exists_putAll_iff hseveral, fun t' hput => ?_⟩
  refine ⟨⟨[], t.faults v scope inputs⟩, ?_, Outcome.reports_of_faults rfl, rfl, ?_, ?_, ?_⟩
  · rw [runWith_eq]
    exact settleAll_collecting (r := ⟨inputs, some folder, scope⟩) rfl (decide_eq_true hseveral) _
      hput
  · intro n hn
    obtain ⟨before, input, after, rfl, ⟨hname, css, hcss⟩, hafter⟩ :=
      FileTree.exists_last_of_mem hn
    have hlater : ∀ later ∈ after, fileName? later = some n →
        ∃ fault, t.transformOf v scope later = .error fault := by
      intro later hlater hlatername
      cases hlatercss : t.transformOf v scope later with
      | error fault => exact ⟨fault, rfl⟩
      | ok css' => exact absurd ⟨hlatername, css', hlatercss⟩ (hafter later hlater)
    exact ⟨before, input, after, css, rfl, hname, hcss, hlater,
      FileTree.read_putAll_deliveries hput hcss hname hlater⟩
  · intro q hq
    refine FileTree.get?_putAll hput fun file hfile => ?_
    obtain ⟨-, input, hinput, hname, hcss⟩ :=
      FileTree.isName_of_mem_deliveries hput (List.Subset.refl _) hfile
    exact hq input hinput file.1 file.2 hname hcss
  · intro hnone
    have hnil : t.deliveries v scope inputs = [] := by
      refine List.eq_nil_iff_forall_not_mem.mpr fun file hfile => ?_
      obtain ⟨input, hinput, hcss, -⟩ := FileTree.mem_deliveries.mp hfile
      obtain ⟨fault, hfault⟩ := hnone input hinput
      rw [hfault] at hcss
      cases hcss
    rw [hnil] at hput
    exact (Except.ok.inj hput).symm

def namesakes : FileTree where
  files :=
    ⟨[(["a.css".toList], .text ".a { width: 1px } .b { width: ref(.a, width) }".toList),
      (["d".toList, "a.css".toList], .text ".c { width: 2px }".toList)], by decide⟩
  folders := []

/-- The folder is that of the first sheet, which is written over twice and read once more between:
what counts is what it held before. -/
theorem run_collected_namesakes :
    let inputs := ["a.css".toList, "d/a.css".toList, "gone.css".toList, "a.css".toList]
    ∃ o t', run FileTree.host ⟨inputs, some ".".toList, .selector⟩ namesakes = (o, t') ∧
      o.Reports namesakes .grammar .selector inputs ∧ o.printed = [] ∧
      t'.read "./a.css".toList = .ok ".a { width: 1px }\n.b { width: 1px }\n".toList := by
  intro inputs
  have hput : FileTree.putAll ".".toList (namesakes.deliveries .grammar .selector inputs) namesakes =
      .ok ⟨⟨[(["a.css".toList], .text ".a { width: 1px }\n.b { width: 1px }\n".toList),
        (["d".toList, "a.css".toList], .text ".c { width: 2px }".toList)], by decide⟩, []⟩ := by
    decide +kernel
  have hfirst : namesakes.transformOf .grammar .selector "a.css".toList =
      .ok ".a { width: 1px }\n.b { width: 1px }\n".toList := by decide +kernel
  obtain ⟨o, hrun, hreports, hprinted, hheld, -, -⟩ := (run_collected (by decide)).2 _ hput
  obtain ⟨before, input, after, css, hsplit, -, hcss, hlater, hread⟩ :=
    hheld "a.css".toList ⟨"a.css".toList, by decide, by decide, _, hfirst⟩
  refine ⟨o, _, hrun, hreports, hprinted, ?_⟩
  -- the last input of that name is the last of all
  have hlast := congrArg List.getLast? hsplit
  rcases List.eq_nil_or_concat after with rfl | ⟨front, later, rfl⟩
  · obtain rfl : "a.css".toList = input := by simpa [inputs] using hlast
    obtain rfl := Except.ok.inj (hfirst.symm.trans hcss)
    exact hread
  · have hconcat : before ++ input :: front.concat later =
        (before ++ input :: front) ++ [later] := by simp
    rw [hconcat, List.getLast?_concat] at hlast
    obtain rfl : "a.css".toList = later := Option.some.inj hlast
    obtain ⟨fault, hfault⟩ := hlater "a.css".toList (by simp) (by decide)
    rw [hfirst] at hfault
    cases hfault

end Request

end StyleRef
