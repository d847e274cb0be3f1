import StyleRef.Proofs.Trees
import Mathlib.Data.List.Basic

/-
# Inputs do not hold up each other

A run reads and transforms all of its inputs before it writes anything, so what
an input comes to (`transformOf`) is read off the tree as it was before the run.
The outcome is that, input by input: one that comes to a transform has it
delivered, and one that does not has its report.  Nothing else passes from one
input to the next.

A run that prints leaves the tree alone.  A run that writes to one file does so
when there is something to write, and not before.
-/

namespace StyleRef

namespace FileTree

/-! ## What inputs come to -/

/-- What an input comes to: its transform, or the fault that keeps it from having one. -/
def transformOf (t : FileTree) (v : Validator) (scope : Scope) (input : Text) : Except Fault Text :=
  match t.read input with
  | .ok css => v.transform scope css
  | .error fault => .error (.io fault.message)

/-- What `pick` takes of that which inputs come to, each with its input. -/
def picked {α : Type} (pick : Except Fault Text → Option α) (t : FileTree) (v : Validator)
    (scope : Scope) (inputs : List Text) : List (Text × α) :=
  inputs.filterMap fun input => (pick (t.transformOf v scope input)).map (input, ·)

/-- The inputs that come to a transform, with it. -/
def transforms : FileTree → Validator → Scope → List Text → List (Text × Text) :=
  picked Except.toOption

/-- The inputs that come to none, with the fault. -/
def faults : FileTree → Validator → Scope → List Text → List (Text × Fault) :=
  picked fun
    | .ok _ => none
    | .error fault => some fault

section Inputs
variable {α : Type} {pick : Except Fault Text → Option α} {t : FileTree} {v : Validator}
  {scope : Scope} {input : Text} {inputs : List Text}

theorem picked_nil : picked pick t v scope [] = [] := rfl

theorem picked_cons :
    picked pick t v scope (input :: inputs) =
      match pick (t.transformOf v scope input) with
      | some a => (input, a) :: picked pick t v scope inputs
      | none => picked pick t v scope inputs := by
  rw [picked, List.filterMap_cons]
  cases pick (t.transformOf v scope input) with
  | some a => rfl
  | none => rfl

theorem picked_append {front back : List Text} :
    picked pick t v scope (front ++ back) =
      picked pick t v scope front ++ picked pick t v scope back :=
  List.filterMap_append

theorem mem_picked {a : α} :
    (input, a) ∈ picked pick t v scope inputs ↔
      input ∈ inputs ∧ pick (t.transformOf v scope input) = some a := by
  rw [picked, List.mem_filterMap]
  constructor
  · rintro ⟨i, hi, h⟩
    obtain ⟨b, hb, hpair⟩ := Option.map_eq_some_iff.mp h
    obtain ⟨rfl, rfl⟩ := Prod.mk.inj hpair
    exact ⟨hi, hb⟩
  · rintro ⟨hi, ha⟩
    exact ⟨input, hi, Option.map_eq_some_iff.mpr ⟨a, ha, rfl⟩⟩

theorem transforms_cons_ok {css : Text} (h : t.transformOf v scope input = .ok css) :
    t.transforms v scope (input :: inputs) = (input, css) :: t.transforms v scope inputs := by
  rw [transforms, picked_cons, h]
  rfl

theorem transforms_cons_error {fault : Fault} (h : t.transformOf v scope input = .error fault) :
    t.transforms v scope (input :: inputs) = t.transforms v scope inputs := by
  rw [transforms, picked_cons, h]
  rfl

theorem faults_cons_ok {css : Text} (h : t.transformOf v scope input = .ok css) :
    t.faults v scope (input :: inputs) = t.faults v scope inputs := by
  rw [faults, picked_cons, h]

theorem faults_cons_error {fault : Fault} (h : t.transformOf v scope input = .error fault) :
    t.faults v scope (input :: inputs) = (input, fault) :: t.faults v scope inputs := by
  rw [faults, picked_cons, h]

theorem mem_transforms {css : Text} :
    (input, css) ∈ t.transforms v scope inputs ↔
      input ∈ inputs ∧ t.transformOf v scope input = .ok css := by
  rw [transforms, mem_picked]
  cases t.transformOf v scope input <;> simp [Except.toOption]

theorem mem_faults {fault : Fault} :
    (input, fault) ∈ t.faults v scope inputs ↔
      input ∈ inputs ∧ t.transformOf v scope input = .error fault := by
  rw [faults, mem_picked]
  cases t.transformOf v scope input <;> simp

end Inputs

end FileTree

/-! ## Reports -/

/-- The outcome has one report for each input that comes to no transform, in the order of the
inputs, and its exit status says whether there is any. -/
structure Outcome.Reports (o : Outcome) (t : FileTree) (v : Validator) (scope : Scope)
    (inputs : List Text) : Prop where
  reports : o.reports = inputs.filterMap fun input =>
    match t.transformOf v scope input with
    | .ok _ => none
    | .error fault => some ("Error processing ".toList ++ input ++ ": ".toList ++ fault.message)
  status :
    (o.status = 0 ∧ ∀ input ∈ inputs, ∃ css, t.transformOf v scope input = .ok css) ∨
      (o.status = 1 ∧ ∃ input ∈ inputs, ∃ fault, t.transformOf v scope input = .error fault)

theorem Outcome.reports_of_faults {o : Outcome} {t : FileTree} {v : Validator}
    {scope : Scope} {inputs : List Text} (h : o.failures = t.faults v scope inputs) :
    o.Reports t v scope inputs where
  reports := by
    rw [reports, h, FileTree.faults, FileTree.picked, List.map_filterMap]
    refine List.filterMap_congr fun input _ => ?_
    cases t.transformOf v scope input with
    | ok css => rfl
    | error fault => rfl
  status := by
    rw [status, h]
    cases hfaults : t.faults v scope inputs with
    | nil =>
        refine .inl ⟨rfl, fun input hinput => ?_⟩
        cases hcss : t.transformOf v scope input with
        | ok css => exact ⟨css, rfl⟩
        | error fault =>
            have hmem := FileTree.mem_faults.mpr ⟨hinput, hcss⟩
            rw [hfaults] at hmem
            cases hmem
    | cons e es =>
        obtain ⟨input, fault⟩ := e
        have hmem : (input, fault) ∈ t.faults v scope inputs := hfaults ▸ List.mem_cons_self
        obtain ⟨hinput, hfault⟩ := FileTree.mem_faults.mp hmem
        exact .inr ⟨rfl, input, hinput, fault, hfault⟩

/-! ## Running -/

namespace Request

variable {v : Validator} {r : Request} {t : FileTree}

theorem mapM_prepare (inputs : List Text) :
    inputs.mapM (r.prepare v FileTree.host) t =
      (inputs.map fun input => (input, t.transformOf v r.scope input), t) := by
  induction inputs with
  | nil => rfl
  | cons input inputs ih =>
      have hprepare : r.prepare v FileTree.host input t =
          ((input, t.transformOf v r.scope input), t) := rfl
      rw [List.mapM_cons]
      simp only [bind, StateT.bind, hprepare, ih]
      rfl

/-- Settles what inputs come to in a tree, one after the other. -/
def settleAll (v : Validator) (r : Request) (t : FileTree) (inputs : List Text) (o : Outcome) :
    StateM FileTree Outcome :=
  (inputs.map fun input => (input, t.transformOf v r.scope input)).foldlM (r.settle FileTree.host) o

/-- A run settles what its inputs come to in the tree as it is. -/
theorem runWith_eq (v : Validator) (r : Request) (t : FileTree) :
    r.runWith v FileTree.host t = r.settleAll v t r.inputs ⟨[], []⟩ t := by
  rw [runWith]
  simp only [bind, StateT.bind, mapM_prepare]
  rfl

theorem settleAll_nil (o : Outcome) (now : FileTree) : r.settleAll v t [] o now = (o, now) := rfl

theorem settleAll_cons_error {input : Text} {fault : Fault}
    (h : t.transformOf v r.scope input = .error fault) (inputs : List Text) (o : Outcome)
    (now : FileTree) :
    r.settleAll v t (input :: inputs) o now =
      r.settleAll v t inputs (o.add input (.error fault)) now := by
  rw [settleAll, List.map_cons, List.foldlM_cons, h]
  rfl

theorem settleAll_cons_ok {input css : Text} (h : t.transformOf v r.scope input = .ok css)
    (inputs : List Text) (o : Outcome) (now : FileTree) :
    r.settleAll v t (input :: inputs) o now =
      r.settleAll v t inputs (o.add input (r.deliver FileTree.host input css now).1)
        (r.deliver FileTree.host input css now).2 := by
  rw [settleAll, List.map_cons, List.foldlM_cons, h]
  rfl

/-- Without an output the transforms are printed, and nothing is written. -/
theorem settleAll_printing (hr : r.output = none) (inputs : List Text) (o : Outcome)
    (now : FileTree) :
    r.settleAll v t inputs o now =
      (⟨o.printed ++ (t.transforms v r.scope inputs).flatMap fun (input, css) =>
          (if r.several then header input else []) ++ css,
        o.failures ++ t.faults v r.scope inputs⟩, now) := by
  induction inputs generalizing o with
  | nil => simp [settleAll_nil, FileTree.transforms, FileTree.faults, FileTree.picked_nil]
  | cons input inputs ih =>
      cases h : t.transformOf v r.scope input with
      | error fault =>
          rw [settleAll_cons_error h, ih, FileTree.transforms_cons_error h,
            FileTree.faults_cons_error h]
          simp [Outcome.add]
      | ok css =>
          have hdeliver : r.deliver FileTree.host input css now =
              (.ok ((if r.several then header input else []) ++ css), now) := by
            rw [deliver, hr]
            rfl
          rw [settleAll_cons_ok h, hdeliver, ih, FileTree.transforms_cons_ok h,
            FileTree.faults_cons_ok h]
          simp [Outcome.add]

theorem deliver_single (t : FileTree) (scope : Scope) (input file css : Text) :
    deliver FileTree.host ⟨[input], some file, scope⟩ input css t =
      match t.write file css with
      | .ok t' => (.ok [], t')
      | .error fault => (.error (.io fault.message), t) := by
  have hattempt : deliver FileTree.host ⟨[input], some file, scope⟩ input css t =
      (silent (FileTree.host.write file css t).1, (FileTree.host.write file css t).2) := rfl
  rw [hattempt, FileTree.run_write]
  cases t.write file css with
  | ok t' => simp [silent]
  | error fault => simp [silent]

/-- A single input with an output: its transform is written there, if it comes to one. -/
theorem runWith_single (v : Validator) (t : FileTree) (scope : Scope) (input file : Text) :
    runWith v FileTree.host ⟨[input], some file, scope⟩ t =
      match t.transformOf v scope input with
      | .error fault => (⟨[], [(input, fault)]⟩, t)
      | .ok css =>
        match t.write file css with
        | .ok t' => (⟨[], []⟩, t')
        | .error fault => (⟨[], [(input, .io fault.message)]⟩, t) := by
  rw [runWith_eq]
  cases h : t.transformOf v scope input with
  | error fault =>
      rw [settleAll_cons_error (r := ⟨[input], some file, scope⟩) h, settleAll_nil]
      rfl
  | ok css =>
      rw [settleAll_cons_ok (r := ⟨[input], some file, scope⟩) h, deliver_single, settleAll_nil]
      cases hwrite : t.write file css with
      | ok t' => simp [hwrite, Outcome.add]
      | error fault => simp [hwrite, Outcome.add]

/-- Failures are isolated.  Without an output, what is printed is made up of the transforms of the
inputs that have one, in the order of the inputs and each under its header when there are several
inputs, and no file changes.  With an output and a single input, the file gets the transform; when
there is none, the tree is as it was.  Every failing input is reported, in order, and no other. -/
theorem run_isolated (v : Validator) (t : FileTree) (scope : Scope) :
    (∀ inputs, ∃ o, runWith v FileTree.host ⟨inputs, none, scope⟩ t = (o, t) ∧
      o.Reports t v scope inputs ∧
      o.printed = inputs.flatMap fun input =>
        match t.transformOf v scope input with
        | .ok css =>
          (if 2 ≤ inputs.length then "/* ".toList ++ input ++ " */\n".toList else []) ++ css
        | .error _ => []) ∧
    ∀ input file,
      (∀ css t', t.transformOf v scope input = .ok css → t.write file css = .ok t' →
        ∃ o, runWith v FileTree.host ⟨[input], some file, scope⟩ t = (o, t') ∧
          o.Reports t v scope [input] ∧ o.printed = [] ∧ t'.read file = .ok css ∧
          ∃ p, t'.locate file = .ok p ∧ ∀ q, q ≠ p → t'.files.get? q = t.files.get? q) ∧
      ∀ fault, t.transformOf v scope input = .error fault →
        ∃ o, runWith v FileTree.host ⟨[input], some file, scope⟩ t = (o, t) ∧
          o.Reports t v scope [input] ∧ o.printed = [] := by
  refine ⟨fun inputs => ?_, fun input file => ⟨fun css t' h hwrite => ?_, fun fault h => ?_⟩⟩
  · rw [runWith_eq, settleAll_printing rfl]
    refine ⟨_, rfl, Outcome.reports_of_faults rfl, ?_⟩
    rw [FileTree.transforms, FileTree.picked, List.nil_append, List.filterMap_eq_flatMap_toList,
      List.flatMap_assoc]
    refine List.flatMap_congr fun input _ => ?_
    cases t.transformOf v scope input with
    | ok css =>
        simp only [Except.toOption, several, header, Nat.lt_iff_add_one_le, gt_iff_lt,
          decide_eq_true_eq, Option.map_some, Option.toList_some, List.flatMap_cons,
          List.flatMap_nil, List.append_nil]
    | error fault => rfl
  · obtain ⟨-, p, hp, hget⟩ := FileTree.write_spec hwrite
    rw [runWith_single, h]
    simp only [hwrite]
    refine ⟨_, rfl, Outcome.reports_of_faults ?_, rfl, FileTree.read_write hwrite, p, hp, ?_⟩
    · rw [FileTree.faults_cons_ok h]
      rfl
    · intro q hq
      rw [hget, if_neg hq]
  · rw [runWith_single, h]
    refine ⟨_, rfl, Outcome.reports_of_faults ?_, rfl⟩
    rw [FileTree.faults_cons_error h]
    rfl

def soundSheet : Text := "a.css".toList

def spoiltSheet : Text := "b.css".toList

def oneSpoilt : FileTree where
  files :=
    ⟨[([soundSheet], .text ".a { width: 1px }".toList),
      ([spoiltSheet], .text ".b { width: ref(.c, width) }".toList)], by decide⟩
  folders := []

/-- The spoilt sheet is left out of what is printed, and is not written over when it is its own
output. -/
theorem run_isolated_spoilt :
    (∃ o, run FileTree.host ⟨[spoiltSheet, soundSheet], none, .selector⟩ oneSpoilt =
        (o, oneSpoilt) ∧ o.reports.length = 1 ∧
      o.printed = "/* a.css */\n.a { width: 1px }\n".toList) ∧
    (∃ o t', run FileTree.host ⟨[soundSheet], some soundSheet, .selector⟩ oneSpoilt = (o, t') ∧
      o.reports = [] ∧ t'.read soundSheet = .ok ".a { width: 1px }\n".toList) ∧
    ∃ o, run FileTree.host ⟨[spoiltSheet], some spoiltSheet, .selector⟩ oneSpoilt =
        (o, oneSpoilt) ∧ o.reports.length = 1 := by
  have hsound : oneSpoilt.transformOf .grammar .selector soundSheet =
      .ok ".a { width: 1px }\n".toList := by
    decide +kernel
  have hspoilt : oneSpoilt.transformOf .grammar .selector spoiltSheet =
      .error (.unresolved [".c".toList]) := by
    decide +kernel
  obtain ⟨t', hwrite⟩ : ∃ t', oneSpoilt.write soundSheet ".a { width: 1px }\n".toList = .ok t' :=
    ⟨_, rfl⟩
  obtain ⟨hprinting, hwriting⟩ := run_isolated .grammar oneSpoilt .selector
  refine ⟨?_, ?_, ?_⟩
  · obtain ⟨o, hrun, hreports, hprinted⟩ := hprinting [spoiltSheet, soundSheet]
    refine ⟨o, hrun, ?_, ?_⟩
    · rw [hreports.reports]
      simp only [List.filterMap_cons, hspoilt, hsound]
      rfl
    · rw [hprinted]
      simp only [List.flatMap_cons, hspoilt, hsound]
      rfl
  · obtain ⟨o, hrun, hreports, -, hread, -⟩ :=
      (hwriting soundSheet soundSheet).1 _ t' hsound hwrite
    refine ⟨o, t', hrun, ?_, hread⟩
    rw [hreports.reports]
    simp only [List.filterMap_cons, hsound]
    rfl
  · obtain ⟨o, hrun, hreports, -⟩ := (hwriting spoiltSheet spoiltSheet).2 _ hspoilt
    refine ⟨o, hrun, ?_⟩
    rw [hreports.reports]
    simp only [List.filterMap_cons, hspoilt]
    rfl

end Request

end StyleRef
