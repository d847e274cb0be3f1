import StyleRef.Transform
import StyleRef.FileTree

/-
# The command line

The arguments name style sheets, and perhaps where their transforms go and how
far a fallback reaches.  Every sheet is read and transformed before anything is
written, so what a run writes depends on the files as they were before it, also
when it writes over one of its own inputs.

A transform is printed; with an output it goes to that file, or, of several
inputs, to the file of the same name in that folder.  An input that fails is
reported and holds up no other.
-/

namespace StyleRef

structure Request where
  inputs : List Text
  output : Option Text
  scope : Scope
deriving DecidableEq

inductive UsageFault where
  | noInputs
  | unknownOption (argument : Text)
  | missingValue (option : Text)
  | repeated (option : Text)
  | badScope (value : Text)
  | emptyName
deriving DecidableEq

namespace UsageFault

def message : UsageFault → Text
  | noInputs => "no input files".toList
  | unknownOption argument => "unknown option: ".toList ++ argument
  | missingValue option => "a value is missing for ".toList ++ option
  | repeated option => "given more than once: ".toList ++ option
  | badScope value => "neither selector nor property: ".toList ++ value
  | emptyName => "a file name is empty".toList

end UsageFault

/-! ## Reading the arguments -/

inductive CommandOption where
  | output
  | scope
deriving DecidableEq

def CommandOption.name : CommandOption → Text
  | .output => "--output".toList
  | .scope => "--fallback-scope".toList

/-- What an argument is by itself. -/
inductive Argument where
  | input
  /-- An option, with its value if the argument holds it. -/
  | option (o : CommandOption) (value : Option Text)
  /-- Everything behind it is an input. -/
  | endOfOptions
  | unknown
deriving DecidableEq

/-- Reads one argument.  The short form of `--output` may have its value attached, with or without
an equals sign. -/
def Argument.ofText (a : Text) : Argument :=
  match a with
  | ['-'] => .input
  | ['-', '-'] => .endOfOptions
  | '-' :: '-' :: _ =>
    let (name, value) : Text × Option Text :=
      match Text.breakAt? '=' a with
      | some (name, value) => (name, some value)
      | none => (a, none)
    if name = CommandOption.output.name then .option .output value
    else if name = CommandOption.scope.name then .option .scope value
    else .unknown
  | ['-', 'o'] => .option .output none
  | '-' :: 'o' :: '=' :: value => .option .output (some value)
  | '-' :: 'o' :: value => .option .output (some value)
  | '-' :: _ => .unknown
  | _ => .input

/-- What the arguments read so far ask for. -/
structure Draft where
  inputs : List Text
  output : Option Text
  scope : Option Scope

namespace Draft

def addInput (d : Draft) (name : Text) : Except UsageFault Draft :=
  if name.isEmpty then .error .emptyName else .ok { d with inputs := d.inputs ++ [name] }

/-- Gives an option its value, which can be done once. -/
def setOption (d : Draft) (o : CommandOption) (value : Text) : Except UsageFault Draft :=
  match o with
  | .output =>
    if d.output.isSome then .error (.repeated o.name)
    else if value.isEmpty then .error .emptyName
    else .ok { d with output := some value }
  | .scope =>
    if d.scope.isSome then .error (.repeated o.name)
    else if value = "selector".toList then .ok { d with scope := some .selector }
    else if value = "property".toList then .ok { d with scope := some .property }
    else .error (.badScope value)

/-- Reads the arguments.  The value of an option is the next argument, if that is none itself. -/
def read : Draft → List Text → Except UsageFault Draft
  | d, [] => .ok d
  | d, a :: rest =>
    match Argument.ofText a with
    | .input => (d.addInput a).bind (read · rest)
    | .endOfOptions => rest.foldlM addInput d
    | .unknown => .error (.unknownOption a)
    | .option o (some value) => (d.setOption o value).bind (read · rest)
    | .option o none =>
      match rest with
      | [] => .error (.missingValue a)
      | value :: rest =>
        if Argument.ofText value = .input then (d.setOption o value).bind (read · rest)
        else .error (.missingValue a)

end Draft

def Request.ofArguments (arguments : List Text) : Except UsageFault Request :=
  (Draft.read ⟨[], none, none⟩ arguments).bind fun d =>
    if d.inputs.isEmpty then .error .noInputs
    else .ok ⟨d.inputs, d.output, d.scope.getD .selector⟩

/-! ## Running a request -/

/-- What a run printed, and which inputs failed. -/
structure Outcome where
  printed : Text
  failures : List (Text × Fault)
deriving DecidableEq

namespace Outcome

def report (input : Text) (fault : Fault) : Text :=
  "Error processing ".toList ++ input ++ ": ".toList ++ fault.message

def reports (o : Outcome) : List Text := o.failures.map fun (input, fault) => report input fault

def status (o : Outcome) : Nat := if o.failures.isEmpty then 0 else 1

def add (o : Outcome) (input : Text) : Except Fault Text → Outcome
  | .ok printed => { o with printed := o.printed ++ printed }
  | .error fault => { o with failures := o.failures ++ [(input, fault)] }

end Outcome

def fileName? (name : Text) : Option Text :=
  match ((FileTree.parts name).filter fun p => !FileTree.isIdle p).getLast? with
  | some part => if FileTree.isUp part then none else some part
  | none => none

def inFolder (folder name : Text) : Text :=
  if folder.getLast? = some '/' then folder ++ name else folder ++ '/' :: name

namespace Request

/-- Whether there are several inputs, failed ones included. -/
def several (r : Request) : Bool := r.inputs.length > 1

/-- The line above the transform of one of several inputs. -/
def header (input : Text) : Text := "/* ".toList ++ input ++ " */\n".toList

variable {m : Type → Type} [Monad m]

def prepare (v : Validator) (host : Host m) (r : Request) (input : Text) :
    m (Text × Except Fault Text) := do
  let css ← host.read input
  return (input,
    match css with
    | .ok css => v.transform r.scope css
    | .error fault => .error (.io fault.message))

/-- A file operation as a part of a run: it prints nothing. -/
def silent (done : Except FileFault Unit) : Except Fault Text :=
  match done with
  | .ok () => .ok []
  | .error fault => .error (.io fault.message)

/-- Brings a transform to where it goes, and returns what is printed. -/
def deliver (host : Host m) (r : Request) (input css : Text) : m (Except Fault Text) :=
  match r.output with
  | none => return .ok ((if r.several then header input else []) ++ css)
  | some output =>
    if r.several then do
      match ← host.makeFolder output with
      | .error fault => return .error (.io fault.message)
      | .ok () =>
        return silent (← host.write (inFolder output ((fileName? input).getD input)) css)
    else do
      return silent (← host.write output css)

def settle (host : Host m) (r : Request) (o : Outcome) (result : Text × Except Fault Text) :
    m Outcome :=
  match result with
  | (input, .ok css) => return o.add input (← r.deliver host input css)
  | (input, .error fault) => return o.add input (.error fault)

/-- Transforms all inputs, then delivers the transforms in the order of the arguments. -/
def runWith (v : Validator) (host : Host m) (r : Request) : m Outcome := do
  let results ← r.inputs.mapM (r.prepare v host)
  results.foldlM (r.settle host) ⟨[], []⟩

def run (host : Host m) (r : Request) : m Outcome := r.runWith .grammar host

end Request

end StyleRef
