import StyleRef.CommandLine

/-
# The program

Runs a request on the files of the machine.  Everything that is decided is
decided in `Request.ofArguments` and `Request.run`; here files are read and
written, and texts printed.
-/

namespace StyleRef

def FileFault.ofError : IO.Error → FileFault
  | .noFileOrDirectory _ _ _ => .notFound
  | .alreadyExists _ _ _ => .alreadyThere
  | .inappropriateType _ 20 _ => .notFolder
  | .inappropriateType _ 21 _ => .isFolder
  | e => .other e.toString.toList

def keepError {α : Type} (action : IO α) : IO (Except FileFault α) := do
  try
    return .ok (← action)
  catch e =>
    return .error (.ofError e)

def machine : Host IO where
  read name := do
    match ← keepError (IO.FS.readBinFile (String.ofList name)) with
    | .error fault => return .error fault
    | .ok bytes =>
      match String.fromUTF8? bytes with
      | some s => return .ok s.toList
      | none => return .error .notText
  write name content :=
    keepError (IO.FS.writeFile (String.ofList name) (String.ofList content))
  makeFolder name := keepError (IO.FS.createDirAll (String.ofList name))

end StyleRef

/-- Runs the request of the arguments; the exit status is 2 if they make none. -/
def main (arguments : List String) : IO UInt32 := do
  match StyleRef.Request.ofArguments (arguments.map String.toList) with
  | .error fault =>
    IO.eprintln ("error: " ++ String.ofList fault.message)
    return 2
  | .ok request =>
    let outcome ← request.run StyleRef.machine
    IO.print (String.ofList outcome.printed)
    for report in outcome.reports do
      IO.eprintln (String.ofList report)
    return outcome.status.toUInt32
