import GradedModal.CommandLine

/-!
This module is the command: it reads the file that the arguments name and prints what the run ends with. It has no
solver to start, so that a query for one is answered by that reason.
-/

open GradedModal CommandLine

/--
A host with one file, which is read ahead of the run.
-/
def hostWith (path : String) : IO (Host Unit) := do
  let (isPresent, text) ←
    try
      pure (true, .ok (← IO.FS.readFile path))
    catch
      | .noFileOrDirectory _ _ reason => pure (false, .error reason)
      | e => pure (true, .error (toString e))
  return {
    isPresent := fun _ => return isPresent
    read := fun _ => return text
    start := fun _ _ _ => return .error "there is no solver"
  }

def main (args : List String) : IO UInt32 := do
  let path :=
    match parse? args with
    | some (.check path _) => path
    | _ => ""
  let host ← hostWith path
  let outcome := ((run args host).run ()).1
  IO.print outcome.stdout
  IO.eprint ((outcome.stderr host).run ()).1
  return outcome.code
