import Reckon.CommandLine.Session

/-!
# The command line

Reads the input, runs the session, and prints what it answers.
-/

namespace Reckon

/-- The input in a file, or the reason why it cannot be opened. -/
def readInput (path : String) : IO (Except String Input) := do
  try
    return .ok (Input.ofBytes (← IO.FS.readBinFile path))
  catch
    | .noFileOrDirectory .. => return .error "No such file or directory (os error 2)"
    | .permissionDenied .. => return .error "Permission denied (os error 13)"
    | .inappropriateType .. => return .ok ⟨[], some "Is a directory (os error 21)"⟩
    | e => return .error e.toString

/-- The file that a command line wants to be read. -/
def wantedFile (words : List String) : Option String :=
  match Invocation.ofWords words with
  | .run _ _ (.filter _ _ _ file) => file
  | _ => none

/-- Whether a command line wants the standard input to be read. -/
def wantsInput (words : List String) : Bool :=
  match Invocation.ofWords words with
  | .run _ _ .statements | .run _ _ (.filter _ _ _ none) => true
  | _ => false

end Reckon

open Reckon in
def main (words : List String) : IO UInt32 := do
  let stdin ←
    if wantsInput words then Input.ofBytes <$> (← IO.getStdin).readBinToEnd
    else pure ⟨[], none⟩
  let file ←
    match wantedFile words with
    | some path => readInput path
    | none => pure (.error "")
  let output := Session.run words stdin fun _ => file
  IO.print output.stdout
  IO.eprint output.stderr
  return output.code.toUInt32
