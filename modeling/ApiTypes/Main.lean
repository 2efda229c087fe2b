import ApiTypes.Command

/-!
# The program

Runs the command on the files of the machine: a file is read when the command asks for it, and what
the command has written is written at its end.
-/

namespace ApiTypes.Program

/-- What is said of the arguments that there may be. -/
def usage : String := "usage: typegen [-h] [-o OUTPUT] [-c CONFIG] [-v] [input]"

/-- The content of a file, if it can be read. -/
def content? (path : String) : IO (Option Content) := do
  try
    let octets ← IO.FS.readBinFile path
    return some (.ofOctets octets.toList)
  catch _ => return none

/-- The file that a command lacks. -/
def lacking? : Command.Ending → Option String
  | .failed (.unreadable path) => some path
  | .failed (.config (.notFound path)) => some path
  | _ => none

/-- A tree with the files that a command needs, as far as they can be read. -/
partial def supply (environment : Option String) (arguments asked : List String) (t : FileTree) :
    IO FileTree := do
  match lacking? (Command.run t environment arguments).1 with
  | none => return t
  | some path =>
    if asked.contains path then return t
    else match ← content? path with
      | none => return t
      | some c => supply environment arguments (path :: asked) (t.addFile (t.place path) c)

/-- Writes the files of a tree that are not in another. -/
def store (earlier later : FileTree) : IO Unit := do
  for (p, c) in earlier.changes later do
    match c with
    | .text s =>
      IO.FS.createDirAll (Place.path p.dropLast)
      IO.FS.writeFile (Place.path p) s
    | .binary => pure ()

/-- Says how a command has ended. -/
def tell (e : Command.Ending) : IO Unit := do
  match e with
  | .finished r => IO.print r.report
  | .failed _ => IO.eprintln e.complaint
  | .refused .help => IO.println usage
  | .refused .misuse => IO.eprintln usage

end ApiTypes.Program

open ApiTypes in
def main (arguments : List String) : IO UInt32 := do
  let environment ← IO.getEnv Config.outputVariable
  let folder := (FileTree.empty []).place (← IO.currentDir).toString
  let before ← Program.supply environment arguments [] (FileTree.empty folder)
  let (ending, after) := Command.run before environment arguments
  Program.store before after
  Program.tell ending
  return UInt32.ofNat ending.exitCode
