import ShaderUplift.CommandLine
import ShaderUplift.Source.Words

/-! The program. It reads the paths of files and folders from standard input, one a line and
relative to the working folder, loads the files, runs the command line on them, and writes what has
changed:

    find in out | shaderuplift -i in -o out
-/

namespace ShaderUplift.Program

open Files

partial def readAll (input : IO.FS.Stream) (text : String) : IO String := do
  let line ← input.getLine
  if line.isEmpty then return text else readAll input (text ++ line)

/-- Loads a file; what cannot be read as a file is taken for a folder. -/
def load (store : Store) (path : String) : IO Store := do
  try
    let bytes ← IO.FS.readBinFile path
    return (store.writeBytes ⟨path⟩ bytes).1
  catch _ =>
    match store.makeFolders [] (Path.components ⟨path⟩) with
    | .ok (store, _) => return store
    | .error _ => return store

/-- Writes a file or makes a folder that was not there before. -/
def save (before : Store) (entry : Place × Node) : IO Unit := do
  let path := "/".intercalate entry.1
  unless before.get? entry.1 = some entry.2 do
    match entry.2 with
    | .folder => IO.FS.createDirAll path
    | .file bytes => IO.FS.writeBinFile path bytes

def printOutcome (outcome : CommandLine.Outcome) (elapsed : Nat) : IO Unit := do
  for (level, text) in outcome.log do
    IO.println (level.label ++ " " ++ text)
  match outcome.summary with
  | some line => IO.println (line ++ " in " ++ toString elapsed ++ "ms")
  | none => IO.eprintln CommandLine.usage

end ShaderUplift.Program

open ShaderUplift in
def main (args : List String) : IO UInt32 := do
  let paths := (Source.lines (← Program.readAll (← IO.getStdin) "").toList).map String.ofList
  let before ← paths.foldlM Program.load Files.Store.empty
  let start ← IO.monoMsNow
  let (outcome, after) := CommandLine.run before args
  after.nodes.forM (Program.save before)
  Program.printOutcome outcome ((← IO.monoMsNow) - start)
  return outcome.exitCode.toUInt32
