/-
# The program

Reads the files that a run can depend on, runs the gate, writes the files that it has changed, and
prints what it says.
-/
import Std.Time.DateTime.Timestamp
import ServiceGate.Calendar
import ServiceGate.CommandLine.Invocation

namespace ServiceGate

def placeOfPath (path : String) : Place := (Text.pieces path.toList '/').filter (!·.isEmpty)

def pathOfPlace (p : Place) : String := String.ofList ('/' :: Text.join ['/'] p)

/-- The tree with the file at a path, if it can be read. -/
def withFile (tree : FileTree) (path : String) : IO FileTree := do
  try
    return tree.write (placeOfPath path) (← IO.FS.readFile path).toList
  catch _ => return tree

/-- The tree with everything below a directory. -/
partial def withEntries (tree : FileTree) (entries : Array IO.FS.DirEntry) : IO FileTree := do
  let mut tree := tree
  for entry in entries do
    if ← entry.path.isDir then
      tree := { tree with directories := placeOfPath entry.path.toString :: tree.directories }
      tree ← withEntries tree (← entry.path.readDir)
    else
      tree ← withFile tree entry.path.toString
  return tree

/-- The names of the files above the project that a run may depend on. -/
def watchedAbove : List String :=
  [".sentinelrc.toml", "package.json", ".ignore", ".gitignore", ".git/info/exclude"]

/-- The tree with what a run may depend on in a directory and those above it. -/
def withAbove (tree : FileTree) (directory : Place) : IO FileTree := do
  let mut tree := tree
  for holder in FileTree.holders directory ++ [directory] do
    let repository := holder ++ placeOfPath ".git"
    if ← ((← IO.currentDir) / pathOfPlace repository).isDir then
      tree := { tree with directories := repository :: tree.directories }
    for name in watchedAbove do
      tree ← withFile tree (pathOfPlace (holder ++ placeOfPath name))
  return tree

/-- Writes the files that differ between two trees. -/
def writeChanges (before after : FileTree) : IO Unit := do
  for (p, t) in after.files do
    if before.read? p != some t then
      IO.FS.createDirAll (pathOfPlace p.dropLast)
      IO.FS.writeFile (pathOfPlace p) (String.ofList t)

def presentDay : IO Text := do
  let seconds := (← Std.Time.Timestamp.now).toSecondsSinceUnixEpoch.val.toNat
  return (Date.ofDays (seconds / 86400)).text

end ServiceGate

open ServiceGate

def main (args : List String) : IO UInt32 := do
  let directory ← IO.currentDir
  let place := placeOfPath directory.toString
  let above ← withAbove (.ofDirectory place) place
  let top := (projectRoot? above (pathOfPlace place).toList).getD (pathOfPlace place).toList
  let mut tree ← withEntries above (← (directory / String.ofList top).readDir)
  for word in args do
    if ← (directory / word).pathExists then
      let found ← IO.FS.realPath (directory / word)
      tree ← if ← found.isDir then withEntries tree (← found.readDir)
        else withFile tree found.toString
  let result := invoke tree (← presentDay) (pathOfPlace place).toList (args.map String.toList)
  IO.print (String.ofList (printed result.output))
  writeChanges tree result.tree
  match result.ending.complaint? with
  | some line => IO.eprintln (String.ofList line)
  | none => pure ()
  return UInt32.ofNat result.ending.code
