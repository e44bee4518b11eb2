import JsonCabinet.CommandLine.Run

/-!
# The program

The part of the disk that the store's file lies on is looked at, the run is worked out on what was
seen, and what it changed is carried over to the disk. A file gets its new content under another
name first.
-/

namespace JsonCabinet.Disk

open Files CommandLine

/-- The absolute path of a location. -/
def pathOf (loc : Location) : String := "/" ++ String.intercalate "/" loc

/-- What is at a location of the disk, below a directory. -/
def look (loc : Location) : IO (Option Node) := do
  match ← (IO.FS.readBinFile (pathOf loc)).toBaseIO with
  | .ok content => return some (.file content.toList)
  | .error (.inappropriateType ..) => return some .directory
  | .error (.noFileOrDirectory ..) => return none
  | .error e => throw e

/-- Adds what is met on the way along the names. -/
def survey (fs : FileSystem) (loc : Location) : List String → IO FileSystem
  | [] => return fs
  | name :: names => do
    if name = "." then survey fs loc names
    else if name = ".." then survey fs loc.dropLast names
    else if (fs.get? loc name).isSome then survey fs (loc ++ [name]) names
    else match ← look (loc ++ [name]) with
      | none => return fs
      | some node => survey (fs.put loc name node) (loc ++ [name]) names

/-- The part of the disk that a path goes through. -/
def around (p : Path) : IO FileSystem := do
  let working := FileSystem.names (.ofText (← IO.currentDir).toString)
  let fs : FileSystem := ⟨.nil, working, none⟩
  survey fs [] (fs.start p ++ FileSystem.names p)

/-- Makes the disk hold a node. -/
def install (loc : Location) : Node → IO Unit
  | .directory => IO.FS.createDirAll (pathOf loc)
  | .file content => do
    IO.FS.writeBinFile (pathOf loc ++ ".tmp") ⟨content.toArray⟩
    IO.FS.rename (pathOf loc ++ ".tmp") (pathOf loc)

/-- Carries a change over to the disk, a directory before what it holds. -/
def carryOver (before after : FileSystem) : IO Unit := do
  for (loc, node) in after.root.nodes do
    if before.node? loc ≠ some node then install loc node

/-- The files that matter for a request. -/
def concerned : Request → IO FileSystem
  | .run i => around (.ofText i.file)
  | .version | .help _ => return .fresh

/-- Answers a request on the disk. -/
def answer (request : Request) : IO Report := do
  let before ← concerned request
  let (report, after) := request.answer before
  carryOver before after
  return report

/-- Answers a request, or tells how the disk failed. -/
def answerOrTell (request : Request) : IO Report := do
  match ← (answer request).toBaseIO with
  | .ok report => return report
  | .error e => return .failed (.io (.told (toString e)))

end JsonCabinet.Disk

open JsonCabinet CommandLine in
def main (args : List String) : IO UInt32 := do
  let report ← match Request.read args with
    | some request => Disk.answerOrTell request
    | none => pure ⟨2, [], Bytes.ofString generalHelp⟩
  (← IO.getStdout).write ⟨report.output.toArray⟩
  (← IO.getStderr).write ⟨report.errors.toArray⟩
  return report.code.toUInt32
