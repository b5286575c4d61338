import MemberSplit.CommandLine.Basic

/-!
# The program

Reads the files that a plan can depend on, has the run planned and decided, writes what is to be
written, and prints the output.
-/

namespace MemberSplit.Program

/-- What the system says about a failed operation. -/
def osError : IO.Error → OsError
  | .noFileOrDirectory .. => .noSuchFile
  | .alreadyExists .. => .fileExists
  | .resourceBusy .. => .busy
  | .invalidArgument .. => .invalidArgument
  | .inappropriateType _ code details =>
    if code = 20 then .notDirectory
    else if code = 21 then .isDirectory
    else .other details
  | error => .other (toString error)

/-- Does something with the file or directory at a path, and keeps the reason if it fails. -/
def attempt {Value : Type} (path : Path) (action : IO Value) : IO (Except OsError Value) := do
  if path.holdsNul then return .error .nulInPath
  try
    return .ok (← action)
  catch error =>
    return .error (osError error)

/-- Reads a file. -/
def readFile (path : Path) : IO (Except OsError Bytes) :=
  attempt path do
    let bytes ← IO.FS.readBinFile (String.ofList path)
    return bytes.toList

/-- Reads files, so that they can be asked for later. -/
def readAll (paths : List Path) : IO Reader := do
  let found ← paths.mapM fun path => do return (path, ← readFile path)
  return fun path => (found.lookup path).getD (.error .noSuchFile)

/-- Writes a new file through a temporary one in its directory. -/
def createFile (directory path : Path) (bytes : ByteArray) : IO Unit := do
  IO.FS.createDirAll (String.ofList directory)
  let mark ← IO.rand 0 0xFFFFFF
  let temporary := String.ofList (directory.join (Text.concat [".tmp", Text.ofNat mark]))
  let readable : IO.FileRight :=
    { user := { read := true, write := true }, group := { read := true }
      other := { read := true } }
  try
    IO.FS.writeBinFile temporary bytes
    IO.setAccessRights temporary readable
    IO.FS.rename temporary (String.ofList path)
  catch error =>
    try IO.FS.removeFile temporary catch _ => pure ()
    throw error

/-- Writes a text to a file. A file that is there is overwritten, so that it keeps its
permissions, unless it holds the text already. -/
def writeFile (path : Path) (text : Text) : IO Attempt := do
  let bytes := Utf8.encode text
  match ← readFile path with
  | .ok old =>
    if old = bytes then return .done .unchanged
    else
      return .ofResult <| ← attempt path do
        IO.FS.writeBinFile (String.ofList path) ⟨bytes.toArray⟩
        return .written
  | .error _ =>
    let directory := FileTree.temporaryDirectory path
    return .ofResult <| ← attempt directory do
      createFile directory path ⟨bytes.toArray⟩
      return .written

/-- Writes the files of a plan, unless the run is dry. -/
def writeFiles (plan : Plan) : IO (List FileResult) :=
  plan.files.mapM fun file => do
    if plan.survey.job.dryRun then return ⟨file, .planned⟩
    else return ⟨file, ← writeFile file.path file.destination.text⟩

/-- Replaces the input if that has been decided. -/
def replaceInput (plan : Plan) : Decision → IO Attempt
  | .replace text => writeFile plan.input text
  | _ => return .planned

/-- The surroundings of the program. -/
def environment : IO CommandLine.Environment := do
  let names : List String := ["NO_COLOR", "FORCE_COLOR", "TERM"]
  let values ← names.mapM fun name => do return (name.toList, ← IO.getEnv name)
  let onTerminal ← (← IO.getStdout).isTty
  return .ofVariables
    (fun name => ((values.lookup name).bind id).map String.toList) onTerminal

/-- Prints an output and gives its exit code. -/
def print (output : CommandLine.Output) : IO UInt32 := do
  for line in output.log do
    IO.eprintln (String.ofList line.text)
  if let some complaint := output.complaint then
    IO.eprint (String.ofList complaint.text)
  IO.print (String.ofList output.stdout)
  return output.code.toUInt32

/-- Carries out a command line. -/
def run (words : List Text) : IO CommandLine.Output := do
  match CommandLine.Arguments.read words with
  | .error stop => return stop.output
  | .ok arguments =>
    let environment ← environment
    match arguments.plan (← readAll arguments.sources) with
    | (.error failure, log) => return arguments.output environment log (.error failure)
    | (.ok plan, log) =>
      let results ← writeFiles plan
      let attempt ← replaceInput plan (plan.decide results)
      return arguments.output environment (log ++ plan.fullLog results attempt)
        (.ok (plan.summary results attempt))

end MemberSplit.Program

/-- Runs the program on the words of the command line. -/
def main (words : List String) : IO UInt32 := do
  MemberSplit.Program.print (← MemberSplit.Program.run (words.map String.toList))
