import TapeLang.CommandLine.Session

/-! The command line program: reads the file and the input, lets the session decide what happens,
and carries it out. -/
open TapeLang TapeLang.CommandLine

/-- How long a run may go on. -/
def runFuel : Nat := 1000000000000000000

/-- The content of a file, or why there is none. -/
def readInput (path : Text) : IO (Except FileFault (List UInt8)) := do
  try
    let content ← IO.FS.readBinFile (Quoted.display path)
    return .ok content.toList
  catch e =>
    match e with
    | .noFileOrDirectory .. => return .error (.missing path)
    | .inappropriateType .. => return .error (.directory path)
    | e => throw e

/-- The bytes of a stream up to its end, after those that have been read. -/
partial def readAll (stream : IO.FS.Stream) (before : ByteArray) : IO ByteArray := do
  let chunk ← stream.read 65536
  if chunk.isEmpty then return before else readAll stream (before ++ chunk)

/-- Everything that can be read from the standard input, if the settings call for it. -/
def readStandardInput (s : Settings) : IO (List UInt8) := do
  if s.mode = some .run ∨ s.mode = some .batches then
    return (← readAll (← IO.getStdin) .empty).toList
  else return []

/-- A number of milliseconds with two decimals. -/
def milliseconds (nanoseconds : Nat) : Text :=
  let hundredths := nanoseconds / 10000
  Numeral.natural (hundredths / 100) ++ "." ++
    (Numeral.natural (hundredths % 100)).leftpad 2 (.char '0')

/-- What a session leaves is shown and written; the exit code is returned. -/
def carryOut (r : Report) (started finished : Nat) : IO UInt32 := do
  let out ← IO.getStdout
  let err ← IO.getStderr
  out.write ⟨r.output.toArray⟩
  out.flush
  let time := Numeral.natural finished
  for line in r.said do
    err.putStrLn (line.display time (milliseconds (finished - started)))
  match r.file with
  | some file =>
    let name := Quoted.display file.path.text
    IO.FS.writeFile name (Quoted.display file.content)
    if file.executable then
      let all : IO.AccessRight := { read := true, write := true, execution := true }
      let use : IO.AccessRight := { read := true, execution := true }
      IO.setAccessRights name { user := all, group := use, other := use }
  | none => pure ()
  match r.ending with
  | .ok code => return code.toUInt32
  | .error e =>
    err.putStrLn (Quoted.display (e.message?.getD []))
    return 1

def main (args : List String) : IO UInt32 := do
  match Settings.ofWords (args.map Text.ofString) with
  | .error refusal => carryOut refusal.report 0 0
  | .ok s =>
    let content ← readInput (Path.ofText s.input).text
    let input ← readStandardInput s
    let started ← IO.monoNanosNow
    let report := s.perform runFuel content input
    match report with
    | none => return 1
    | some r =>
      let finished ← IO.monoNanosNow
      carryOut r started finished
