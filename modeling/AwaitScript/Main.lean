import AwaitScript.Command.Run

/-!
The program: looks at the places that a run may need, lets it run, and writes what it changed.
-/

namespace AwaitScript.Console

def place (location : Location) : String :=
  if location = [] then "." else "/".intercalate (location.map Text.shown)

def isFolder (name : String) : IO Bool := do
  try
    discard (IO.FS.Handle.mk (name ++ "/.") .read)
    return true
  catch _ => return false

def explore (directory : Directory) (path : Text) : IO Directory := do
  let mut directory := directory
  let mut here : Location := if path.head? = some (.scalar '/') then .root else []
  for name in Directory.names path do
    here := here.enter name
    if ← isFolder (place here) then
      directory := { directory with folders := here :: directory.folders }
    else
      try
        let bytes ← IO.FS.readBinFile (place here)
        directory := { directory with files := (here, bytes.toList) :: directory.files }
      catch _ => pure ()
  return directory

/-- The time in units of 1/1024 second. -/
def tick : IO Int := return (← IO.monoNanosNow) * 1024 / 1000000000

def timed (entryPoint source : Text) : IO Clock := do
  let started ← tick
  match Source.programOf source with
  | .error _ => return { started, parsed := started, lowered := started, finished := started }
  | .ok program =>
    let parsed ← tick
    match program.lower with
    | .error _ => return { started, parsed, lowered := parsed, finished := parsed }
    | .ok body =>
      let lowered ← tick
      let size := (body.wrapNamed entryPoint).length
      let finished ← tick
      return { started, parsed, lowered, finished := if size = 0 then lowered else finished }

def bytes (text : Text) : Bytes :=
  text.flatMap fun
    | .scalar c => String.utf8EncodeChar c
    | .surrogate index => [UInt8.ofNat index.val]

end AwaitScript.Console

open AwaitScript AwaitScript.Console

def main (arguments : List String) : IO UInt32 := do
  let argv := arguments.map Text.ofString
  let options : Options := match Command.parse argv with
    | .ok (.run options) => options
    | _ => {}
  let paths := (Command.given? options.file).toList ++ (Command.given? options.output).toList
  let directory ← paths.foldlM explore ⟨[], []⟩
  let reads := (Command.parse argv).toOption.any (· ≠ .help) && (Command.given? options.file).isNone
  let stdin ← if reads then (·.toList) <$> IO.FS.readBinFile "/dev/stdin" else pure []
  let clock ←
    if options.stats then
      match Command.input directory stdin options with
      | .ok text => timed options.entryPoint text
      | .error _ => pure {}
    else pure {}
  let (ending, world) := Command.conduct directory stdin clock argv
  for (location, content) in directory.changes world.directory do
    IO.FS.writeBinFile (place location) (ByteArray.mk content.toArray)
  (← IO.getStdout).write (ByteArray.mk (bytes world.stdout).toArray)
  IO.eprint world.stderr
  match ending with
  | .ok exit => return exit.toUInt32
  | .error abort =>
    IO.eprintln (match abort with
      | .path e => e.message
      | .decoding fault => fault.message
      | .encoding stray => stray.message
      | .failure (.encoding stray) => stray.message
      | .failure _ => "error: the program cannot be written")
    return 1
