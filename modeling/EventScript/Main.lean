import EventScript.CommandLine.Run

namespace EventScript.CommandLine

def loadPath (folder : Folder) (p : Path) : IO Folder := do
  try
    let bytes ← IO.FS.readBinFile p.toText
    return match folder.write p bytes.data.toList with
      | .ok folder => folder
      | .error _ => folder
  catch
    | .inappropriateType .. => return (folder.make p).1
    | _ => return folder

def store (before after : Folder) : IO Unit := do
  for place in after.folders.filter fun place => !before.folders.contains place do
    IO.FS.createDirAll ("/".intercalate place)
  for (place, bytes) in before.changes after do
    IO.FS.writeBinFile ("/".intercalate place) ⟨bytes.toArray⟩

def runProgram (arguments : List String) : IO UInt32 := do
  match parse arguments with
  | .error stop =>
    if stop = .help then IO.println usage else IO.eprintln usage
    return stop.status.toUInt32
  | .ok request =>
    let before ← request.paths.foldlM loadPath {}
    let outcome := request.run before
    store before outcome.folder
    for event in outcome.events do IO.eprintln event.text
    for table in outcome.tables do IO.println table.toText
    match outcome.status with
    | .ok status => return status.toUInt32
    | .error failure =>
      IO.eprintln failure.detail
      return 1

end EventScript.CommandLine

def main (arguments : List String) : IO UInt32 := EventScript.CommandLine.runProgram arguments
