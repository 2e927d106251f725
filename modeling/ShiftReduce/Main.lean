import ShiftReduce.Command

/-!
# Running the command

The host is the file system of the machine, with the standard streams.
-/

namespace ShiftReduce

/-- The string of a text, if it is valid UTF-8. -/
def Text.toString? (t : Text) : Option String :=
  String.fromUTF8? ⟨t.toArray⟩

/-- All bytes of an open file. A directory can be opened, and reads as empty. -/
def readAll (handle : IO.FS.Handle) : IO Text := do
  try
    return (← handle.readBinToEnd).toList
  catch _ =>
    return []

/-- The file system and the standard streams. A name that is not valid UTF-8 names no file. -/
def machine : Host IO where
  create file := do
    match file.toString? with
    | none => return false
    | some name =>
      try
        IO.FS.writeBinFile name ⟨#[]⟩
        return true
      catch _ =>
        return false
  append file content := do
    if let some name := file.toString? then
      IO.FS.withFile name .append fun handle => handle.write ⟨content.toArray⟩
  read file := do
    match file.toString? with
    | none => return none
    | some name =>
      try
        return some (← readAll (← IO.FS.Handle.mk name .read))
      catch _ =>
        return none
  input := return (← (← IO.getStdin).readBinToEnd).toList
  out text := do (← IO.getStdout).write ⟨text.toArray⟩
  err text := do (← IO.getStderr).write ⟨text.toArray⟩

end ShiftReduce

open ShiftReduce in
/-- Runs the command on the machine. A run without an exit status does not come to its end. -/
def main (arguments : List String) : IO UInt32 := do
  return (← Command.run machine (arguments.map Text.ofString)).getD 0
