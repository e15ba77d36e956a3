import Calculator.Shell

/-!
# Reading and printing

The command line as a program: lines come from standard input, answers go to standard
output and failures to standard error.
-/

/-- The bytes up to the end of a line; none at the end of the input. -/
def Calculator.Shell.readBytes (stream : IO.FS.Stream) : IO ByteArray := do
  let mut bytes := ByteArray.empty
  repeat
    let next ← stream.read 1
    bytes := bytes ++ next
    if next.isEmpty || next.data == #[10] then break
  return bytes

open Calculator Shell in
def main : IO UInt32 := do
  let stdin ← IO.getStdin
  let mut mode : Mode := {}
  repeat
    let bytes ← readBytes stdin
    if bytes.isEmpty then break
    let some line := String.fromUTF8? bytes
      | IO.eprintln unreadableText
        return unreadableCode
    let (next, output) := step mode (.ofLine line)
    mode := next
    match output with
    | some (.answer text) => IO.println text
    | some (.failure text) => IO.eprintln text
    | none => pure ()
  return exitCode
