import Calculator.Builtin.Meaning
import Calculator.Solution
import Calculator.Text.Blank

/-!
# The command line

Each line is a setting, or a text to solve. Settings hold for the lines after them; nothing
else carries over from one line to the next.
-/

namespace Calculator.Shell

/-- One line of output, with where it goes. -/
inductive Output where
  | answer (text : String)
  | failure (text : String)
  deriving DecidableEq, Repr

/-- What a line asks for. -/
inductive Request where
  | nothing
  | setAngle (unit : AngleUnit)
  | toggleInverse
  | solve (text : String)
  deriving DecidableEq, Repr

/-- The request of a line; blanks at its ends do not count. -/
def Request.ofLine (line : String) : Request :=
  match String.ofList (Text.trim line.toList) with
  | "" => .nothing
  | ":deg" => .setAngle .degrees
  | ":rad" => .setAngle .radians
  | ":inv" => .toggleInverse
  | text => .solve text

/-- The line that announces whether inverse mode is on. -/
def inverseText (on : Bool) : String := "Inverse mode " ++ if on then "on" else "off"

/-- The line that shows what became of a text. -/
def answer (mode : Mode) (text : String) : Output :=
  match solve mode.context text with
  | .ok solution => .answer solution.text
  | .error error => .failure ("Unable to calculate \"" ++ text ++ "\": " ++ error.message)

/-- Carries out a request: the settings after it, and the line it prints, if any. -/
def step (mode : Mode) : Request → Mode × Option Output
  | .nothing => (mode, none)
  | .setAngle unit => ({ mode with angle := unit }, none)
  | .toggleInverse =>
    let mode := { mode with inverse := !mode.inverse }
    (mode, some (.answer (inverseText mode.inverse)))
  | .solve text => (mode, some (answer mode text))

/-- Carries out the requests of the lines, one after the other. -/
def run (mode : Mode) : List String → List Output
  | [] => []
  | line :: lines =>
    let (mode, output) := step mode (.ofLine line)
    output.toList ++ run mode lines

/-- The lines of a text; the last may lack its end. -/
def lines (text : String) : List String := (text.toList.splitOn '\n').map String.ofList

/-- What a stream gets of the output, each line with its end. -/
def print (select : Output → Option String) (outputs : List Output) : String :=
  String.join ((outputs.filterMap select).map (· ++ "\n"))

def Output.answer? : Output → Option String
  | answer text => some text
  | failure _ => none

def Output.failure? : Output → Option String
  | answer _ => none
  | failure text => some text

/-- The status with which the command line ends after its last line, whatever the lines. -/
def exitCode : UInt32 := 0

/-- The status with which the command line ends at a line that is not in UTF-8. -/
def unreadableCode : UInt32 := 1

/-- What is said of a line that is not in UTF-8. -/
def unreadableText : String :=
  "Error: Error \x7b kind: InvalidData, message: \"stream did not contain valid UTF-8\" \x7d"

/-- Carries out lines as their bytes are read: the output, and the status at the end. -/
def carryOut (mode : Mode) : List ByteArray → List Output × UInt32
  | [] => ([], exitCode)
  | bytes :: lines =>
    match String.fromUTF8? bytes with
    | none => ([.failure unreadableText], unreadableCode)
    | some line =>
      let (mode, output) := step mode (.ofLine line)
      let (outputs, code) := carryOut mode lines
      (output.toList ++ outputs, code)

end Calculator.Shell
