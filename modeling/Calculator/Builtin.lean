/-!
# The built-in functions

Their names as written, how many arguments each takes, and which of them a text starts
with.
-/

namespace Calculator

/-- The functions that an expression can call. -/
inductive Builtin where
  | stdevp | stdev | nthRoot | round | floor | ceil | mean
  | asin | acos | atan | sin | cos | tan | sec | cosec | cot
  | log | ln | exp | abs | nPr | nCr
  deriving DecidableEq, Repr

namespace Builtin

def all : List Builtin :=
  [stdevp, stdev, nthRoot, round, floor, ceil, mean, asin, acos, atan, sin, cos, tan, sec, cosec,
    cot, log, ln, exp, abs, nPr, nCr]

def name : Builtin → String
  | stdevp => "stdevp"
  | stdev => "stdev"
  | nthRoot => "nthRoot"
  | round => "round"
  | floor => "floor"
  | ceil => "ceil"
  | mean => "mean"
  | asin => "asin"
  | acos => "acos"
  | atan => "atan"
  | sin => "sin"
  | cos => "cos"
  | tan => "tan"
  | sec => "sec"
  | cosec => "cosec"
  | cot => "cot"
  | log => "log"
  | ln => "ln"
  | exp => "exp"
  | abs => "abs"
  | nPr => "nPr"
  | nCr => "nCr"

/-- How many arguments a call takes. -/
def arity : Builtin → Nat
  | nthRoot | mean | stdev | stdevp | nPr | nCr => 2
  | _ => 1

/-- The length of the name in characters. -/
def nameLength (f : Builtin) : Nat := f.name.toList.length

/-- Does the text start with the function's name? -/
def startsWith (text : List Char) (f : Builtin) : Bool := f.name.toList.isPrefixOf text

/-- Of the functions in `table` whose names the text starts with, one with the longest name. -/
def longestIn (table : List Builtin) (text : List Char) : Option Builtin :=
  (table.filter (startsWith text)).foldl
    (fun best f =>
      match best with
      | some g => if g.nameLength ≤ f.nameLength then some f else some g
      | none => some f)
    none

/-- The function with the longest name that the text starts with. -/
def longestAt (text : List Char) : Option Builtin := longestIn all text

/-- The function of the given name. -/
def ofName? (name : String) : Option Builtin := all.find? fun f => f.name == name

theorem mem_all (f : Builtin) : f ∈ all := by cases f <;> decide

theorem ofName?_name (f : Builtin) : ofName? f.name = some f := by cases f <;> decide

theorem name_inj {f g : Builtin} (h : f.name = g.name) : f = g := by
  have hf := ofName?_name f
  rw [h, ofName?_name g] at hf
  exact (Option.some.inj hf).symm

end Builtin

end Calculator
