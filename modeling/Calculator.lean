import Calculator.Session
import Calculator.Main
import Calculator.Proofs.Meaning
import Calculator.Proofs.Conversion
import Calculator.Proofs.Delimiters
import Calculator.Proofs.Commas
import Calculator.Proofs.Grammar
import Calculator.Proofs.Precedence
import Calculator.Proofs.Accounting
import Calculator.Proofs.Outline
import Calculator.Proofs.Orderly
import Calculator.Proofs.Operands
import Calculator.Proofs.Agreement
import Calculator.Proofs.Frame
import Calculator.Proofs.Equation
import Calculator.Proofs.Doubles
import Calculator.Proofs.Rounding
import Calculator.Proofs.NearestDouble
import Calculator.Proofs.LongestName
import Calculator.Proofs.Lexemes
import Calculator.Proofs.Tasks
import Calculator.Proofs.Locality
import Calculator.Proofs.Questions
import Calculator.Proofs.NaN
import Calculator.Proofs.Shape
import Calculator.Proofs.FirstFault
import Calculator.Proofs.Concatenation
import Calculator.Proofs.OneLine
import Calculator.Proofs.CommandLine
import Calculator.Proofs.Search
import Calculator.Proofs.SpecialValues
import Calculator.Proofs.Overflow
import Calculator.Proofs.Printing
import Calculator.Proofs.Arithmetic
import Calculator.Proofs.Bounds
import Calculator.Proofs.Naturals
import Calculator.Proofs.RelativeError
import Calculator.Proofs.Products
import Calculator.Proofs.Counters
import Calculator.Proofs.Selections
import Calculator.Proofs.Coefficients
import Calculator.Proofs.Cursor
import Calculator.Proofs.Dispatch
import Calculator.Proofs.Safety
import Calculator.Proofs.Groups
import Calculator.Proofs.Substitution
import Calculator.Proofs.Segments
import Calculator.Proofs.Budget
import Calculator.Proofs.Places
import Calculator.Proofs.ArcFunctions
import Calculator.Proofs.Settings
import Calculator.Proofs.Sugar
import Calculator.Proofs.BareCalls
import Calculator.Proofs.Signs
import Calculator.Proofs.Neighbours
import Calculator.Proofs.ReadBack
import Calculator.Proofs.SignificantDigits
import Calculator.Proofs.StableDisplay
import Calculator.Proofs.FiniteRoots
import Calculator.Proofs.Transcript
import Calculator.Proofs.PostfixText
