import Calculator.Proofs.OneLine
import Calculator.Shell

/-!
# Each line on its own

What a line prints depends on the line and on the mode, and the mode only on the settings before
it: on the last unit of angles that was named, and on how often the inverse was switched. So the
output is that of the lines one after the other, and no text to solve has a part in what the other
lines print, be it solved or not.
-/

namespace Calculator.Shell

open Text (OneLine)

/-- The line without the blanks at its ends. -/
def trimmed (line : String) : String := String.ofList (Text.trim line.toList)

/-- The unit of angles that a line names. -/
def angleNamed? : String → Option AngleUnit
  | ":deg" => some .degrees
  | ":rad" => some .radians
  | _ => none

/-- The mode after some lines: the unit of angles named last, and inverse mode if it was switched
an odd number of times. -/
def modeAfter (lines : List String) : Mode where
  angle := (lines.filterMap fun line => angleNamed? (trimmed line)).getLast?.getD .degrees
  inverse := decide (lines.countP (fun line => trimmed line = ":inv") % 2 = 1)

/-- What a line prints in a mode, if anything. -/
def printed (mode : Mode) (line : String) : Option Output :=
  if line ∈ ["", ":deg", ":rad"] then none
  else if line = ":inv" then
    some (.answer ("Inverse mode " ++ if mode.inverse then "off" else "on"))
  else
    match solve mode.context line with
    | .ok solution => some (.answer solution.text)
    | .error error =>
      some (.failure ("Unable to calculate \"" ++ line ++ "\": " ++ error.message))

/-- The line is neither blank nor a setting. -/
def IsExpression (line : String) : Prop := trimmed line ∉ ["", ":deg", ":rad", ":inv"]

instance : DecidablePred IsExpression := fun line =>
  inferInstanceAs (Decidable (trimmed line ∉ ["", ":deg", ":rad", ":inv"]))

def Output.text : Output → String
  | answer text | failure text => text

variable {line : String} {input before after : List String} {mode : Mode}

/-! ## One line -/

theorem odd_succ (n : Nat) : decide ((n + 1) % 2 = 1) = !decide (n % 2 = 1) := by
  rw [← decide_not, decide_eq_decide]
  omega

theorem modeAfter_concat (before : List String) (line : String) :
    modeAfter (before ++ [line]) =
      { angle := (angleNamed? (trimmed line)).getD (modeAfter before).angle
        inverse := (modeAfter before).inverse ^^ decide (trimmed line = ":inv") } := by
  have hangle : (modeAfter (before ++ [line])).angle =
      (angleNamed? (trimmed line)).getD (modeAfter before).angle := by
    cases h : angleNamed? (trimmed line) <;> simp [modeAfter, h]
  have hinverse : (modeAfter (before ++ [line])).inverse =
      ((modeAfter before).inverse ^^ decide (trimmed line = ":inv")) := by
    by_cases h : trimmed line = ":inv"
    · simp [modeAfter, h, odd_succ]
    · simp [modeAfter, h]
  rw [← hangle, ← hinverse]

/-- A line is blank, a setting, or a text to solve. -/
theorem ofLine_cases (line : String) :
    (trimmed line = "" ∧ Request.ofLine line = .nothing) ∨
    (trimmed line = ":deg" ∧ Request.ofLine line = .setAngle .degrees) ∨
    (trimmed line = ":rad" ∧ Request.ofLine line = .setAngle .radians) ∨
    (trimmed line = ":inv" ∧ Request.ofLine line = .toggleInverse) ∨
    (IsExpression line ∧ Request.ofLine line = .solve (trimmed line)) := by
  unfold Request.ofLine IsExpression trimmed
  generalize String.ofList (Text.trim line.toList) = text
  split <;> simp_all

theorem angleNamed?_of_isExpression (h : IsExpression line) :
    angleNamed? (trimmed line) = none := by
  unfold IsExpression at h
  unfold angleNamed?
  generalize trimmed line = text at h
  split <;> simp_all

theorem printed_of_isExpression (mode : Mode) (h : IsExpression line) :
    printed mode (trimmed line) = some (answer mode (trimmed line)) := by
  unfold IsExpression at h
  generalize trimmed line = text at h
  have hquiet : text ∉ ["", ":deg", ":rad"] := fun hm => h (by simp_all)
  have hinv : text ≠ ":inv" := fun he => h (by simp_all)
  rw [printed, if_neg hquiet, if_neg hinv, answer]
  cases solve mode.context text <;> rfl

/-- A text to solve makes no difference to the modes after it. -/
theorem modeAfter_append_cons (before later : List String) (h : IsExpression line) :
    modeAfter (before ++ line :: later) = modeAfter (before ++ later) := by
  have hinv : trimmed line ≠ ":inv" := fun he => h (by simp [he])
  simp [modeAfter, angleNamed?_of_isExpression h, hinv]

/-- A line is carried out as it should be: what it prints, and the mode it leaves. -/
theorem step_modeAfter (before : List String) (line : String) :
    step (modeAfter before) (.ofLine line) =
      (modeAfter (before ++ [line]), printed (modeAfter before) (trimmed line)) := by
  obtain ⟨ht, hr⟩ | ⟨ht, hr⟩ | ⟨ht, hr⟩ | ⟨ht, hr⟩ | ⟨hx, hr⟩ := ofLine_cases line
  · simp [hr, ht, step, modeAfter_concat, angleNamed?, printed]
  · simp [hr, ht, step, modeAfter_concat, angleNamed?, printed]
  · simp [hr, ht, step, modeAfter_concat, angleNamed?, printed]
  · cases hi : (modeAfter before).inverse <;>
      simp [hr, ht, hi, step, modeAfter_concat, angleNamed?, printed, inverseText]
  · rw [hr, step, modeAfter_append_cons before [] hx, printed_of_isExpression _ hx,
      List.append_nil]

/-! ## All lines -/

/-- What each line prints, in the mode that all lines before it make. -/
def printedAfter (before after : List String) : List (Option Output) :=
  after.mapIdx fun i line => printed (modeAfter (before ++ after.take i)) (trimmed line)

theorem printedAfter_cons (before : List String) (line : String) (after : List String) :
    printedAfter before (line :: after) =
      printed (modeAfter before) (trimmed line) :: printedAfter (before ++ [line]) after := by
  simp [printedAfter, List.mapIdx_cons]

theorem printedAfter_append (start before after : List String) :
    printedAfter start (before ++ after) =
      printedAfter start before ++ printedAfter (start ++ before) after := by
  induction before generalizing start with
  | nil => simp [printedAfter]
  | cons line before ih =>
    rw [List.cons_append, printedAfter_cons, printedAfter_cons, ih]
    simp

/-- Without a text to solve, the lines after it print what they print with it. -/
theorem printedAfter_of_isExpression (before after : List String) (h : IsExpression line) :
    printedAfter (before ++ [line]) after = printedAfter before after := by
  simp [printedAfter, modeAfter_append_cons before _ h]

/-- The lines print one after the other what each of them does. -/
theorem run_modeAfter (before after : List String) :
    run (modeAfter before) after = (printedAfter before after).flatMap Option.toList := by
  induction after generalizing before with
  | nil => rfl
  | cons line after ih =>
    rw [run, step_modeAfter, printedAfter_cons, List.flatMap_cons, ← ih]

theorem fromUTF8?_toUTF8 (text : String) : String.fromUTF8? text.toUTF8 = some text := by
  rw [String.fromUTF8?, String.toUTF8_eq_toByteArray, dif_pos text.isValidUTF8]
  rfl

/-- Where every line is in UTF-8, all are carried out. -/
theorem carryOut_toUTF8 (mode : Mode) (lines : List String) :
    carryOut mode (lines.map String.toUTF8) = (run mode lines, exitCode) := by
  induction lines generalizing mode with
  | nil => rfl
  | cons line lines ih =>
    simp only [List.map_cons, carryOut, fromUTF8?_toUTF8, run, ih]

/-- A line that is not in UTF-8 is the last that is read, and those before it are carried out. -/
theorem carryOut_of_unreadable (mode : Mode) (lines : List String) {bytes : ByteArray}
    (h : String.fromUTF8? bytes = none) (more : List ByteArray) :
    carryOut mode (lines.map String.toUTF8 ++ bytes :: more) =
      (run mode lines ++ [.failure unreadableText], unreadableCode) := by
  induction lines generalizing mode with
  | nil => simp only [List.map_nil, List.nil_append, carryOut, h, run]
  | cons line lines ih =>
    simp only [List.map_cons, List.cons_append, carryOut, fromUTF8?_toUTF8, run, ih,
      List.append_assoc]

/-! ## Streams -/

variable (stream : Output → Option String)

theorem print_append (outputs more : List Output) :
    print stream (outputs ++ more) = print stream outputs ++ print stream more := by
  simp [print]

theorem print_flatMap (outputs : List (Option Output)) :
    print stream (outputs.flatMap Option.toList) =
      String.join (outputs.map fun output => print stream output.toList) := by
  induction outputs with
  | nil => rfl
  | cons output outputs ih => simp [print_append, ih]

/-- Lines with their ends can be told apart again. -/
theorem lines_join {texts : List String} (h : ∀ text ∈ texts, OneLine text) :
    lines (String.join (texts.map (· ++ "\n"))) = texts ++ [""] := by
  induction texts with
  | nil => rfl
  | cons text texts ih =>
    obtain ⟨ht, h⟩ := List.forall_mem_cons.mp h
    have hjoin : (String.join ((text :: texts).map (· ++ "\n"))).toList =
        text.toList ++ '\n' :: (String.join (texts.map (· ++ "\n"))).toList := by simp
    rw [lines, hjoin, List.splitOn_append_cons_self_of_not_mem ht, List.map_cons,
      String.ofList_toList, List.cons_append, ← ih h, lines]

theorem oneLine_trimmed (h : OneLine line) : OneLine (trimmed line) := by
  intro hm
  refine h ?_
  rw [trimmed, String.toList_ofList, Text.trim, List.mem_reverse] at hm
  have hback := List.mem_reverse.mp ((List.dropWhile_sublist _).mem hm)
  exact (List.dropWhile_sublist _).mem hback

theorem oneLine_printed {output : Output} (mode : Mode) (h : OneLine line)
    (ho : printed mode line = some output) : OneLine output.text := by
  unfold printed at ho
  split at ho
  · cases ho
  · split at ho
    · cases ho
      cases mode.inverse <;> decide +kernel
    · split at ho
      · cases ho
        exact Solution.oneLine_text _
      · rename_i e he
        cases ho
        change OneLine ("Unable to calculate \"" ++ line ++ "\": " ++ e.message)
        simp only [Text.oneLine_append]
        exact ⟨⟨⟨by decide +kernel, h⟩, by decide +kernel⟩,
          SolveError.oneLine_message (mode.oneLine_context .machine) he⟩

theorem oneLine_printedAfter {output : Output} (before : List String)
    (h : ∀ line ∈ after, OneLine line) (ho : some output ∈ printedAfter before after) :
    OneLine output.text := by
  obtain ⟨i, hi, ho⟩ := List.mem_mapIdx.mp ho
  exact oneLine_printed _ (oneLine_trimmed (h _ (List.getElem_mem hi))) ho

/-- What a stream gets can be told apart by lines again. -/
theorem lines_print {stream : Output → Option String}
    (hs : ∀ output text, stream output = some text → text = output.text)
    (h : ∀ line ∈ input, OneLine line) :
    lines (print stream (run {} input)) = (run {} input).filterMap stream ++ [""] := by
  refine lines_join fun text ht => ?_
  obtain ⟨output, ho, he⟩ := List.mem_filterMap.mp ht
  obtain rfl := hs output text he
  rw [show ({} : Mode) = modeAfter [] from rfl, run_modeAfter, List.mem_flatMap] at ho
  obtain ⟨_, hm, ho⟩ := ho
  obtain rfl := Option.mem_toList.mp ho
  exact oneLine_printedAfter [] h hm

/-- The output is that of the lines, one after the other, each in the mode that the settings before
it make; so it is on each stream. Lines in UTF-8 are all carried out, and the status is zero. If no
line has the end of a line within it, all output is in single lines, too, and the lines may as well
come as one text. A text to solve prints one line and has no part in what the other lines print. -/
theorem run_lines (input : List String) :
    run {} input = (printedAfter [] input).flatMap Option.toList ∧
    (∀ stream, print stream (run {} input) =
      String.join ((printedAfter [] input).map fun output => print stream output.toList)) ∧
    carryOut {} (input.map String.toUTF8) = (run {} input, 0) ∧
    ((∀ line ∈ input, OneLine line) →
      run {} (lines (String.join (input.map (· ++ "\n")))) = run {} input ∧
      lines (print Output.answer? (run {} input)) =
        (run {} input).filterMap Output.answer? ++ [""] ∧
      lines (print Output.failure? (run {} input)) =
        (run {} input).filterMap Output.failure? ++ [""]) ∧
    ∀ before line after, input = before ++ line :: after → IsExpression line →
      ∃ output, printed (modeAfter before) (trimmed line) = some output ∧
        printedAfter [] input =
          printedAfter [] before ++ some output :: printedAfter before after ∧
        printedAfter [] (before ++ after) =
          printedAfter [] before ++ printedAfter before after := by
  have hrun : ∀ lines, run {} lines = (printedAfter [] lines).flatMap Option.toList :=
    run_modeAfter []
  refine ⟨hrun input, ?_, carryOut_toUTF8 {} input, ?_, ?_⟩
  · intro stream
    rw [hrun, print_flatMap]
  · intro h
    refine ⟨?_, lines_print ?_ h, lines_print ?_ h⟩
    · -- the last line is empty
      rw [lines_join h, hrun, hrun, printedAfter_append]
      simp [printedAfter, trimmed, Text.trim, printed]
    · intro output text ht
      cases output <;> cases ht
      rfl
    · intro output text ht
      cases output <;> cases ht
      rfl
  · rintro before line after rfl hx
    refine ⟨_, printed_of_isExpression _ hx, ?_, printedAfter_append [] before after⟩
    rw [printedAfter_append, List.nil_append, printedAfter_cons, printed_of_isExpression _ hx,
      printedAfter_of_isExpression before after hx]

/-- The statement above at four lines, of which the third fails and is then left out. -/
theorem run_lines_inverse :
    let input : List String := [" :inv ", "2", "1/0", ":inv"]
    let outputs : List Output := [.answer "Inverse mode on", .answer "2",
      .failure "Unable to calculate \"1/0\": Solver error: Math error in '/'",
      .answer "Inverse mode off"]
    (∀ line ∈ input, OneLine line) ∧ IsExpression "1/0" ∧ run {} input = outputs ∧
      carryOut {} (input.map String.toUTF8) = (outputs, 0) ∧
      lines (print Output.answer? outputs) = outputs.filterMap Output.answer? ++ [""] ∧
      ∃ output, printed (modeAfter [" :inv ", "2"]) (trimmed "1/0") = some output ∧
        printedAfter [] input =
          printedAfter [] [" :inv ", "2"] ++
            some output :: printedAfter [" :inv ", "2"] [":inv"] ∧
        printedAfter [] ([" :inv ", "2"] ++ [":inv"]) =
          printedAfter [] [" :inv ", "2"] ++ printedAfter [" :inv ", "2"] [":inv"] := by
  intro input outputs
  have hlines : ∀ line ∈ input, OneLine line := by decide +kernel
  have hx : IsExpression "1/0" := by decide +kernel
  have hrun : run {} input = outputs := by decide +kernel
  obtain ⟨-, -, hcarry, hone, hframe⟩ := run_lines input
  rw [← hrun]
  exact ⟨hlines, hx, rfl, hcarry, (hone hlines).2.1, hframe [" :inv ", "2"] _ [":inv"] rfl hx⟩

end Calculator.Shell
