import SmallScript.CommandLine.Transcript

/-!
A source can be run or only listed. Each way words the faults of the source for itself, and decides by
itself on the exit code; they say the same of every source.
-/
namespace SmallScript

theorem LexicalFault.text_diagnostic (f : LexicalFault) : f.diagnostic.text = f.text := by
  simp only [diagnostic, Diagnostic.text, text, String.append_assoc]
  rfl

theorem SyntaxFault.text_diagnostic (f : SyntaxFault) : f.diagnostic.text = f.text := rfl

/-- What is wrong with a source is worded alike by both. -/
theorem Listing.text_faults (source : String) :
    (Script.ofSource source).faults.map Diagnostic.text = (Listing.ofSource source).faults := by
  rw [Script.ofSource, Listing.ofSource, List.map_append, List.map_map, List.map_map]
  exact congr (congrArg _ (List.map_congr_left fun f _ => f.text_diagnostic))
    (List.map_congr_left fun f _ => f.text_diagnostic)

theorem Listing.isEmpty_faults (source : String) :
    (Listing.ofSource source).faults.isEmpty = (Script.ofSource source).faults.isEmpty := by
  rw [← text_faults, List.isEmpty_map]

theorem run_reports_text (source : String) (s : Scope) :
    (run source s).reports.map Diagnostic.text = (Listing.ofSource source).faults ++
      ((executeAll (Script.ofSource source).program s).fault?.map fun f =>
        f.diagnostic.text).toList := by
  rw [run, List.map_append, Listing.text_faults]
  cases (executeAll (Script.ofSource source).program s).fault? <;> rfl

theorem unlines_append (lines lines' : List String) :
    unlines (lines ++ lines') = unlines lines ++ unlines lines' := by
  induction lines with
  | nil => exact (String.empty_append).symm
  | cons line lines ih =>
    have hcons (ls : List String) : unlines (line :: ls) = line ++ "\n" ++ unlines ls := rfl
    rw [List.cons_append, hcons, hcons, ih, ← String.append_assoc]

theorem Answer.code?_listed (source : String) (s : Scope) : (toSource true source s).code? =
    if (Listing.ofSource source).faults.isEmpty then none else some ExitCode.syntaxError := rfl

theorem Answer.code?_run (source : String) (s : Scope) :
    (toSource false source s).code? = (run source s).status.exitCode? := rfl

/-- The transcript of a script that can be read. -/
theorem Transcript.ofScript_text {bytes : List UInt8} {source : String}
    (h : decodeText? bytes = some source) (dump : Bool) (name : String) :
    ofScript dump name (.ok bytes) =
      ⟨unlines (Answer.toSource dump source .empty).output,
        unlines (Answer.toSource dump source .empty).errors,
        (Answer.toSource dump source .empty).code?.getD 0⟩ := by
  simp only [ofScript, Except.bind, h]

/-- Running a source and listing it agree on its faults. The reports of a run are those of the listing
and, if execution of the listed statements ends in a fault, the report of that. A script that is run
ends with the code for syntax errors just if it does when it is listed; if it does not, the listing
ends well, and the run ends with the code for runtime errors if it reported one. -/
theorem run_agrees_with_listing {bytes : List UInt8} {source : String}
    (h : decodeText? bytes = some source) (name : String) :
    (Listing.ofSource source).lines = (Script.ofSource source).program.map Stmt.dump ∧
    (∀ s : Scope,
      (run source s).reports.map Diagnostic.text = (Listing.ofSource source).faults ++
        ((executeAll (Script.ofSource source).program s).fault?.map fun f =>
          f.diagnostic.text).toList ∧
      (run source s).status = ⟨!(Listing.ofSource source).faults.isEmpty,
        (executeAll (Script.ofSource source).program s).fault?.isSome⟩) ∧
    (Transcript.ofScript false name (.ok bytes)).errors =
      (Transcript.ofScript true name (.ok bytes)).errors ++
        unlines ((executeAll (Script.ofSource source).program .empty).fault?.map fun f =>
          f.diagnostic.text).toList ∧
    ((Transcript.ofScript true name (.ok bytes)).code = 65 ↔
      (Transcript.ofScript false name (.ok bytes)).code = 65) ∧
    ((Transcript.ofScript true name (.ok bytes)).code ≠ 65 →
      (Transcript.ofScript true name (.ok bytes)).code = 0 ∧
      (Transcript.ofScript false name (.ok bytes)).code =
        if (run source .empty).status.hadRuntimeError then 70 else 0) := by
  have hstatus (s : Scope) : (run source s).status = ⟨!(Listing.ofSource source).faults.isEmpty,
      (executeAll (Script.ofSource source).program s).fault?.isSome⟩ := by
    rw [run, Listing.isEmpty_faults]
  have hlisted : (Transcript.ofScript true name (.ok bytes)).code =
      if (Listing.ofSource source).faults.isEmpty then 0 else 65 := by
    rw [Transcript.ofScript_text h, Answer.code?_listed]
    cases (Listing.ofSource source).faults.isEmpty <;> rfl
  have hran : (Transcript.ofScript false name (.ok bytes)).code =
      if (Listing.ofSource source).faults.isEmpty then
        if (run source .empty).status.hadRuntimeError then 70 else 0
      else 65 := by
    rw [Transcript.ofScript_text h, Answer.code?_run, Status.exitCode?, hstatus]
    cases (Listing.ofSource source).faults.isEmpty
    · rfl
    · cases (executeAll (Script.ofSource source).program .empty).fault? <;> rfl
  refine ⟨rfl, fun s => ⟨run_reports_text source s, hstatus s⟩, ?_, ?_, ?_⟩
  · rw [Transcript.ofScript_text h, Transcript.ofScript_text h, ← unlines_append]
    exact congrArg unlines (run_reports_text source .empty)
  · rw [hlisted, hran]
    cases (Listing.ofSource source).faults.isEmpty
    · exact Iff.rfl
    · cases (run source .empty).status.hadRuntimeError <;> decide
  · rw [hlisted, hran]
    intro hc
    cases hf : (Listing.ofSource source).faults.isEmpty
    · exact absurd (by rw [hf]; rfl) hc
    · exact ⟨rfl, rfl⟩

/-- A script with a fault of each kind: in its text, in its syntax and in its execution. -/
theorem run_agrees_with_listing_faulty :
    decodeText? "print -nil;\nprint 1 +; @".toUTF8.toList = some "print -nil;\nprint 1 +; @" ∧
      (run "print -nil;\nprint 1 +; @" .empty).reports.map Diagnostic.text =
        (Listing.ofSource "print -nil;\nprint 1 +; @").faults ++
          ["[line 1] Error at '-': Operand must be a number."] ∧
      (Listing.ofSource "print -nil;\nprint 1 +; @").faults =
        ["[line 2] Error: Unexpected character.", "[line 2] Error at ';': Expect expression."] ∧
      ((Transcript.ofScript true "a" (.ok "print -nil;\nprint 1 +; @".toUTF8.toList)).code = 65 ↔
        (Transcript.ofScript false "a" (.ok "print -nil;\nprint 1 +; @".toUTF8.toList)).code =
          65) := by
  have h : decodeText? "print -nil;\nprint 1 +; @".toUTF8.toList =
      some "print -nil;\nprint 1 +; @" := by decide +kernel
  have hfault : ((executeAll (Script.ofSource "print -nil;\nprint 1 +; @").program
      .empty).fault?.map fun f => f.diagnostic.text).toList =
        ["[line 1] Error at '-': Operand must be a number."] := by decide +kernel
  obtain ⟨_, hreports, _, hcode, _⟩ := run_agrees_with_listing h "a"
  refine ⟨h, ?_, by decide +kernel, hcode⟩
  rw [← hfault]
  exact (hreports .empty).1

end SmallScript
