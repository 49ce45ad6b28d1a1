/-
Clocked.Proofs.Command.ExitCode — when the program says that it failed.

A simulation that fails is reported and has the exit code 1 (`run_of_asked`). A command line
that asks for no simulation is answered with the usage, and its exit code looks at all words:
one that asks for help makes it 0, also where it is the operand of an option or stands behind
the fault that is reported (`run_of_not_asked`). So an error is reported with the exit code 0
exactly if the command line has a fault and a word that asks for help (`run_exitCode`).
-/
import Clocked.Proofs.Command.Replies

namespace Clocked.Command

variable {files : Files} {ws : List String} {o : Options} {output : List Log.Entry}

/-! ## 1. Reported errors -/

/-- A line of a text begins with a tag. Lines are told apart by line ends here: what is written
at once may have several (`linesTo`). -/
def HasLine (tag text : String) : Prop :=
  ∃ before after, text.toList = before ++ tag.toList ++ after ∧
    (before = [] ∨ before.getLast? = some '\n')

/-- What is written to the standard error has a line that reports an error. -/
def Reports (output : List Log.Entry) : Prop := ∃ text ∈ linesTo .stderr output, HasLine "Error: " text

theorem reports_of_stderr {message : String} (h : linesTo .stderr output = ["Error: " ++ message]) :
    Reports output := by
  refine ⟨"Error: " ++ message, by simp [h], [], message.toList, ?_, .inl rfl⟩
  rw [String.toList_append, List.nil_append]

theorem not_reports_of_stderr (h : linesTo .stderr output = []) : ¬ Reports output := by
  rintro ⟨text, htext, -⟩
  rw [h] at htext
  cases htext

/-! ## 2. Command lines that ask for a simulation -/

/-- The exit code of a simulation is 1 if an error is reported, and else 0. -/
theorem run_of_asked (files : Files) (h : asked ws = .ok o) :
    ∃ reply, run files ws = .replied reply ∧
      (reply.exitCode = 0 ∧ ¬ Reports reply.output ∨ reply.exitCode = 1 ∧ Reports reply.output) := by
  by_cases hprints : ∃ text, Prints files o.input text
  · obtain ⟨text, htext⟩ := hprints
    obtain ⟨-, c, reply, -, -, hrun, hanswers⟩ := run_of_prints h htext
    refine ⟨reply, hrun, ?_⟩
    obtain ⟨hzero, -, hstderr, -⟩ | ⟨hone, -, ⟨message, hstderr⟩, -⟩ := hanswers.ending
    · exact .inl ⟨hzero, not_reports_of_stderr hstderr⟩
    · exact .inr ⟨hone, reports_of_stderr hstderr⟩
  · obtain ⟨message, hmessage⟩ := run_of_not_prints hprints
    obtain ⟨reply, hrun, hfails⟩ := hmessage ws o h rfl
    exact ⟨reply, hrun, .inr ⟨hfails.exitCode, reports_of_stderr hfails.stderr⟩⟩

/-! ## 3. Other command lines -/

theorem reports_usageReply_iff {complaint : Option Complaint} :
    Reports (usageReply ws complaint).output ↔ ∃ c, complaint = some c := by
  cases complaint with
  | none => exact iff_of_false (not_reports_of_stderr rfl) nofun
  | some c =>
    have hstderr : linesTo .stderr (usageReply ws (some c)).output = ["Error: " ++ c.message] := rfl
    exact iff_of_true (reports_of_stderr hstderr) ⟨c, rfl⟩

/-- Any word that asks for help makes the usage a success. -/
theorem exitCode_usageReply (ws : List String) (complaint : Option Complaint) :
    (usageReply ws complaint).exitCode = if ∃ word ∈ ws, isHelp word = true then 0 else 1 := by
  simp only [usageReply, List.any_eq_true]

/-- Faults are reported, and the exit code depends on the words alone. -/
theorem run_of_not_asked (files : Files) (h : ¬ ∃ o, asked ws = .ok o) :
    ∃ reply, run files ws = .replied reply ∧
      (Reports reply.output ↔ Faulty (ws.drop leadingWords)) ∧
      reply.exitCode = if ∃ word ∈ ws, isHelp word = true then 0 else 1 := by
  cases hwords : Options.ofWords (ws.drop leadingWords) with
  | ok o => exact absurd ⟨o, by rw [asked, hwords]⟩ h
  | error complaint =>
    refine ⟨usageReply ws complaint, by rw [run, asked, hwords], ?_, exitCode_usageReply ws complaint⟩
    rw [reports_usageReply_iff, ← exists_complaint_iff, hwords]
    simp

/-- Without a fault there is a simulation, or a word that asks for help, or no word at all. -/
theorem exists_isHelp_of_not_asked (h : ¬ ∃ o, asked ws = .ok o)
    (hfault : ¬ Faulty (ws.drop leadingWords)) (hne : ws.drop leadingWords ≠ []) :
    ∃ word ∈ ws, isHelp word = true := by
  cases hwords : Options.ofWords (ws.drop leadingWords) with
  | ok o => exact absurd ⟨o, by rw [asked, hwords]⟩ h
  | error complaint =>
    cases complaint with
    | some c => exact absurd (exists_complaint_iff.1 ⟨c, hwords⟩) hfault
    | none =>
      obtain ⟨word, hword, hhelp⟩ := exists_isHelp_of_ofWords hwords hne
      exact ⟨word, List.mem_of_mem_drop hword, hhelp⟩

/-! ## 4. All command lines -/

/-- What asks for a simulation has words, and no fault. -/
theorem not_faulty_of_asked (h : asked ws = .ok o) :
    ws.drop leadingWords ≠ [] ∧ ¬ Faulty (ws.drop leadingWords) := by
  cases hwords : Options.ofWords (ws.drop leadingWords) with
  | ok o' =>
    refine ⟨fun hnil => ?_, fun hfault => ?_⟩
    · rw [hnil] at hwords
      cases hwords
    · obtain ⟨complaint, hcomplaint⟩ := exists_complaint_iff.2 hfault
      cases hwords.symm.trans hcomplaint
  | error complaint =>
    rw [asked, hwords] at h
    cases h

/-- **The exit code is 1 whenever an error is reported, but for one case.** It is 0 exactly if the
error is a fault of a command line in which some word asks for help. If none is reported it is 0,
unless there are no words to carry out and none asks for help. -/
theorem run_exitCode (files : Files) (ws : List String) :
    ∃ reply, run files ws = .replied reply ∧ (reply.exitCode = 0 ∨ reply.exitCode = 1) ∧
      (Reports reply.output → (reply.exitCode = 0 ↔
        Faulty (ws.drop leadingWords) ∧ ∃ word ∈ ws, isHelp word = true)) ∧
      (¬ Reports reply.output → (reply.exitCode = 1 ↔
        ws.drop leadingWords = [] ∧ ¬ ∃ word ∈ ws, isHelp word = true)) := by
  by_cases hasked : ∃ o, asked ws = .ok o
  · obtain ⟨o, ho⟩ := hasked
    obtain ⟨hne, hfault⟩ := not_faulty_of_asked ho
    obtain ⟨reply, hrun, ⟨hzero, hnone⟩ | ⟨hone, hreports⟩⟩ := run_of_asked files ho
    · refine ⟨reply, hrun, .inl hzero, fun hreports => absurd hreports hnone, fun _ => ?_⟩
      simp [hzero, hne]
    · refine ⟨reply, hrun, .inr hone, fun _ => ?_, fun hnone => absurd hreports hnone⟩
      simp [hone, hfault]
  · obtain ⟨reply, hrun, hreports, hcode⟩ := run_of_not_asked files hasked
    by_cases hhelp : ∃ word ∈ ws, isHelp word = true
    · rw [if_pos hhelp] at hcode
      refine ⟨reply, hrun, .inl hcode, fun h => ?_, fun _ => ?_⟩
      · exact iff_of_true hcode ⟨hreports.1 h, hhelp⟩
      · simp [hcode, hhelp]
    · rw [if_neg hhelp] at hcode
      refine ⟨reply, hrun, .inr hcode, fun _ => by simp [hcode, hhelp], fun hnone => ?_⟩
      have hnil : ws.drop leadingWords = [] := by
        by_contra hne
        exact hhelp (exists_isHelp_of_not_asked hasked (mt hreports.2 hnone) hne)
      exact iff_of_true hcode ⟨hnil, hhelp⟩

/-- The operand of an option makes the exit code 0, although no input file is an error. -/
theorem run_helpOperand_zero :
    ∃ reply, run (Disk.ofParts [] []).toFiles ["node", "hwsim", "--vcd", "-h"] = .replied reply ∧
      Reports reply.output ∧ reply.exitCode = 0 :=
  ⟨usageReply ["node", "hwsim", "--vcd", "-h"] (some .noInput), by decide +kernel,
    reports_usageReply_iff.2 ⟨_, rfl⟩, by decide⟩

end Clocked.Command
