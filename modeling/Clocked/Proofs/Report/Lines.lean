/-
Clocked.Proofs.Report.Lines — printed lines, cut again.

Reports are lines with line ends between them, and some lines begin with a word that ends at
the first blank. Lines are found again if they hold no line ends (`splitOn_lines`), the word if
it holds no blank, whatever follows it (`span_firstWord`).
-/
namespace Clocked.Report

/-- A text is cut into the lines that it was made of. -/
theorem splitOn_lines {lines : List String} (hne : lines ≠ [])
    (h : ∀ line ∈ lines, '\n' ∉ line.toList) :
    ("\n".intercalate lines).toList.splitOn '\n' = lines.map String.toList := by
  rw [String.toList_intercalate]
  refine List.splitOn_intercalate '\n' ?_ ?_
  · exact List.forall_mem_map.2 h
  · simpa using hne

/-- A line is cut behind its first word. -/
theorem span_firstWord {word : List Char} (h : ' ' ∉ word) (rest : List Char) :
    (word ++ ' ' :: rest).takeWhile (· ≠ ' ') = word ∧
      (word ++ ' ' :: rest).dropWhile (· ≠ ' ') = ' ' :: rest := by
  have hword : ∀ ch ∈ word, decide (ch ≠ ' ') = true := by
    intro ch hch
    exact decide_eq_true fun heq => h (heq ▸ hch)
  rw [List.takeWhile_append_of_pos hword, List.dropWhile_append_of_pos hword]
  simp

end Clocked.Report
