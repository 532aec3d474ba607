import OnlineAggregation.Proofs.Decimal.RunningText
import OnlineAggregation.Trace.Export

/-!
# Traces as tables

A table is a text of closed lines, and a line is made of fields with separators between them; both
are taken apart here by splitting at a character. Main statements: lines and fields that do not
contain the character they are joined by are found again; the numbers of a table contain no such
character, whatever they are. So a table has a line for its heading and one for each entry, in order,
with four fields that tell the entry, and tabs in place of commas make no other difference.
-/

namespace OnlineAggregation

open Decimal (HasNumberChars isNumberChar ReadsNearest ReadsWithinHalf)

namespace Text

/-! ## §1 Joined lists -/

section Lists

variable {α : Type} {a : α} {ls : List (List α)}

theorem eq_or_mem_of_mem_intercalate {x : α} (h : x ∈ [a].intercalate ls) :
    x = a ∨ ∃ l ∈ ls, x ∈ l := by
  induction ls with
  | nil => simp at h
  | cons l ls ih =>
    cases ls with
    | nil => exact Or.inr ⟨l, List.mem_cons_self, by simpa using h⟩
    | cons l' ls =>
      simp only [List.intercalate_cons_cons, List.mem_append, List.mem_singleton] at h
      rcases h with (hx | hx) | hx
      · exact Or.inr ⟨l, List.mem_cons_self, hx⟩
      · exact Or.inl hx
      · refine (ih hx).imp_right ?_
        rintro ⟨k, hk, hxk⟩
        exact ⟨k, List.mem_cons_of_mem _ hk, hxk⟩

/-- Closing each list is the same as joining them with an empty one at the end. -/
theorem flatMap_close (a : α) (ls : List (List α)) :
    ls.flatMap (· ++ [a]) = [a].intercalate (ls ++ [[]]) := by
  induction ls with
  | nil => simp
  | cons l ls ih =>
    rw [List.flatMap_cons, ih]
    cases ls <;> simp

theorem map_intercalate {β : Type} (f : α → β) :
    ([a].intercalate ls).map f = [f a].intercalate (ls.map (List.map f)) := by
  induction ls with
  | nil => rfl
  | cons l ls ih =>
    cases ls with
    | nil => simp
    | cons l' ls => simpa using ih

end Lists

/-! ## §2 Lines and fields -/

/-- The lines of a text, if each of them is closed by a line break, the last one too. -/
def lines? (text : String) : Option (List String) :=
  let pieces := text.toList.splitOn '\n'
  -- What follows the last line break has to be nothing.
  if pieces.getLast? = some [] then some (pieces.dropLast.map String.ofList) else none

/-- The fields of a line. -/
def fields (separator : Char) (line : String) : List String :=
  (line.toList.splitOn separator).map String.ofList

/-- A text with one character in place of another. -/
def replaced (old new : Char) (text : String) : String :=
  text.map fun c => if c = old then new else c

section Tables

variable {separator old new : Char} {cells lines : List String}

/-- **Closed lines are found again**. -/
theorem lines?_join (h : ∀ line ∈ lines, '\n' ∉ line.toList) :
    lines? (String.join (lines.map (· ++ "\n"))) = some lines := by
  have htext : (String.join (lines.map (· ++ "\n"))).toList =
      ['\n'].intercalate (lines.map String.toList ++ [[]]) := by
    rw [← flatMap_close, String.toList_join, List.flatMap_map, List.flatMap_map]
    simp [String.toList_append]
  have hpieces : (String.join (lines.map (· ++ "\n"))).toList.splitOn '\n' =
      lines.map String.toList ++ [[]] := by
    rw [htext]
    exact List.splitOn_intercalate '\n' (by simpa [or_imp, forall_and] using h) (by simp)
  simp only [lines?, hpieces]
  simp [Function.comp_def]

/-- **Separated fields are found again**, if there are any. -/
theorem fields_intercalate (h : ∀ cell ∈ cells, separator ∉ cell.toList) (hne : cells ≠ []) :
    fields separator ((String.singleton separator).intercalate cells) = cells := by
  have hsplit : ((String.singleton separator).intercalate cells).toList.splitOn separator =
      cells.map String.toList := by
    rw [String.toList_intercalate, String.toList_singleton]
    exact List.splitOn_intercalate separator (by simpa using h) (by simpa using hne)
  simp only [fields, hsplit]
  simp [Function.comp_def]

theorem replaced_of_notMem {text : String} (h : old ∉ text.toList) : replaced old new text = text := by
  have hkept : ∀ c ∈ text.toList, (if c = old then new else c) = id c := by
    intro c hc
    exact if_neg (by rintro rfl; exact h hc)
  rw [replaced, ← String.toList_inj, String.toList_map, List.map_congr_left hkept, List.map_id]

/-- Another separator between fields without the old one. -/
theorem replaced_intercalate (h : ∀ cell ∈ cells, old ∉ cell.toList) :
    replaced old new ((String.singleton old).intercalate cells) =
      (String.singleton new).intercalate cells := by
  have hcells : (cells.map String.toList).map (List.map fun c => if c = old then new else c) =
      cells.map String.toList := by
    rw [List.map_map]
    refine List.map_congr_left fun cell hcell => ?_
    have hsame := congrArg String.toList (@replaced_of_notMem old new cell (h cell hcell))
    rwa [replaced, String.toList_map] at hsame
  rw [replaced, ← String.toList_inj]
  simp [String.toList_map, map_intercalate, hcells]

theorem replaced_join (hbreak : '\n' ≠ old) :
    replaced old new (String.join (lines.map (· ++ "\n"))) =
      String.join ((lines.map (replaced old new)).map (· ++ "\n")) := by
  rw [replaced, ← String.toList_inj]
  simp [replaced, String.toList_map, String.toList_append, List.map_flatMap, List.flatMap_map,
    hbreak]

end Tables

end Text

/-! ## §3 The table of a trace -/

/-- What the fields of an entry tell: its count, its mean and its half-width up to half of the
twelfth place, and its confidence. -/
inductive TellsEntry (e : Estimate) : List String → Prop where
  | columns {count mean epsilon confidence : String} (hcount : count.toNat? = some e.count)
      (hmean : ReadsWithinHalf 12 mean e.mean) (hepsilon : ReadsWithinHalf 12 epsilon e.epsilon)
      (hconfidence : ReadsNearest confidence e.confidence) :
      TellsEntry e [count, mean, epsilon, confidence]

namespace ConvergenceTrace

open Text (lines? fields replaced)

theorem tellsEntry_columns (e : Estimate) : TellsEntry e (columns e) :=
  .columns (Nat.toNat?_repr e.count) (Decimal.readsWithinHalf_fixed 12 e.mean)
    (Decimal.readsWithinHalf_fixed 12 e.epsilon) (Decimal.readsNearest_write e.confidence)

/-- The fields of all lines, those of the heading first. -/
def cells (t : ConvergenceTrace) : List (List String) :=
  columnNames :: t.entries.toList.map columns

variable {t : ConvergenceTrace} {separator : Char}

/-- A character that joins fields or closes lines. -/
def isJoining (c : Char) : Bool :=
  c == ',' || c == '\t' || c == '\n'

theorem isJoining_of_hasNumberChars {text : String} (h : HasNumberChars text) :
    ∀ c ∈ text.toList, isJoining c = false := by
  intro c hc
  have hnumber := h c hc
  by_contra hjoining
  simp only [isJoining, Bool.not_eq_false, Bool.or_eq_true, beq_iff_eq] at hjoining
  rcases hjoining with (rfl | rfl) | rfl <;> simp [isNumberChar, Json.digit?] at hnumber

/-- **No field joins anything**, whatever the numbers are. -/
theorem isJoining_cells : ∀ row ∈ t.cells, ∀ cell ∈ row, ∀ c ∈ cell.toList, isJoining c = false := by
  have hheading : ∀ cell ∈ columnNames, ∀ c ∈ cell.toList, isJoining c = false := by
    simp [columnNames, isJoining]
  have hcolumns : ∀ e : Estimate, ∀ cell ∈ columns e, ∀ c ∈ cell.toList, isJoining c = false := by
    intro e
    simp only [columns, List.forall_mem_cons]
    exact ⟨isJoining_of_hasNumberChars (Decimal.hasNumberChars_toString e.count),
      isJoining_of_hasNumberChars (Decimal.hasNumberChars_text e.mean 12).1,
      isJoining_of_hasNumberChars (Decimal.hasNumberChars_text e.epsilon 12).1,
      isJoining_of_hasNumberChars (Decimal.hasNumberChars_text e.confidence 12).2,
      List.forall_mem_nil _⟩
  intro row hrow
  rcases List.mem_cons.mp hrow with rfl | hentry
  · exact hheading
  · obtain ⟨e, -, rfl⟩ := List.mem_map.mp hentry
    exact hcolumns e

theorem length_of_mem_cells {row : List String} (hrow : row ∈ t.cells) : row.length = 4 := by
  rcases List.mem_cons.mp hrow with rfl | hentry
  · rfl
  · obtain ⟨e, -, rfl⟩ := List.mem_map.mp hentry
    rfl

theorem joining_notMem {c : Char} (hc : isJoining c = true) :
    ∀ row ∈ t.cells, ∀ cell ∈ row, c ∉ cell.toList := by
  intro row hrow cell hcell hmem
  simp [isJoining_cells row hrow cell hcell c hmem] at hc

theorem table_eq_join (t : ConvergenceTrace) (separator : String) :
    t.table separator = String.join ((t.cells.map separator.intercalate).map (· ++ "\n")) := by
  simp [table, cells, tableLine, Function.comp_def]

/-- **The lines of a table** are those that were joined. -/
theorem lines?_table (hbreak : '\n' ≠ separator) :
    lines? (t.table (String.singleton separator)) =
      some (t.cells.map (String.singleton separator).intercalate) := by
  rw [table_eq_join]
  apply Text.lines?_join
  intro line hline
  obtain ⟨row, hrow, rfl⟩ := List.mem_map.mp hline
  rw [String.toList_intercalate, String.toList_singleton]
  intro hmem
  rcases Text.eq_or_mem_of_mem_intercalate hmem with hsame | ⟨cell, hcell, hmem⟩
  · exact hbreak hsame
  · obtain ⟨text, htext, rfl⟩ := List.mem_map.mp hcell
    exact joining_notMem rfl row hrow text htext hmem

/-- **The fields of a line** are those of its row. -/
theorem fields_line (hjoining : isJoining separator = true) {row : List String}
    (hrow : row ∈ t.cells) :
    fields separator ((String.singleton separator).intercalate row) = row := by
  have hfour := length_of_mem_cells hrow
  exact Text.fields_intercalate (joining_notMem hjoining row hrow)
    (List.ne_nil_of_length_pos (by omega))

/-- **Another separator** makes no other difference. -/
theorem table_replaced {old : Char} (hjoining : isJoining old = true) (hbreak : '\n' ≠ old)
    (new : Char) :
    t.table (String.singleton new) = replaced old new (t.table (String.singleton old)) := by
  have hlines : (t.cells.map (String.singleton old).intercalate).map (replaced old new) =
      t.cells.map (String.singleton new).intercalate := by
    rw [List.map_map]
    exact List.map_congr_left fun row hrow =>
      Text.replaced_intercalate (joining_notMem hjoining row hrow)
  rw [table_eq_join, table_eq_join, Text.replaced_join hbreak, hlines]

/-- **A table is well formed and tells the trace**, for every trace, whatever the numbers of its
entries are. The text with commas has one closed line more than the trace has entries, and each line
has four fields between its commas. The first line has the names of the columns, and then each entry
has its line, in order: a field that is read as its count, two that are read as decimals within half
of the twelfth place of its mean and its half-width, and one that is read as a decimal to which its
confidence is the nearest number; where a number is not finite, its field is no decimal. The text with
tabs is the same text with a tab in the place of each comma. -/
theorem table_tells_entries (t : ConvergenceTrace) :
    (∃ heading rows, lines? (t.exportText .csv) = some (heading :: rows) ∧
        (heading :: rows).length = t.entries.size + 1 ∧
        (∀ line ∈ heading :: rows, (fields ',' line).length = 4) ∧
        fields ',' heading = ["count", "mean", "epsilon", "confidence"] ∧
        List.Forall₂ (fun e row => TellsEntry e (fields ',' row)) t.entries.toList rows) ∧
      t.exportText .tsv = replaced ',' '\t' (t.exportText .csv) := by
  have hlines : lines? (t.table (String.singleton ',')) = _ := lines?_table (by decide)
  have hfields : ∀ row ∈ t.cells, fields ',' ((String.singleton ',').intercalate row) = row :=
    fun row hrow => fields_line rfl hrow
  -- The lines are those of the heading and of the entries, as they were joined.
  refine ⟨⟨(String.singleton ',').intercalate columnNames,
    (t.entries.toList.map columns).map (String.singleton ',').intercalate, hlines, ?_, ?_, ?_, ?_⟩,
    table_replaced rfl (by decide) '\t'⟩
  · simp
  · intro line hline
    obtain ⟨row, hrow, rfl⟩ : ∃ row ∈ t.cells, (String.singleton ',').intercalate row = line :=
      List.mem_map.mp hline
    rw [hfields row hrow]
    exact length_of_mem_cells hrow
  · exact hfields columnNames List.mem_cons_self
  · rw [List.map_map, List.forall₂_map_right_iff, List.forall₂_same]
    intro e he
    have hrow : columns e ∈ t.cells := List.mem_cons_of_mem _ (List.mem_map_of_mem he)
    simp only [Function.comp_apply, hfields _ hrow]
    exact tellsEntry_columns e

end ConvergenceTrace

end OnlineAggregation
