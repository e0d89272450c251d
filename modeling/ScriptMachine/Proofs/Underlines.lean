import Mathlib
import ScriptMachine.Report
import ScriptMachine.Proofs.Lines
import ScriptMachine.Proofs.Pointing

/-! How a refusal is shown. The lines of its range are printed with marks exactly under the bytes of the
range, and there is always a mark. -/
namespace ScriptMachine

namespace Source

variable {source : Source} {offset : Nat} {b c : UInt8} {text : Bytes} {i : Nat}

theorem prefix_dropFinal (b : UInt8) (text : Bytes) : dropFinal b text <+: text := by
  rw [dropFinal]
  split
  · exact List.dropLast_prefix text
  · exact List.prefix_rfl

/-- The end of a text loses no other byte. -/
theorem getElem?_dropFinal (found : text[i]? = some c) (other : c ≠ b) : (dropFinal b text)[i]? = some c := by
  rw [dropFinal]
  split
  next last =>
    have inside : i < text.length := (List.getElem?_eq_some_iff.mp found).1
    have inner : i ≠ text.length - 1 := by
      rintro rfl
      rw [← List.getLast?_eq_getElem?,last] at found
      exact other (Option.some_inj.mp found).symm
    rw [List.getElem?_dropLast,if_pos (by omega),found]
  next => exact found

/-- A line shows bytes of the script, from its start on. -/
theorem prefix_lineText (source : Source) (line : Nat) :
    source.lineText line <+: source.text.drop (source.lineStart line) := by
  rw [lineText]
  exact (prefix_dropFinal _ _).trans ((prefix_dropFinal _ _).trans (List.take_prefix _ _))

theorem getElem?_lineText {line : Nat} (inside : i < (source.lineText line).length) :
    source.text[source.lineStart line + i]? = (source.lineText line)[i]? := by
  obtain ⟨behind,split⟩ := prefix_lineText source line
  rw [← List.getElem?_drop,← split,List.getElem?_append_left inside]

/-- The next line starts behind the offset. -/
theorem lt_lineStart_succ (inside : offset ≤ source.size) (more : source.line offset ≠ source.lineCount) :
    offset < source.lineStart (source.line offset + 1) := by
  have length : (source.text.take offset).length = offset := by
    rw [List.length_take,← source.size_eq,Nat.min_eq_left inside]
  have cuts := cuts_lineStarts (source.text.take offset) (source.text.drop offset)
  rw [List.take_append_drop,length,← line_eq inside] at cuts
  have lines : source.lineCount = (0 :: startsAfterLineFeeds 0 source.text).length := by
    rw [lineCount,source.lineStarts_eq,List.size_toArray]
  have less := lt_of_le_of_ne cuts.inside (lines ▸ more)
  refine cuts.above _ le_rfl _ ?_
  rw [lineStart,source.lineStarts_eq,Nat.add_sub_cancel,Array.getD_eq_getD_getElem?,
    List.getElem?_toArray,List.getElem?_eq_getElem less,Option.getD_some]

/-- A byte that breaks no line is shown on its line. -/
theorem lineText_getElem? (found : source.text[offset]? = some b) (noFeed : b ≠ Byte.lineFeed)
    (noReturn : b ≠ Byte.carriageReturn) :
    (source.lineText (source.line offset))[offset - source.lineStart (source.line offset)]? = some b := by
  have less : offset < source.size := source.size_eq ▸ (List.getElem?_eq_some_iff.mp found).1
  have start : source.lineStart (source.line offset) ≤ offset := by
    rw [lineStart_line less.le]
    exact Nat.sub_le _ _
  rw [lineText]
  refine getElem?_dropFinal (getElem?_dropFinal ?_ noFeed) noReturn
  have stop : offset < if source.line offset = source.lineCount then source.size
      else source.lineStart (source.line offset + 1) := by
    split
    next => exact less
    next more => exact lt_lineStart_succ less.le more
  rw [slice,List.getElem?_take_of_lt (by omega),List.getElem?_drop,Nat.add_sub_cancel' start,found]

end Source

namespace Report

/-- What a terminal shows of a text: all but the codes of colours, from an escape byte to the next `m`. -/
def visible (inCode : Bool) : Bytes → Bytes
  | [] => []
  | b :: rest =>
    if inCode then visible (b ≠ 109) rest
    else if b = 27 then visible true rest
    else b :: visible false rest

/-- How many columns a byte takes. -/
def columns (tab : Nat) (b : UInt8) : Nat :=
  if b = Byte.tab then tab else 1

/-- A line as it is printed, and what is printed under it. -/
structure Row where
  line : Nat
  text : Bytes
  under : Bytes

def Row.printed (row : Row) : Bytes :=
  row.text ++ [Byte.lineFeed] ++ (row.under ++ [Byte.lineFeed])

/-- The row shows a line of the script, with marks under the bytes of the range and no others. There is one
more behind the line for a range that is empty or starts there. -/
structure Row.Underlines (s : Setting) (span : Span) (row : Row) : Prop where
  line : 1 ≤ row.line ∧ row.line ≤ s.source.lineCount
  text : row.text = s.source.lineText row.line
  inside : ∀ i < row.text.length, s.source.lineStart row.line + i < s.source.size ∧
    s.source.text[s.source.lineStart row.line + i]? = row.text[i]?
  under : visible false row.under =
    ((row.text.zipIdx (s.source.lineStart row.line)).flatMap fun at_ =>
      List.replicate (columns s.tab at_.1) (if span.start ≤ at_.2 ∧ at_.2 < span.stop then 126 else 32)) ++
    if span.start = span.stop ∨ s.source.lineStart row.line + row.text.length ≤ span.start then [126] else []

theorem visible_replicate {c : UInt8} (other : c ≠ 27) (n : Nat) (rest : Bytes) :
    visible false (List.replicate n c ++ rest) = List.replicate n c ++ visible false rest := by
  induction n with
  | zero => rfl
  | succ n ih =>
    rw [List.replicate_succ,List.cons_append,visible,if_neg Bool.false_ne_true,if_neg other,ih,List.cons_append]

theorem visible_markWith (width : Nat) (rest : Bytes) :
    visible false (markWith width ++ rest) = List.replicate width 126 ++ visible false rest := by
  have starts (rest : Bytes) : visible false (red ++ rest) = visible false rest := by
    rw [show red = [27,91,51,49,109] from by decide]
    rfl
  have ends (rest : Bytes) : visible false (plain ++ rest) = visible false rest := by
    rw [show plain = [27,91,48,109] from by decide]
    rfl
  rw [markWith,List.append_assoc,List.append_assoc,starts,visible_replicate (by decide),ends]

theorem visible_markRow (tab : Nat) (span : Span) (offset : Nat) (text rest : Bytes) :
    visible false (markRow tab span offset text ++ rest) =
      ((text.zipIdx offset).flatMap fun at_ => List.replicate (columns tab at_.1)
        (if span.start ≤ at_.2 ∧ at_.2 < span.stop then 126 else 32)) ++ visible false rest := by
  induction text generalizing offset with
  | nil => rfl
  | cons b more ih =>
    rw [markRow,List.append_assoc,mark,List.zipIdx_cons,List.flatMap_cons,List.append_assoc]
    dsimp only
    split
    next inside => rw [visible_markWith,ih,columns]
    next outside => rw [visible_replicate (by decide),ih,columns]

/-- The line that a range starts on. -/
def firstLine (source : Source) (span : Span) : Nat :=
  (source.text.take span.start).count Byte.lineFeed + 1

/-- The line of the last byte of a range, or of its start if it is empty. -/
def finalLine (source : Source) (span : Span) : Nat :=
  if span.start < span.stop then (source.text.take (span.stop - 1)).count Byte.lineFeed + 1
  else firstLine source span

/-- What leaves a line blank. -/
def blanks : Bytes :=
  ascii " \t\n\r" ++ [12,11]

variable {s : Setting} {span : Span}

theorem mem_blanks {b : UInt8} : b ∈ blanks ↔ Byte.isBlank b = true ∨ b = 11 := by
  rw [show blanks = [32,9,10,13,12,11] from by decide]
  simp only [Byte.isBlank,Bool.or_eq_true,beq_iff_eq,List.mem_cons,List.not_mem_nil,or_false]
  tauto

theorem isBlankLine_iff {text : Bytes} : isBlankLine text = true ↔ ∀ b ∈ text, b ∈ blanks := by
  rw [isBlankLine,List.all_eq_true]
  simp only [mem_blanks,Bool.or_eq_true,beq_iff_eq]

/-- The lines that are shown. -/
theorem mem_lines (ordered : span.start ≤ span.stop) (inside : span.stop ≤ s.source.size) {line : Nat} :
    line ∈ lines s span ↔ firstLine s.source span ≤ line ∧ line ≤ finalLine s.source span ∧
      (firstLine s.source span = finalLine s.source span ∨ ∃ b ∈ s.source.lineText line, b ∉ blanks) := by
  have first : s.source.line span.start = firstLine s.source span := Source.line_eq (ordered.trans inside)
  have final : s.source.line (if span.start < span.stop then span.stop - 1 else span.start) =
      finalLine s.source span := by
    rw [finalLine]
    split
    next => exact Source.line_eq (by omega)
    next => exact first
  have blank : (!isBlankLine (s.source.lineText line)) = true ↔ ∃ b ∈ s.source.lineText line, b ∉ blanks := by
    rw [Bool.not_eq_true',← Bool.not_eq_true,isBlankLine_iff]
    push Not
    rfl
  rw [lines,List.mem_filter,List.mem_range'_1]
  simp only [first,final,Bool.or_eq_true,decide_eq_true_eq,blank]
  exact ⟨fun ⟨⟨after,before⟩,shown⟩ => ⟨after,by omega,shown⟩,
    fun ⟨after,before,shown⟩ => ⟨⟨after,by omega⟩,shown⟩⟩

/-- A line with what is printed under it. -/
def rowOf (s : Setting) (span : Span) (line : Nat) : Row :=
  ⟨line,s.source.lineText line,markRow s.tab span (s.source.lineStart line) (s.source.lineText line) ++
    if span.start = span.stop ∨ s.source.lineStart line + (s.source.lineText line).length ≤ span.start then
      markWith 1 else []⟩

theorem lineWithMarks_eq (s : Setting) (span : Span) (line : Nat) :
    lineWithMarks s span line = (rowOf s span line).printed := by
  simp only [lineWithMarks,rowOf,Row.printed,List.append_assoc]

theorem rowOf_underlines {line : Nat} (inside : 1 ≤ line ∧ line ≤ s.source.lineCount) :
    (rowOf s span line).Underlines s span := by
  refine ⟨inside,rfl,fun i (less : i < (s.source.lineText line).length) => ?_,?_⟩
  · have same := Source.getElem?_lineText less
    have bound : s.source.lineStart line + i < s.source.text.length := by
      rw [List.getElem?_eq_getElem less] at same
      exact (List.getElem?_eq_some_iff.mp same).1
    exact ⟨s.source.size_eq ▸ bound,same⟩
  · rw [rowOf,visible_markRow]
    congr 1
    split
    · exact (visible_markWith 1 []).trans rfl
    · rfl

theorem firstLine_le_finalLine (source : Source) (span : Span) :
    firstLine source span ≤ finalLine source span := by
  rw [finalLine]
  split
  next some =>
    exact Nat.succ_le_succ ((List.take_prefix_take_left (Nat.le_sub_one_of_lt some)).sublist.count_le _)
  next => exact le_rfl

theorem finalLine_le_lineCount (source : Source) (span : Span) : finalLine source span ≤ source.lineCount := by
  have bound (offset : Nat) : (source.text.take offset).count Byte.lineFeed + 1 ≤ source.lineCount := by
    rw [Source.lineCount_eq]
    exact Nat.succ_le_succ ((List.take_sublist _ _).count_le _)
  rw [finalLine,firstLine]
  split <;> exact bound _

/-- The line that a range starts on is shown, with a mark under the first byte or behind the line. -/
theorem firstLine_marked (ordered : span.start ≤ span.stop) (inside : span.stop ≤ s.source.size)
    (shows : span.start < span.stop → span.Shows s.source) :
    firstLine s.source span ∈ lines s span ∧
      126 ∈ visible false (rowOf s span (firstLine s.source span)).under := by
  have within : span.start ≤ s.source.size := ordered.trans inside
  have line : s.source.line span.start = firstLine s.source span := Source.line_eq within
  have range : 1 ≤ firstLine s.source span ∧ firstLine s.source span ≤ s.source.lineCount :=
    ⟨Nat.le_add_left _ _,(firstLine_le_finalLine _ _).trans (finalLine_le_lineCount _ _)⟩
  rw [mem_lines ordered inside,(rowOf_underlines range).under]
  rcases ordered.lt_or_eq with some | empty
  · obtain ⟨b,found,noTab,single⟩ := shows some
    refine ⟨⟨le_rfl,firstLine_le_finalLine _ _,?_⟩,?_⟩
    · by_cases unseen : Byte.isBlank b = true ∨ b = 11
      · left
        rw [finalLine,if_pos some,single unseen,Nat.add_sub_cancel]
        rfl
      · right
        have plain (c : UInt8) (blank : Byte.isBlank c = true) : b ≠ c := by
          rintro rfl
          exact unseen (.inl blank)
        have shown := Source.lineText_getElem? found (plain _ (by decide)) (plain _ (by decide))
        rw [line] at shown
        exact ⟨b,List.mem_of_getElem? shown,fun blank => unseen (mem_blanks.mp blank)⟩
    · by_cases behind : s.source.lineStart (firstLine s.source span) +
          (s.source.lineText (firstLine s.source span)).length ≤ span.start
      · exact List.mem_append_right _ (by simp [rowOf,behind])
      · refine List.mem_append_left _ (List.mem_flatMap.mpr ⟨(b,span.start),?_,?_⟩)
        · have start : s.source.lineStart (firstLine s.source span) ≤ span.start := by
            rw [← line,Source.lineStart_line within]
            exact Nat.sub_le _ _
          have within : span.start - s.source.lineStart (firstLine s.source span) <
              (s.source.lineText (firstLine s.source span)).length := by
            omega
          have text := Source.getElem?_lineText within
          rw [Nat.add_sub_cancel' start,found] at text
          exact List.mk_mem_zipIdx_iff_le_and_getElem?_sub.mpr ⟨start,text.symm⟩
        · rw [if_pos ⟨le_rfl,some⟩,columns,if_neg noTab]
          exact List.mem_singleton_self _
  · have final : finalLine s.source span = firstLine s.source span := by
      rw [finalLine,if_neg (by omega)]
    exact ⟨⟨le_rfl,final.ge,.inl final.symm⟩,List.mem_append_right _ (by simp [empty])⟩

/-- A refusal is shown in these rows: the lines from where its range starts to where its last byte is, but for
blank ones if these are several. Marks stand under the bytes of the range alone, and there is at least one. -/
structure Underlined (s : Setting) (d : Diagnostic) (rows : List Row) : Prop where
  printed : refusal s d = headline (s.file ++ ascii ":" ++ decimal d.position.line ++ ascii ":" ++
    decimal d.position.column) d.category.name d.message ++ rows.flatMap Row.printed
  ordered : (rows.map Row.line).Pairwise (· < ·)
  lines : ∀ line, line ∈ rows.map Row.line ↔
    firstLine s.source d.span ≤ line ∧ line ≤ finalLine s.source d.span ∧
    (firstLine s.source d.span = finalLine s.source d.span ∨
      ∃ b ∈ s.source.lineText line, b ∉ blanks)
  each : ∀ row ∈ rows, row.Underlines s d.span
  marked : ∃ row ∈ rows, 126 ∈ visible false row.under

/-- Every refusal is shown so, whatever the width of tabs. -/
theorem refusal_underlined {s : Setting} {d : Diagnostic} (refused : s.source.compile = .error d) :
    ∃ rows, Underlined s d rows := by
  have valid := s.source.compile_valid refused
  have numbers : ((lines s d.span).map (rowOf s d.span)).map Row.line = lines s d.span := by
    rw [List.map_map]
    exact List.map_id _
  have member (line : Nat) : line ∈ lines s d.span ↔ _ := mem_lines valid.ordered valid.inside
  obtain ⟨shown,marked⟩ := firstLine_marked valid.ordered valid.inside fun some =>
    s.source.compile_shows refused some
  refine ⟨(lines s d.span).map (rowOf s d.span),?_,?_,fun line => by rw [numbers,member],?_,
    ⟨_,List.mem_map_of_mem shown,marked⟩⟩
  · have same : lineWithMarks s d.span = fun line => (rowOf s d.span line).printed :=
      funext (lineWithMarks_eq s d.span)
    rw [refusal,located,List.flatMap_map,same]
  · rw [numbers,lines]
    exact List.Pairwise.filter _ List.pairwise_lt_range'
  · intro row among
    obtain ⟨line,known,rfl⟩ := List.mem_map.mp among
    obtain ⟨after,before,-⟩ := (member line).mp known
    exact rowOf_underlines ⟨(Nat.le_add_left _ _).trans after,before.trans (finalLine_le_lineCount _ _)⟩

/-- A string that a backslash carries over a blank line, where a name is called for; tabs take no column. -/
theorem refusal_underlined_carried : ∃ d rows,
    (Source.ofText (ascii "var\t\"a\\\n\\\n \";\r\n")).compile = .error d ∧ d.span = ⟨4,12⟩ ∧
    Underlined ⟨ascii "f",.ofText (ascii "var\t\"a\\\n\\\n \";\r\n"),0⟩ d rows := by
  obtain ⟨d,compiled,span⟩ := Source.compile_reported (f := Diagnostic.span) (a := ⟨4,12⟩)
    (.ofText (ascii "var\t\"a\\\n\\\n \";\r\n")) (by decide +kernel)
  obtain ⟨rows,shown⟩ := refusal_underlined
    (s := ⟨ascii "f",.ofText (ascii "var\t\"a\\\n\\\n \";\r\n"),0⟩) compiled
  exact ⟨d,rows,compiled,span,shown⟩

end Report

end ScriptMachine
