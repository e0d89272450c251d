import Mathlib
import ScriptMachine.Proofs.Places

/-! The lines of a script. Its line feeds divide it into them, and each offset has its place in one of them;
so positions stand in the order of the offsets, and the lines put together give the script again. -/
namespace ScriptMachine

/-- The order of reading: line by line, and from left to right in each. -/
def Position.Before (p q : Position) : Prop :=
  p.line < q.line ∨ p.line = q.line ∧ p.column < q.column

instance (p q : Position) : Decidable (p.Before q) := by
  unfold Position.Before
  infer_instance

theorem length_splitOn (text : Bytes) :
    (text.splitOn Byte.lineFeed).length = text.count Byte.lineFeed + 1 := by
  induction text with
  | nil => rfl
  | cons b rest ih =>
    rw [List.splitOn_cons_eq_if_modifyHead,List.count_cons]
    split <;> simp [ih]

theorem lastLine_eq_nil {text : Bytes} :
    lastLine text = [] ↔ text = [] ∨ text.getLast? = some Byte.lineFeed := by
  induction text using List.reverseRecOn with
  | nil => simp
  | append_singleton text b ih =>
    rw [lastLine_concat]
    split <;> simp_all

/-- A piece of a divided text stands between two line feeds, or at an end of the text. -/
theorem splitOn_piece {text piece : Bytes} {i : Nat}
    (found : (text.splitOn Byte.lineFeed)[i]? = some piece) :
    ∃ front back, text = front ++ (piece ++ back) ∧ front.count Byte.lineFeed = i ∧
      lastLine front = [] ∧ Byte.lineFeed ∉ piece ∧
      (back = [] ∨ ∃ more, back = Byte.lineFeed :: more) := by
  induction text generalizing i piece with
  | nil =>
    obtain ⟨rfl,rfl⟩ : i = 0 ∧ piece = [] := by
      cases i <;> simp_all
    exact ⟨[],[],rfl,rfl,rfl,by simp,.inl rfl⟩
  | cons b rest ih =>
    rw [List.splitOn_cons_eq_if_modifyHead] at found
    by_cases ends : b = Byte.lineFeed
    · rw [if_pos (by simpa using ends)] at found
      cases i with
      | zero =>
        cases found
        exact ⟨[],b :: rest,rfl,rfl,rfl,by simp,.inr ⟨rest,by rw [ends]⟩⟩
      | succ i =>
        obtain ⟨front,back,rfl,count,last,plain,behind⟩ := ih found
        refine ⟨b :: front,back,rfl,by rw [ends,List.count_cons_self,count],?_,plain,behind⟩
        rw [lastLine_eq_nil] at last ⊢
        rcases last with rfl | last
        · exact .inr (by rw [ends]; rfl)
        · exact .inr (by rw [List.getLast?_cons,last]; rfl)
    · rw [if_neg (by simpa using ends)] at found
      cases i with
      | zero =>
        rw [List.getElem?_modifyHead,if_pos rfl] at found
        obtain ⟨piece,first,rfl⟩ := Option.map_eq_some_iff.mp found
        obtain ⟨front,back,rfl,count,last,plain,behind⟩ := ih first
        rcases lastLine_eq_nil.mp last with rfl | last
        · exact ⟨[],back,rfl,rfl,rfl,by simp [plain,Ne.symm ends],behind⟩
        · have := List.count_pos_iff.mpr (List.mem_of_getLast? last)
          omega
      | succ i =>
        rw [List.getElem?_modifyHead,if_neg (Nat.succ_ne_zero i)] at found
        obtain ⟨front,back,rfl,count,last,plain,behind⟩ := ih found
        refine ⟨b :: front,back,rfl,by rw [List.count_cons_of_ne ends,count],?_,plain,behind⟩
        rcases lastLine_eq_nil.mp last with rfl | last
        · simp at count
        · exact lastLine_eq_nil.mpr (.inr (by rw [List.getLast?_cons,last]; rfl))

namespace Source

variable {source : Source} {front piece back : Bytes} {i : Nat}

theorem lineCount_eq (source : Source) : source.lineCount = source.text.count Byte.lineFeed + 1 := by
  rw [lineCount,source.lineStarts_eq,List.size_toArray,List.length_cons,length_startsAfterLineFeeds]

/-- A line starts behind as many line feeds as there are lines before it. -/
theorem lineStart_eq (text : source.text = front ++ back) (last : lastLine front = []) :
    source.lineStart (front.count Byte.lineFeed + 1) = front.length := by
  have start := getElem?_lineStarts front back
  rw [last,List.length_nil,Nat.sub_zero] at start
  rw [lineStart,source.lineStarts_eq,Nat.add_sub_cancel,Array.getD_eq_getD_getElem?,
    List.getElem?_toArray,text,start]
  rfl

theorem dropFinal_of_not_mem {b : UInt8} {text : Bytes} (missing : b ∉ text) :
    dropFinal b text = text := by
  rw [dropFinal,if_neg fun last => missing (List.mem_of_getLast? last)]

@[simp]
theorem dropFinal_concat (b : UInt8) (text : Bytes) : dropFinal b (text ++ [b]) = text := by
  simp [dropFinal]

theorem lineText_eq (found : (source.text.splitOn Byte.lineFeed)[i]? = some piece) :
    source.lineText (i + 1) = dropFinal Byte.carriageReturn piece := by
  obtain ⟨front,back,text,rfl,last,plain,behind⟩ := splitOn_piece found
  have start := lineStart_eq text last
  have total : source.text.count Byte.lineFeed = front.count Byte.lineFeed + back.count Byte.lineFeed := by
    rw [text,List.count_append,List.count_append,List.count_eq_zero_of_not_mem plain,Nat.zero_add]
  rw [lineText,lineCount_eq,start]
  rcases behind with rfl | ⟨tail,rfl⟩
  · have ends : front.count Byte.lineFeed + 1 = source.text.count Byte.lineFeed + 1 := by simp [total]
    have all : source.slice front.length source.size = piece := by
      rw [slice,source.size_eq,text,List.append_nil,List.drop_left,List.length_append,
        Nat.add_sub_cancel_left,List.take_length]
    rw [if_pos ends,all,dropFinal_of_not_mem plain]
  · have more : front.count Byte.lineFeed + 1 ≠ source.text.count Byte.lineFeed + 1 := by simp [total]
    have next : source.lineStart (front.count Byte.lineFeed + 1 + 1) = front.length + (piece.length + 1) := by
      have split : source.text = (front ++ (piece ++ [Byte.lineFeed])) ++ tail := by
        rw [text,List.append_assoc,List.append_assoc,List.singleton_append]
      have closed : lastLine (front ++ (piece ++ [Byte.lineFeed])) = [] := by
        rw [← List.append_assoc,lastLine_concat,if_pos rfl]
      have count : (front ++ (piece ++ [Byte.lineFeed])).count Byte.lineFeed =
          front.count Byte.lineFeed + 1 := by
        simp [List.count_eq_zero_of_not_mem plain]
      rw [← count,lineStart_eq split closed]
      simp
    have all : source.slice front.length (front.length + (piece.length + 1)) =
        piece ++ [Byte.lineFeed] := by
      rw [slice,text,List.drop_left,Nat.add_sub_cancel_left,List.take_append]
      simp
    rw [if_neg more,next,all,dropFinal_concat]

/-- The lines are what stands between the line feeds, each without a carriage return at its end. -/
theorem lineTexts_eq (source : Source) : (List.range' 1 source.lineCount).map source.lineText =
    (source.text.splitOn Byte.lineFeed).map (dropFinal Byte.carriageReturn) := by
  have size : (source.text.splitOn Byte.lineFeed).length = source.lineCount := by
    rw [length_splitOn,lineCount_eq]
  refine List.ext_getElem (by simp [size]) fun i inside _ => ?_
  rw [List.length_map,List.length_range'] at inside
  rw [List.getElem_map,List.getElem_map,List.getElem_range',Nat.one_mul,Nat.add_comm 1 i]
  exact lineText_eq (List.getElem?_eq_getElem (size ▸ inside))

variable {offset : Nat}

/-- The start of a line and the column in it give the offset. -/
theorem lineStart_add (inside : offset ≤ source.size) :
    source.lineStart (source.position offset).line + ((source.position offset).column - 1) = offset := by
  have short := length_lastLine_take_le source.text offset
  have same : (source.position offset).line = source.line offset := rfl
  rw [same,lineStart_line inside,position_eq inside,Nat.add_sub_cancel,Nat.sub_add_cancel short]

/-- Positions stand in the order of their offsets. -/
theorem position_before {a b : Nat} (less : a < b) (inside : b ≤ source.size) :
    (source.position a).Before (source.position b) := by
  have before : a ≤ source.size := less.le.trans inside
  have lines : (source.position a).line ≤ (source.position b).line := by
    rw [position_eq before,position_eq inside]
    exact Nat.succ_le_succ ((List.take_prefix_take_left less.le).sublist.count_le _)
  rcases lines.lt_or_eq with earlier | same
  · exact .inl earlier
  · have first := lineStart_add before
    have second := lineStart_add inside
    rw [same] at first
    exact .inr ⟨same,by omega⟩

/-- The carriage return that a line of a text loses, if it has one. -/
def returnOf (piece : Bytes) : Bytes :=
  if piece.getLast? = some Byte.carriageReturn then [Byte.carriageReturn] else []

theorem dropFinal_append_returnOf (piece : Bytes) :
    dropFinal Byte.carriageReturn piece ++ returnOf piece = piece := by
  rw [dropFinal,returnOf]
  split
  next ends => exact List.dropLast_append_getLast? _ ends
  next => exact List.append_nil piece

/-- How lines and columns agree with the text. The line of an offset is told by the line feeds strictly
before it, its column by the bytes since the last of them; so a position gives its offset back, and positions
are ordered as offsets are. The lines are what stands between the line feeds, but for one carriage return that
each may have at its end; put together with these and with the line feeds, they are the text. -/
structure Measured (source : Source) : Prop where
  lineCount : source.lineCount = 1 + source.text.count Byte.lineFeed
  line : ∀ offset ≤ source.size, source.line offset = 1 + (source.text.take offset).count Byte.lineFeed
  position : ∀ offset ≤ source.size, (source.position offset).line = source.line offset ∧
    (source.position offset).column = (lastLine (source.text.take offset)).length + 1
  offset : ∀ offset ≤ source.size,
    source.lineStart (source.position offset).line + ((source.position offset).column - 1) = offset
  ordered : ∀ a b, a < b → b ≤ source.size → (source.position a).Before (source.position b)
  lines : (List.range' 1 source.lineCount).map source.lineText =
    (source.text.splitOn Byte.lineFeed).map (dropFinal Byte.carriageReturn)
  joined : ∃ returns : List Bytes, returns.length = source.lineCount ∧
    (∀ r ∈ returns, r = [] ∨ r = [Byte.carriageReturn]) ∧
    [Byte.lineFeed].intercalate
      (List.zipWith (· ++ ·) ((List.range' 1 source.lineCount).map source.lineText) returns) = source.text

/-- Positions agree with the text, for every script and every offset of it, its end included. -/
theorem positions_agree (source : Source) : source.Measured where
  lineCount := by rw [lineCount_eq,Nat.add_comm]
  line offset inside := by rw [line_eq inside,Nat.add_comm]
  position offset inside := ⟨rfl,by rw [position_eq inside]⟩
  offset offset inside := lineStart_add inside
  ordered a b less inside := position_before less inside
  lines := lineTexts_eq source
  joined := by
    refine ⟨(source.text.splitOn Byte.lineFeed).map returnOf,?_,fun r member => ?_,?_⟩
    · rw [List.length_map,length_splitOn,lineCount_eq]
    · obtain ⟨piece,-,rfl⟩ := List.mem_map.mp member
      rw [returnOf]
      split <;> simp
    · have whole : List.zipWith (· ++ ·) ((source.text.splitOn Byte.lineFeed).map
          (dropFinal Byte.carriageReturn)) ((source.text.splitOn Byte.lineFeed).map returnOf) =
          source.text.splitOn Byte.lineFeed := by
        rw [List.zipWith_map,List.zipWith_self]
        simp only [dropFinal_append_returnOf,List.map_id']
      rw [lineTexts_eq,whole,List.intercalate_splitOn]

end Source

end ScriptMachine
