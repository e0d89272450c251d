import Mathlib
import ScriptMachine.Source

/-! Lines and columns. The line of an offset is told by the line feeds before it, and the column by the
bytes since the last of them; so what stands behind an offset has no part in its position. -/
namespace ScriptMachine

/-- What follows the last line feed of a text. -/
def lastLine (text : Bytes) : Bytes :=
  text.rtakeWhile (· ≠ Byte.lineFeed)

@[simp]
theorem lastLine_nil : lastLine [] = [] := rfl

theorem lastLine_concat (text : Bytes) (b : UInt8) :
    lastLine (text ++ [b]) = if b = Byte.lineFeed then [] else lastLine text ++ [b] := by
  rw [lastLine,List.rtakeWhile_concat]
  by_cases ends : b = Byte.lineFeed <;> simp [ends,lastLine]

/-! The starts of lines. -/

variable (offset : Nat) (front back : Bytes)

theorem startsAfterLineFeeds_append : startsAfterLineFeeds offset (front ++ back) =
    startsAfterLineFeeds offset front ++ startsAfterLineFeeds (offset + front.length) back := by
  induction front generalizing offset with
  | nil => rfl
  | cons b rest ih =>
    have place : offset + (rest.length + 1) = offset + 1 + rest.length := by omega
    rw [List.cons_append,startsAfterLineFeeds,startsAfterLineFeeds,ih,List.length_cons,place]
    split <;> rfl

theorem length_startsAfterLineFeeds :
    (startsAfterLineFeeds offset front).length = front.count Byte.lineFeed := by
  induction front generalizing offset with
  | nil => rfl
  | cons b rest ih =>
    rw [startsAfterLineFeeds,List.count_cons]
    split
    next same => rw [List.length_cons,ih,same,if_pos (by simp)]
    next other => rw [ih,if_neg (by simpa using other),Nat.add_zero]

variable {offset front} in
theorem mem_startsAfterLineFeeds {start : Nat} (member : start ∈ startsAfterLineFeeds offset front) :
    offset < start ∧ start ≤ offset + front.length := by
  induction front generalizing offset with
  | nil => exact absurd member List.not_mem_nil
  | cons b rest ih =>
    rw [List.length_cons]
    rw [startsAfterLineFeeds] at member
    split at member
    · rcases List.mem_cons.mp member with rfl | later
      · omega
      · have := ih later
        omega
    · have := ih member
      omega

/-- The line that the end of `front` is on starts behind its last line feed. -/
theorem getElem?_lineStarts : (0 :: startsAfterLineFeeds 0 (front ++ back))[front.count Byte.lineFeed]? =
    some (front.length - (lastLine front).length) := by
  have inside : front.count Byte.lineFeed < (0 :: startsAfterLineFeeds 0 front).length := by
    rw [List.length_cons,length_startsAfterLineFeeds]
    omega
  rw [startsAfterLineFeeds_append,← List.cons_append,List.getElem?_append_left inside]
  induction front using List.reverseRecOn with
  | nil => rfl
  | append_singleton text b ih =>
    rw [startsAfterLineFeeds_append,← List.cons_append,lastLine_concat,List.count_append,
      List.length_append]
    have whole : text.count Byte.lineFeed < (0 :: startsAfterLineFeeds 0 text).length := by
      rw [List.length_cons,length_startsAfterLineFeeds]
      omega
    by_cases ends : b = Byte.lineFeed
    · have count : text.count Byte.lineFeed + 1 = (0 :: startsAfterLineFeeds 0 text).length := by
        rw [List.length_cons,length_startsAfterLineFeeds]
      simp only [ends,if_true,List.count_singleton_self,count]
      rw [List.getElem?_append_right le_rfl]
      simp [startsAfterLineFeeds]
    · have count : [b].count Byte.lineFeed = 0 := by simp [ends]
      rw [count,Nat.add_zero,List.getElem?_append_left whole,ih whole,if_neg ends]
      simp only [List.length_append,List.length_singleton]
      rw [Nat.add_sub_add_right]

namespace Source

/-- Some offsets: so many of them are at most `offset`, and those come first. -/
structure Cuts (starts : List Nat) (offset count : Nat) : Prop where
  inside : count ≤ starts.length
  below : ∀ i < count, ∀ start, starts[i]? = some start → start ≤ offset
  above : ∀ i, count ≤ i → ∀ start, starts[i]? = some start → offset < start

/-- The bisection finds the number, whenever there is one. -/
theorem countUpTo_eq {starts : List Nat} {offset count low high : Nat} (cuts : Cuts starts offset count)
    (after : low ≤ count) (before : count ≤ high) (inside : high ≤ starts.length) :
    countUpTo starts.toArray offset low high = count := by
  have found {middle : Nat} (less : middle < starts.length) :
      starts[middle]? = some (starts.toArray.getD middle 0) := by
    simp [less]
  fun_induction countUpTo starts.toArray offset low high with
  | case1 low high less middle left ih =>
    refine ih ?_ before inside
    by_contra beyond
    have more := cuts.above middle (by omega) _ (found (by omega))
    omega
  | case2 low high less middle right ih =>
    refine ih after ?_ (by omega)
    by_contra beyond
    exact right (cuts.below middle (by omega) _ (found (by omega)))
  | case3 low high done => omega

theorem cuts_lineStarts :
    Cuts (0 :: startsAfterLineFeeds 0 (front ++ back)) front.length
      (front.count Byte.lineFeed + 1) := by
  have split : 0 :: startsAfterLineFeeds 0 (front ++ back) =
      (0 :: startsAfterLineFeeds 0 front) ++ startsAfterLineFeeds front.length back := by
    rw [startsAfterLineFeeds_append,List.cons_append,Nat.zero_add]
  have size : (0 :: startsAfterLineFeeds 0 front).length = front.count Byte.lineFeed + 1 := by
    rw [List.length_cons,length_startsAfterLineFeeds]
  rw [split,← size]
  refine ⟨by simp,fun i before start found => ?_,fun i after start found => ?_⟩
  · rw [List.getElem?_append_left before] at found
    rcases List.mem_cons.mp (List.mem_of_getElem? found) with rfl | member
    · exact Nat.zero_le _
    · have := mem_startsAfterLineFeeds member
      omega
  · rw [List.getElem?_append_right after] at found
    exact (mem_startsAfterLineFeeds (List.mem_of_getElem? found)).1

variable {source : Source} {offset : Nat} (inside : offset ≤ source.size)

include inside

theorem line_eq : source.line offset = (source.text.take offset).count Byte.lineFeed + 1 := by
  have bound : offset ≤ source.text.length := source.size_eq ▸ inside
  have cuts := cuts_lineStarts (source.text.take offset) (source.text.drop offset)
  rw [List.take_append_drop,List.length_take,Nat.min_eq_left bound] at cuts
  rw [line,source.lineStarts_eq,List.size_toArray]
  exact countUpTo_eq cuts (Nat.zero_le _) cuts.inside le_rfl

omit inside in
theorem length_lastLine_take_le (text : Bytes) (offset : Nat) :
    (lastLine (text.take offset)).length ≤ offset := by
  have := (List.rtakeWhile_suffix (· ≠ Byte.lineFeed) (text.take offset)).length_le
  rw [List.length_take] at this
  exact this.trans (Nat.min_le_left _ _)

/-- The line of an offset starts behind the last line feed before it. -/
theorem lineStart_line :
    source.lineStart (source.line offset) = offset - (lastLine (source.text.take offset)).length := by
  have bound : offset ≤ source.text.length := source.size_eq ▸ inside
  have start := getElem?_lineStarts (source.text.take offset) (source.text.drop offset)
  rw [List.take_append_drop,List.length_take,Nat.min_eq_left bound] at start
  rw [line_eq inside,Source.lineStart,source.lineStarts_eq,Nat.add_sub_cancel]
  rw [Array.getD_eq_getD_getElem?,List.getElem?_toArray,start]
  rfl

/-- The line and the column of an offset. -/
theorem position_eq : source.position offset =
    ⟨(source.text.take offset).count Byte.lineFeed + 1,
      (lastLine (source.text.take offset)).length + 1⟩ := by
  have short := length_lastLine_take_le source.text offset
  rw [position,lineStart_line inside,line_eq inside,Nat.sub_sub_self short]

omit inside in
/-- More text does not move what is there. -/
theorem position_append (text more : Bytes) {offset : Nat} (inside : offset ≤ text.length) :
    (ofText (text ++ more)).position offset = (ofText text).position offset := by
  have here : offset ≤ (ofText text).size := inside
  have there : offset ≤ (ofText (text ++ more)).size := by
    simpa [ofText] using Nat.le_add_right_of_le inside
  rw [position_eq here,position_eq there]
  simp only [ofText,List.take_append_of_le_length inside]

end Source

end ScriptMachine
