import Mathlib
import ScriptMachine.Proofs.Flow

/-! Chunks that can be run from any of their instructions. A chart gives each instruction of a chunk
its point; a chunk is sound when it and all the functions nested in it have one. -/
namespace ScriptMachine

namespace Chunk

/-- The offset is found by reading one instruction after the other from the start. -/
inductive Boundary (chunk : Chunk) : Nat → Prop
  | start : Boundary chunk 0
  | next {offset : Nat} {i : Instr} (earlier : Boundary chunk offset)
      (found : chunk.instr? offset = some i) : Boundary chunk (offset + i.size)

/-- At every edge stands a whole instruction that is ready at its point and leads to other edges.
The number of arguments of a call is bounded by the height alone, hence the premise of `next`; what
does not depend on the height holds without it. -/
structure Charted (chunk : Chunk) (edges : Set Nat) (points : Nat → Point) : Prop where
  start : 0 ∈ edges
  entry : ⟨chunk.parameterCount,∅⟩ ≤ points 0
  aligned : ∀ offset ∈ edges, chunk.Boundary offset
  lined : chunk.lines.size = chunk.code.size
  whole : ∀ offset ∈ edges, ∃ i height, chunk.instr? offset = some i ∧
    i.Legal chunk.constants chunk.captureCount offset height ∧
    (∀ target ∈ i.targets offset, target ∈ edges) ∧
    (offset + i.size ∈ edges ∨ i = .ret ∧ offset + i.size = chunk.code.size)
  next : ∀ offset ∈ edges, (points offset).height < 4294967296 →
    ∃ i, chunk.instr? offset = some i ∧
      i.Ready chunk.constants chunk.captureCount offset (points offset) ∧
      ∀ target ∈ i.targets offset, target ∈ edges ∧ i.after (points offset) ≤ points target

/-- A chunk with a chart, as are the functions nested in it. -/
inductive Sound : Chunk → Prop
  | intro {chunk : Chunk} {edges : Set Nat} {points : Nat → Point}
      (charted : chunk.Charted edges points)
      (nested : ∀ inner, Constant.function inner ∈ chunk.constants → Sound inner) : Sound chunk

theorem Sound.charted {chunk : Chunk} (sound : chunk.Sound) :
    ∃ edges points, chunk.Charted edges points := by
  cases sound with
  | intro charted _ => exact ⟨_,_,charted⟩

theorem Sound.nested {chunk inner : Chunk} (sound : chunk.Sound)
    (member : Constant.function inner ∈ chunk.constants) : inner.Sound := by
  cases sound with
  | intro _ nested => exact nested inner member

end Chunk

namespace Compile.Fragment

variable {pool : List (Constant Chunk)} {count : Nat}

/-- No open jump is left. -/
def Closed (f : Fragment) : Prop :=
  ∀ item ∈ f, ∃ i, item.step = .instr i

theorem Charted.closed {f : Fragment} {points : Nat → Point}
    (charted : Charted pool count none f points) : f.Closed := by
  intro item member
  obtain ⟨front,back,whole⟩ := List.append_of_mem member
  have passes := charted (size front) item ⟨front,back,whole,rfl⟩
  cases step : item.step with
  | instr i => exact ⟨i,rfl⟩
  | leaveLoop | nextRound =>
    rw [step] at passes
    obtain ⟨p,impossible,-⟩ := passes
    cases impossible

theorem length_instrs {f : Fragment} (closed : f.Closed) :
    (f.instrs.flatMap Instr.encode).length = f.size := by
  induction f with
  | nil => rfl
  | cons item rest ih =>
    obtain ⟨i,step⟩ := closed item List.mem_cons_self
    have others := ih fun item member => closed item (List.mem_cons_of_mem _ member)
    simp only [instrs] at others
    simp [instrs,size,step,others,Instr.length_encode,Step.size]

/-- The bytes of an instruction stand where its item does. -/
theorem stands_code {front : Fragment} (back : Fragment) {i : Instr} {line : Nat}
    (closed : front.Closed) :
    Instr.Stands (code (front ++ ⟨.instr i,line⟩ :: back)) front.size i.encode := by
  refine ⟨back.instrs.flatMap Instr.encode,?_⟩
  have whole : (code (front ++ ⟨.instr i,line⟩ :: back)).toList =
      front.instrs.flatMap Instr.encode ++ (i.encode ++ back.instrs.flatMap Instr.encode) := by
    simp [code,instrs]
  rw [whole,← length_instrs closed,List.drop_left]

/-- Reading from the start, one finds where each item begins. -/
theorem boundary_of_closed {chunk : Chunk} {front : Fragment} (back : Fragment)
    (whole : chunk.code = code (front ++ back)) (closed : front.Closed)
    (fits : ∀ item ∈ front, ∀ i, item.step = .instr i → (∀ n, i ≠ .call n) → i.Fits) :
    chunk.Boundary front.size := by
  induction front using List.reverseRecOn generalizing back with
  | nil => exact .start
  | append_singleton front item ih =>
    have earlier := ih (item :: back) (by simpa using whole)
      (fun x member => closed x (List.mem_append_left _ member))
      fun x member => fits x (List.mem_append_left _ member)
    obtain ⟨i,step⟩ := closed item (by simp)
    have small := fits item (by simp) i step
    obtain ⟨_,line⟩ := item
    cases step
    have stands : Instr.Stands chunk.code (size front) i.encode := by
      rw [whole,List.append_assoc]
      exact stands_code back fun x member => closed x (List.mem_append_left _ member)
    have total : size (front ++ [⟨.instr i,line⟩]) = size front + i.stored.size := by
      simp [Fragment.size,Step.size]
    rw [total]
    exact .next earlier (Instr.decode?_stored i small stands)

theorem size_code {f : Fragment} (closed : f.Closed) : f.code.size = f.size := by
  rw [code,List.size_toArray,length_instrs closed]

theorem size_lines (f : Fragment) : f.lines.size = f.size := by
  induction f with
  | nil => rfl
  | cons item rest ih => simpa [lines,size] using ih

theorem Closed.one (line : Nat) (i : Instr) : Closed (one line i) := by
  intro item member
  rw [List.mem_singleton.mp member]
  exact ⟨i,rfl⟩

theorem Closed.append {f g : Fragment} (first : f.Closed) (second : g.Closed) :
    Closed (f ++ g) := by
  intro item member
  rcases List.mem_append.mp member with left | right
  · exact first item left
  · exact second item right

/-- Wherever an instruction of a charted fragment stands, it is read, but for the number of arguments
of a call, of which the last 32 bits are read. -/
theorem Charted.found {f : Fragment} {points : Nat → Point} {offset itemLine line : Nat} {i : Instr}
    (charted : Charted pool count none f points) (here : f.At offset ⟨.instr i,itemLine⟩) :
    (∃ n, i = .call n ∧ Instr.decode? (f ++ Fragment.one line .ret).code offset =
      some (.call (n % 4294967296))) ∨
    Instr.decode? (f ++ Fragment.one line .ret).code offset = some i := by
  have passes := charted offset _ here
  obtain ⟨before,behind,rfl,rfl⟩ := here
  have stands : Instr.Stands (code (before ++ ⟨.instr i,itemLine⟩ ::
      (behind ++ Fragment.one line .ret))) before.size i.encode :=
    stands_code _ fun item member => charted.closed item (List.mem_append_left _ member)
  rw [← List.cons_append,← List.append_assoc] at stands
  by_cases isCall : ∃ n, i = .call n
  · obtain ⟨n,rfl⟩ := isCall
    exact .inl ⟨n,rfl,Instr.decode?_call stands⟩
  · have fits := passes.1.fits fun n same => isCall ⟨n,same⟩
    exact .inr (Instr.decode?_of_stands i fits stands)

/-- The points of code up to a final return are those of its chunk. -/
theorem Charted.chunk {front : Fragment} {points : Nat → Point} {mid : Point}
    {parameterCount : Nat} (line : Nat) (name : Bytes) (charted : Charted pool count none front points)
    (entry : ⟨parameterCount,∅⟩ ≤ points 0) (stop : points front.size = mid)
    (ready : Instr.Ready pool count front.size .ret mid) :
    Chunk.Charted ⟨name,parameterCount,count,(front ++ Fragment.one line .ret).code,
      (front ++ Fragment.one line .ret).lines,pool⟩ {offset | front.Edge offset} points := by
  have closed : (front ++ Fragment.one line .ret).Closed := charted.closed.append (.one line .ret)
  have final : Instr.decode? (front ++ Fragment.one line .ret).code front.size = some .ret :=
    Instr.decode?_of_stands .ret trivial (stands_code [] charted.closed)
  -- What is read at an edge before the end, where an item starts.
  have reads {offset : Nat} (edge : front.Edge offset) (inside : offset ≠ front.size) :
      ∃ item i, front.At offset item ∧ item.step = .instr i ∧
        Passes pool count none front points offset (.instr i) ∧
        ((∃ n, i = .call n ∧ Instr.decode? (front ++ Fragment.one line .ret).code offset =
          some (.call (n % 4294967296))) ∨
        Instr.decode? (front ++ Fragment.one line .ret).code offset = some i) := by
    obtain ⟨⟨step,itemLine⟩,here⟩ := edge.item inside
    have member : (⟨step,itemLine⟩ : Item) ∈ front := by
      obtain ⟨before,behind,rfl,-⟩ := here
      simp
    obtain ⟨i,rfl⟩ := charted.closed _ member
    exact ⟨_,i,here,rfl,charted offset _ here,charted.found here⟩
  refine ⟨front.edge_start,entry,?aligned,?lined,?whole,?next⟩
  case aligned =>
    rintro offset ⟨before,behind,rfl,rfl⟩
    refine boundary_of_closed (behind ++ Fragment.one line .ret) (by simp)
      (fun item member => charted.closed item (List.mem_append_left _ member))
      fun item member i step => ?_
    obtain ⟨left,right,rfl⟩ := List.append_of_mem member
    have passes := charted (size left) item ⟨left,right ++ behind,by simp,rfl⟩
    rw [step] at passes
    exact passes.1.fits
  case lined => exact (size_lines _).trans (size_code closed).symm
  case whole =>
    intro offset edge
    by_cases last : offset = front.size
    · subst last
      refine ⟨.ret,0,final,trivial,by simp [Instr.targets],.inr ⟨rfl,?_⟩⟩
      rw [size_code closed,size_append,size_one]
    · obtain ⟨item,i,here,step,⟨isReady,leads⟩,⟨n,rfl,found⟩ | found⟩ := reads edge last
      all_goals
        have behind := here.next
        rw [step] at behind
      · exact ⟨_,0,found,trivial,fun target member => (leads target member).1,.inl behind⟩
      · exact ⟨i,_,found,isReady.legal,fun target member => (leads target member).1,.inl behind⟩
  case next =>
    intro offset edge bounded
    by_cases last : offset = front.size
    · subst last
      rw [stop]
      exact ⟨.ret,final,ready,by simp [Instr.targets]⟩
    · obtain ⟨item,i,here,step,⟨isReady,leads⟩,⟨n,rfl,found⟩ | found⟩ := reads edge last
      · have enough : n + 1 ≤ (points offset).height := isReady.enough
        rw [Nat.mod_eq_of_lt (by omega)] at found
        exact ⟨_,found,isReady,leads⟩
      · exact ⟨i,found,isReady,leads⟩

/-- Code that flows up to a final return has a chart. -/
theorem Flows.charted {front : Fragment} {mid : Point} {line parameterCount : Nat} {name : Bytes}
    (flows : Flows pool count none ⟨parameterCount,∅⟩ front mid)
    (ready : Instr.Ready pool count front.size .ret mid) :
    ∃ edges points, Chunk.Charted ⟨name,parameterCount,count,
      (front ++ Fragment.one line .ret).code,(front ++ Fragment.one line .ret).lines,pool⟩
      edges points := by
  obtain ⟨points,charted,entry,stop⟩ := flows
  exact ⟨_,points,charted.chunk line name entry stop ready⟩

end Compile.Fragment

end ScriptMachine
