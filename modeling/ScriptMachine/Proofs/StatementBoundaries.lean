import Mathlib
import ScriptMachine.Proofs.CompiledSound

/-! Between statements nothing lies on the stack but locals. Seams are the places in the code of some
statements where one of them starts or the last has ended, also inside of blocks, branches and loops;
code can be charted with what is known there. -/
namespace ScriptMachine.Compile

namespace Fragment

variable {pool : List (Constant Chunk)} {count : Nat} {loop : Option Point} {pre mid post : Point}
  {f g : Fragment} {knots others : Nat → Point → Prop}

/-- The fragment flows, and at each knot no less is known than the knot tells. -/
def Knotted (pool : List (Constant Chunk)) (count : Nat) (loop : Option Point) (pre : Point)
    (f : Fragment) (post : Point) (knots : Nat → Point → Prop) : Prop :=
  ∃ points, Charted pool count loop f points ∧ pre ≤ points 0 ∧ points f.size = post ∧
    ∀ offset p, knots offset p → f.Edge offset ∧ p ≤ points offset

namespace Knotted

theorem imp (knotted : Knotted pool count loop pre f post knots)
    (each : ∀ offset p, others offset p → ∃ q, knots offset q ∧ p ≤ q) :
    Knotted pool count loop pre f post others := by
  obtain ⟨points,charted,entry,stop,known⟩ := knotted
  refine ⟨points,charted,entry,stop,fun offset p other => ?_⟩
  obtain ⟨q,knot,le⟩ := each offset p other
  obtain ⟨edge,below⟩ := known offset q knot
  exact ⟨edge,le.trans below⟩

/-- The two ends of a fragment. -/
theorem of_flows (flows : Flows pool count loop pre f post) : Knotted pool count loop pre f post
    fun offset p => offset = 0 ∧ p = pre ∨ offset = f.size ∧ p = post := by
  obtain ⟨points,charted,entry,stop⟩ := flows
  refine ⟨points,charted,entry,stop,?_⟩
  rintro offset p (⟨rfl,rfl⟩ | ⟨rfl,rfl⟩)
  · exact ⟨f.edge_start,entry⟩
  · exact ⟨f.edge_end,stop.ge⟩

/-- The ends may be added to the knots. -/
theorem ends (knotted : Knotted pool count loop pre f post knots) :
    Knotted pool count loop pre f post
      fun offset p => knots offset p ∨ offset = 0 ∧ p = pre ∨ offset = f.size ∧ p = post := by
  obtain ⟨points,charted,entry,stop,known⟩ := knotted
  refine ⟨points,charted,entry,stop,?_⟩
  rintro offset p (knot | ⟨rfl,rfl⟩ | ⟨rfl,rfl⟩)
  · exact known offset p knot
  · exact ⟨f.edge_start,entry⟩
  · exact ⟨f.edge_end,stop.ge⟩

theorem append (first : Knotted pool count loop pre f mid knots)
    (second : Knotted pool count loop mid g post others) :
    Knotted pool count loop pre (f ++ g) post
      fun offset p => knots offset p ∨ ∃ near, offset = f.size + near ∧ others near p := by
  obtain ⟨points,charted,entry,rfl,known⟩ := first
  obtain ⟨later,chartedToo,seam,rfl,knownToo⟩ := second
  refine ⟨_,charted.append chartedToo seam,le_join_zero entry seam,by simp,?_⟩
  rintro offset p (knot | ⟨near,rfl,knot⟩)
  · obtain ⟨edge,below⟩ := known offset p knot
    refine ⟨edge.append g,?_⟩
    rcases Nat.lt_or_eq_of_le edge.le with inner | rfl
    · rwa [join_below inner]
    · rw [join_at]
      exact below.trans seam
  · obtain ⟨edge,below⟩ := knownToo near p knot
    exact ⟨edge.shift f,by rwa [join_add]⟩

theorem weaken {stronger weaker : Point} (knotted : Knotted pool count loop pre f post knots)
    (entry : stronger ≤ pre) (exit : post ≤ weaker) :
    Knotted pool count loop stronger f weaker knots := by
  obtain ⟨points,charted,start,rfl,known⟩ := knotted
  have raised (offset : Nat) : points offset ≤ Function.update points f.size weaker offset := by
    by_cases last : offset = f.size
    · subst last
      rwa [Function.update_self]
    · rw [Function.update_of_ne last]
  refine ⟨_,charted.raise exit,(entry.trans start).trans (raised 0),Function.update_self ..,?_⟩
  intro offset p knot
  obtain ⟨edge,below⟩ := known offset p knot
  exact ⟨edge,below.trans (raised offset)⟩

theorem mono {more : List (Constant Chunk)} {larger : Nat} {around : Option Point}
    (grown : pool <+: more) (counted : count ≤ larger)
    (laxer : ∀ p, loop = some p → ∃ q, around = some q ∧ p ≤ q)
    (knotted : Knotted pool count loop pre f post knots) :
    Knotted more larger around pre f post knots := by
  obtain ⟨points,charted,start,stop,known⟩ := knotted
  exact ⟨points,charted.mono grown counted laxer,start,stop,known⟩

/-- An instruction in front of a fragment, which it may enter at any knot. -/
theorem front (line : Nat) {i : Instr} {start : Point} (ready : i.Ready pool count 0 start)
    (leads : ∀ next ∈ i.targets 0,
      ∃ near p, next = i.size + near ∧ knots near p ∧ i.after start ≤ p)
    (knotted : Knotted pool count loop pre f post knots) :
    Knotted pool count loop start (one line i ++ f) post
      fun offset p => offset = 0 ∧ p = start ∨ ∃ near, offset = i.size + near ∧ knots near p := by
  obtain ⟨points,charted,-,rfl,known⟩ := knotted
  refine ⟨_,Charted.front ready ?_ charted,?_,by rw [size_append,size_one,join_add],?_⟩
  · intro next target
    obtain ⟨near,p,rfl,knot,after⟩ := leads next target
    obtain ⟨edge,below⟩ := known near p knot
    exact ⟨near,rfl,edge,after.trans below⟩
  · rw [join_below i.size_pos]
  · rintro offset p (⟨rfl,rfl⟩ | ⟨near,rfl,knot⟩)
    · exact ⟨edge_start _,by rw [join_below i.size_pos]⟩
    · obtain ⟨edge,below⟩ := known near p knot
      exact ⟨edge.shift (one line i),by rwa [join_add]⟩

/-- Code behind a conditional jump that leads to its end. -/
theorem guarded (line : Nat) {jumpOn : Bool} {start : Point}
    (ready : Instr.Ready pool count 0 (.jumpIf jumpOn f.size) start)
    (leaves : (Instr.jumpIf jumpOn f.size).after start ≤ pre) (skips : pre ≤ post)
    (knotted : Knotted pool count loop pre f post knots) :
    Knotted pool count loop start (Fragment.one line (.jumpIf jumpOn f.size) ++ f) post
      fun offset p => ∃ near, offset = 5 + near ∧ knots near p := by
  refine (knotted.ends.front line ready ?_).imp ?_
  · intro next target
    simp only [Instr.targets,List.mem_cons,List.not_mem_nil,or_false] at target
    rcases target with rfl | rfl
    · exact ⟨0,pre,rfl,.inr (.inl ⟨rfl,rfl⟩),leaves⟩
    · exact ⟨f.size,post,rfl,.inr (.inr ⟨rfl,rfl⟩),leaves.trans skips⟩
  · rintro offset p ⟨near,rfl,knot⟩
    exact ⟨p,.inr ⟨near,rfl,.inl knot⟩,le_rfl⟩

/-- Two ways to the same point. -/
theorem branch {line : Nat} {start : Point}
    (ready : Instr.Ready pool count 0 (.jumpIf false (f.size + 5)) start)
    (leaves : (Instr.jumpIf false (f.size + 5)).after start ≤ pre)
    (hop : Instr.Ready pool count 0 (.jump g.size) post)
    (first : Knotted pool count loop pre f post knots)
    (second : Knotted pool count loop pre g post others) :
    Knotted pool count loop start (Fragment.one line (.jumpIf false (f.size + 5)) ++
      (f ++ (Fragment.one line (.jump g.size) ++ g))) post
      fun offset p => ∃ near, offset = 5 + near ∧
        (knots near p ∨ ∃ far, near = f.size + (5 + far) ∧ others far p) := by
  have stays : (Instr.jump g.size).after post ≤ post := by
    refine ⟨by simp [Instr.after,Instr.takes,Instr.gives],?_⟩
    rintro slot (⟨known,-⟩ | impossible)
    · exact known
    · exact impossible.elim
  have skip := second.ends.front line hop <| by
    intro next target
    rw [Instr.targets,List.mem_singleton] at target
    exact ⟨g.size,post,by simpa [Instr.size] using target,.inr (.inr ⟨rfl,rfl⟩),stays⟩
  have both := (first.ends.append skip).front line ready <| by
    intro next target
    simp only [Instr.targets,List.mem_cons,List.not_mem_nil,or_false] at target
    rcases target with rfl | rfl
    · exact ⟨0,pre,rfl,.inl (.inr (.inl ⟨rfl,rfl⟩)),leaves⟩
    · refine ⟨f.size + 5,pre,rfl,.inr ⟨5,rfl,.inr ⟨0,rfl,.inr (.inl ⟨rfl,rfl⟩)⟩⟩,leaves⟩
  refine both.imp ?_
  rintro offset p ⟨near,rfl,knot | ⟨far,rfl,knot⟩⟩
  · exact ⟨p,.inr ⟨near,rfl,.inl (.inl knot)⟩,le_rfl⟩
  · exact ⟨p,.inr ⟨_,rfl,.inr ⟨_,rfl,.inr ⟨far,rfl,.inl knot⟩⟩⟩,le_rfl⟩

theorem closeLoop {p : Point} {total : Nat} (small : total < 4294967296) (whole : f.size = total)
    (inside : ∀ slot ∈ p.cells, slot < p.height)
    (knotted : Knotted pool count (some p) p f p knots) :
    Knotted pool count loop p (f.closeLoop total 0) p knots := by
  obtain ⟨points,charted,entry,stop,known⟩ := knotted
  refine ⟨points,charted.closeLoop small whole inside entry stop,entry,by rwa [size_closeLoop],?_⟩
  intro offset q knot
  obtain ⟨edge,below⟩ := known offset q knot
  exact ⟨edge.closeLoop total 0,below⟩

end Knotted

end Fragment

section

variable (source : Source)

mutual

/-- The offsets in the code of some statements, compiled from a state on, between these statements and
those inside of them, with the state of the compiler there. -/
inductive Seam : Option Nat → List Stmt → State → Nat → State → Prop
  | here {loop : Option Nat} {sts : List Stmt} {s : State} : Seam loop sts s 0 s
  | first {loop : Option Nat} {st : Stmt} {rest : List Stmt} {s u : State} {offset : Nat}
      (inside : Inside loop st s offset u) : Seam loop (st :: rest) s offset u
  | rest {loop : Option Nat} {st : Stmt} {rest : List Stmt} {s mid u : State} {f : Fragment}
      {offset : Nat} (run : stmt source loop st s = .ok f mid)
      (later : Seam loop rest mid offset u) : Seam loop (st :: rest) s (f.size + offset) u

/-- The same for the blocks inside of one statement. -/
inductive Inside : Option Nat → Stmt → State → Nat → State → Prop
  | block {loop : Option Nat} {span : Span} {body : List Stmt} {s u : State} {offset : Nat}
      (seam : Seam loop body s.open offset u) : Inside loop (.block span body) s offset u
  | yes {loop : Option Nat} {span : Span} {condition : Expr} {yes : List Stmt}
      {no : Option (List Stmt)} {s mid u : State} {f : Fragment} {offset : Nat}
      (run : expr source condition s = .ok f mid) (seam : Seam loop yes mid.open offset u) :
      Inside loop (.branch span condition yes no) s (f.size + (5 + offset)) u
  | no {loop : Option Nat} {span : Span} {condition : Expr} {yes no : List Stmt}
      {s mid late between u : State} {f code rest : Fragment} {offset : Nat}
      (run : expr source condition s = .ok f mid)
      (first : stmts source loop yes mid.open = .ok code late)
      (closed : closeBlock (source.line span.start) late = .ok rest between)
      (seam : Seam loop no between.open offset u) :
      Inside loop (.branch span condition yes (some no)) s
        (f.size + (5 + (Fragment.size (code ++ rest) + (5 + offset)))) u
  | round {loop : Option Nat} {span : Span} {body : List Stmt} {s u : State} {offset : Nat}
      (seam : Seam (some s.function.blocks.length) body s.open offset u) :
      Inside loop (.loop span none body) s offset u
  | guardedRound {loop : Option Nat} {span : Span} {condition : Expr} {body : List Stmt}
      {s mid u : State} {f : Fragment} {offset : Nat}
      (run : expr source condition s = .ok f mid)
      (seam : Seam (some s.function.blocks.length) body mid.open offset u) :
      Inside loop (.loop span (some condition) body) s (f.size + (5 + offset)) u

end

end

/-- At a seam only the locals are on the stack. -/
def knotsOf (seams : Nat → State → Prop) (offset : Nat) (p : Point) : Prop :=
  ∃ u, seams offset u ∧ p = ⟨u.function.localCount,∅⟩

variable {source : Source} {span : Span} {line : Nat} {s t u : State} {loop : Option Nat}

/-- The code between two states, with its seams. -/
def Stitched (s t : State) (loop : Option Nat) (f : Fragment) (seams : Nat → State → Prop) : Prop :=
  ∀ more ⊆ Set.Iio (loopHeight s.function loop),
    Fragment.Knotted t.function.constants t.function.captures.length
      (loopPoint t.function loop more) ⟨s.function.localCount,s.function.cells ∪ more⟩ f
      ⟨t.function.localCount,t.function.cells ∪ more⟩ (knotsOf seams)

theorem Stitched.imp {f : Fragment} {seams others : Nat → State → Prop}
    (stitched : Stitched s t loop f seams) (each : ∀ offset u, others offset u → seams offset u) :
    Stitched s t loop f others := by
  intro more inside
  refine (stitched more inside).imp ?_
  rintro offset p ⟨u,seam,rfl⟩
  exact ⟨_,⟨u,each offset u seam,rfl⟩,le_rfl⟩

/-- Code without seams. -/
theorem Flowing.stitched {f : Fragment} (flowing : Flowing s t loop f) :
    Stitched s t loop f fun _ _ => False := by
  intro more inside
  refine (Fragment.Knotted.of_flows (flowing.flows more inside)).imp ?_
  rintro offset p ⟨u,impossible,-⟩
  exact impossible.elim

/-- Behind a block its locals are gone, but its seams stay. -/
theorem block_stitched {body rest : Fragment} {seams : Nat → State → Prop} (regular : s.Regular)
    (flowing : Flowing s.open t loop body) (stitched : Stitched s.open t loop body seams)
    (closed : closeBlock line t = .ok rest u)
    (around : ∀ depth, loop = some depth → depth ≤ s.function.blocks.length) :
    ∀ more ⊆ Set.Iio (loopHeight s.function loop),
      Fragment.Knotted u.function.constants u.function.captures.length
        (loopPoint u.function loop more) ⟨s.function.localCount,s.function.cells ∪ more⟩
        (body ++ rest) ⟨s.function.localCount,u.function.cells ∪ more⟩ (knotsOf seams) := by
  obtain ⟨-,-,constants,captures,drops⟩ := dropped_spec regular flowing closed around
  intro more inside
  obtain ⟨dropped,laxer⟩ := drops more inside
  have code := stitched more (by rwa [loopHeight_cons rfl around])
  rw [localCount_open,cells_open,← constants,← captures] at code
  refine ((code.append (.of_flows dropped)).mono List.prefix_rfl le_rfl laxer).imp ?_
  exact fun offset p knot => ⟨p,.inl knot,le_rfl⟩

/-! Statements. -/

def StmtStitched (source : Source) (loop : Option Nat) (st : Stmt) : Prop :=
  ∀ s f t, stmt source loop st s = .ok f t → s.Regular → Within s.function loop →
    Stitched s t loop f (Inside source loop st s)

def StmtsStitched (source : Source) (loop : Option Nat) (sts : List Stmt) : Prop :=
  ∀ s f t, stmts source loop sts s = .ok f t → s.Regular → Within s.function loop →
    Stitched s t loop f (Seam source loop sts s)

/-- The statements of a block with their seams, and the code that discards its locals. -/
theorem StmtsStitched.block {body : List Stmt} {code rest : Fragment} {mid : State}
    (inner : StmtsStitched source loop body) (compiled : stmts source loop body s.open = .ok code mid)
    (closed : closeBlock line mid = .ok rest t) (regular : s.Regular) (within : Within s.function loop) :
    t.Regular ∧ s.Raises t ∧ ∀ more ⊆ Set.Iio (loopHeight s.function loop),
      Fragment.Knotted t.function.constants t.function.captures.length
        (loopPoint t.function loop more) ⟨s.function.localCount,s.function.cells ∪ more⟩
        (code ++ rest) ⟨s.function.localCount,t.function.cells ∪ more⟩
        (knotsOf (Seam source loop body s.open)) := by
  have flowing := (compiled_flows source).2.1 loop body s.open code mid compiled (regular_open regular)
    within.open
  have stitched := inner s.open code mid compiled (regular_open regular) within.open
  obtain ⟨kept,raises,-⟩ := block_spec regular flowing closed within.le
  exact ⟨kept,raises,block_stitched regular flowing stitched closed within.le⟩

/-- Most statements have no others inside of them. -/
theorem stmtStitched_plain {st : Stmt} (plain : ∀ s offset u, ¬Inside source loop st s offset u) :
    StmtStitched source loop st := by
  intro s f t run regular within
  have flowing := (compiled_flows source).2.2.1 loop st s f t run regular within
  exact flowing.stitched.imp fun offset u inside => plain s offset u inside

theorem stmtStitched_block {body : List Stmt} (inner : StmtsStitched source loop body) :
    StmtStitched source loop (.block span body) := by
  intro s f t run regular within
  rw [stmt_block] at run
  obtain ⟨code,mid,rest,compiled,closed,rfl⟩ := blockCode_ok run
  obtain ⟨-,raises,knotted⟩ := inner.block compiled closed regular within
  intro more inside
  rw [raises.function.localCount]
  refine (knotted more inside).imp ?_
  rintro offset p ⟨u,⟨seam⟩,rfl⟩
  exact ⟨_,⟨u,seam,rfl⟩,le_rfl⟩

/-- A condition in front of what it guards. -/
theorem Valued.knotted {n : Nat} {f g : Fragment} {post : Point} {around : Option Point}
    {more : Set Nat} {knots : Nat → Point → Prop} (valued : Valued n s t f)
    (grown : t.function.Extends u.function) (inside : more ⊆ Set.Iio s.function.localCount)
    (rest : Fragment.Knotted u.function.constants u.function.captures.length around
      ⟨s.function.localCount + n,t.function.cells ∪ more⟩ g post knots) :
    Fragment.Knotted u.function.constants u.function.captures.length around
      ⟨s.function.localCount,s.function.cells ∪ more⟩ (f ++ g) post
      fun offset p => ∃ near, offset = f.size + near ∧ knots near p := by
  have first := flows_later grown around (valued.flows _ le_rfl more inside)
  exact ((Fragment.Knotted.of_flows first).append rest).imp
    fun offset p knot => ⟨p,.inr knot,le_rfl⟩

theorem stmtStitched_branch {condition : Expr} {yes : List Stmt}
    (inner : StmtsStitched source loop yes) :
    StmtStitched source loop (.branch span condition yes none) := by
  intro s f t run regular within
  rw [stmt_branch] at run
  obtain ⟨a,mid,first,run⟩ := bind_ok run
  obtain ⟨_,_,block,run⟩ := bind_ok run
  obtain ⟨tested,_,jumped,run⟩ := bind_ok run
  cases run
  obtain ⟨code,late,rest,compiled,closed,rfl⟩ := blockCode_ok block
  obtain ⟨rfl,small,rfl⟩ := guarded_spec jumped
  have valued := (compiled_flows source).1 condition s a mid first regular
  obtain ⟨-,raises,knotted⟩ := inner.block compiled closed valued.regular
    (within.mono valued.raises.function.extends)
  intro more inside
  have same := valued.raises.function.localCount
  have low := inside.trans (Set.Iio_subset_Iio (loopHeight_le s.function loop))
  have body := knotted more (by rwa [loopHeight_extends valued.raises.function.extends within])
  rw [same] at body
  rw [raises.function.localCount,same]
  refine (valued.knotted raises.function.extends low (.guarded _
    (ready_jumpIf false small (valued.below low)) (after_jumpIf _ _ _ _) ?_ body)).imp ?_
  · exact ⟨rfl,Set.union_subset_union_left _ raises.function.cells⟩
  · rintro offset p ⟨w,inside,rfl⟩
    cases inside with
    | yes ran seam =>
      cases first.symm.trans ran
      exact ⟨_,⟨_,rfl,_,rfl,w,seam,rfl⟩,le_rfl⟩

theorem stmtStitched_branchElse {condition : Expr} {yes no : List Stmt}
    (inner : StmtsStitched source loop yes) (other : StmtsStitched source loop no) :
    StmtStitched source loop (.branch span condition yes (some no)) := by
  intro s f t run regular within
  rw [stmt_branchElse] at run
  obtain ⟨a,mid,first,run⟩ := bind_ok run
  obtain ⟨_,between,block,run⟩ := bind_ok run
  obtain ⟨_,last,blockToo,run⟩ := bind_ok run
  obtain ⟨_,_,checked,run⟩ := bind_ok run
  obtain ⟨tested,_,jumped,run⟩ := bind_ok run
  cases run
  obtain ⟨code,late,rest,compiled,closed,rfl⟩ := blockCode_ok block
  obtain ⟨codeToo,lateToo,restToo,compiledToo,closedToo,rfl⟩ := blockCode_ok blockToo
  obtain ⟨rfl,short⟩ := checkDistance_spec checked
  obtain ⟨rfl,small,rfl⟩ := guarded_spec jumped
  have valued := (compiled_flows source).1 condition s a mid first regular
  have here := within.mono valued.raises.function.extends
  obtain ⟨kept,raises,knotted⟩ := inner.block compiled closed valued.regular here
  have there := here.mono raises.function.extends
  obtain ⟨keptToo,raisesToo,knottedToo⟩ := other.block compiledToo closedToo kept there
  intro more inside
  have same := valued.raises.function.localCount
  have sameToo := raises.function.localCount.trans same
  have total := raisesToo.function.localCount.trans sameToo
  have low := inside.trans (Set.Iio_subset_Iio (loopHeight_le s.function loop))
  have level := loopHeight_extends valued.raises.function.extends within
  have body := (knotted more (by rwa [level])).mono raisesToo.function.constants
    raisesToo.function.captures.length_le (loopPoint_mono raisesToo.function.extends there more)
  have bodyToo := knottedToo more (by rwa [loopHeight_extends raises.function.extends here,level])
  rw [same] at body
  rw [sameToo] at bodyToo
  rw [total]
  have below : t.function.cells ∪ more ⊆ Set.Iio s.function.localCount :=
    cells_below (Nested.regular keptToo) total.le (by rwa [total])
  have early := Set.union_subset_union_left more raises.function.cells
  have grown := Set.union_subset_union_left more raisesToo.function.cells
  have size : (code ++ rest ++ Fragment.one (source.line span.start)
      (.jump (Fragment.size (codeToo ++ restToo)))).size = Fragment.size (code ++ rest) + 5 := by
    simp [Instr.size,Nat.add_assoc]
  rw [size] at small ⊢
  have shape (head yes jump no : Fragment) :
      a ++ (head ++ (yes ++ jump)) ++ no = a ++ (head ++ (yes ++ (jump ++ no))) := by simp
  rw [shape]
  have hop : Instr.Ready t.function.constants t.function.captures.length 0
      (.jump (Fragment.size (codeToo ++ restToo)))
      ⟨s.function.localCount,t.function.cells ∪ more⟩ :=
    ⟨Nat.zero_le _,below,fun _ => below,trivial,fun _ => short⟩
  refine (valued.knotted (raises.trans raisesToo).function.extends low
    (.branch (ready_jumpIf false small (valued.below low)) (after_jumpIf _ _ _ _) hop
      (body.weaken le_rfl ⟨rfl,grown⟩) (bodyToo.weaken ⟨rfl,early⟩ le_rfl))).imp ?_
  rintro offset p ⟨w,inside,rfl⟩
  cases inside with
  | yes ran seam =>
    cases first.symm.trans ran
    exact ⟨_,⟨_,rfl,_,rfl,.inl ⟨w,seam,rfl⟩⟩,le_rfl⟩
  | no ran ranToo left seam =>
    cases first.symm.trans ran
    cases compiled.symm.trans ranToo
    cases closed.symm.trans left
    exact ⟨_,⟨_,rfl,_,rfl,.inr ⟨_,rfl,w,seam,rfl⟩⟩,le_rfl⟩

/-! Loops. -/

/-- The rounds of a loop, with or without a condition in front of them. -/
theorem closeLoop_knotted {condition : Option Fragment} {body f : Fragment} {h : Nat}
    {cells : Set Nat} {pool : List (Constant Chunk)} {count : Nat} {around : Option Point}
    {knots : Nat → Point → Prop} (run : closeLoop source line condition body span s = .ok f t)
    (below : cells ⊆ Set.Iio h)
    (test : ∀ code, condition = some code →
      Fragment.Flows pool count (some ⟨h,cells⟩) ⟨h,cells⟩ code ⟨h + 1,cells⟩)
    (knotted : Fragment.Knotted pool count (some ⟨h,cells⟩) ⟨h,cells⟩ body ⟨h,cells⟩ knots) :
    Fragment.Knotted pool count around ⟨h,cells⟩ f ⟨h,cells⟩ fun offset p =>
      ∃ near, offset = ((condition.map fun code => code.size + 5).getD 0) + near ∧ knots near p := by
  have again : Fragment.Knotted pool count (some ⟨h,cells⟩) ⟨h,cells⟩ (body ++ [⟨.nextRound,line⟩])
      ⟨h,cells⟩ knots :=
    (knotted.append (.of_flows (.openJump _ (.inr rfl) le_rfl))).imp
      fun offset p knot => ⟨p,.inl knot,le_rfl⟩
  have inside : ∀ slot ∈ (⟨h,cells⟩ : Point).cells, slot < h := below
  have length : Fragment.size (body ++ [⟨.nextRound,line⟩]) = body.size + 5 := by
    simp [Fragment.size,Step.size]
  unfold closeLoop at run
  obtain ⟨_,_,checked,done⟩ := bind_ok run
  obtain ⟨rfl,small⟩ := checkDistance_spec checked
  cases done
  cases condition with
  | none =>
    rw [List.nil_append,Fragment.closeLoop_jumpBack (by simp [Fragment.size])]
    refine (again.closeLoop small (by rw [length]; simp [Fragment.size]) inside).imp ?_
    rintro offset p ⟨near,rfl,knot⟩
    exact ⟨p,by simpa using knot,le_rfl⟩
  | some code =>
    have distance : Fragment.size (body ++ [⟨.nextRound,line⟩]) < wordLimit := by
      rw [length]
      exact Nat.lt_of_le_of_lt (by simp) small
    have skips := again.guarded line (ready_jumpIf false distance below)
      (after_jumpIf _ _ _ _) le_rfl
    rw [length] at skips
    have whole := (Fragment.Knotted.of_flows (test code rfl)).append skips
    rw [Fragment.closeLoop_jumpBack (by simp [Nat.add_assoc])]
    rw [← List.append_assoc,← List.append_assoc] at whole
    refine (whole.closeLoop small (by simp [Fragment.size,Step.size,Nat.add_assoc]) inside).imp ?_
    rintro offset p ⟨near,rfl,knot⟩
    exact ⟨p,.inr ⟨_,Nat.add_assoc _ _ _,near,rfl,knot⟩,le_rfl⟩

/-- A loop around a block, with the seams of the block. -/
theorem rounds_stitched {check : Option Fragment} {code rest f : Fragment} {mid late last : State}
    {seams : Nat → State → Prop} (regular : mid.Regular) (raises : s.Raises mid)
    (test : ∀ condition, check = some condition → Valued 1 s mid condition)
    (flowing : Flowing mid.open late (some s.function.blocks.length) code)
    (stitched : Stitched mid.open late (some s.function.blocks.length) code seams)
    (closed : closeBlock line late = .ok rest last)
    (looped : closeLoop source line check (code ++ rest) span last = .ok f t) :
    Stitched s t loop f fun offset u =>
      ∃ near, offset = ((check.map fun code => code.size + 5).getD 0) + near ∧ seams near u := by
  obtain ⟨-,grown,level,frames⟩ := rounds_spec loop regular raises test flowing closed
  have around : ∀ depth, some s.function.blocks.length = some depth →
      depth ≤ mid.function.blocks.length := by
    rintro _ ⟨⟩
    exact raises.function.length_blocks.ge
  obtain rfl : t = last := by
    unfold closeLoop at looped
    obtain ⟨_,_,checked,done⟩ := bind_ok looped
    obtain ⟨rfl,-⟩ := checkDistance_spec checked
    cases done
    rfl
  intro others inside
  obtain ⟨start,below,before,after,check,laxer⟩ := frames others inside _ rfl
  have body := block_stitched regular flowing stitched closed around
    (t.function.cells ∪ others) (by rwa [level])
  rw [raises.function.localCount,before,after] at body
  have entry : (⟨s.function.localCount,s.function.cells ∪ others⟩ : Point) ≤
      ⟨s.function.localCount,t.function.cells ∪ others⟩ :=
    ⟨rfl,Set.union_subset start Set.subset_union_right⟩
  rw [grown.function.localCount]
  refine ((closeLoop_knotted looped below check (body.mono List.prefix_rfl le_rfl laxer)).weaken
    entry le_rfl).imp ?_
  rintro offset p ⟨u,⟨near,rfl,seam⟩,rfl⟩
  exact ⟨_,⟨near,rfl,u,seam,rfl⟩,le_rfl⟩

theorem stmtStitched_loop {condition : Option Expr} {body : List Stmt}
    (inner : ∀ depth, StmtsStitched source (some depth) body) :
    StmtStitched source loop (.loop span condition body) := by
  intro s f t run regular within
  obtain ⟨exprs,bodies,-⟩ := compiled_flows source
  cases condition with
  | none =>
    rw [stmt_loop] at run
    obtain ⟨_,_,counted,run⟩ := bind_ok run
    cases counted
    obtain ⟨_,last,block,looped⟩ := bind_ok run
    obtain ⟨code,late,rest,compiled,closed,rfl⟩ := blockCode_ok block
    have opens : Within s.open.function (some s.function.blocks.length) := within_open rfl
    have flowing := bodies _ body s.open code late compiled (regular_open regular) opens
    have stitched := inner _ s.open code late compiled (regular_open regular) opens
    refine (rounds_stitched regular (.refl s) (by simp) flowing stitched closed looped).imp ?_
    intro offset u inside
    cases inside with
    | round seam => exact ⟨offset,(Nat.zero_add _).symm,seam⟩
  | some condition =>
    rw [stmt_while] at run
    obtain ⟨_,_,counted,run⟩ := bind_ok run
    cases counted
    obtain ⟨a,mid,first,run⟩ := bind_ok run
    obtain ⟨_,last,block,looped⟩ := bind_ok run
    obtain ⟨code,late,rest,compiled,closed,rfl⟩ := blockCode_ok block
    have valued := exprs condition s a mid first regular
    have opens : Within mid.open.function (some s.function.blocks.length) :=
      within_open valued.raises.function.length_blocks.symm
    have flowing := bodies _ body mid.open code late compiled (regular_open valued.regular) opens
    have stitched := inner _ mid.open code late compiled (regular_open valued.regular) opens
    refine (rounds_stitched valued.regular valued.raises ?_ flowing stitched closed looped).imp ?_
    · rintro _ ⟨⟩
      exact valued
    · intro offset u inside
      cases inside with
      | guardedRound ran seam =>
        cases first.symm.trans ran
        exact ⟨_,(Nat.add_assoc _ _ _).symm,seam⟩

/-! Lists of statements. -/

theorem stmtsStitched_nil : StmtsStitched source loop [] := by
  intro s f t run regular within more inside
  rw [stmts] at run
  cases run
  refine (Fragment.Knotted.of_flows (.nil le_rfl)).imp ?_
  rintro offset p ⟨u,seam,rfl⟩
  cases seam with
  | here => exact ⟨_,.inl ⟨rfl,rfl⟩,⟨rfl,Set.empty_subset _⟩⟩

theorem stmtsStitched_cons {first : Stmt} {rest : List Stmt} (head : StmtStitched source loop first)
    (tail : StmtsStitched source loop rest) : StmtsStitched source loop (first :: rest) := by
  intro s f t run regular within more inside
  rw [stmts] at run
  obtain ⟨a,mid,one,run⟩ := bind_ok run
  obtain ⟨b,_,others,run⟩ := bind_ok run
  cases run
  obtain ⟨-,bodies,each,-⟩ := compiled_flows source
  have flowing := each loop first s a mid one regular within
  have there := within.mono flowing.grown.function
  have second := bodies loop rest mid b t others flowing.regular there
  have early := (head s a mid one regular within more inside).ends.mono
    second.grown.function.constants second.grown.function.captures.length_le
    (loopPoint_mono second.grown.function there more)
  have late := tail mid b t others flowing.regular there more
    (by rwa [loopHeight_extends flowing.grown.function within])
  refine (early.append late).imp ?_
  rintro offset p ⟨u,seam,rfl⟩
  cases seam with
  | here => exact ⟨_,.inl (.inr (.inl ⟨rfl,rfl⟩)),⟨rfl,Set.empty_subset _⟩⟩
  | first inner => exact ⟨_,.inl (.inl ⟨u,inner,rfl⟩),le_rfl⟩
  | rest ran later =>
    cases one.symm.trans ran
    exact ⟨_,.inr ⟨_,rfl,u,later,rfl⟩,le_rfl⟩

/-- Only blocks, branches and loops have statements inside of them. -/
theorem compiled_stitched (source : Source) :
    (∀ loop sts, StmtsStitched source loop sts) ∧ ∀ loop st, StmtStitched source loop st := by
  have plain {loop : Option Nat} {st : Stmt}
      (none : ∀ s offset u, ¬Inside source loop st s offset u) : StmtStitched source loop st :=
    stmtStitched_plain none
  have all := expr.mutual_induct source (fun _ => True) (StmtsStitched source)
    (StmtStitched source) (fun _ => True)
  refine (fun both => ⟨both.2.1,both.2.2.1⟩) (all ?number ?string ?bool ?nil ?binary ?logical ?unary
    ?name ?call ?assignName ?assignField ?assignOther ?field ?lambda ?expression ?print ?declareNil
    ?declare ?block ?function ?struct ?ret ?branch ?branchElse ?loop ?breakLoop ?breakOutside
    ?continueLoop ?continueOutside ?noExprs ?exprs ?noStmts ?stmts)
  case block => exact fun _ _ _ inner => stmtStitched_block inner
  case branch => exact fun _ _ _ _ _ inner => stmtStitched_branch inner
  case branchElse => exact fun _ _ _ _ _ _ inner other => stmtStitched_branchElse inner other
  case loop => exact fun _ _ _ _ inner _ => stmtStitched_loop inner
  case noStmts => exact fun _ => stmtsStitched_nil
  case stmts => exact fun _ _ _ head tail => stmtsStitched_cons head tail
  case expression | print | declareNil | declare | function | struct | ret | breakLoop | breakOutside
      | continueLoop | continueOutside =>
    intros
    refine plain fun s offset u inside => ?_
    cases inside
  all_goals
    intros
    trivial

/-- The locals at a seam are in order. -/
theorem seam_regular {sts : List Stmt} {offset : Nat} (seam : Seam source loop sts s offset u)
    (regular : s.Regular) (within : Within s.function loop) : u.Regular := by
  obtain ⟨exprs,bodies,each,-⟩ := compiled_flows source
  refine @Seam.rec source
    (fun loop _ s _ u _ => s.Regular → Within s.function loop → u.Regular)
    (fun loop _ s _ u _ => s.Regular → Within s.function loop → u.Regular)
    ?here ?first ?rest ?block ?yes ?no ?round ?guardedRound loop sts s offset u seam regular within
  case here => exact fun regular _ => regular
  case first => exact fun _ ih => ih
  case rest =>
    intro loop st rest s mid u f offset run _ ih regular within
    have flowing := each loop st s f mid run regular within
    exact ih flowing.regular (within.mono flowing.grown.function)
  case block =>
    intro loop span body s u offset _ ih regular within
    exact ih (regular_open regular) within.open
  case yes =>
    intro loop span condition yes no s mid u f offset run _ ih regular within
    have valued := exprs condition s f mid run regular
    exact ih (regular_open valued.regular) (within.mono valued.raises.function.extends).open
  case no =>
    intro loop span condition yes no s mid late between u f code rest offset run first closed _ ih
      regular within
    have valued := exprs condition s f mid run regular
    have here := within.mono valued.raises.function.extends
    have flowing := bodies loop yes mid.open code late first (regular_open valued.regular) here.open
    obtain ⟨kept,raises,-⟩ := block_spec valued.regular flowing closed here.le
    exact ih (regular_open kept) (here.mono raises.function.extends).open
  case round =>
    intro loop span body s u offset _ ih regular within
    exact ih (regular_open regular) (within_open rfl)
  case guardedRound =>
    intro loop span condition body s mid u f offset run _ ih regular within
    have valued := exprs condition s f mid run regular
    exact ih (regular_open valued.regular) (within_open valued.raises.function.length_blocks.symm)

end ScriptMachine.Compile
