import Mathlib
import ScriptMachine.Proofs.Nodes
import ScriptMachine.Proofs.Tokens

/-! How the nodes of a tree lie in the text. Each runs from the start of a word to the end of a word, its
children lie in it, and what stands side by side in the tree stands side by side in the text. -/
namespace ScriptMachine

open Parse Grammar

namespace Node

/-- The node has a range of the text that starts with a word and ends with one. Its children have theirs in
it, one behind the other. -/
structure Laid (source : Source) (n : Node) : Prop where
  nonempty : n.span.start < n.span.stop
  inside : n.span.stop ≤ source.size
  first : ∃ t ∈ Token.tokens source, t.body ≠ .endOfScript ∧ t.span.start = n.span.start
  last : ∃ t ∈ Token.tokens source, t.body ≠ .endOfScript ∧ t.span.stop = n.span.stop
  within : ∀ child ∈ n.children, n.span.start ≤ child.span.start ∧ child.span.stop ≤ n.span.stop
  apart : n.children.Pairwise fun a b => a.span.stop ≤ b.span.start

/-- All nodes of a tree are those of the trees under its children, and its root. -/
theorem Under.cases {root n : Node} (under : root.Under n) :
    n = root ∨ ∃ child ∈ root.children, child.Under n := by
  induction under with
  | root => exact .inl rfl
  | @child parent child _ member ih =>
    rcases ih with rfl | ⟨top,direct,under⟩
    · exact .inr ⟨child,member,.root⟩
    · exact .inr ⟨top,direct,under.child member⟩

/-- Some tokens of a script, one behind the other, and nodes that were read from them: each starts where one
of the tokens starts and ends where one ends. -/
structure Among (source : Source) (ts : List Token) (nodes : List Node) : Prop where
  laid : ∀ n ∈ nodes, ∀ m, n.Under m → m.Laid source
  first : ∀ n ∈ nodes, ∃ t ∈ ts, t.span.start = n.span.start
  last : ∀ n ∈ nodes, ∃ t ∈ ts, t.span.stop = n.span.stop
  apart : nodes.Pairwise fun a b => a.span.stop ≤ b.span.start

variable {source : Source} {ts us : List Token} {nodes others : List Node}

theorem Among.nil : Among source ts [] :=
  ⟨by simp,by simp,by simp,.nil⟩

theorem Among.mono (among : Among source ts nodes) (more : ts ⊆ us) : Among source us nodes where
  laid := among.laid
  first n member := (among.first n member).imp fun _ found => ⟨more found.1,found.2⟩
  last n member := (among.last n member).imp fun _ found => ⟨more found.1,found.2⟩
  apart := among.apart

/-- Brackets around tokens leave the nodes as they are. -/
theorem Among.between (among : Among source ts nodes) (first last : Token) :
    Among source (first :: (ts ++ [last])) nodes :=
  among.mono fun _ member => List.mem_cons_of_mem _ (List.mem_append_left _ member)

/-- Nodes from tokens that stand before others. -/
theorem Among.append (left : Among source ts nodes) (right : Among source us others)
    (order : InOrder source.size (ts ++ us)) : Among source (ts ++ us) (nodes ++ others) where
  laid := List.forall_mem_append.mpr ⟨left.laid,right.laid⟩
  first := List.forall_mem_append.mpr ⟨(left.mono (List.subset_append_left ts us)).first,
    (right.mono (List.subset_append_right ts us)).first⟩
  last := List.forall_mem_append.mpr ⟨(left.mono (List.subset_append_left ts us)).last,
    (right.mono (List.subset_append_right ts us)).last⟩
  apart := by
    refine List.pairwise_append.mpr ⟨left.apart,right.apart,fun a before b behind => ?_⟩
    obtain ⟨t,here,stop⟩ := left.last a before
    obtain ⟨u,there,start⟩ := right.first b behind
    rw [← stop,← start]
    exact (List.pairwise_append.mp order.apart).2.2 t here u there

end Node

namespace Grammar

variable {size : Nat} {source : Source} {ts us : List Token} {phrase : Phrase}

theorem latest_mem (t : Token) (ts : List Token) : latest t ts ∈ t :: ts := by
  induction ts generalizing t with
  | nil => exact List.mem_cons_self
  | cons u us ih => exact List.mem_cons_of_mem t (ih u)

/-- The range of some tokens reaches from one of them to one of them, and over all of them. -/
theorem InOrder.covers (order : InOrder size ts) {t : Token} (member : t ∈ ts) :
    (Grammar.spanOf ts).start ≤ t.span.start ∧ t.span.stop ≤ (Grammar.spanOf ts).stop := by
  obtain ⟨front,back,rfl⟩ := List.append_of_mem member
  constructor
  · cases front with
    | nil => exact le_rfl
    | cons first rest =>
      have before := (List.pairwise_append.mp order.apart).2.2 first List.mem_cons_self t
        List.mem_cons_self
      exact (order.each first List.mem_cons_self).ordered.trans before
  · have behind : t.span.stop ≤ (Grammar.latest t back).span.stop := by
      rcases List.mem_cons.mp (latest_mem t back) with same | later
      · rw [same]
      · have fits := order.each (Grammar.latest t back) (by simp [later])
        exact ((List.pairwise_cons.mp order.right.apart).1 _ later).trans fits.ordered
    cases front with
    | nil => exact behind
    | cons first rest =>
      rw [spanOf_append (List.cons_ne_nil first rest)]
      exact behind

/-- The words of a script, with something in each of them. -/
structure Solid (source : Source) (ts : List Token) : Prop extends InOrder source.size ts where
  tokens : ∀ t ∈ ts, t ∈ Token.tokens source ∧ t.body ≠ .endOfScript
  full : ∀ t ∈ ts, t.span.start < t.span.stop

theorem Solid.sublist (solid : Solid source ts) (some : us.Sublist ts) : Solid source us :=
  ⟨solid.toInOrder.sublist some,fun t member => solid.tokens t (some.subset member),
    fun t member => solid.full t (some.subset member)⟩

theorem Solid.left (solid : Solid source (ts ++ us)) : Solid source ts :=
  solid.sublist (List.sublist_append_left ts us)

theorem Solid.right (solid : Solid source (ts ++ us)) : Solid source us :=
  solid.sublist (List.sublist_append_right ts us)

theorem Solid.tail {t : Token} (solid : Solid source (t :: ts)) : Solid source ts :=
  solid.sublist (List.sublist_cons_self t ts)

theorem Solid.fair (solid : Solid source ts) :
    Fair (fun span => span.start < span.stop ∧ span.stop ≤ source.size) ts := by
  rintro us taken nonempty
  obtain ⟨t,us,rfl⟩ := List.exists_cons_of_ne_nil nonempty
  have here := solid.sublist taken
  exact ⟨(here.full t List.mem_cons_self).trans_le (here.covers List.mem_cons_self).2,
    here.toInOrder.latest.2⟩

/-- A node with the range of its tokens is laid out well if its children were read from these. -/
theorem Solid.node (solid : Solid source ts) (nonempty : ts ≠ []) {n : Node} (span : n.span = spanOf ts)
    (below : Node.Among source ts n.children) : Node.Among source ts [n] := by
  obtain ⟨first,rest,rfl⟩ := List.exists_cons_of_ne_nil nonempty
  have head : first ∈ first :: rest := List.mem_cons_self
  have tail := latest_mem first rest
  have stop : (latest first rest).span.stop = n.span.stop := by rw [span]; rfl
  have start : first.span.start = n.span.start := by rw [span]; rfl
  have covers {t : Token} (member : t ∈ first :: rest) := solid.covers member
  rw [← span] at covers
  refine ⟨List.forall_mem_singleton.mpr fun m under => ?_,List.forall_mem_singleton.mpr ⟨_,head,start⟩,
    List.forall_mem_singleton.mpr ⟨_,tail,stop⟩,List.pairwise_singleton _ _⟩
  rcases under.cases with rfl | ⟨child,member,under⟩
  · refine ⟨?_,stop ▸ (solid.each _ tail).inside,⟨_,(solid.tokens _ head).1,(solid.tokens _ head).2,start⟩,
      ⟨_,(solid.tokens _ tail).1,(solid.tokens _ tail).2,stop⟩,fun child member => ?_,below.apart⟩
    · have full := solid.full first head
      have := covers head
      omega
    · obtain ⟨t,here,starts⟩ := below.first child member
      obtain ⟨u,there,stops⟩ := below.last child member
      exact ⟨starts ▸ (covers here).1,stops ▸ (covers there).2⟩
  · exact below.laid child member m under

/-- The nodes at the top of what a stretch of tokens stands for. -/
def Phrase.nodes : Phrase → List Node
  | .assignment value | .operand _ value | .unary value | .call value | .primary value => [.expr value]
  | .values list | .arguments list => list.map .expr
  | .block body | .statements body => body.map .stmt
  | .otherwise no => (no.getD []).map .stmt
  | .conditional _ st | .simple st | .whole st => [.stmt st]

/-- A node without children. -/
theorem Solid.leaf (solid : Solid source ts) (nonempty : ts ≠ []) {n : Node} (span : n.span = spanOf ts)
    (none : n.children = []) : Node.Among source ts [n] :=
  solid.node nonempty span (none ▸ .nil)

theorem Connective.node_children (op : Connective) (span : Span) (lhs rhs : Expr) :
    (Node.expr (op.node span lhs rhs)).span = span ∧
      (Node.expr (op.node span lhs rhs)).children = [.expr lhs,.expr rhs] := by
  cases op <;> exact ⟨rfl,rfl⟩

/-- By induction over the rules. A rule that leaves no node only puts tokens around those it has. -/
theorem Derives.among (derives : Derives ts phrase) (solid : Solid source ts) :
    Node.Among source ts phrase.nodes := by
  induction derives with
  | @assign ts us equals _ _ _ _ _ left right =>
    have value := (right solid.right.tail).mono (List.subset_cons_self equals us)
    exact solid.node (by simp) rfl ((left solid.left).append value solid.toInOrder)
  | @connect _ _ ts us t _ op lhs rhs _ _ _ _ left right =>
    obtain ⟨span,children⟩ := Connective.node_children op (spanOf (ts ++ t :: us)) lhs rhs
    have value := (right solid.right.tail).mono (List.subset_cons_self t us)
    refine solid.node (by simp) span ?_
    rw [children]
    exact (left solid.left).append value solid.toInOrder
  | unassigned _ ih | tighter _ ih | tightest _ ih | plain _ ih | uncalled _ ih | arguments _ ih
  | conditional _ ih | last _ ih | unterminated _ ih | elif _ ih => exact ih solid
  | negate _ _ ih | not _ _ ih | print _ _ ih | ret _ _ ih | loop _ _ ih =>
    exact solid.node (List.cons_ne_nil _ _) rfl ((ih solid.tail).mono (List.subset_cons_self _ _))
  | @call _ _ first last _ _ _ _ _ _ front inner =>
    have values := (inner solid.right.tail.left).between first last
    exact solid.node (by simp) rfl ((front solid.left).append values solid.toInOrder)
  | field _ _ _ front =>
    exact solid.node (by simp) rfl ((front solid.left).mono (List.subset_append_left _ _))
  | number | string | name | truth | falsehood | nil | declareNil | retNil | breakLoop | continueLoop
  | struct => exact solid.leaf (List.cons_ne_nil _ _) rfl rfl
  | parens _ _ _ ih | braces _ _ _ ih =>
    exact (ih solid.tail.left).between _ _
  | lambda _ _ _ ih =>
    exact solid.node (List.cons_ne_nil _ _) rfl ((ih solid.tail.right).mono fun t member =>
      List.mem_cons_of_mem _ (List.mem_append_right _ member))
  | @more _ us comma _ _ _ _ _ first rest =>
    have values := (rest solid.right.tail).mono (List.subset_cons_self comma us)
    exact (first solid.left).append values solid.toInOrder
  | noArguments | done | nothing => exact .nil
  | other _ _ ih | lone _ _ ih => exact (ih solid.tail).mono (List.subset_cons_self _ _)
  | branch _ _ _ _ test first second =>
    have bodies := (first solid.tail.right.left).append (second solid.tail.right.right)
      solid.tail.right.toInOrder
    have parts := (test solid.tail.left).append bodies solid.tail.toInOrder
    exact solid.node (List.cons_ne_nil _ _) rfl (parts.mono (List.subset_cons_self _ _))
  | expression inner ih => exact solid.node inner.starts.ne_nil rfl (ih solid)
  | block inner ih =>
    obtain ⟨first,rest,rfl,-⟩ := inner.starts
    exact solid.node (List.cons_ne_nil _ _) rfl (ih solid)
  | declare _ _ _ _ ih =>
    exact solid.node (List.cons_ne_nil _ _) rfl ((ih solid.tail.tail.tail).mono fun t member =>
      List.mem_cons_of_mem _ (List.mem_cons_of_mem _ (List.mem_cons_of_mem _ member)))
  | terminated _ _ ih => exact (ih solid.left).mono (List.subset_append_left _ _)
  | function _ _ _ _ ih =>
    exact solid.node (List.cons_ne_nil _ _) rfl ((ih solid.tail.tail.right).mono fun t member =>
      List.mem_cons_of_mem _ (List.mem_cons_of_mem _ (List.mem_append_right _ member)))
  | loopWhile _ _ _ test ih =>
    have parts := (test solid.tail.left).append (ih solid.tail.right) solid.tail.toInOrder
    exact solid.node (List.cons_ne_nil _ _) rfl (parts.mono (List.subset_cons_self _ _))
  | statement _ _ head rest => exact (head solid.left).append (rest solid.right) solid.toInOrder

end Grammar

/-- The words of a script are laid out as trees need it. -/
theorem Source.words_solid {source : Source} {words : List Token} {stop : Token}
    (split : Token.tokens source = words ++ [stop]) (sound : Words words) : Solid source words := by
  have order := source.tokens_inOrder
  rw [split] at order
  have tokens (t : Token) (member : t ∈ words) : t ∈ Token.tokens source := by
    rw [split]
    exact List.mem_append_left _ member
  have inner (t : Token) (member : t ∈ words) : t.body ≠ .endOfScript := by
    intro ends
    have word := sound t member
    rw [Token.isWord,ends] at word
    contradiction
  refine ⟨order.left,fun t member => ⟨tokens t member,inner t member⟩,fun t member => ?_⟩
  obtain ⟨before,exact_⟩ := Token.tokens_exact source t (tokens t member)
  exact exact_.full (inner t member)

/-- In the tree of a script each node is laid out so, and the statements of the script stand one behind the
other. So the compiler finds fault with stretches of the text alone, none of them empty. -/
theorem Source.parse_laid {source : Source} {program : List Stmt} (parsed : source.parse = .ok program) :
    (∀ s ∈ program, ∀ n, (Node.stmt s).Under n → n.Laid source) ∧
    (program.Pairwise fun a b => a.span.stop ≤ b.span.start) ∧
    ∀ d, (Compile.tree source program).outcome = .error d →
      d.span.start < d.span.stop ∧ d.span.stop ≤ source.size := by
  obtain ⟨words,stop,split,sound,derives⟩ := source.parse_derives parsed
  have solid := source.words_solid split sound
  have among := derives.among solid
  have ranged := derives.ranged solid.fair
  exact ⟨fun s member n under => among.laid _ (List.mem_map_of_mem member) n under,
    List.pairwise_map.mp among.apart,fun d refused => (source.tree_located ranged refused).span⟩

/-- Parentheses widen the sum that they stand in, and neither of its operands. -/
theorem Source.parse_laid_parens : ∃ program, (Source.ofText (ascii "(a) + (b); c")).parse = .ok program ∧
    (∀ s ∈ program, ∀ n, (Node.stmt s).Under n → n.Laid (.ofText (ascii "(a) + (b); c"))) ∧
    (program.Pairwise fun a b => a.span.stop ≤ b.span.start) ∧
    ∀ d, (Compile.tree (.ofText (ascii "(a) + (b); c")) program).outcome = .error d →
      d.span.start < d.span.stop ∧ d.span.stop ≤ (Source.ofText (ascii "(a) + (b); c")).size := by
  have computed : (Source.ofText (ascii "(a) + (b); c")).parse.isOk = true := by decide +kernel
  cases parsed : (Source.ofText (ascii "(a) + (b); c")).parse with
  | ok program => exact ⟨program,rfl,Source.parse_laid parsed⟩
  | error d => simp [parsed,Except.isOk,Except.toBool] at computed

end ScriptMachine
