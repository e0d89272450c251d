import Mathlib
import ScriptMachine.Proofs.Nodes
import ScriptMachine.Proofs.Recognition
import ScriptMachine.Proofs.Scanning

/-! Where the nodes of a tree stand. Each has the range of the tokens it was read from, and these stand one
behind the other in the text. -/
namespace ScriptMachine

/-- A range of a text of this size. -/
structure Span.Fits (size : Nat) (span : Span) : Prop where
  ordered : span.start ≤ span.stop
  inside : span.stop ≤ size

namespace Grammar

open Parse

/-- The tokens stand one behind the other in a text of this size. -/
structure InOrder (size : Nat) (ts : List Token) : Prop where
  each : ∀ t ∈ ts, t.span.Fits size
  apart : ts.Pairwise fun a b => a.span.stop ≤ b.span.start

variable {size : Nat} {ts us : List Token} {phrase : Phrase}

theorem InOrder.sublist (order : InOrder size ts) (some : us.Sublist ts) : InOrder size us :=
  ⟨fun t member => order.each t (some.subset member),order.apart.sublist some⟩

theorem InOrder.left (order : InOrder size (ts ++ us)) : InOrder size ts :=
  order.sublist (List.sublist_append_left ts us)

theorem InOrder.right (order : InOrder size (ts ++ us)) : InOrder size us :=
  order.sublist (List.sublist_append_right ts us)

theorem InOrder.tail {t : Token} (order : InOrder size (t :: ts)) : InOrder size ts :=
  order.sublist (List.sublist_cons_self t ts)

/-- The last of some tokens stands behind the first, and fits. -/
theorem InOrder.latest {t : Token} (order : InOrder size (t :: ts)) :
    t.span.start ≤ (latest t ts).span.stop ∧ (latest t ts).span.stop ≤ size := by
  induction ts generalizing t with
  | nil =>
    have fits := order.each t List.mem_cons_self
    exact ⟨fits.ordered,fits.inside⟩
  | cons u us ih =>
    obtain ⟨ordered,inside⟩ := ih order.tail
    have fits := order.each t List.mem_cons_self
    have next := (List.pairwise_cons.mp order.apart).1 u List.mem_cons_self
    exact ⟨fits.ordered.trans (next.trans ordered),inside⟩

/-- Whatever of these tokens is taken, its range is one of these. -/
def Fair (good : Span → Prop) (ts : List Token) : Prop :=
  ∀ us, us.Sublist ts → us ≠ [] → good (spanOf us)

variable {good : Span → Prop}

theorem Fair.sublist (fair : Fair good ts) (some : us.Sublist ts) : Fair good us :=
  fun vs taken => fair vs (taken.trans some)

theorem Fair.left (fair : Fair good (ts ++ us)) : Fair good ts :=
  fair.sublist (List.sublist_append_left ts us)

theorem Fair.right (fair : Fair good (ts ++ us)) : Fair good us :=
  fair.sublist (List.sublist_append_right ts us)

theorem Fair.tail {t : Token} (fair : Fair good (t :: ts)) : Fair good ts :=
  fair.sublist (List.sublist_cons_self t ts)

theorem Fair.all (fair : Fair good ts) (nonempty : ts ≠ []) : good (spanOf ts) :=
  fair ts (.refl ts) nonempty

theorem InOrder.fair (order : InOrder size ts) : Fair (Span.Fits size) ts := by
  rintro us taken nonempty
  obtain ⟨t,us,rfl⟩ := List.exists_cons_of_ne_nil nonempty
  have latest := (order.sublist taken).latest
  exact ⟨latest.1,latest.2⟩

def Phrase.Ranged (good : Span → Prop) : Phrase → Prop
  | .assignment value | .operand _ value | .unary value | .call value | .primary value =>
    value.Ranged good
  | .values list | .arguments list => Expr.AllRanged good list
  | .block body | .statements body => Stmt.AllRanged good body
  | .otherwise no => ∀ body ∈ no, Stmt.AllRanged good body
  | .conditional _ st | .simple st | .whole st => st.Ranged good

theorem ranged_node {good : Span → Prop} {span : Span} {lhs rhs : Expr} (op : Connective)
    (here : good span) (left : lhs.Ranged good) (right : rhs.Ranged good) :
    (op.node span lhs rhs).Ranged good := by
  cases op <;> exact ⟨here,left,right⟩

/-- By induction over the rules, each node has the range of its tokens. -/
theorem Derives.ranged (derives : Derives ts phrase) (fair : Fair good ts) : phrase.Ranged good := by
  induction derives with
  | assign _ _ _ left right => exact ⟨fair.all (by simp),left fair.left,right fair.right.tail⟩
  | connect _ _ _ _ left right =>
    exact ranged_node _ (fair.all (by simp)) (left fair.left) (right fair.right.tail)
  | unassigned _ ih | tighter _ ih | tightest _ ih | plain _ ih | uncalled _ ih | arguments _ ih
  | conditional _ ih => exact ih fair
  | negate _ _ ih | not _ _ ih | print _ _ ih | ret _ _ ih | loop _ _ ih =>
    exact ⟨fair.all (by simp),ih fair.tail⟩
  | call _ _ _ _ front inner => exact ⟨fair.all (by simp),front fair.left,inner fair.right.tail.left⟩
  | field _ _ _ front => exact ⟨fair.all (by simp),front fair.left⟩
  | number | string | name | truth | falsehood | nil => exact fair.all (by simp)
  | parens _ _ _ ih | braces _ _ _ ih => exact ih fair.tail.left
  | lambda _ _ _ ih => exact ⟨fair.all (by simp),ih fair.tail.right⟩
  | last _ ih | unterminated _ ih => exact ⟨ih fair,trivial⟩
  | more _ _ _ first rest => exact ⟨first fair.left,rest fair.right.tail⟩
  | noArguments | done => trivial
  | nothing => simp [Phrase.Ranged]
  | elif _ ih =>
    rintro body ⟨⟩
    exact ⟨ih fair,trivial⟩
  | other _ _ ih =>
    rintro body ⟨⟩
    exact ih fair.tail
  | @branch _ _ _ _ _ _ _ no _ _ _ _ test first second =>
    have yes := first fair.tail.right.left
    have others := second fair.tail.right.right
    cases no with
    | none => exact ⟨fair.all (by simp),test fair.tail.left,yes⟩
    | some no => exact ⟨fair.all (by simp),test fair.tail.left,yes,others no rfl⟩
  | expression inner ih => exact ⟨fair.all inner.starts.ne_nil,ih fair⟩
  | block inner ih =>
    obtain ⟨first,rest,rfl,-⟩ := inner.starts
    exact ⟨fair.all (List.cons_ne_nil _ _),ih fair⟩
  | declareNil | retNil | breakLoop | continueLoop | struct => exact fair.all (by simp)
  | declare _ _ _ _ ih => exact ⟨fair.all (by simp),ih fair.tail.tail.tail⟩
  | terminated _ _ ih => exact ih fair.left
  | function _ _ _ _ ih => exact ⟨fair.all (by simp),ih fair.tail.tail.right⟩
  | loopWhile _ _ _ test ih => exact ⟨fair.all (by simp),test fair.tail.left,ih fair.tail.right⟩
  | lone _ _ ih => exact ih fair.tail
  | statement _ _ head rest => exact ⟨head fair.left,rest fair.right⟩

end Grammar

end ScriptMachine
