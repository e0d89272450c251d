import Mathlib
import ScriptMachine.Proofs.Hosts
import ScriptMachine.Proofs.Lockstep

/-! Which native functions cannot tell twins apart: all the standard ones but those that show the
clock and the number of objects. -/
namespace ScriptMachine

open ScriptMachine.Action

namespace NativeAction

variable {α β γ δ : Type} {m n : Machine} {p : Pairing}

theorem Together.bind {x : NativeAction α} {y : NativeAction β} {k : α → NativeAction γ}
    {l : β → NativeAction δ} {ok : γ → δ → Machine → Machine → Prop}
    (first : NativeAction.Together x y m n fun a b m' n' =>
      NativeAction.Together (k a) (l b) m' n' ok) :
    NativeAction.Together (x >>= k) (y >>= l) m n ok := by
  rw [NativeAction.Together,ExceptT.run_bind,ExceptT.run_bind]
  refine .bind (Action.Together.mono first ?_)
  rintro (e | a) (e' | b) m' n' same
  · exact same
  · exact same.elim
  · exact same.elim
  · exact same

/-- An action of the machine may come first. -/
theorem Together.lift {x : Action α} {y : Action β} {k : α → NativeAction γ} {l : β → NativeAction δ}
    {ok : γ → δ → Machine → Machine → Prop} (first : Action.Together x y m n fun a b m' n' =>
      NativeAction.Together (k a) (l b) m' n' ok) :
    NativeAction.Together (liftM x >>= k) (liftM y >>= l) m n ok :=
  .bind (.map first)

theorem Together.pure {a : α} {b : β} {ok : α → β → Machine → Machine → Prop} (holds : ok a b m n) :
    NativeAction.Together (Pure.pure a) (Pure.pure b) m n ok :=
  holds

theorem Together.refuse {ok : α → β → Machine → Machine → Prop} (twin : m.Twin p n) (index : Nat)
    (expected : String) {v w : Value} (alike : v.Twin p w) :
    NativeAction.Together (Native.refuse index expected v) (Native.refuse index expected w) m n
      ok :=
  .lift (twin.typeName alike fun _ => ⟨rfl,p,twin⟩)

end NativeAction

namespace Native

variable {m n : Machine} {p : Pairing} {arguments others : List Value}

/-- Twins whose collections go the same way. -/
structure Fit (p : Pairing) (m n : Machine) : Prop where
  twin : m.Twin p n
  guarded : m.Guarded
  guardedToo : n.Guarded

/-- What is known of the arguments of a call. -/
structure Given (p : Pairing) (m n : Machine) (arguments others : List Value) : Prop
    extends Fit p m n where
  alike : List.Forall₂ (Value.Twin p) arguments others
  held : ∀ v ∈ arguments, v ∈ m.stack
  heldToo : ∀ w ∈ others, w ∈ n.stack

/-- The values are partners, also after a collection. -/
abbrev Answers (v w : Value) (m n : Machine) : Prop :=
  ∃ q, m.Twin q n ∧ v.Twin q w

namespace Given

theorem argument (given : Given p m n arguments others) {ok : Value → Value → Machine → Machine → Prop} {index : Nat}
    (next : ∀ v w, v.Twin p w → v ∈ m.stack → w ∈ n.stack → ok v w m n) :
    NativeAction.Together (Native.argument arguments index) (Native.argument others index) m n
      ok := by
  have both : Option.Rel (fun v w => v.Twin p w ∧ v ∈ m.stack ∧ w ∈ n.stack) arguments[index]?
      others[index]? := by
    by_cases inside : index < arguments.length
    · have insideToo : index < others.length := given.alike.length_eq ▸ inside
      rw [List.getElem?_eq_getElem inside,List.getElem?_eq_getElem insideToo]
      exact .some ⟨given.alike.get inside insideToo,given.held _ (List.getElem_mem inside),
        given.heldToo _ (List.getElem_mem insideToo)⟩
    · rw [List.getElem?_eq_none (Nat.le_of_not_lt inside),
        List.getElem?_eq_none (given.alike.length_eq ▸ Nat.le_of_not_lt inside)]
      exact .none
  exact .map (given.twin.need both fun v w related => next v w related.1 related.2.1 related.2.2)

theorem number (given : Given p m n arguments others) {ok : Float → Float → Machine → Machine → Prop} {index : Nat}
    (next : ∀ a, ok a a m n) :
    NativeAction.Together (Native.number arguments index) (Native.number others index) m n ok := by
  refine .bind (given.argument fun v w alike _ _ => ?_)
  cases alike with
  | number a => exact next a
  | bool b => exact .refuse given.twin index _ (.bool b)
  | nil => exact .refuse given.twin index _ .nil
  | object paired => exact .refuse given.twin index _ (.object paired)

theorem bool (given : Given p m n arguments others) {ok : Bool → Bool → Machine → Machine → Prop} {index : Nat}
    (next : ∀ b, ok b b m n) :
    NativeAction.Together (Native.bool arguments index) (Native.bool others index) m n ok := by
  refine .bind (given.argument fun v w alike _ _ => ?_)
  cases alike with
  | bool b => exact next b
  | number a => exact .refuse given.twin index _ (.number a)
  | nil => exact .refuse given.twin index _ .nil
  | object paired => exact .refuse given.twin index _ (.object paired)

theorem string (given : Given p m n arguments others) {ok : Bytes → Bytes → Machine → Machine → Prop} {index : Nat}
    (next : ∀ text, ok text text m n) :
    NativeAction.Together (Native.string arguments index) (Native.string others index) m n ok := by
  refine .bind (given.argument fun v w alike _ _ => .lift (given.twin.stringOf? alike fun text => ?_))
  cases text with
  | some text => exact next text
  | none => exact .refuse given.twin index _ alike

theorem newString (given : Given p m n arguments others) (text : Bytes) :
    NativeAction.Together (Native.newString text) (Native.newString text) m n Answers :=
  .lift (given.twin.allocateString given.guarded given.guardedToo text
    fun q _ _ _ _ grown new => .pure ⟨q,grown.twin,.object new⟩)

end Given

namespace Fit

/-- A value is pinned while something is done. -/
theorem pinned {α β : Type} {x : Action α} {y : Action β} {ok : α → β → Machine → Machine → Prop}
    {v w : Value} (fit : Fit p m n) (alike : v.Twin p w)
    (inner : Fit p { m with pinned := v :: m.pinned } { n with pinned := w :: n.pinned } →
      Together x y { m with pinned := v :: m.pinned } { n with pinned := w :: n.pinned }
        fun a b m' n' => ok a b { m' with pinned := m'.pinned.tail }
          { n' with pinned := n'.pinned.tail }) :
    Together (Action.pinning v x) (Action.pinning w y) m n ok := by
  have pinned : Fit p { m with pinned := v :: m.pinned } { n with pinned := w :: n.pinned } :=
    ⟨{ fit.twin with pinned := .cons alike fit.twin.pinned },fit.guarded,fit.guardedToo⟩
  exact .bind (.modify (.bind ((inner pinned).mono fun _ _ _ _ holds =>
    .bind (.modify (.pure holds)))))

theorem unpin (twin : m.Twin p n) : Machine.Twin p { m with pinned := m.pinned.tail }
    { n with pinned := n.pinned.tail } := by
  refine { twin with pinned := ?_ }
  have pinned := twin.pinned
  dsimp only
  generalize m.pinned = l at pinned
  generalize n.pinned = l' at pinned
  cases pinned with
  | nil => exact .nil
  | cons _ rest => exact rest

theorem pinning {x y : Action Value} {v w : Value} (fit : Fit p m n) (alike : v.Twin p w)
    (inner : Fit p { m with pinned := v :: m.pinned } { n with pinned := w :: n.pinned } →
      Together x y { m with pinned := v :: m.pinned } { n with pinned := w :: n.pinned } Answers) :
    Together (Action.pinning v x) (Action.pinning w y) m n Answers :=
  fit.pinned alike fun fit => (inner fit).mono fun _ _ _ _ ⟨q,twin,alike⟩ => ⟨q,unpin twin,alike⟩

/-- What both machines reach stays paired in a collection. -/
theorem collect {ok : Unit → Unit → Machine → Machine → Prop} (fit : Fit p m n)
    (next : ∀ q, Fit q m.collect n.collect →
      (∀ h k, p h k → m.Reaches h → n.Reaches k → q h k) → ok () () m.collect n.collect) :
    Together Action.collect Action.collect m n ok := by
  have sifts := Machine.Sifts.collect fit.twin.heap.tidy
  have siftsToo := Machine.Sifts.collect fit.twin.heap.tidyToo
  exact .modify (next _
    ⟨fit.twin.sift fit.guarded fit.guardedToo sifts siftsToo,fit.guarded,fit.guardedToo⟩
    fun h k paired reached reachedToo => fit.twin.left sifts siftsToo reached reachedToo paired)

theorem allocateString {ok : Handle → Handle → Machine → Machine → Prop} (fit : Fit p m n)
    (text : Bytes) (next : ∀ q h k m' n', Fit q m' n' → q h k →
      (∀ a b, p a b → m.Reaches a → n.Reaches b → q a b) → ok h k m' n') :
    Together (Action.allocateString text) (Action.allocateString text) m n ok :=
  fit.twin.allocateString fit.guarded fit.guardedToo text fun q h k m' n' grown new =>
    next q h k m' n'
      ⟨grown.twin,fit.guarded.of_same grown.same,fit.guardedToo.of_same grown.sameToo⟩ new
      fun a b paired reached reachedToo => (grown.kept a b paired reached reachedToo).1

/-- A value can be stored under a name. -/
theorem setGlobalNamed {v w : Value} (fit : Fit p m n) (name : Bytes) (alike : v.Twin p w) :
    Together (Action.setGlobalNamed name v) (Action.setGlobalNamed name w) m n
      Machine.Aligned := by
  refine .bind (fit.pinned alike fun fit => fit.allocateString name fun q h k m' n' fit new kept =>
    .modify ⟨q,(unpin fit.twin).insertGlobal new (alike.imp ?_)⟩)
  intro a same b sameToo paired
  exact kept a b paired (Machine.reaches_pinned (by simp [same]))
    (Machine.reaches_pinned (by simp [sameToo]))

end Fit

/-- The texts are read off before anything can be collected, and what is made of them is pinned. -/
theorem together_joinPair {v w v' w' : Value} (given : Given p m n arguments others)
    (left : v.Twin p w) (right : v'.Twin p w') (member : v' ∈ m.stack) (memberToo : w' ∈ n.stack) :
    Together (joinPair v v') (joinPair w w') m n Answers := by
  refine .bind (given.twin.text left fun a => .bind (given.toFit.allocateString a ?_))
  intro q l l' m₁ n₁ fit first kept
  have still : v'.Twin q w' := right.imp fun h same k sameToo paired => kept h k paired
    (Machine.reaches_stack (same ▸ member)) (Machine.reaches_stack (sameToo ▸ memberToo))
  refine fit.pinning (.object first) fun fit => .bind (fit.twin.text still fun b => ?_)
  refine .bind (fit.allocateString b fun q r r' m₂ n₂ fit second _ => ?_)
  refine fit.pinning (.object second) fun fit => .bind (fit.collect fun q fit _ => ?_)
  refine .bind (fit.allocateString _ fun q j j' m₃ n₃ fit joined _ => ?_)
  refine fit.pinning (.object joined) fun fit => .bind (fit.collect fun q fit kept => ?_)
  have pinned := kept j j' joined (Machine.reaches_pinned (by simp))
    (Machine.reaches_pinned (by simp))
  exact .pure ⟨q,fit.twin,.object pinned⟩

theorem together_inspection {ok : Bytes → Bytes → Machine → Machine → Prop} {v w : Value}
    (twin : m.Twin p n) (alike : v.Twin p w) (next : ∀ text, ok text text m n) :
    Together (inspection v) (inspection w) m n ok := by
  cases alike with
  | number a => exact next _
  | bool b => exact next _
  | nil => exact next _
  | object paired =>
    refine .bind (twin.stringOf? (.object paired) fun text => ?_)
    cases text with
    | some text => exact next _
    | none => exact .bind (twin.typeName (.object paired) fun _ => next _)

/-- Only the clock and the number of objects tell twins apart. -/
theorem together_call {native : Native} (given : Given p m n arguments others)
    (noClock : native ≠ .clock) (noCount : native ≠ .live) :
    NativeAction.Together (native.call arguments) (native.call others) m n Answers := by
  have twin := given.twin
  cases native with
  | clock => exact absurd rfl noClock
  | live => exact absurd rfl noCount
  | str =>
    refine .bind (given.argument fun v w alike _ _ => .lift (twin.stringOf? alike fun text => ?_))
    cases text with
    | some text => exact .pure ⟨p,twin,alike⟩
    | none => exact .lift (twin.text alike fun text => given.newString text)
  | put =>
    exact .bind (given.argument fun v w alike _ _ => .lift (twin.text alike fun text =>
      .lift (twin.write text fun _ _ twin => .pure ⟨p,twin,.nil⟩)))
  | twice => exact .bind (given.number fun a => .pure ⟨p,twin,.number _⟩)
  | flip => exact .bind (given.bool fun b => .pure ⟨p,twin,.bool _⟩)
  | len => exact .bind (given.string fun text => .pure ⟨p,twin,.number _⟩)
  | count =>
    rw [call,call,given.alike.length_eq]
    exact .pure ⟨p,twin,.number _⟩
  | type =>
    exact .bind (given.argument fun v w alike _ _ => .lift (twin.typeName alike fun name =>
      given.newString name))
  | tick =>
    refine .bind (given.number fun step => .lift (.modify (.lift (.get (.pure ⟨p,?_,?_⟩)))))
    · exact { twin with counter := by dsimp only; rw [twin.counter] }
    · rw [twin.counter]
      exact .number _
  | depth =>
    refine .lift (.get (.pure ⟨p,twin,?_⟩))
    rw [twin.stack.size]
    exact .number _
  | frames =>
    refine .lift (.get (.pure ⟨p,twin,?_⟩))
    rw [twin.frames.length_eq]
    exact .number _
  | gc =>
    exact .lift (given.toFit.collect fun q fit _ => .pure ⟨q,fit.twin,.nil⟩)
  | state =>
    refine .lift (.get ?_)
    rw [twin.status]
    exact given.newString _
  | mix =>
    exact .bind (given.number fun a => .bind (given.bool fun b => .bind (given.string fun text =>
      given.newString _)))
  | fail => exact .bind (given.string fun kind => .bind (given.string fun text => ⟨rfl,p,twin⟩))
  | pair =>
    exact .bind (given.argument fun v w left _ _ => .bind (given.argument
      fun v' w' right member memberToo => .map (together_joinPair given left right member memberToo)))
  | inspect =>
    exact .bind (given.argument fun v w alike _ _ => .lift (together_inspection twin alike
      fun text => given.newString text))
  | constants =>
    refine .bind (given.number fun a => ?_)
    split
    · exact .pure ⟨p,twin,.nil⟩
    · split
      · exact .pure ⟨p,twin,.bool _⟩
      · exact .pure ⟨p,twin,.number _⟩
  | custom id => exact ⟨rfl,p,twin⟩

end Native

theorem Host.standard_blind {native : Native} (noClock : native ≠ .clock)
    (noCount : native ≠ .live) : Host.standard.Blind native :=
  fun _ _ _ _ _ twin guarded guardedToo _ alike held heldToo =>
    Native.together_call ⟨⟨twin,guarded,guardedToo⟩,alike,held,heldToo⟩ noClock noCount

/-- The standard host without the functions that show the clock and the number of objects. -/
def Host.secluded : Host where
  arity := Native.arity
  call
    | .clock, _ | .live, _ => return .nil
    | native, arguments => native.call arguments

theorem Host.secluded_blind (native : Native) : Host.secluded.Blind native := by
  by_cases shown : native = .clock ∨ native = .live
  · intro p m n arguments others twin _ _ _ _ _ _
    rcases shown with rfl | rfl <;> exact .pure ⟨p,twin,.nil⟩
  · obtain ⟨noClock,noCount⟩ := not_or.mp shown
    have same : Host.secluded.call native = native.call := by
      cases native <;> first | rfl | contradiction
    intro p m n arguments others
    rw [same]
    exact Host.standard_blind noClock noCount p m n arguments others

theorem Host.secluded_respectful : Host.secluded.Respectful := by
  intro native arguments m length intact stack
  by_cases shown : native = .clock ∨ native = .live
  · refine ⟨.ok .nil,m,∅,?_,.refl intact,?_⟩
    · rcases shown with rfl | rfl <;> rfl
    · rintro _ ⟨⟩
      exact Heap.holds_nil
  · obtain ⟨noClock,noCount⟩ := not_or.mp shown
    have same : Host.secluded.call native = native.call := by
      cases native <;> first | rfl | contradiction
    rw [same]
    exact Host.standard_respectful native arguments m length intact stack

end ScriptMachine
