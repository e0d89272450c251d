import Mathlib
import ScriptMachine.Proofs.HandleRenaming

/-! Actions on twins. Done on two machines that are alike, an action comes to alike results and
leaves alike machines, or it stops both for the same reason. Each primitive action has a rule; the
rule of an action in two parts is made of theirs. Allocations need the closures of active frames to
lie on the stack, for a collection may come. -/
namespace ScriptMachine

/-- There is a pairing under which the machines are twins. -/
def Machine.Alike (m n : Machine) : Prop :=
  ∃ p, m.Twin p n

namespace Action

/-- Both actions go well, to what is related, or both stop for the same reason. -/
def Together {α β : Type} (x : Action α) (y : Action β) (m n : Machine)
    (ok : α → β → Machine → Machine → Prop) : Prop :=
  match x m, y n with
  | .ok a m', .ok b n' => ok a b m' n'
  | .error s m', .error s' n' => s = s' ∧ m'.Alike n'
  | _, _ => False

section

variable {α β γ δ : Type} {m n : Machine} {x : Action α} {y : Action β}
  {ok : α → β → Machine → Machine → Prop}

theorem Together.mono {ok' : α → β → Machine → Machine → Prop} (together : Together x y m n ok)
    (more : ∀ a b m' n', ok a b m' n' → ok' a b m' n') : Together x y m n ok' := by
  unfold Together at together ⊢
  split at together
  · exact more _ _ _ _ together
  · exact together
  · exact together.elim

theorem Together.of_ok {a : α} {b : β} {m' n' : Machine} (left : x m = .ok a m')
    (right : y n = .ok b n') (holds : ok a b m' n') : Together x y m n ok := by
  rw [Together,left,right]
  exact holds

/-- What is related are the results of the two runs. -/
theorem Together.runs (together : Together x y m n ok) : Together x y m n fun a b m' n' =>
    ok a b m' n' ∧ x m = .ok a m' ∧ y n = .ok b n' := by
  unfold Together at together ⊢
  split at together
  next left right => exact ⟨together,left,right⟩
  next left right => exact together
  next => exact together.elim

/-- The two ways in which both can end. -/
theorem Together.cases (together : Together x y m n ok) :
    (∃ a m' b n', x m = .ok a m' ∧ y n = .ok b n' ∧ ok a b m' n') ∨
    ∃ s m' n', x m = .error s m' ∧ y n = .error s n' ∧ m'.Alike n' := by
  unfold Together at together
  split at together
  next a m' b n' left right => exact .inl ⟨a,m',b,n',left,right,together⟩
  next s m' s' n' left right =>
    obtain ⟨rfl,alike⟩ := together
    exact .inr ⟨s,m',n',left,right,alike⟩
  next => exact together.elim

theorem Together.bind {k : α → Action γ} {l : β → Action δ} {ok : γ → δ → Machine → Machine → Prop}
    (first : Together x y m n fun a b m' n' => Together (k a) (l b) m' n' ok) :
    Together (x >>= k) (y >>= l) m n ok := by
  rcases first.cases with ⟨a,m',b,n',left,right,rest⟩ | ⟨s,m',n',left,right,alike⟩
  · have here : (x >>= k) m = k a m' := by
      change EStateM.bind x k m = k a m'
      rw [EStateM.bind,left]
    have there : (y >>= l) n = l b n' := by
      change EStateM.bind y l n = l b n'
      rw [EStateM.bind,right]
    rwa [Together,here,there]
  · have here : (x >>= k) m = .error s m' := by
      change EStateM.bind x k m = .error s m'
      rw [EStateM.bind,left]
    have there : (y >>= l) n = .error s n' := by
      change EStateM.bind y l n = .error s n'
      rw [EStateM.bind,right]
    rw [Together,here,there]
    exact ⟨rfl,alike⟩

theorem Together.pure {a : α} {b : β} (holds : ok a b m n) :
    Together (Pure.pure a) (Pure.pure b) m n ok :=
  holds

theorem Together.map {f : α → γ} {g : β → δ} {ok : γ → δ → Machine → Machine → Prop}
    (inner : Together x y m n fun a b m' n' => ok (f a) (g b) m' n') :
    Together (f <$> x) (g <$> y) m n ok := by
  rw [map_eq_pure_bind,map_eq_pure_bind]
  exact .bind inner

theorem Together.get {ok : Machine → Machine → Machine → Machine → Prop} (holds : ok m n m n) :
    Together MonadState.get MonadState.get m n ok :=
  holds

theorem Together.modify {f g : Machine → Machine} {ok : Unit → Unit → Machine → Machine → Prop}
    (holds : ok () () (f m) (g n)) : Together (modify f) (modify g) m n ok :=
  holds

theorem Together.ite {c d : Prop} [Decidable c] [Decidable d] {x' : Action α} {y' : Action β}
    (same : c ↔ d) (yes : c → Together x y m n ok) (no : ¬c → Together x' y' m n ok) :
    Together (if c then x else x') (if d then y else y') m n ok := by
  by_cases h : c
  · rw [if_pos h,if_pos (same.mp h)]
    exact yes h
  · rw [if_neg h,if_neg (same.not.mp h)]
    exact no h

end

end Action

open ScriptMachine.Action

namespace Machine.Twin

variable {p : Pairing} {m n : Machine} {α β : Type} {ok : α → β → Machine → Machine → Prop}

theorem stuck (twin : m.Twin p n) : Together (Action.stuck : Action α) (Action.stuck : Action β)
    m n ok :=
  ⟨rfl,p,twin⟩

theorem fault (twin : m.Twin p n) {f g : RuntimeFault} (same : f = g) :
    Together (Action.fault f : Action α) (Action.fault g : Action β) m n ok :=
  ⟨by rw [same,twin.trace],p,twin⟩

theorem need {R : α → β → Prop} (twin : m.Twin p n) {a : Option α} {b : Option β}
    (related : Option.Rel R a b) (next : ∀ a b, R a b → ok a b m n) :
    Together (Action.need a) (Action.need b) m n ok := by
  cases related with
  | none => exact twin.stuck
  | some both => exact next _ _ both

/-! The stack. -/

variable {v w : Value} {ok : Unit → Unit → Machine → Machine → Prop}

theorem setStack (twin : m.Twin p n) {s t : Array Value} (alike : Abreast (Value.Twin p) s t) :
    Machine.Twin p { m with stack := s } { n with stack := t } :=
  { twin with stack := alike }

theorem push (twin : m.Twin p n) (alike : v.Twin p w)
    (next : Machine.Twin p { m with stack := m.stack.push v } { n with stack := n.stack.push w } →
      ok () () { m with stack := m.stack.push v } { n with stack := n.stack.push w }) :
    Together (Action.push v) (Action.push w) m n ok :=
  .bind (.get (.ite (by rw [twin.stack.size]) (fun _ => .bind (twin.fault rfl))
    fun _ => .modify (next (twin.setStack (twin.stack.push alike)))))

theorem pop (twin : m.Twin p n)
    (next : Machine.Twin p { m with stack := m.stack.pop } { n with stack := n.stack.pop } →
      ok () () { m with stack := m.stack.pop } { n with stack := n.stack.pop }) :
    Together Action.pop Action.pop m n ok := by
  refine .bind (.get (.ite ?_ (fun _ => .bind twin.stuck)
    fun _ => .modify (next (twin.setStack twin.stack.pop))))
  simp only [Array.isEmpty_iff_size_eq_zero,twin.stack.size]

theorem peek {ok : Value → Value → Machine → Machine → Prop} (twin : m.Twin p n) (depth : Nat)
    (next : ∀ v w, m.stack[m.stack.size - 1 - depth]? = some v →
      n.stack[n.stack.size - 1 - depth]? = some w → v.Twin p w → ok v w m n) :
    Together (Action.peek depth) (Action.peek depth) m n ok := by
  refine .bind (.get (.ite (by rw [twin.stack.size]) (fun _ => ?_) fun _ => twin.stuck))
  have both := twin.stack.get? (m.stack.size - 1 - depth)
  rw [twin.stack.size] at both ⊢
  rw [twin.stack.size] at next
  generalize left : m.stack[n.stack.size - 1 - depth]? = a at both
  generalize right : n.stack[n.stack.size - 1 - depth]? = b at both
  cases both with
  | none => exact twin.stuck
  | some alike => exact next _ _ left right alike

theorem slot {ok : Value → Value → Machine → Machine → Prop} (twin : m.Twin p n) (index : Nat)
    (next : ∀ v w, v.Twin p w → ok v w m n) :
    Together (Action.slot index) (Action.slot index) m n ok :=
  .bind (.get (twin.need (twin.stack.get? index) next))

theorem setSlot (twin : m.Twin p n) (alike : v.Twin p w) (index : Nat)
    (next : ∀ m' n', m'.Twin p n' → ok () () m' n') :
    Together (Action.setSlot index v) (Action.setSlot index w) m n ok :=
  .bind (.get (.ite (by rw [twin.stack.size])
    (fun _ => .modify (next _ _ (twin.setStack (twin.stack.set index alike))))
    fun _ => .bind twin.stuck))

theorem replaceTop (twin : m.Twin p n) (alike : v.Twin p w)
    (next : ∀ m' n', m'.Twin p n' → ok () () m' n') :
    Together (Action.replaceTop v) (Action.replaceTop w) m n ok := by
  refine .bind (.get ?_)
  dsimp only
  rw [twin.stack.size]
  exact .ite Iff.rfl (fun _ => .bind twin.stuck) fun _ => twin.setSlot alike _ next

theorem shrinkTo (twin : m.Twin p n) (size : Nat)
    (next : ∀ m' n', m'.Twin p n' → ok () () m' n') :
    Together (Action.shrinkTo size) (Action.shrinkTo size) m n ok :=
  .bind (.get (.ite (by rw [twin.stack.size])
    (fun _ => .modify (next _ _ (twin.setStack (twin.stack.shrink size))))
    fun _ => .bind twin.stuck))

/-! Frames and objects. -/

theorem frame {ok : Frame → Frame → Machine → Machine → Prop} (twin : m.Twin p n)
    (next : ∀ f g, f.Twin p g → ok f g m n) : Together Action.frame Action.frame m n ok := by
  refine .bind (.get ?_)
  have frames := twin.frames
  cases left : m.frames with
  | nil =>
    rw [left,List.forall₂_nil_left_iff] at frames
    rw [frames]
    exact twin.stuck
  | cons f fs =>
    rw [left,List.forall₂_cons_left_iff] at frames
    obtain ⟨g,gs,alike,-,right⟩ := frames
    rw [right]
    exact next f g alike

theorem modifyFrame (twin : m.Twin p n) {change : Frame → Frame}
    (keeps : ∀ f g, f.Twin p g → (change f).Twin p (change g))
    (next : ∀ m' n', m'.Twin p n' → ok () () m' n') :
    Together (Action.modifyFrame change) (Action.modifyFrame change) m n ok := by
  refine .modify (next _ _ { twin with frames := ?_ })
  have frames := twin.frames
  dsimp only
  generalize m.frames = fs at frames
  generalize n.frames = gs at frames
  cases frames with
  | nil => exact .nil
  | cons first rest => exact .cons (keeps _ _ first) rest

/-- Moving on in the code. -/
theorem moveFrame (twin : m.Twin p n) (move : Nat → Nat)
    (next : ∀ m' n', m'.Twin p n' → ok () () m' n') :
    Together (Action.modifyFrame fun f => { f with ip := move f.ip })
      (Action.modifyFrame fun f => { f with ip := move f.ip }) m n ok :=
  twin.modifyFrame (fun _ _ alike => ⟨alike.closure,congrArg move alike.ip,alike.base⟩) next

variable {h k : Handle}

theorem object {ok : Object → Object → Machine → Machine → Prop} (twin : m.Twin p n)
    (paired : p h k) (next : ∀ o o', m.heap.get? h = some o → n.heap.get? k = some o' →
      o.Twin p o' → ok o o' m n) : Together (Action.object h) (Action.object k) m n ok := by
  obtain ⟨o,o',found,foundToo,alike⟩ := twin.heap.objects h k paired
  refine .bind (.get ?_)
  rw [found,foundToo]
  exact next o o' found foundToo alike

theorem objectOf? {ok : Option Object → Option Object → Machine → Machine → Prop}
    (twin : m.Twin p n) (alike : v.Twin p w) (none : ok none none m n)
    (some : ∀ h k o o', v = .object h → w = .object k → p h k → m.heap.get? h = some o →
      n.heap.get? k = some o' → o.Twin p o' → ok (some o) (some o') m n) :
    Together (Action.objectOf? v) (Action.objectOf? w) m n ok := by
  cases alike with
  | object paired =>
    exact .map (twin.object paired fun o o' found foundToo alike =>
      some _ _ o o' rfl rfl paired found foundToo alike)
  | _ => exact none

theorem stringOf? {ok : Option Bytes → Option Bytes → Machine → Machine → Prop}
    (twin : m.Twin p n) (alike : v.Twin p w) (next : ∀ text, ok text text m n) :
    Together (Action.stringOf? v) (Action.stringOf? w) m n ok := by
  refine .bind (twin.objectOf? alike (next none) fun h k o o' _ _ _ _ _ twins => ?_)
  cases twins with
  | string text => exact next (some text)
  | _ => exact next none

theorem typeName {ok : Bytes → Bytes → Machine → Machine → Prop} (twin : m.Twin p n)
    (alike : v.Twin p w) (next : ∀ name, ok name name m n) :
    Together (Action.typeName v) (Action.typeName w) m n ok := by
  refine .bind (.get ?_)
  rw [twin.heap.typeName alike]
  exact next _

theorem text {ok : Bytes → Bytes → Machine → Machine → Prop} (twin : m.Twin p n)
    (alike : v.Twin p w) (next : ∀ text, ok text text m n) :
    Together (Action.text v) (Action.text w) m n ok := by
  refine .bind (.get ?_)
  rw [twin.heap.text alike]
  exact next _

theorem nameText {ok : Bytes → Bytes → Machine → Machine → Prop} (twin : m.Twin p n)
    (paired : p h k) (next : ∀ text, ok text text m n) :
    Together (Action.nameText h) (Action.nameText k) m n ok := by
  refine .bind (.get ?_)
  rw [twin.heap.stringText paired]
  exact next _

theorem nameOf {ok : Handle → Handle → Machine → Machine → Prop} (twin : m.Twin p n)
    (alike : v.Twin p w) (next : ∀ h k, v = .object h → w = .object k → p h k → ok h k m n) :
    Together (Action.nameOf v) (Action.nameOf w) m n ok := by
  cases alike with
  | object paired =>
    refine .bind (twin.object paired fun o o' _ _ alike => ?_)
    cases alike with
    | string text => exact next _ _ rfl rfl paired
    | _ => exact twin.stuck
  | _ => exact twin.stuck

theorem runningFunction {ok : Chunk × Array Value → Chunk × Array Value → Machine → Machine → Prop}
    (twin : m.Twin p n)
    (next : ∀ chunk s t, Abreast (Value.Twin p) s t → ok (chunk,s) (chunk,t) m n) :
    Together Action.runningFunction Action.runningFunction m n ok := by
  refine .bind (.get ?_)
  have frames := twin.frames
  cases left : m.frames with
  | nil =>
    rw [left,List.forall₂_nil_left_iff] at frames
    rw [frames]
    exact twin.stuck
  | cons f fs =>
    rw [left,List.forall₂_cons_left_iff] at frames
    obtain ⟨g,gs,alike,-,right⟩ := frames
    rw [right]
    refine twin.need (twin.functionOf? alike.closure) ?_
    rintro ⟨chunk,s⟩ ⟨_,t⟩ ⟨rfl,constants⟩
    exact next chunk s t constants

theorem constant {ok : Value → Value → Machine → Machine → Prop} (twin : m.Twin p n) (index : Nat)
    (next : ∀ v w, v.Twin p w → ok v w m n) :
    Together (Action.constant index) (Action.constant index) m n ok :=
  .bind (twin.runningFunction fun _ _ _ constants => twin.need (constants.get? index) next)

theorem capturedCell {ok : Handle → Handle → Machine → Machine → Prop} (twin : m.Twin p n)
    (index : Nat) (next : ∀ h k, p h k → ok h k m n) :
    Together (Action.capturedCell index) (Action.capturedCell index) m n ok := by
  refine .bind (twin.frame fun f g alike =>
    .bind (twin.object alike.closure fun o o' _ _ twins => ?_))
  cases twins with
  | closure code captures => exact twin.need (captures.get? index) next
  | _ => exact twin.stuck

theorem cellState {ok : Cell → Cell → Machine → Machine → Prop} (twin : m.Twin p n)
    (paired : p h k)
    (onStack : ∀ slot, m.heap.get? h = some (.cell (.onStack slot)) →
      n.heap.get? k = some (.cell (.onStack slot)) → ok (.onStack slot) (.onStack slot) m n)
    (closed : ∀ v w, m.heap.get? h = some (.cell (.closed v)) →
      n.heap.get? k = some (.cell (.closed w)) → v.Twin p w → ok (.closed v) (.closed w) m n) :
    Together (Action.cellState h) (Action.cellState k) m n ok := by
  refine .bind (twin.object paired fun o o' found foundToo alike => ?_)
  cases alike with
  | onStack slot => exact onStack slot found foundToo
  | closed value => exact closed _ _ found foundToo value
  | _ => exact twin.stuck

/-- An object that is no string, and does not become one, is changed on both sides. -/
theorem update (twin : m.Twin p n) (paired : p h k) {o o' : Object}
    (found : m.heap.get? h = some o) (foundToo : n.heap.get? k = some o') {f g : Object → Object}
    (plain : ∀ text, o ≠ .string text) (still : ∀ text, f o ≠ .string text)
    (alike : o.Twin p o' → (f o).Twin p (g o')) :
    Machine.Twin p { m with heap := m.heap.update h f } { n with heap := n.heap.update k g } := by
  obtain ⟨_,_,here,there,before⟩ := twin.heap.objects h k paired
  rw [found] at here
  rw [foundToo] at there
  cases here
  cases there
  have after := alike before
  have plainToo : ∀ text, o' ≠ .string text := by
    rintro text rfl
    cases before
    exact plain text rfl
  have stillToo (text : Bytes) : g o' ≠ .string text := by
    intro same
    rw [same] at after
    generalize changed : f o = x at after
    cases after
    exact still text changed
  refine twin.grow (fun _ _ => id) ⟨twin.heap.unique,twin.heap.tidy.update found plain still,
    twin.heap.tidyToo.update foundToo plainToo stillToo,fun a b pair => ?_⟩
  rw [Heap.get?_update,Heap.get?_update]
  by_cases same : a = h
  · subst same
    obtain rfl : b = k := twin.heap.unique.2 pair paired
    exact ⟨f o,g o',by simp [found],by simp [foundToo],after⟩
  · have other : b ≠ k := by
      rintro rfl
      exact same (twin.heap.unique.1 pair paired)
    rw [if_neg same,if_neg other]
    exact twin.heap.objects a b pair

theorem write (twin : m.Twin p n) (bytes : Bytes)
    (next : ∀ m' n', m'.Twin p n' → ok () () m' n') :
    Together (Action.write bytes) (Action.write bytes) m n ok :=
  .modify (next _ _ { twin with output := by dsimp only; rw [twin.output] })

end Machine.Twin

/-! Allocation. -/

namespace Machine

variable {p q : Pairing} {m n m' n' mid : Machine} {h k : Handle} {o o' : Object}

theorem makeRoom_run (tidy : m.heap.Tidy) (size : Nat) :
    ∃ mid, Action.makeRoom size m = .ok () mid ∧ m.Sifts mid := by
  by_cases due : m.heap.isDue size = true
  · refine ⟨m.collect,?_,.collect tidy⟩
    change (if m.heap.isDue size = true then Action.collect else Pure.pure ()) m = _
    rw [if_pos due]
    rfl
  · refine ⟨m,?_,.refl tidy⟩
    change (if m.heap.isDue size = true then Action.collect else Pure.pure ()) m = _
    rw [if_neg due]
    rfl

theorem allocate_run (tidy : m.heap.Tidy) (plain : ∀ text, o ≠ .string text) (size : Nat) :
    ∃ mid h m', Action.allocate o size m = .ok h m' ∧ m.Sifts mid ∧ mid.heap.get? h = none ∧
      mid.Places h o m' := by
  obtain ⟨mid,run,sifts⟩ := makeRoom_run tidy size
  cases inserted : mid.heap.insert o size with
  | mk h heap =>
    obtain ⟨vacant,found,others,-⟩ := Heap.insert_spec sifts.tidy inserted
    refine ⟨mid,h,{ mid with heap },?_,sifts,vacant,rfl,sifts.tidy.insert inserted plain,found,
      others⟩
    change EStateM.bind (Action.makeRoom size) _ m = _
    rw [EStateM.bind,run]
    change EStateM.modifyGet _ mid = _
    rw [EStateM.modifyGet,inserted]

/-- The string may have been there before. -/
theorem allocateString_run (tidy : m.heap.Tidy) (text : Bytes) :
    ∃ mid h m', Action.allocateString text m = .ok h m' ∧ m.Sifts mid ∧
      (mid.heap.get? h = none ∨ mid.heap.get? h = some (.string text)) ∧
      mid.Places h (.string text) m' := by
  cases known : m.heap.find? text with
  | some h =>
    have found := (tidy.interned text h).mp known
    refine ⟨m,h,m,?_,.refl tidy,.inr found,rfl,tidy,found,fun _ _ => rfl⟩
    simp [Action.allocateString,known,bind,EStateM.bind,get,getThe,MonadStateOf.get,EStateM.get,pure,
      EStateM.pure]
  | none =>
    obtain ⟨mid,run,sifts⟩ := makeRoom_run tidy (Footprint.string text)
    have missing : mid.heap.find? text = none := by
      cases later : mid.heap.find? text with
      | none => rfl
      | some h =>
        have here := (sifts.rest h _ ((sifts.tidy.interned text h).mp later)).1
        rw [(tidy.interned text h).mpr here] at known
        contradiction
    cases inserted : mid.heap.insertString text with
    | mk h heap =>
      obtain ⟨tidyToo,vacant,found,others⟩ := Heap.insertString_spec sifts.tidy missing inserted
      refine ⟨mid,h,{ mid with heap },?_,sifts,.inl vacant,rfl,tidyToo,found,others⟩
      simp [Action.allocateString,known,bind,EStateM.bind,get,getThe,MonadStateOf.get,EStateM.get,run,
        modifyGet,MonadStateOf.modifyGet,EStateM.modifyGet,inserted]

/-- Twins after an allocation on both sides. What both machines reached has kept its partner. -/
structure Grown (p q : Pairing) (m n m' n' : Machine) : Prop where
  twin : m'.Twin q n'
  same : m' = { m with heap := m'.heap }
  sameToo : n' = { n with heap := n'.heap }
  kept : ∀ h k, p h k → m.Reaches h → n.Reaches k →
    q h k ∧ m'.heap.get? h = m.heap.get? h ∧ n'.heap.get? k = n.heap.get? k

theorem Guarded.of_same (guarded : m.Guarded) (same : m' = { m with heap := m'.heap }) :
    m'.Guarded := by
  rw [same]
  exact guarded

theorem Twin.grown {mid' : Machine} (twin : m.Twin p n) (guarded : m.Guarded)
    (guardedToo : n.Guarded) (sifts : m.Sifts mid) (siftsToo : n.Sifts mid')
    (before : mid.heap.get? h = none ∨ mid.heap.get? h = some o)
    (beforeToo : mid'.heap.get? k = none ∨ mid'.heap.get? k = some o')
    (places : mid.Places h o m') (placesToo : mid'.Places k o' n')
    (only : ∀ b, p.left mid mid' h b → b = k) (onlyToo : ∀ a, p.left mid mid' a k → a = h)
    (alike : o.Twin (p.left mid mid') o') :
    Grown p ((p.left mid mid').add h k) m n m' n' where
  twin := (twin.sift guarded guardedToo sifts siftsToo).place places placesToo only onlyToo
    (alike.imp fun _ _ _ _ => .inl)
  same := by
    have early := sifts.same
    have late := places.same
    rw [early] at late
    exact late
  sameToo := by
    have early := siftsToo.same
    have late := placesToo.same
    rw [early] at late
    exact late
  kept a b paired reached reachedToo := by
    have left := twin.left sifts siftsToo reached reachedToo paired
    refine ⟨.inl left,?_,?_⟩
    · rw [← sifts.kept a reached]
      by_cases same : a = h
      · subst same
        rw [places.found,before.resolve_left left.2.1]
      · exact places.others a same
    · rw [← siftsToo.kept b reachedToo]
      by_cases same : b = k
      · subst same
        rw [placesToo.found,beforeToo.resolve_left left.2.2]
      · exact placesToo.others b same

theorem Twin.allocate {ok : Handle → Handle → Machine → Machine → Prop} (twin : m.Twin p n)
    (guarded : m.Guarded) (guardedToo : n.Guarded) (plain : ∀ text, o ≠ .string text)
    (alike : o.Twin p o') (reached : ∀ r ∈ o.references, m.Reaches r)
    (reachedToo : ∀ r ∈ o'.references, n.Reaches r) (size size' : Nat)
    (next : ∀ q h k m' n', Grown p q m n m' n' → q h k → m'.heap.get? h = some o →
      n'.heap.get? k = some o' → ok h k m' n') :
    Together (Action.allocate o size) (Action.allocate o' size') m n ok := by
  have plainToo : ∀ text, o' ≠ .string text := by
    rintro text rfl
    cases alike
    exact plain text rfl
  obtain ⟨mid,h,m',run,sifts,vacant,places⟩ := allocate_run twin.heap.tidy plain size
  obtain ⟨mid',k,n',runToo,siftsToo,vacantToo,placesToo⟩ :=
    allocate_run twin.heap.tidyToo plainToo size'
  have grown := twin.grown guarded guardedToo sifts siftsToo (.inl vacant) (.inl vacantToo) places
    placesToo (fun b left => absurd vacant left.2.1) (fun a left => absurd vacantToo left.2.2)
    (alike.imp fun a left b right => twin.left sifts siftsToo (reached a left) (reachedToo b right))
  exact .of_ok run runToo (next _ h k m' n' grown (.inr ⟨rfl,rfl⟩) places.found placesToo.found)

/-- Both strings may be new, or found on one side and new on the other. -/
theorem Twin.allocateString {ok : Handle → Handle → Machine → Machine → Prop} (twin : m.Twin p n)
    (guarded : m.Guarded) (guardedToo : n.Guarded) (text : Bytes)
    (next : ∀ q h k m' n', Grown p q m n m' n' → q h k → ok h k m' n') :
    Together (Action.allocateString text) (Action.allocateString text) m n ok := by
  obtain ⟨mid,h,m',run,sifts,before,places⟩ := allocateString_run twin.heap.tidy text
  obtain ⟨mid',k,n',runToo,siftsToo,beforeToo,placesToo⟩ :=
    allocateString_run twin.heap.tidyToo text
  have sifted := twin.sift guarded guardedToo sifts siftsToo
  -- The partner of an interned string is the interned string with the same bytes.
  have only (b : Handle) (left : p.left mid mid' h b) : b = k := by
    by_contra other
    obtain ⟨x,y,found,foundToo,alike⟩ := sifted.heap.objects h b left
    rw [before.resolve_left (by simp [found])] at found
    cases found
    cases alike
    rw [← placesToo.others b other,← placesToo.tidy.interned] at foundToo
    have same := (placesToo.tidy.interned text k).mpr placesToo.found
    exact other (Option.some_inj.mp (foundToo.symm.trans same))
  have onlyToo (a : Handle) (left : p.left mid mid' a k) : a = h := by
    by_contra other
    obtain ⟨x,y,found,foundToo,alike⟩ := sifted.heap.objects a k left
    rw [beforeToo.resolve_left (by simp [foundToo])] at foundToo
    cases foundToo
    cases alike
    rw [← places.others a other,← places.tidy.interned] at found
    have same := (places.tidy.interned text h).mpr places.found
    exact other (Option.some_inj.mp (found.symm.trans same))
  have grown := twin.grown guarded guardedToo sifts siftsToo before beforeToo places placesToo only
    onlyToo (.string text)
  exact .of_ok run runToo (next _ h k m' n' grown (.inr ⟨rfl,rfl⟩))

end Machine

end ScriptMachine
