import Mathlib
import ScriptMachine.Proofs.RenamedActions
import ScriptMachine.Proofs.Steps

/-! Instructions on twins. Two machines that are alike read the same instruction and execute it with
the same effect, whenever either of them collects. -/
namespace ScriptMachine

open ScriptMachine.Action

/-- Both native actions give what is related, or both refuse with the same failure. -/
def NativeAction.Together {α β : Type} (x : NativeAction α) (y : NativeAction β) (m n : Machine)
    (ok : α → β → Machine → Machine → Prop) : Prop :=
  Action.Together x.run y.run m n fun
    | .ok a, .ok b, m', n' => ok a b m' n'
    | .error e, .error e', m', n' => e = e' ∧ m'.Alike n'
    | _, _, _, _ => False

/-- A native function that cannot tell twins apart: what it does depends neither on where objects
lie nor on how many of them there are, how often there was a collection or what the clock shows. -/
def Host.Blind (host : Host) (native : Native) : Prop :=
  ∀ (p : Pairing) (m n : Machine) (arguments others : List Value), m.Twin p n →
    m.Guarded → n.Guarded → (∀ count, host.arity native = some count → arguments.length = count) →
    List.Forall₂ (Value.Twin p) arguments others → (∀ v ∈ arguments, v ∈ m.stack) →
    (∀ w ∈ others, w ∈ n.stack) →
    NativeAction.Together (host.call native arguments) (host.call native others) m n
      fun v w m' n' => ∃ q, m'.Twin q n' ∧ v.Twin q w

namespace Machine

/-- The next instruction is a call of the native function. -/
def Calls (m : Machine) (native : Native) : Prop :=
  ∃ count h name, m.next? = some (.call count) ∧
    m.stack[m.stack.size - 1 - count]? = some (.object h) ∧
    m.heap.get? h = some (.native name native)

/-- All that is asked of the machines after an instruction. -/
abbrev Aligned (_ _ : Unit) (m n : Machine) : Prop := m.Alike n

namespace Twin

variable {p : Pairing} {m n : Machine} {v w v' w' : Value} {h k : Handle} {host : Host}

/-! Operators. -/

theorem finishBinary (twin : m.Twin p n) (alike : v.Twin p w) :
    Together (Action.finishBinary v) (Action.finishBinary w) m n Aligned :=
  .bind (twin.pop fun twin => twin.replaceTop alike fun _ _ twin => ⟨p,twin⟩)

theorem binaryFault (twin : m.Twin p n) (op : BinaryOp) (left : v.Twin p w)
    (right : v'.Twin p w') :
    Together (Action.binaryFault op v v') (Action.binaryFault op w w') m n Aligned :=
  .bind (twin.typeName left fun _ => .bind (twin.typeName right fun _ => twin.fault rfl))

theorem binaryStrings (twin : m.Twin p n) (guarded : m.Guarded) (guardedToo : n.Guarded)
    (op : BinaryOp) (left : v.Twin p w) (right : v'.Twin p w') :
    Together (Action.binaryStrings op v v') (Action.binaryStrings op w w') m n Aligned := by
  refine .bind (twin.stringOf? left fun a => .bind (twin.stringOf? right fun b => ?_))
  cases a with
  | none => exact twin.binaryFault op left right
  | some a =>
    cases b with
    | none => exact twin.binaryFault op left right
    | some b =>
      refine .ite Iff.rfl (fun _ => ?_) fun _ => ?_
      · exact .bind (twin.allocateString guarded guardedToo (a ++ b) fun q h k m' n' grown new =>
          grown.twin.finishBinary (.object new))
      · cases comparison? op a b with
        | some result => exact twin.finishBinary (.bool result)
        | none => exact twin.binaryFault op left right

theorem twin_arithmetic (op : BinaryOp) (a b : Float) :
    (arithmetic op a b).Twin p (arithmetic op a b) := by
  cases op
  case add | subtract | multiply | divide | remainder => exact .number _
  all_goals exact .bool _

theorem binary (twin : m.Twin p n) (guarded : m.Guarded) (guardedToo : n.Guarded)
    (op : BinaryOp) : Together (Action.binary op) (Action.binary op) m n Aligned := by
  refine .bind (twin.peek 0 fun v' w' _ _ right => .bind (twin.peek 1 fun v w _ _ left => ?_))
  have same := left.equals right twin.heap.unique
  cases op
  case equal =>
    dsimp only
    rw [same]
    exact twin.finishBinary (.bool _)
  case notEqual =>
    dsimp only
    rw [same]
    exact twin.finishBinary (.bool _)
  all_goals
    cases left with
    | number a =>
      cases right with
      | number b => exact twin.finishBinary (twin_arithmetic _ a b)
      | _ => exact twin.binaryStrings guarded guardedToo _ (.number a) (by constructor; try assumption)
    | _ => exact twin.binaryStrings guarded guardedToo _ (by constructor; try assumption) right

theorem unary (twin : m.Twin p n) (op : UnaryOp) :
    Together (Action.unary op) (Action.unary op) m n Aligned := by
  refine .bind (twin.peek 0 fun v w _ _ alike => ?_)
  have refused : Together (do Action.fault (.operand op (← Action.typeName v)))
      (do Action.fault (.operand op (← Action.typeName w))) m n Aligned :=
    .bind (twin.typeName alike fun _ => twin.fault rfl)
  cases alike with
  | number a =>
    cases op with
    | negate => exact twin.replaceTop (.number _) fun _ _ twin => ⟨p,twin⟩
    | not => exact refused
  | bool b =>
    cases op with
    | negate => exact refused
    | not => exact twin.replaceTop (.bool _) fun _ _ twin => ⟨p,twin⟩
  | nil => cases op <;> exact refused
  | object paired => cases op <;> exact refused

/-! Globals. -/

/-- A global is defined on both sides, with partners as values. -/
theorem global? (twin : m.Twin p n) (paired : p h k) :
    Option.Rel (Value.Twin p) m.globals[h]? n.globals[k]? := by
  cases left : m.globals[h]? with
  | some v =>
    obtain ⟨_,w,other,found,alike⟩ := twin.globals.forth h v left
    obtain rfl := twin.heap.unique.2 other paired
    rw [found]
    exact .some alike
  | none =>
    cases right : n.globals[k]? with
    | none => exact .none
    | some w =>
      obtain ⟨_,v,other,found,-⟩ := twin.globals.back k w right
      obtain rfl := twin.heap.unique.1 other paired
      rw [left] at found
      contradiction

theorem insertGlobal (twin : m.Twin p n) (paired : p h k) (alike : v.Twin p w) :
    Machine.Twin p { m with globals := m.globals.insert h v }
      { n with globals := n.globals.insert k w } := by
  refine { twin with globals := ⟨fun a x found => ?_,fun b y found => ?_⟩ }
  · rw [Std.TreeMap.getElem?_insert] at found
    by_cases same : h = a
    · subst same
      rw [if_pos (by simp)] at found
      cases found
      exact ⟨k,w,paired,by simp,alike⟩
    · rw [if_neg (by simpa using same)] at found
      obtain ⟨b,y,other,there,alike⟩ := twin.globals.forth a x found
      refine ⟨b,y,other,?_,alike⟩
      rw [Std.TreeMap.getElem?_insert,if_neg ?_,there]
      simp only [Std.LawfulEqOrd.compare_eq_iff_eq]
      rintro rfl
      exact same (twin.heap.unique.1 paired other)
  · rw [Std.TreeMap.getElem?_insert] at found
    by_cases same : k = b
    · subst same
      rw [if_pos (by simp)] at found
      cases found
      exact ⟨h,v,paired,by simp,alike⟩
    · rw [if_neg (by simpa using same)] at found
      obtain ⟨a,x,other,there,alike⟩ := twin.globals.back b y found
      refine ⟨a,x,other,?_,alike⟩
      rw [Std.TreeMap.getElem?_insert,if_neg ?_,there]
      simp only [Std.LawfulEqOrd.compare_eq_iff_eq]
      rintro rfl
      exact same (twin.heap.unique.2 paired other)

theorem getGlobal (twin : m.Twin p n) (paired : p h k) :
    Together (Action.getGlobal h) (Action.getGlobal k) m n Aligned := by
  refine .bind (.get ?_)
  have both := twin.global? paired
  generalize m.globals[h]? = a at both
  generalize n.globals[k]? = b at both
  cases both with
  | none => exact .bind (twin.nameText paired fun _ => twin.fault rfl)
  | some alike => exact twin.push alike fun twin => ⟨p,twin⟩

theorem setGlobal (twin : m.Twin p n) (paired : p h k) :
    Together (Action.setGlobal h) (Action.setGlobal k) m n Aligned := by
  refine .bind (.get (.ite ?_ (fun _ => ?_) fun _ => ?_))
  · have both := twin.global? paired
    rw [Std.TreeMap.contains_eq_isSome_getElem?,Std.TreeMap.contains_eq_isSome_getElem?]
    generalize m.globals[h]? = a at both
    generalize n.globals[k]? = b at both
    cases both <;> simp
  · exact .bind (twin.peek 0 fun v w _ _ alike => .modify ⟨p,twin.insertGlobal paired alike⟩)
  · exact .bind (twin.nameText paired fun _ => twin.fault rfl)

theorem defineGlobal (twin : m.Twin p n) (index : Nat) :
    Together (Action.execute host (.defineGlobal index)) (Action.execute host (.defineGlobal index))
      m n Aligned :=
  .bind (twin.constant index fun _ _ alike => .bind (twin.nameOf alike fun _ _ _ _ paired =>
    .bind (twin.peek 0 fun _ _ _ _ alike => .bind (.modify
      ((twin.insertGlobal paired alike).pop fun twin => ⟨p,twin⟩)))))

/-! Captured variables. -/

theorem getCapture (twin : m.Twin p n) (index : Nat) :
    Together (Action.getCapture index) (Action.getCapture index) m n Aligned := by
  refine .bind (twin.capturedCell index fun h k paired => .bind (twin.cellState paired ?_ ?_))
  · exact fun slot _ _ => .bind (twin.slot slot fun _ _ alike =>
      twin.push alike fun twin => ⟨p,twin⟩)
  · exact fun v w _ _ alike => twin.push alike fun twin => ⟨p,twin⟩

theorem setCapture (twin : m.Twin p n) (index : Nat) :
    Together (Action.setCapture index) (Action.setCapture index) m n Aligned := by
  refine .bind (twin.capturedCell index fun h k paired => .bind (twin.peek 0 fun v w _ _ alike =>
    .bind (twin.cellState paired ?_ ?_)))
  · exact fun slot _ _ => twin.setSlot alike slot fun _ _ twin => ⟨p,twin⟩
  · exact fun _ _ found foundToo _ => .modify ⟨p,twin.update paired found foundToo (by simp)
      (by simp) fun _ => .closed alike⟩

/-! Records. -/

theorem record? {ok : Option (Handle × Array Value) → Option (Handle × Array Value) → Machine →
    Machine → Prop} (twin : m.Twin p n) (alike : v.Twin p w) (none : ok none none m n)
    (some : ∀ h k a b s t, v = .object h → w = .object k → p h k → p a b →
      Abreast (Value.Twin p) s t → m.heap.get? h = some (.record a s) →
      n.heap.get? k = some (.record b t) → ok (some (a,s)) (some (b,t)) m n) :
    Together (Action.record? v) (Action.record? w) m n ok := by
  refine .bind (twin.objectOf? alike none fun h k o o' same sameToo paired found foundToo twins => ?_)
  cases twins with
  | record shape fields => exact some _ _ _ _ _ _ same sameToo paired shape fields found foundToo
  | _ => exact none

theorem findIdx? (unique : Relator.BiUnique p) {l l' : List Handle} (labels : List.Forall₂ p l l')
    (paired : p h k) : l.findIdx? (· = h) = l'.findIdx? (· = k) := by
  induction labels with
  | nil => rfl
  | @cons a b _ _ first _ ih =>
    have same : a = h ↔ b = k := by
      constructor
      · rintro rfl
        exact unique.2 first paired
      · rintro rfl
        exact unique.1 first paired
    rw [List.findIdx?_cons,List.findIdx?_cons,ih]
    simp only [decide_eq_true_eq,same]

theorem fieldIndex {ok : Nat → Nat → Machine → Machine → Prop} (twin : m.Twin p n) {a b : Handle}
    (struct : p a b) (paired : p h k) (next : ∀ index, ok index index m n) :
    Together (Action.fieldIndex a h) (Action.fieldIndex b k) m n ok := by
  refine .bind (twin.object struct fun o o' _ _ twins => ?_)
  cases twins with
  | struct name labels =>
    dsimp only
    rw [findIdx? twin.heap.unique labels paired]
    split
    · exact next _
    · exact .bind (twin.nameText name fun _ => .bind (twin.nameText paired fun _ => twin.fault rfl))
  | _ => exact twin.stuck

theorem getField (twin : m.Twin p n) (paired : p h k) :
    Together (Action.getField h) (Action.getField k) m n Aligned := by
  refine .bind (twin.peek 0 fun v w _ _ alike => .bind (twin.record? alike ?_ ?_))
  · exact .bind (twin.nameText paired fun _ => .bind (twin.typeName alike fun _ => twin.fault rfl))
  · intro _ _ a b s t _ _ _ struct fields _ _
    exact .bind (twin.fieldIndex struct paired fun index => .bind (twin.need (fields.get? index)
      fun _ _ alike => twin.replaceTop alike fun _ _ twin => ⟨p,twin⟩))

theorem setField (twin : m.Twin p n) (paired : p h k) :
    Together (Action.setField h) (Action.setField k) m n Aligned := by
  refine .bind (twin.peek 0 fun v w _ _ target => .bind (twin.peek 1 fun v' w' _ _ alike =>
    .bind (twin.record? target ?_ ?_)))
  · have refused : Together (do
          Action.fault (.setFieldOf (← Action.nameText h) (← Action.typeName v)))
        (do Action.fault (.setFieldOf (← Action.nameText k) (← Action.typeName w))) m n Aligned :=
      .bind (twin.nameText paired fun _ => .bind (twin.typeName target fun _ => twin.fault rfl))
    cases target <;> exact refused
  · rintro x y a b s t rfl rfl pair struct fields found foundToo
    refine .bind (twin.fieldIndex struct paired fun index => .ite (by rw [fields.size])
      (fun _ => .bind (.modify ?_)) fun _ => .bind twin.stuck)
    refine (twin.update pair found foundToo (by simp) (by simp [setFieldAt]) fun _ => ?_).pop
      fun twin => ⟨p,twin⟩
    exact .record struct (fields.set index alike)

/-! Closures. -/

/-- The open cell of a slot, if there is one, is found at one place in both lists. -/
theorem openCell? (twin : m.Twin p n) (place : Nat) :
    Option.Rel p
      (m.openCells.find? fun h => match m.heap.get? h with
        | some (.cell (.onStack slot)) => slot = place
        | _ => false)
      (n.openCells.find? fun h => match n.heap.get? h with
        | some (.cell (.onStack slot)) => slot = place
        | _ => false) := by
  have cells := twin.openCells
  generalize m.openCells = l at cells
  generalize n.openCells = l' at cells
  induction cells with
  | nil => exact .none
  | @cons h k _ _ paired _ ih =>
    obtain ⟨o,o',found,foundToo,alike⟩ := twin.heap.objects h k paired
    rw [List.find?_cons,List.find?_cons,found,foundToo]
    cases alike with
    | onStack slot =>
      dsimp only
      cases decide (slot = place) with
      | true => exact .some paired
      | false => exact ih
    | _ => exact ih

/-- A cell that is open, or a new one. -/
theorem captureSlot {ok : Handle → Handle → Machine → Machine → Prop} (twin : m.Twin p n)
    (guarded : m.Guarded) (guardedToo : n.Guarded) (place : Nat)
    (next : ∀ q h k m' n', m'.Twin q n' → q h k → m'.stack = m.stack → n'.stack = n.stack →
      m'.frames = m.frames → n'.frames = n.frames →
      (∀ a b, p a b → m.Reaches a → n.Reaches b →
        q a b ∧ m'.heap.get? a = m.heap.get? a ∧ n'.heap.get? b = n.heap.get? b) → ok h k m' n') :
    Together (Action.captureSlot place) (Action.captureSlot place) m n ok := by
  refine .bind (.get ?_)
  have both := twin.openCell? place
  generalize List.find? _ m.openCells = a at both
  generalize List.find? _ n.openCells = b at both
  cases both with
  | some paired =>
    exact next p _ _ m n twin paired rfl rfl rfl rfl fun _ _ paired _ _ => ⟨paired,rfl,rfl⟩
  | none =>
    refine .bind (twin.allocate guarded guardedToo (by simp) (.onStack place)
      (by simp [Object.references]) (by simp [Object.references]) _ _
      fun q h k m' n' grown new _ _ => .bind (.modify ?_))
    refine next q h k _ _ { grown.twin with openCells := .cons new grown.twin.openCells } new
      ?_ ?_ ?_ ?_ grown.kept
    · rw [grown.same]
    · rw [grown.sameToo]
    · rw [grown.same]
    · rw [grown.sameToo]

/-- The closure is kept on the stack while its captures are added. -/
theorem addCaptures (twin : m.Twin p n) (guarded : m.Guarded) (guardedToo : n.Guarded)
    (paired : p h k) (onStack : .object h ∈ m.stack) (onStackToo : .object k ∈ n.stack)
    {f g : Handle} {s t : Array Handle} (found : m.heap.get? h = some (.closure f s))
    (foundToo : n.heap.get? k = some (.closure g t)) (captures : List Capture) :
    Together (Action.addCaptures h captures) (Action.addCaptures k captures) m n Aligned := by
  induction captures generalizing p m n s t with
  | nil => exact ⟨p,twin⟩
  | cons c rest ih =>
    have added {q : Pairing} {m' n' : Machine} {x y : Handle} (twin : m'.Twin q n') (new : q x y)
        (stack : m'.stack = m.stack) (stackToo : n'.stack = n.stack)
        (frames : m'.frames = m.frames) (framesToo : n'.frames = n.frames) (paired : q h k)
        (found : m'.heap.get? h = some (.closure f s))
        (foundToo : n'.heap.get? k = some (.closure g t)) :
        Together (do Action.updateObject h (addCapture x); Action.addCaptures h rest)
          (do Action.updateObject k (addCapture y); Action.addCaptures k rest) m' n' Aligned := by
      refine .bind (.modify (ih (twin.update paired found foundToo (by simp) (by simp [addCapture])
        ?_) ?_ ?_ paired ?_ ?_ (s := s.push x) (t := t.push y) ?_ ?_))
      · intro alike
        cases alike with
        | closure code captures => exact .closure code (captures.push new)
      · intro f active
        exact stack ▸ guarded f (frames ▸ active)
      · intro f active
        exact stackToo ▸ guardedToo f (framesToo ▸ active)
      · exact stack ▸ onStack
      · exact stackToo ▸ onStackToo
      · simp [Heap.get?_update,found,addCapture]
      · simp [Heap.get?_update,foundToo,addCapture]
    refine .bind (.ite Iff.rfl (fun _ => ?_) fun _ => ?_)
    · refine .bind (twin.frame fun a b alike => ?_)
      rw [alike.base]
      refine twin.captureSlot guarded guardedToo _ fun q x y m' n' twin new stack stackToo frames
        framesToo kept => ?_
      obtain ⟨still,same,sameToo⟩ :=
        kept h k paired (reaches_stack onStack) (reaches_stack onStackToo)
      exact added twin new stack stackToo frames framesToo still (same.trans found)
        (sameToo.trans foundToo)
    · exact twin.capturedCell _ fun x y new =>
        added twin new rfl rfl rfl rfl paired found foundToo

theorem makeClosure (twin : m.Twin p n) (guarded : m.Guarded) (guardedToo : n.Guarded)
    (paired : p h k) (reached : m.Reaches h) (reachedToo : n.Reaches k) (captures : List Capture) :
    Together (Action.makeClosure h captures) (Action.makeClosure k captures) m n Aligned := by
  refine .bind (.bind (twin.object paired fun o o' _ _ alike => ?_))
  cases alike with
  | function chunk constants =>
    refine twin.allocate guarded guardedToo (by simp) (.closure paired .empty)
      (by simpa [Object.references] using reached) (by simpa [Object.references] using reachedToo)
      _ _ fun q a b m' n' grown new found foundToo => ?_
    refine .bind (.get (.ite (by rw [grown.twin.stack.size]) (fun _ => ?_) fun _ => ?_))
    · exact .bind (grown.twin.moveFrame (· - _) fun _ _ twin => .bind (twin.fault rfl))
    · refine .bind (grown.twin.push (.object new) fun twin => ?_)
      refine twin.addCaptures ?_ ?_ new (by simp) (by simp) found foundToo captures
      · exact fun f active => Array.mem_push_of_mem _ (guarded.of_same grown.same f active)
      · exact fun f active => Array.mem_push_of_mem _ (guardedToo.of_same grown.sameToo f active)
  | _ => exact twin.stuck

/-! Cells. -/

theorem closeFrom {ok : List Handle → List Handle → Machine → Machine → Prop} (twin : m.Twin p n)
    (place : Nat) {l l' : List Handle} (cells : List.Forall₂ p l l')
    (next : ∀ r r' m' n', m'.Twin p n' → List.Forall₂ p r r' → ok r r' m' n') :
    Together (Action.closeFrom place l) (Action.closeFrom place l') m n ok := by
  induction cells generalizing m n ok with
  | nil => exact next [] [] m n twin .nil
  | @cons h k rest rest' paired _ ih =>
    refine .bind (twin.cellState paired (fun slot found foundToo => .ite Iff.rfl (fun _ => ?_)
      fun _ => ?_) fun _ _ _ _ _ => twin.stuck)
    · exact .bind (ih twin fun r r' m' n' twin kept => next _ _ m' n' twin (.cons paired kept))
    · exact .bind (twin.slot slot fun v w alike => .bind (.modify (ih (twin.update paired found
        foundToo (by simp) (by simp) fun _ => .closed alike) next)))

theorem closeCells {ok : Unit → Unit → Machine → Machine → Prop} (twin : m.Twin p n) (place : Nat)
    (next : ∀ m' n', m'.Twin p n' → ok () () m' n') :
    Together (Action.closeCells place) (Action.closeCells place) m n ok :=
  .bind (.get (.bind (twin.closeFrom place twin.openCells fun _ _ _ _ twin kept =>
    .modify (next _ _ { twin with openCells := kept }))))

/-! Calls. -/

theorem callClosure (twin : m.Twin p n) (paired : p h k) (arguments : Nat) :
    Together (Action.callClosure h arguments) (Action.callClosure k arguments) m n Aligned := by
  refine .bind (.get (.bind (twin.need (twin.functionOf? paired) ?_)))
  rintro ⟨chunk,s⟩ ⟨_,t⟩ ⟨rfl,-⟩
  have frames := twin.frames.length_eq
  refine .ite Iff.rfl (fun _ => .bind (twin.fault rfl)) fun _ => .ite (by rw [frames])
    (fun _ => .bind (twin.fault rfl)) fun _ => .ite (by rw [twin.stack.size])
    (fun _ => .modify ⟨p,{ twin with frames := .cons ⟨paired,rfl,?_⟩ twin.frames }⟩)
    fun _ => .bind twin.stuck
  rw [twin.stack.size]

theorem callNative (twin : m.Twin p n) (guarded : m.Guarded) (guardedToo : n.Guarded)
    (name : Bytes) {native : Native} (blind : host.Blind native) (arguments : Nat) :
    Together (Action.callNative host name native arguments)
      (Action.callNative host name native arguments) m n Aligned := by
  have goesOn (fits : ∀ count, host.arity native = some count → arguments = count) :
      Together (applyNative host name native arguments) (applyNative host name native arguments)
        m n Aligned := by
    refine .bind (.get ?_)
    dsimp only
    refine .ite (by rw [twin.stack.size]) (fun enough => ?_) fun _ => .bind twin.stuck
    have values := (twin.stack.extract (m.stack.size - arguments) m.stack.size).toList
    rw [← twin.stack.size]
    refine .bind ((blind p m n _ _ twin guarded guardedToo (fun count arity => ?_) values ?_
      ?_).mono ?_)
    · rw [← fits count arity]
      simp only [Array.length_toList,Array.size_extract]
      omega
    · exact fun v member => mem_of_mem_extract (Array.mem_toList_iff.mp member)
    · exact fun v member => mem_of_mem_extract (Array.mem_toList_iff.mp member)
    · rintro (e | v) (e' | w) m' n' same
      · obtain ⟨rfl,q,twin⟩ := same
        exact twin.fault rfl
      · exact same.elim
      · exact same.elim
      · obtain ⟨q,twin,alike⟩ := same
        refine .bind (.get ?_)
        rw [twin.stack.size]
        exact .bind (twin.shrinkTo _ fun _ _ twin => twin.push alike fun twin => ⟨q,twin⟩)
  rw [Action.callNative]
  cases arity : host.arity native with
  | none => exact goesOn (by simp [arity])
  | some expected =>
    refine .ite Iff.rfl (fun _ => .bind (twin.fault rfl)) fun same => goesOn ?_
    rintro count known
    rw [arity] at known
    cases known
    exact not_not.mp same

theorem construct (twin : m.Twin p n) (guarded : m.Guarded) (guardedToo : n.Guarded) {x y : Handle}
    {l l' : List Handle} (paired : p h k) (reached : m.Reaches h) (reachedToo : n.Reaches k)
    (name : p x y) (labels : List.Forall₂ p l l') (arguments : Nat) :
    Together (Action.construct h x l arguments) (Action.construct k y l' arguments) m n
      Aligned := by
  have count := labels.length_eq
  rw [Action.construct,Action.construct,count]
  refine .ite Iff.rfl (fun _ => .bind (twin.nameText name fun _ => .bind (twin.fault rfl)))
    fun _ => .bind (.bind (twin.object paired fun o o' _ _ alike => ?_))
  cases alike with
  | struct title fields =>
    dsimp only
    rw [fields.length_eq]
    refine twin.allocate guarded guardedToo (by simp) (.record paired (.replicate .nil _)) ?_ ?_ _ _
      fun q a b m' n' grown new found foundToo => ?_
    · simpa [Object.references,Value.handle?] using reached
    · simpa [Object.references,Value.handle?] using reachedToo
    obtain ⟨still,-⟩ := grown.kept h k paired reached reachedToo
    have values := grown.twin.stack.extract (n'.stack.size - arguments) n'.stack.size
    refine .bind (.get ?_)
    rw [grown.twin.stack.size]
    exact .ite Iff.rfl (fun _ => .bind (.modify (.bind ((grown.twin.update new found foundToo
      (by simp) (by simp) fun _ => .record still values).shrinkTo _ fun _ _ twin =>
        twin.push (.object new) fun twin => ⟨q,twin⟩)))) fun _ => .bind grown.twin.stuck
  | _ => exact twin.stuck

theorem call (twin : m.Twin p n) (guarded : m.Guarded) (guardedToo : n.Guarded) (arguments : Nat)
    (blind : ∀ h name native, m.stack[m.stack.size - 1 - arguments]? = some (.object h) →
      m.heap.get? h = some (.native name native) → host.Blind native) :
    Together (Action.call host arguments) (Action.call host arguments) m n Aligned := by
  refine .bind (twin.peek arguments fun v w here there alike => .bind (twin.objectOf? alike ?_ ?_))
  · have refused : Together (do Action.fault (.notCallable (← Action.typeName v)))
        (do Action.fault (.notCallable (← Action.typeName w))) m n Aligned :=
      .bind (twin.typeName alike fun _ => twin.fault rfl)
    cases alike <;> exact refused
  · rintro h k o o' rfl rfl paired found foundToo twins
    cases twins with
    | closure code captures => exact twin.callClosure paired arguments
    | native name native =>
      exact twin.callNative guarded guardedToo name (blind h name native here found) arguments
    | struct name labels =>
      exact twin.construct guarded guardedToo paired (reaches_stack (Array.mem_of_getElem? here))
        (reaches_stack (Array.mem_of_getElem? there)) name labels arguments
    | _ => exact .bind (twin.typeName alike fun _ => twin.fault rfl)

theorem finish {α : Type} {ok : α → α → Machine → Machine → Prop} (twin : m.Twin p n) :
    Together (throw .finished : Action α) (throw .finished) m n ok :=
  ⟨rfl,p,twin⟩

theorem ret (twin : m.Twin p n) : Together Action.ret Action.ret m n Aligned := by
  refine .bind (twin.peek 0 fun v w _ _ alike => .bind (twin.frame fun f g frames => ?_))
  rw [frames.base]
  refine .bind (twin.closeCells _ fun m' n' twin => .bind (.modify ?_))
  have tails : List.Forall₂ (Frame.Twin p) m'.frames.tail n'.frames.tail := by
    have frames := twin.frames
    generalize m'.frames = fs at frames
    generalize n'.frames = gs at frames
    cases frames with
    | nil => exact .nil
    | cons _ rest => exact rest
  have shorter : Machine.Twin p { m' with frames := m'.frames.tail }
    { n' with frames := n'.frames.tail } := { twin with frames := tails }
  refine .ite Iff.rfl (fun _ => .bind shorter.stuck) fun _ => .bind (shorter.shrinkTo _
    fun _ _ twin => .bind (.get (.ite ?_ (fun _ => .bind (.modify ?_)) fun _ => ?_)))
  · rw [List.isEmpty_iff_length_eq_zero,List.isEmpty_iff_length_eq_zero,twin.frames.length_eq]
  · exact .bind (finish { twin with result := alike })
  · exact twin.push alike fun twin => ⟨p,twin⟩

/-! Steps. -/

theorem jumpIf (twin : m.Twin p n) (condition : Bool) (distance : Nat) :
    Together (Action.jumpIf condition distance) (Action.jumpIf condition distance) m n Aligned := by
  refine .bind (twin.peek 0 fun v w _ _ alike => ?_)
  have refused : Together (do Action.fault (.condition (← Action.typeName v)))
      (do Action.fault (.condition (← Action.typeName w))) m n Aligned :=
    .bind (twin.typeName alike fun _ => twin.fault rfl)
  cases alike with
  | bool b =>
    exact .bind (twin.pop fun twin => .ite Iff.rfl
      (fun _ => twin.moveFrame (· + distance) fun _ _ twin => ⟨p,twin⟩) fun _ => ⟨p,twin⟩)
  | _ => exact refused

/-- The constants of the running function are reached, as its closure is. -/
theorem reaches_constant (guarded : m.Guarded) {index : Nat} {m' : Machine}
    (known : Action.constant index m = .ok (.object h) m') : m.Reaches h := by
  have ensures : Ensures (Action.constant index) m
      (fun v _ => ∀ h, v = .object h → m.Reaches h) fun _ _ => True := by
    rw [Action.constant,ensures_bind,Action.runningFunction,ensures_bind,ensures_get]
    cases frames : m.frames with
    | nil => trivial
    | cons f fs =>
      refine ensures_need.mpr ⟨?_,fun _ => trivial⟩
      rintro ⟨chunk,constants⟩ code
      refine ensures_need.mpr ⟨?_,fun _ => trivial⟩
      rintro v found h rfl
      obtain ⟨function,captures,here,there⟩ := functionOf?_some.mp code
      have closure : m.Reaches f.closure :=
        reaches_stack (guarded f (by rw [frames]; exact List.mem_cons_self))
      have part : h ∈ Object.references (.function chunk constants) :=
        Object.mem_handles.mpr (Array.mem_of_getElem? found)
      exact (closure.next here List.mem_cons_self).next there part
  exact ensures.apply known h rfl

theorem constantReached {ok : Value → Value → Machine → Machine → Prop} (twin : m.Twin p n)
    (guarded : m.Guarded) (guardedToo : n.Guarded) (index : Nat)
    (next : ∀ v w, v.Twin p w → (∀ h, v = .object h → m.Reaches h) →
      (∀ k, w = .object k → n.Reaches k) → ok v w m n) :
    Together (Action.constant index) (Action.constant index) m n ok := by
  have both : Together (Action.constant index) (Action.constant index) m n
      fun v w m' n' => v.Twin p w ∧ m' = m ∧ n' = n :=
    twin.constant index fun v w alike => ⟨alike,rfl,rfl⟩
  refine both.runs.mono ?_
  rintro v w m' n' ⟨⟨alike,rfl,rfl⟩,left,right⟩
  refine next v w alike ?_ ?_
  · rintro h rfl
    exact reaches_constant guarded left
  · rintro k rfl
    exact reaches_constant guardedToo right

theorem name {γ δ : Type} {ok : γ → δ → Machine → Machine → Prop} {f : Handle → Action γ}
    {g : Handle → Action δ} (twin : m.Twin p n) (guarded : m.Guarded) (guardedToo : n.Guarded)
    (index : Nat) (next : ∀ h k, p h k → m.Reaches h → n.Reaches k → Together (f h) (g k) m n ok) :
    Together (do f (← Action.nameOf (← Action.constant index)))
      (do g (← Action.nameOf (← Action.constant index))) m n ok :=
  .bind (twin.constantReached guarded guardedToo index fun _ _ alike reached reachedToo =>
    .bind (twin.nameOf alike fun h k same sameToo paired =>
      next h k paired (reached h same) (reachedToo k sameToo)))

theorem namesOf {ok : List Handle → List Handle → Machine → Machine → Prop} (twin : m.Twin p n)
    (guarded : m.Guarded) (guardedToo : n.Guarded) (indices : List Nat)
    (next : ∀ l l', List.Forall₂ p l l' → (∀ h ∈ l, m.Reaches h) → (∀ k ∈ l', n.Reaches k) →
      ok l l' m n) : Together (Action.namesOf indices) (Action.namesOf indices) m n ok := by
  induction indices generalizing ok with
  | nil => exact next [] [] .nil (by simp) (by simp)
  | cons first rest ih =>
    exact twin.name guarded guardedToo first fun h k paired reached reachedToo =>
      .bind (ih fun l l' names all allToo => next _ _ (.cons paired names)
        (List.forall_mem_cons.mpr ⟨reached,all⟩) (List.forall_mem_cons.mpr ⟨reachedToo,allToo⟩))

/-- Twins execute the same instruction alike. -/
theorem execute (twin : m.Twin p n) (guarded : m.Guarded) (guardedToo : n.Guarded) (i : Instr)
    (blind : ∀ count, i = .call count → ∀ h name native,
      m.stack[m.stack.size - 1 - count]? = some (.object h) →
      m.heap.get? h = some (.native name native) → host.Blind native) :
    Together (Action.execute host i) (Action.execute host i) m n Aligned := by
  have done {m n : Machine} (twin : m.Twin p n) : Aligned () () m n := ⟨p,twin⟩
  cases i with
  | binary op => exact twin.binary guarded guardedToo op
  | unary op => exact twin.unary op
  | loadConstant index =>
    exact .bind (twin.constant index fun _ _ alike => twin.push alike done)
  | getLocal slot =>
    refine .bind (twin.frame fun f g alike => ?_)
    rw [alike.base]
    exact .bind (twin.slot _ fun _ _ alike => twin.push alike done)
  | setLocal slot =>
    refine .bind (twin.frame fun f g alike => ?_)
    rw [alike.base]
    exact .bind (twin.peek 0 fun _ _ _ _ alike => twin.setSlot alike _ fun _ _ => done)
  | defineGlobal index => exact twin.defineGlobal index
  | getGlobal index =>
    exact twin.name guarded guardedToo index fun _ _ paired _ _ => twin.getGlobal paired
  | setGlobal index =>
    exact twin.name guarded guardedToo index fun _ _ paired _ _ => twin.setGlobal paired
  | getCapture index => exact twin.getCapture index
  | setCapture index => exact twin.setCapture index
  | getField index =>
    exact twin.name guarded guardedToo index fun _ _ paired _ _ => twin.getField paired
  | setField index =>
    exact twin.name guarded guardedToo index fun _ _ paired _ _ => twin.setField paired
  | loadNil => exact twin.push .nil done
  | loadBool b => exact twin.push (.bool b) done
  | closure index captures =>
    refine .bind (twin.constantReached guarded guardedToo index
      fun v w alike reached reachedToo => ?_)
    cases alike with
    | object paired =>
      exact twin.makeClosure guarded guardedToo paired (reached _ rfl) (reachedToo _ rfl) captures
    | _ => exact twin.stuck
  | createStruct index fields =>
    refine twin.name guarded guardedToo index fun h k paired reached reachedToo =>
      .bind (twin.namesOf guarded guardedToo fields fun l l' names all allToo =>
        .bind (twin.allocate guarded guardedToo (by simp) (.struct paired names)
          (List.forall_mem_cons.mpr ⟨reached,all⟩) (List.forall_mem_cons.mpr ⟨reachedToo,allToo⟩)
          _ _ fun q a b m' n' grown new _ _ => ?_))
    exact grown.twin.push (.object new) fun twin => ⟨q,twin⟩
  | jump distance => exact twin.moveFrame (· + distance) fun _ _ => done
  | jumpIf condition distance => exact twin.jumpIf condition distance
  | jumpBack distance =>
    refine .bind (twin.frame fun f g alike => .ite (by rw [alike.ip]) (fun _ => ?_)
      fun _ => .bind twin.stuck)
    exact twin.moveFrame (· - distance) fun _ _ => done
  | call count => exact twin.call guarded guardedToo count (blind count rfl)
  | ret => exact twin.ret
  | closeCell =>
    refine .bind (.get ?_)
    dsimp only
    rw [twin.stack.size]
    exact .ite Iff.rfl (fun _ => .bind twin.stuck) fun _ =>
      .bind (twin.closeCells _ fun _ _ twin => twin.pop done)
  | pop => exact twin.pop done
  | duplicate => exact .bind (twin.peek 0 fun _ _ _ _ alike => twin.push alike done)
  | print =>
    exact .bind (twin.peek 0 fun _ _ _ _ alike => .bind (twin.text alike fun _ =>
      .bind (twin.write _ fun _ _ twin => twin.pop done)))

theorem fetch {ok : Instr → Instr → Machine → Machine → Prop} (twin : m.Twin p n)
    (next : ∀ i m' n', m'.Twin p n' → ok i i m' n') :
    Together Action.fetch Action.fetch m n ok := by
  refine .bind (twin.runningFunction fun chunk s t _ => .bind (twin.frame fun f g alike => ?_))
  rw [alike.ip]
  refine .bind (twin.need (R := Eq) ?_ ?_)
  · cases chunk.instr? g.ip with
    | none => exact .none
    | some i => exact .some rfl
  · rintro i _ rfl
    exact .bind (twin.moveFrame (· + i.size) fun m' n' twin => next i m' n' twin)

end Twin

end Machine

end ScriptMachine
