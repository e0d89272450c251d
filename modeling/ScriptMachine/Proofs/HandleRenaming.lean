import Mathlib
import ScriptMachine.Proofs.Actions

/-! Machines that differ only in the places of their objects. A pairing tells which handle of one
machine stands for which of the other; whatever a machine holds has a partner, and partners hold
partners. A collection on either side keeps what that machine reaches, so what is left of the
pairing still covers everything, and an allocation on both sides adds a pair. -/
namespace ScriptMachine

/-- Which handle of one machine stands for which handle of another. -/
abbrev Pairing := Handle → Handle → Prop

/-- Two arrays of one size, related place by place. -/
structure Abreast {α β : Type} (R : α → β → Prop) (s : Array α) (t : Array β) : Prop where
  size : s.size = t.size
  each : ∀ (i : Nat) v w, s[i]? = some v → t[i]? = some w → R v w

namespace Abreast

variable {α β : Type} {R R' : α → β → Prop} {s : Array α} {t : Array β} {v : α} {w : β}

theorem empty : Abreast R #[] #[] := ⟨rfl,by simp⟩

theorem imp (abreast : Abreast R s t) (more : ∀ v ∈ s, ∀ w ∈ t, R v w → R' v w) :
    Abreast R' s t :=
  ⟨abreast.size,fun i v w left right => more v (Array.mem_of_getElem? left) w
    (Array.mem_of_getElem? right) (abreast.each i v w left right)⟩

theorem push (abreast : Abreast R s t) (related : R v w) : Abreast R (s.push v) (t.push w) := by
  refine ⟨by simp [abreast.size],fun i a b left right => ?_⟩
  rw [Array.getElem?_push] at left right
  by_cases last : i = s.size
  · rw [if_pos last] at left
    rw [if_pos (last.trans abreast.size)] at right
    cases left
    cases right
    exact related
  · rw [if_neg last] at left
    rw [if_neg (abreast.size ▸ last)] at right
    exact abreast.each i a b left right

theorem pop (abreast : Abreast R s t) : Abreast R s.pop t.pop := by
  refine ⟨by simp [abreast.size],fun i a b left right => ?_⟩
  rw [Array.getElem?_pop] at left right
  split at left
  next inside =>
    rw [if_pos (abreast.size ▸ inside)] at right
    exact abreast.each i a b left right
  next => contradiction

theorem shrink {s t : Array Value} {R : Value → Value → Prop} (abreast : Abreast R s t)
    (size : Nat) : Abreast R (s.shrink size) (t.shrink size) := by
  refine ⟨by simp [abreast.size],fun i a b left right => ?_⟩
  rw [Action.getElem?_shrink] at left right
  split at left
  next low =>
    rw [if_pos low] at right
    exact abreast.each i a b left right
  next => contradiction

theorem set (abreast : Abreast R s t) (place : Nat) (related : R v w) :
    Abreast R (s.setIfInBounds place v) (t.setIfInBounds place w) := by
  refine ⟨by simp [abreast.size],fun i a b left right => ?_⟩
  rw [Array.getElem?_setIfInBounds] at left right
  by_cases here : place = i
  · simp only [here,↓reduceIte] at left right
    split at left
    · split at right
      · cases left
        cases right
        exact related
      · contradiction
    · contradiction
  · rw [if_neg here] at left right
    exact abreast.each i a b left right

theorem extract (abreast : Abreast R s t) (start stop : Nat) :
    Abreast R (s.extract start stop) (t.extract start stop) := by
  refine ⟨by simp [abreast.size],fun i a b left right => ?_⟩
  rw [Array.getElem?_extract] at left right
  split at left
  · split at right
    · exact abreast.each _ a b left right
    · contradiction
  · contradiction

theorem replicate (related : R v w) (count : Nat) :
    Abreast R (Array.replicate count v) (Array.replicate count w) := by
  refine ⟨by simp,fun i a b left right => ?_⟩
  rw [Array.getElem?_replicate] at left right
  split at left
  next inside =>
    rw [if_pos inside] at right
    cases left
    cases right
    exact related
  next => contradiction

/-- Partners are found at one place, or on neither side. -/
theorem get? (abreast : Abreast R s t) (i : Nat) : Option.Rel R s[i]? t[i]? := by
  by_cases inside : i < s.size
  · have insideToo : i < t.size := abreast.size ▸ inside
    rw [Array.getElem?_eq_getElem inside,Array.getElem?_eq_getElem insideToo]
    exact .some (abreast.each i _ _ (Array.getElem?_eq_getElem inside)
      (Array.getElem?_eq_getElem insideToo))
  · rw [Array.getElem?_eq_none (Nat.le_of_not_lt inside),
      Array.getElem?_eq_none (abreast.size ▸ Nat.le_of_not_lt inside)]
    exact .none

theorem toList (abreast : Abreast R s t) : List.Forall₂ R s.toList t.toList := by
  refine List.forall₂_iff_get.mpr ⟨by simp [abreast.size],fun i left right => ?_⟩
  exact abreast.each i _ _ (by simp) (by simp)

end Abreast

/-- Related lists stay so under a relation that holds for their elements. -/
theorem forall₂_imp {α β : Type} {R R' : α → β → Prop} {l : List α} {l' : List β}
    (related : List.Forall₂ R l l') (more : ∀ a ∈ l, ∀ b ∈ l', R a b → R' a b) :
    List.Forall₂ R' l l' := by
  induction related with
  | nil => exact .nil
  | cons first _ ih =>
    refine .cons (more _ List.mem_cons_self _ List.mem_cons_self first) (ih ?_)
    exact fun a left b right => more a (List.mem_cons_of_mem _ left) b (List.mem_cons_of_mem _ right)

/-! Values, objects and tables. -/

/-- The same value, up to the handles of objects. -/
inductive Value.Twin (p : Pairing) : Value → Value → Prop
  | number (n : Float) : Twin p (.number n) (.number n)
  | bool (b : Bool) : Twin p (.bool b) (.bool b)
  | nil : Twin p .nil .nil
  | object {h k : Handle} (paired : p h k) : Twin p (.object h) (.object k)

/-- The same object, up to the handles in it. -/
inductive Object.Twin (p : Pairing) : Object → Object → Prop
  | string (text : Bytes) : Twin p (.string text) (.string text)
  | function (chunk : Chunk) {s t : Array Value} (constants : Abreast (Value.Twin p) s t) :
      Twin p (.function chunk s) (.function chunk t)
  | closure {f g : Handle} {s t : Array Handle} (code : p f g) (captures : Abreast p s t) :
      Twin p (.closure f s) (.closure g t)
  | onStack (slot : Nat) : Twin p (.cell (.onStack slot)) (.cell (.onStack slot))
  | closed {v w : Value} (value : v.Twin p w) : Twin p (.cell (.closed v)) (.cell (.closed w))
  | native (name : Bytes) (function : Native) :
      Twin p (.native name function) (.native name function)
  | struct {h k : Handle} {l l' : List Handle} (name : p h k) (fields : List.Forall₂ p l l') :
      Twin p (.struct h l) (.struct k l')
  | record {h k : Handle} {s t : Array Value} (shape : p h k)
      (fields : Abreast (Value.Twin p) s t) : Twin p (.record h s) (.record k t)

structure Frame.Twin (p : Pairing) (f g : Frame) : Prop where
  closure : p f.closure g.closure
  ip : f.ip = g.ip
  base : f.base = g.base

/-- The tables have partners as names, with partners as values. -/
structure Globals.Twin (p : Pairing) (g g' : Globals) : Prop where
  forth : ∀ h v, g[h]? = some v → ∃ k w, p h k ∧ g'[k]? = some w ∧ v.Twin p w
  back : ∀ k w, g'[k]? = some w → ∃ h v, p h k ∧ g[h]? = some v ∧ v.Twin p w

/-- Every handle has at most one partner, and partners stand for partners. -/
structure Heap.Twin (p : Pairing) (heap heap' : Heap) : Prop where
  unique : Relator.BiUnique p
  tidy : heap.Tidy
  tidyToo : heap'.Tidy
  objects : ∀ h k, p h k → ∃ o o', heap.get? h = some o ∧ heap'.get? k = some o' ∧ o.Twin p o'

/-- The machines are alike but for the places of objects, for what their policies and their pasts
make of the heaps, and for the clock. -/
structure Machine.Twin (p : Pairing) (m n : Machine) : Prop where
  heap : m.heap.Twin p n.heap
  stack : Abreast (Value.Twin p) m.stack n.stack
  frames : List.Forall₂ (Frame.Twin p) m.frames n.frames
  openCells : List.Forall₂ p m.openCells n.openCells
  loading : List.Forall₂ p m.loading n.loading
  pinned : List.Forall₂ (Value.Twin p) m.pinned n.pinned
  result : m.result.Twin p n.result
  status : m.status = n.status
  globals : m.globals.Twin p n.globals
  shelved : List.Forall₂ (Globals.Twin p) m.shelved n.shelved
  output : m.output = n.output
  counter : m.counter = n.counter

variable {p q : Pairing}

theorem Value.Twin.imp {v w : Value} (twin : v.Twin p w)
    (more : ∀ h, v = .object h → ∀ k, w = .object k → p h k → q h k) : v.Twin q w := by
  cases twin with
  | number n => exact .number n
  | bool b => exact .bool b
  | nil => exact .nil
  | object paired => exact .object (more _ rfl _ rfl paired)

/-- Two objects are the same if and only if their partners are. -/
theorem Value.Twin.equals {v w v' w' : Value} (twin : v.Twin p w) (other : v'.Twin p w')
    (unique : Relator.BiUnique p) : v.equals v' = w.equals w' := by
  cases twin <;> cases other <;> try rfl
  next paired _ _ pairedToo =>
    refine decide_eq_decide.mpr ⟨?_,?_⟩
    · rintro rfl
      exact unique.2 paired pairedToo
    · rintro rfl
      exact unique.1 paired pairedToo

theorem abreast_imp {s t : Array Value} (abreast : Abreast (Value.Twin p) s t)
    (more : ∀ h, .object h ∈ s → ∀ k, .object k ∈ t → p h k → q h k) :
    Abreast (Value.Twin q) s t :=
  abreast.imp fun _ left _ right twin => twin.imp fun h same k sameToo =>
    more h (same ▸ left) k (sameToo ▸ right)

theorem Object.Twin.imp {o o' : Object} (twin : o.Twin p o')
    (more : ∀ h ∈ o.references, ∀ k ∈ o'.references, p h k → q h k) : o.Twin q o' := by
  cases twin with
  | string text => exact .string text
  | native name function => exact .native name function
  | onStack slot => exact .onStack slot
  | function chunk constants =>
    exact .function chunk (abreast_imp constants fun h left k right =>
      more h (mem_handles.mpr left) k (mem_handles.mpr right))
  | closure code captures =>
    refine .closure (more _ List.mem_cons_self _ List.mem_cons_self code)
      (captures.imp fun h left k right => ?_)
    exact more h (List.mem_cons_of_mem _ (by simpa using left)) k
      (List.mem_cons_of_mem _ (by simpa using right))
  | closed value =>
    refine .closed (value.imp fun h same k sameToo => ?_)
    subst same sameToo
    exact more h (by simp [references,Value.handle?]) k (by simp [references,Value.handle?])
  | struct name fields =>
    refine .struct (more _ List.mem_cons_self _ List.mem_cons_self name)
      (forall₂_imp fields fun h left k right => ?_)
    exact more h (List.mem_cons_of_mem _ left) k (List.mem_cons_of_mem _ right)
  | record shape fields =>
    refine .record (more _ List.mem_cons_self _ List.mem_cons_self shape)
      (abreast_imp fields fun h left k right => ?_)
    exact more h (List.mem_cons_of_mem _ (mem_handles.mpr left)) k
      (List.mem_cons_of_mem _ (mem_handles.mpr right))

theorem Globals.Twin.imp {g g' : Globals} (twin : g.Twin p g')
    (more : ∀ h ∈ g.handles, ∀ k ∈ g'.handles, p h k → q h k) : g.Twin q g' := by
  have pair {h k : Handle} {v w : Value} (left : g[h]? = some v) (right : g'[k]? = some w)
      (paired : p h k) (value : v.Twin p w) : q h k ∧ v.Twin q w := by
    obtain ⟨name,values⟩ := Globals.mem_handles left
    obtain ⟨nameToo,valuesToo⟩ := Globals.mem_handles right
    exact ⟨more h name k nameToo paired,value.imp fun a same b sameToo =>
      more a (values a same) b (valuesToo b sameToo)⟩
  constructor
  · intro h v found
    obtain ⟨k,w,paired,foundToo,value⟩ := twin.forth h v found
    obtain ⟨paired,value⟩ := pair found foundToo paired value
    exact ⟨k,w,paired,foundToo,value⟩
  · intro k w found
    obtain ⟨h,v,paired,foundToo,value⟩ := twin.back k w found
    obtain ⟨paired,value⟩ := pair foundToo found paired value
    exact ⟨h,v,paired,foundToo,value⟩

namespace Heap.Twin

variable {heap heap' : Heap} {h k : Handle}

theorem stringText (twin : heap.Twin p heap') (paired : p h k) :
    heap.stringText h = heap'.stringText k := by
  obtain ⟨o,o',found,foundToo,alike⟩ := twin.objects h k paired
  simp only [Heap.stringText,found,foundToo]
  cases alike <;> rfl

theorem functionName (twin : heap.Twin p heap') (paired : p h k) :
    heap.functionName h = heap'.functionName k := by
  obtain ⟨o,o',found,foundToo,alike⟩ := twin.objects h k paired
  simp only [Heap.functionName,found,foundToo]
  cases alike <;> rfl

theorem structName (twin : heap.Twin p heap') (paired : p h k) :
    heap.structName h = heap'.structName k := by
  obtain ⟨o,o',found,foundToo,alike⟩ := twin.objects h k paired
  simp only [Heap.structName,found,foundToo]
  cases alike with
  | struct name fields => exact twin.stringText name
  | _ => rfl

theorem typeName (twin : heap.Twin p heap') {v w : Value} (alike : v.Twin p w) :
    heap.typeName v = heap'.typeName w := by
  cases alike with
  | object paired =>
    obtain ⟨o,o',found,foundToo,alike⟩ := twin.objects _ _ paired
    simp only [Heap.typeName,found,foundToo]
    cases alike <;> rfl
  | _ => rfl

theorem text (twin : heap.Twin p heap') {v w : Value} (alike : v.Twin p w) :
    heap.text v = heap'.text w := by
  cases alike with
  | object paired =>
    obtain ⟨o,o',found,foundToo,alike⟩ := twin.objects _ _ paired
    simp only [Heap.text,found,foundToo,Option.map_some,Option.getD_some]
    cases alike with
    | closure code captures => simp only [objectText,twin.functionName code]
    | struct name fields => simp only [objectText,twin.stringText name]
    | record shape fields => simp only [objectText,twin.structName shape]
    | _ => rfl
  | _ => rfl

end Heap.Twin

namespace Machine

variable {m n m' n' : Machine} {h k : Handle}

theorem Twin.functionOf? (twin : m.Twin p n) (paired : p h k) :
    Option.Rel (fun x y => x.1 = y.1 ∧ Abreast (Value.Twin p) x.2 y.2) (m.functionOf? h)
      (n.functionOf? k) := by
  obtain ⟨o,o',found,foundToo,alike⟩ := twin.heap.objects h k paired
  simp only [Machine.functionOf?,found,foundToo]
  cases alike with
  | closure code captures =>
    obtain ⟨c,c',here,there,alike⟩ := twin.heap.objects _ _ code
    simp only [here,there]
    cases alike with
    | function chunk constants => exact .some ⟨rfl,constants⟩
    | _ => exact .none
  | _ => exact .none

/-- The trace shows no handles. -/
theorem Twin.trace (twin : m.Twin p n) : m.trace = n.trace := by
  have each {f g : Frame} (alike : f.Twin p g) : m.traceEntry f = n.traceEntry g := by
    have code := twin.functionOf? alike.closure
    rw [Machine.traceEntry,Machine.traceEntry,alike.ip]
    generalize m.functionOf? f.closure = x at code
    generalize n.functionOf? g.closure = y at code
    cases code with
    | none => rfl
    | @some x y both =>
      obtain ⟨chunk,constants⟩ := x
      obtain ⟨_,others⟩ := y
      obtain ⟨rfl,-⟩ := both
      rfl
  rw [Machine.trace,Machine.trace]
  have frames := twin.frames
  generalize m.frames = fs at frames
  generalize n.frames = gs at frames
  induction frames with
  | nil => rfl
  | cons first _ ih => rw [List.map_cons,List.map_cons,each first,ih]

/-! Collections. -/

/-- The closure of every active frame lies on the stack. -/
def Guarded (m : Machine) : Prop :=
  ∀ f ∈ m.frames, .object f.closure ∈ m.stack

/-- Some objects that are not reached may be gone. -/
structure Sifts (m m' : Machine) : Prop where
  same : m' = { m with heap := m'.heap }
  tidy : m'.heap.Tidy
  kept : ∀ h, m.Reaches h → m'.heap.get? h = m.heap.get? h
  rest : ∀ h o, m'.heap.get? h = some o →
    m.heap.get? h = some o ∧ ∀ r ∈ o.references, m'.heap.get? r = m.heap.get? r

theorem Sifts.refl (tidy : m.heap.Tidy) : m.Sifts m :=
  ⟨rfl,tidy,fun _ _ => rfl,fun _ _ found => ⟨found,fun _ _ => rfl⟩⟩

theorem Sifts.collect (tidy : m.heap.Tidy) : m.Sifts m.collect where
  same := rfl
  tidy := tidy.collect _
  kept h reaches := by
    refine Heap.get?_collect ?_
    induction reaches with
    | root member => exact .root (m.anchors_subset_roots member)
    | next _ member ih => exact .next ih member
  rest h o found := ⟨Heap.get?_of_collect found,fun r member =>
    Heap.get?_collect_references found member⟩

end Machine

/-- The pairs of which both objects are still there. -/
def Pairing.left (p : Pairing) (m n : Machine) : Pairing :=
  fun h k => p h k ∧ m.heap.get? h ≠ none ∧ n.heap.get? k ≠ none

namespace Machine

variable {m n m' n' : Machine} {h k : Handle}

/-- What both machines reach has not gone. -/
theorem Twin.left (twin : m.Twin p n) (sifts : m.Sifts m') (siftsToo : n.Sifts n')
    (reached : m.Reaches h) (reachedToo : n.Reaches k) (paired : p h k) : p.left m' n' h k := by
  obtain ⟨o,o',found,foundToo,-⟩ := twin.heap.objects h k paired
  refine ⟨paired,?_,?_⟩
  · simp [sifts.kept h reached,found]
  · simp [siftsToo.kept k reachedToo,foundToo]

/-- After a collection on one side or on both, what is left covers everything. -/
theorem Twin.sift (twin : m.Twin p n) (guarded : m.Guarded) (guardedToo : n.Guarded)
    (sifts : m.Sifts m') (siftsToo : n.Sifts n') : m'.Twin (p.left m' n') n' := by
  have keep {h k : Handle} := twin.left (h := h) (k := k) sifts siftsToo
  have tables {g g' : Globals} (alike : g.Twin p g') (here : ∀ h ∈ g.handles, m.Reaches h)
      (there : ∀ k ∈ g'.handles, n.Reaches k) : g.Twin (p.left m' n') g' :=
    alike.imp fun h left k right => keep (here h left) (there k right)
  have same := sifts.same
  have sameToo := siftsToo.same
  refine ⟨⟨⟨?_,?_⟩,sifts.tidy,siftsToo.tidy,?_⟩,?_,?_,?_,?_,?_,?_,?_,?_,?_,?_,?_⟩
  · exact fun a b c one two => twin.heap.unique.1 one.1 two.1
  · exact fun a b c one two => twin.heap.unique.2 one.1 two.1
  · rintro h k ⟨paired,alive,aliveToo⟩
    obtain ⟨o,found⟩ := Option.ne_none_iff_exists'.mp alive
    obtain ⟨o',foundToo⟩ := Option.ne_none_iff_exists'.mp aliveToo
    refine ⟨o,o',found,foundToo,?_⟩
    obtain ⟨before,parts⟩ := sifts.rest h o found
    obtain ⟨beforeToo,partsToo⟩ := siftsToo.rest k o' foundToo
    obtain ⟨_,_,old,oldToo,alike⟩ := twin.heap.objects h k paired
    rw [before] at old
    rw [beforeToo] at oldToo
    cases old
    cases oldToo
    refine alike.imp fun a left b right paired => ?_
    obtain ⟨x,y,here,there,-⟩ := twin.heap.objects a b paired
    exact ⟨paired,by simp [parts a left,here],by simp [partsToo b right,there]⟩
  all_goals
    rw [same,sameToo]
  · exact abreast_imp twin.stack fun h left k right =>
      keep (reaches_stack left) (reaches_stack right)
  · refine forall₂_imp twin.frames fun f left g right alike => ⟨?_,alike.ip,alike.base⟩
    exact keep (reaches_stack (guarded f left)) (reaches_stack (guardedToo g right)) alike.closure
  · exact forall₂_imp twin.openCells fun h left k right =>
      keep (reaches_openCells left) (reaches_openCells right)
  · exact forall₂_imp twin.loading fun h left k right =>
      keep (reaches_loading left) (reaches_loading right)
  · refine forall₂_imp twin.pinned fun v left w right alike => alike.imp fun h same k sameToo => ?_
    exact keep (reaches_pinned (same ▸ left)) (reaches_pinned (sameToo ▸ right))
  · exact twin.result.imp fun h same k sameToo =>
      keep (reaches_result same) (reaches_result sameToo)
  · exact twin.status
  · exact tables twin.globals (fun h left => reaches_globals left) fun k right =>
      reaches_globals right
  · exact forall₂_imp twin.shelved fun g left g' right alike =>
      tables alike (fun h inside => reaches_shelved left inside) fun k inside =>
        reaches_shelved right inside
  · exact twin.output
  · exact twin.counter

/-! New objects. -/

/-- The object lies at the handle, where nothing else was, and all others are where they were. -/
structure Places (h : Handle) (o : Object) (m m' : Machine) : Prop where
  same : m' = { m with heap := m'.heap }
  tidy : m'.heap.Tidy
  found : m'.heap.get? h = some o
  others : ∀ other, other ≠ h → m'.heap.get? other = m.heap.get? other

end Machine

/-- One pair more. -/
def Pairing.add (p : Pairing) (h k : Handle) : Pairing :=
  fun a b => p a b ∨ a = h ∧ b = k

namespace Machine

variable {m n m' n' : Machine} {h k : Handle} {o o' : Object}

/-- Twins under a pairing are so under a larger one that changes nothing else. -/
theorem Twin.grow (twin : m.Twin p n) (more : ∀ h k, p h k → q h k) {heap heap' : Heap}
    (heaps : heap.Twin q heap') : Machine.Twin q { m with heap := heap } { n with heap := heap' } where
  heap := heaps
  stack := abreast_imp twin.stack fun h _ k _ => more h k
  frames := twin.frames.imp fun _ _ alike => ⟨more _ _ alike.closure,alike.ip,alike.base⟩
  openCells := twin.openCells.imp more
  loading := twin.loading.imp more
  pinned := twin.pinned.imp fun _ _ alike => alike.imp fun h _ k _ => more h k
  result := twin.result.imp fun h _ k _ => more h k
  status := twin.status
  globals := twin.globals.imp fun h _ k _ => more h k
  shelved := twin.shelved.imp fun _ _ alike => alike.imp fun h _ k _ => more h k
  output := twin.output
  counter := twin.counter

/-- The same new object on both sides. -/
theorem Twin.place (twin : m.Twin p n) (places : m.Places h o m') (placesToo : n.Places k o' n')
    (only : ∀ b, p h b → b = k) (onlyToo : ∀ a, p a k → a = h) (alike : o.Twin (p.add h k) o') :
    m'.Twin (p.add h k) n' := by
  rw [places.same,placesToo.same]
  refine twin.grow (fun a b => .inl) ⟨⟨?_,?_⟩,places.tidy,placesToo.tidy,?_⟩
  · rintro a b c (one | ⟨rfl,rfl⟩) (two | ⟨rfl,same⟩)
    · exact twin.heap.unique.1 one two
    · exact onlyToo a (same ▸ one)
    · exact (onlyToo b two).symm
    · rfl
  · rintro a b c (one | ⟨rfl,rfl⟩) (two | ⟨same,rfl⟩)
    · exact twin.heap.unique.2 one two
    · exact only b (same ▸ one)
    · exact (only c two).symm
    · rfl
  · intro a b paired
    by_cases here : a = h ∧ b = k
    · obtain ⟨rfl,rfl⟩ := here
      exact ⟨o,o',places.found,placesToo.found,alike⟩
    · have old : p a b := paired.resolve_right here
      have left : a ≠ h := fun same => here ⟨same,only b (same ▸ old)⟩
      have right : b ≠ k := fun same => here ⟨onlyToo a (same ▸ old),same⟩
      obtain ⟨x,y,found,foundToo,alike⟩ := twin.heap.objects a b old
      exact ⟨x,y,(places.others a left).trans found,(placesToo.others b right).trans foundToo,
        alike.imp fun _ _ _ _ => .inl⟩

end Machine

end ScriptMachine
