import Mathlib
import ScriptMachine.Heap.Store
import ScriptMachine.Proofs.Accounting

/-! Stores over their whole life. Whatever is allocated, registered, changed and collected, the heap
knows exactly which of its places are free and how many bytes its objects take. -/
namespace ScriptMachine

namespace Heap

variable {heap : Heap} {i : Nat}

/-- Every place without an object is free. -/
def Complete (heap : Heap) : Prop :=
  ∀ i : Nat, heap.slots[i]? = some none → i ∈ heap.free

theorem Complete.insert (complete : heap.Complete) (object : Object) (size : Nat) :
    (heap.insert object size).2.Complete := by
  intro i empty
  rw [Heap.insert] at empty ⊢
  split at empty
  next index free known =>
    have other : index ≠ i := by
      rintro rfl
      rw [Array.getElem?_setIfInBounds_self] at empty
      split at empty <;> cases empty
    rw [Array.getElem?_setIfInBounds_ne other] at empty
    have member := complete i empty
    rw [known] at member
    exact (List.mem_cons.mp member).resolve_left other.symm
  next known =>
    rw [Array.getElem?_push] at empty
    split at empty
    · cases empty
    · exact complete i empty

theorem Complete.update (complete : heap.Complete) (h : Handle) (change : Object → Object) :
    (heap.update h change).Complete := by
  intro i empty
  refine complete i ?_
  simp only [Heap.update,Array.getElem?_modify] at empty
  split at empty
  · cases known : heap.slots[i]? with
    | none => simp [known] at empty
    | some resident =>
      cases resident with
      | none => rfl
      | some resident => simp [known] at empty
  · exact empty

theorem Complete.collect (complete : heap.Complete) (roots : List Handle) :
    (heap.collect roots).Complete := by
  intro i empty
  change (heap.slots.mapIdx _)[i]? = _ at empty
  change i ∈ (heap.freed roots).reverse ++ heap.free
  rw [Array.getElem?_mapIdx] at empty
  rw [List.mem_append,List.mem_reverse,freed,mem_unreached]
  cases known : heap.slots[i]? with
  | none => simp [known] at empty
  | some resident =>
    cases resident with
    | none => exact .inr (complete i known)
    | some resident =>
      refine .inl ⟨by simp [isAlive,get?,known],?_⟩
      simpa [known] using empty

theorem Arises.complete (arises : heap.Arises) : heap.Complete := by
  induction arises with
  | empty policy => simp [Complete,Heap.empty]
  | insert _ _ size complete => exact complete.insert _ size
  | insertString _ _ complete => exact complete.insert _ _
  | update _ _ _ _ complete => exact complete.update _ _
  | collect _ roots complete => exact complete.collect roots

/-- The books of a heap: the free list has every empty place once and no other, the number of objects
is that of the occupied places and the bytes are theirs. When a collection frees its objects one after
the other, the bytes never fall short. -/
structure Balanced (heap : Heap) : Prop where
  distinct : heap.free.Nodup
  free : ∀ i, i ∈ heap.free ↔ heap.slots[i]? = some none
  count : heap.liveCount = heap.slots.countP (·.isSome)
  bytes : heap.bytes = ∑ i ∈ Finset.range heap.slots.size, heap.sizeAt i
  enough : ∀ roots front i back, heap.freed roots = front ++ i :: back →
    heap.sizeAt i ≤ front.foldl (fun bytes j => bytes - heap.sizeAt j) heap.bytes

/-- A list of all places that hold nothing tells how many hold something. -/
theorem liveCount_eq (distinct : heap.free.Nodup)
    (free : ∀ i, i ∈ heap.free ↔ heap.slots[i]? = some none) :
    heap.liveCount = heap.slots.countP (·.isSome) := by
  have places : (List.range heap.slots.size).map (fun i => (heap.slots[i]?).join) =
      heap.slots.toList := by
    refine List.ext_getElem (by simp) fun i _ inside => ?_
    have bound : i < heap.slots.size := by simpa using inside
    simp [bound]
  have permuted : heap.free.Perm ((List.range heap.slots.size).filter fun i =>
      ((heap.slots[i]?).join).isNone) := by
    refine (List.perm_ext_iff_of_nodup distinct (List.nodup_range.filter _)).mpr fun i => ?_
    rw [free,List.mem_filter,List.mem_range]
    by_cases inside : i < heap.slots.size
    · cases known : heap.slots[i] <;> simp [inside,known]
    · simp [inside]
  have empty : heap.free.length = heap.slots.toList.countP (·.isNone) := by
    rw [permuted.length_eq,← List.countP_eq_length_filter,← places,List.countP_map]
    rfl
  have parts := List.length_eq_countP_add_countP (fun r : Option Resident => r.isSome)
    (l := heap.slots.toList)
  have others : heap.slots.toList.countP (fun r => decide ¬r.isSome = true) =
      heap.slots.toList.countP (·.isNone) :=
    List.countP_congr fun r _ => by cases r <;> simp
  rw [liveCount,empty,← others,← Array.countP_toList]
  rw [Array.length_toList] at parts
  omega

theorem Arises.balanced (arises : heap.Arises) : heap.Balanced := by
  have tidy := arises.tidy
  have accounted := arises.accounted
  have free (i : Nat) : i ∈ heap.free ↔ heap.slots[i]? = some none :=
    ⟨tidy.vacant i,arises.complete i⟩
  refine ⟨tidy.distinct,free,liveCount_eq tidy.distinct free,accounted,?_⟩
  intro roots front i back split
  have whole := accounted.bytes_collect roots
  rw [split,List.map_append,List.map_cons,List.sum_append,List.sum_cons] at whole
  rw [foldl_sub]
  omega

/-- What is not interned is not so after a collection either. -/
theorem find?_collect {text : Bytes} (tidy : heap.Tidy) (missing : heap.find? text = none)
    (roots : List Handle) : (heap.collect roots).find? text = none := by
  cases known : (heap.collect roots).find? text with
  | none => rfl
  | some h =>
    have before := get?_of_collect (((tidy.collect roots).interned text h).mp known)
    rw [← tidy.interned,missing] at before
    contradiction

theorem sizeAt_insert (tidy : heap.Tidy) (object : Object) (size : Nat) :
    (heap.insert object size).2.sizeAt (heap.insert object size).1.index = size := by
  rw [Heap.insert]
  split
  next index free known =>
    have vacant : heap.slots[index]? = some none := tidy.vacant index (by simp [known])
    simp [sizeAt,(Array.getElem?_eq_some_iff.mp vacant).1]
  next => simp [sizeAt]

end Heap

namespace Store

/-- What a store can be asked for: new objects, registrations, collections, and changes of objects. -/
inductive Request where
  | string (text : Bytes)
  | function (chunk : Chunk)
  | closure (function : Handle)
  | cell (slot : Nat)
  | native (name : Bytes) (function : Native)
  | struct (name : Handle) (fields : List Handle)
  | record (struct : Handle)
  | register (name : Bytes) (value : Value)
  | unregister (name : Bytes)
  | collect
  | closeCell (cell : Handle) (value : Value)
  | addCapture (closure cell : Handle)
  | addConstant (function : Handle) (value : Value)
  | setField (record : Handle) (index : Nat) (value : Value)

/-- The handle that an allocation gives, and the store behind it. Only an object of the right kind is
changed. -/
def serve (s : Store) : Request → Option Handle × Store
  | .string text => (s.allocateString text).map some id
  | .function chunk => (s.allocateFunction chunk).map some id
  | .closure function => (s.allocateClosure function).map some id
  | .cell slot => (s.allocateCell slot).map some id
  | .native name function => (s.allocateNative name function).map some id
  | .struct name fields => (s.allocateStruct name fields).map some id
  | .record struct => (s.allocateRecord struct).map some id
  | .register name value => (none,s.register name value)
  | .unregister name => (none,s.unregister name)
  | .collect => (none,s.collect)
  | .closeCell cell value =>
    match s.heap.get? cell with
    | some (.cell _) => (none,s.closeCell cell value)
    | _ => (none,s)
  | .addCapture closure cell =>
    match s.heap.get? closure with
    | some (.closure ..) => (none,s.addCapture closure cell)
    | _ => (none,s)
  | .addConstant function value =>
    match s.heap.get? function with
    | some (.function ..) => (none,s.addConstant function value)
    | _ => (none,s)
  | .setField record index value =>
    match s.heap.get? record with
    | some (.record ..) => (none,s.setField record index value)
    | _ => (none,s)

/-- The store after these requests, one after the other. -/
def after (s : Store) (requests : List Request) : Store :=
  requests.foldl (fun s request => (s.serve request).2) s

/-- The new object that a request calls for and its size. A string that is there already is not made. -/
def demand (s : Store) : Request → Option (Object × Nat)
  | .string text =>
    if (s.heap.find? text).isSome then none else some (.string text,Footprint.string text)
  | .function chunk => some (.function chunk #[],Footprint.function chunk)
  | .closure function => some (.closure function #[],Footprint.closure (s.captureCount function))
  | .cell slot => some (.cell (.onStack slot),Footprint.cell)
  | .native name function => some (.native name function,Footprint.native name)
  | .struct name fields => some (.struct name fields,Footprint.struct fields.length)
  | .record struct => some (.record struct (Array.replicate (s.fieldNames struct).length .nil),
      Footprint.record (s.fieldNames struct).length)
  | _ => none

variable {s : Store}

theorem arises_makeRoom (arises : s.heap.Arises) (size : Nat) : (s.makeRoom size).heap.Arises := by
  rw [makeRoom]
  split
  · exact arises.collect s.roots
  · exact arises

theorem arises_allocate (arises : s.heap.Arises) {object : Object}
    (plain : ∀ text, object ≠ .string text) (size : Nat) : (s.allocate object size).2.heap.Arises :=
  (arises_makeRoom arises size).insert plain size

theorem missing_makeRoom (arises : s.heap.Arises) {text : Bytes} (missing : s.heap.find? text = none)
    (size : Nat) : (s.makeRoom size).heap.find? text = none := by
  rw [makeRoom]
  split
  · exact Heap.find?_collect arises.tidy missing s.roots
  · exact missing

/-- Whatever a store is asked for, its heap is one that comes about by use. -/
theorem arises_serve (arises : s.heap.Arises) (request : Request) :
    (s.serve request).2.heap.Arises := by
  cases request with
  | string text =>
    rw [serve,allocateString]
    cases known : s.heap.find? text with
    | some h => exact arises
    | none => exact (arises_makeRoom arises _).insertString (missing_makeRoom arises known _)
  | function chunk => exact arises_allocate arises (by simp) _
  | closure function => exact arises_allocate arises (by simp) _
  | cell slot => exact arises_allocate arises (by simp) _
  | native name function => exact arises_allocate arises (by simp) _
  | struct name fields => exact arises_allocate arises (by simp) _
  | record struct => exact arises_allocate arises (by simp) _
  | register name value => exact arises
  | unregister name => exact arises
  | collect => exact arises.collect s.roots
  | closeCell cell value =>
    rw [serve]
    split
    · dsimp only [closeCell,update]
      exact arises.update ‹_› (by simp) (by simp)
    · exact arises
  | addCapture closure cell =>
    rw [serve]
    split
    · dsimp only [addCapture,update]
      exact arises.update ‹_› (by simp) (by simp)
    · exact arises
  | addConstant function value =>
    rw [serve]
    split
    · dsimp only [addConstant,update]
      exact arises.update ‹_› (by simp) (by simp)
    · exact arises
  | setField record index value =>
    rw [serve]
    split
    · dsimp only [setField,update]
      exact arises.update ‹_› (by simp) (by simp)
    · exact arises

theorem arises_after (arises : s.heap.Arises) (requests : List Request) :
    (s.after requests).heap.Arises := by
  induction requests generalizing s with
  | nil => exact arises
  | cons first rest ih => exact ih (arises_serve arises first)

/-- What an allocation comes to. A collection runs if it is due, and those that survive it keep their
places and what they hold; all that is reached from a registered value survives. -/
structure Makes (s : Store) (object : Object) (bytes : Nat) (h : Handle) (s' : Store) : Prop where
  collections : s'.heap.collections = s.heap.collections +
    if s.heap.policy.stress ∨ s.heap.limit < s.heap.bytes + bytes then 1 else 0
  made : s'.heap.get? h = some object
  size : s'.heap.sizeAt h.index = bytes
  survivors : ∀ k, (s.makeRoom bytes).heap.isAlive k → k ≠ h ∧ s'.heap.get? k = s.heap.get? k
  reached : ∀ k, s.heap.Reaches s.roots k → s.heap.isAlive k → k ≠ h ∧ s'.heap.get? k = s.heap.get? k

theorem makes_insert (arises : s.heap.Arises) (object : Object) (size : Nat) {heap : Heap} {h : Handle}
    {s' : Store} (inserted : (s.makeRoom size).heap.insert object size = (h,heap))
    (same : s'.heap.slots = heap.slots) (count : s'.heap.collections = heap.collections) :
    s.Makes object size h s' := by
  have tidy := (arises_makeRoom arises size).tidy
  obtain ⟨vacant,found,others,-⟩ := Heap.insert_spec tidy inserted
  have sized := Heap.sizeAt_insert tidy object size
  have counted := Heap.collections_insert (s.makeRoom size).heap object size
  rw [inserted] at sized counted
  have stays (k : Handle) : s'.heap.get? k = heap.get? k := by rw [Heap.get?,Heap.get?,same]
  have survives (k : Handle) (alive : (s.makeRoom size).heap.isAlive k) :
      k ≠ h ∧ s'.heap.get? k = s.heap.get? k := by
    have other : k ≠ h := by
      rintro rfl
      rw [Heap.isAlive,vacant] at alive
      contradiction
    refine ⟨other,?_⟩
    rw [stays,others k other]
    obtain ⟨o,here⟩ := Option.isSome_iff_exists.mp alive
    rw [here]
    rw [makeRoom] at here
    split at here
    · exact (Heap.get?_of_collect here).symm
    · exact here.symm
  refine ⟨?_,(stays h).trans found,?_,survives,fun k reaches alive => survives k ?_⟩
  · have due : s.heap.isDue size = true ↔
        s.heap.policy.stress = true ∨ s.heap.limit < s.heap.bytes + size := by
      simp [Heap.isDue]
    rw [count,counted,makeRoom]
    split
    next yes =>
      rw [if_pos (due.mp yes)]
      rfl
    next no => rw [if_neg (mt due.mpr no),Nat.add_zero]
  · rw [Heap.sizeAt,same]
    exact sized
  · rw [Heap.isAlive,makeRoom]
    split
    · change ((s.heap.collect s.roots).get? k).isSome = true
      rw [Heap.get?_collect reaches]
      exact alive
    · exact alive

/-- All demands are met. -/
theorem makes_serve (arises : s.heap.Arises) {request : Request} {object : Object} {size : Nat}
    (demand : s.demand request = some (object,size)) :
    ∃ h s', s.serve request = (some h,s') ∧ s.Makes object size h s' := by
  have plain : ∃ h s', (s.allocate object size).map some id = (some h,s') ∧ s.Makes object size h s' :=
    ⟨_,_,rfl,makes_insert arises object size rfl rfl rfl⟩
  cases request with
  | string text =>
    rw [Store.demand] at demand
    split at demand
    · cases demand
    next missing =>
      cases demand
      have missing := Option.not_isSome_iff_eq_none.mp missing
      rw [serve,allocateString,missing]
      exact ⟨_,_,rfl,makes_insert arises _ _ rfl rfl rfl⟩
  | function chunk => cases demand; exact plain
  | closure function => cases demand; exact plain
  | cell slot => cases demand; exact plain
  | native name function => cases demand; exact plain
  | struct name fields => cases demand; exact plain
  | record struct => cases demand; exact plain
  | _ => cases demand

/-- The state of a store and what comes of every further request. -/
structure Sound (s : Store) : Prop where
  balanced : s.heap.Balanced
  makes : ∀ request object size, s.demand request = some (object,size) →
    ∃ h s', s.serve request = (some h,s') ∧ s.Makes object size h s'
  interned : ∀ text h, s.heap.find? text = some h → s.serve (.string text) = (some h,s)
  quiet : ∀ request, s.demand request = none → request ≠ .collect →
    (s.serve request).2.heap.collections = s.heap.collections

/-- Whatever a store has been asked for, its free list and its bytes are exact, and every new object gets
a place of its own. -/
theorem sound_after (policy : Policy) (requests : List Request) : ((new policy).after requests).Sound := by
  have arises := arises_after (s := new policy) (.empty policy) requests
  refine ⟨arises.balanced,fun request object size => makes_serve arises,?_,?_⟩
  · intro text h found
    rw [serve,allocateString,found]
    rfl
  · intro request none other
    cases request with
    | string text =>
      rw [demand] at none
      split at none
      next there =>
        obtain ⟨h,found⟩ := Option.isSome_iff_exists.mp there
        rw [serve,allocateString,found]
        rfl
      · cases none
    | register name value => rfl
    | unregister name => rfl
    | collect => exact absurd rfl other
    | closeCell cell value =>
      rw [serve]
      split <;> rfl
    | addCapture closure cell =>
      rw [serve]
      split <;> rfl
    | addConstant function value =>
      rw [serve]
      split <;> rfl
    | setField record index value =>
      rw [serve]
      split <;> rfl
    | _ => cases none

end Store

end ScriptMachine
