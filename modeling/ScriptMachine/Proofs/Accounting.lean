import Mathlib
import ScriptMachine.Proofs.Collection

/-! The bytes that a heap accounts for. They are those of its objects, whatever it has been used for. -/
namespace ScriptMachine.Heap

open Finset (range)

/-- The heaps that come about by using one: a string is only made if it is not there yet, and no other
object becomes a string. -/
inductive Arises : Heap → Prop
  | empty (policy : Policy) : Arises (.empty policy)
  | insert {heap : Heap} {object : Object} (arises : Arises heap)
      (plain : ∀ text, object ≠ .string text) (size : Nat) : Arises (heap.insert object size).2
  | insertString {heap : Heap} {text : Bytes} (arises : Arises heap)
      (missing : heap.find? text = none) : Arises (heap.insertString text).2
  | update {heap : Heap} {h : Handle} {object : Object} {change : Object → Object}
      (arises : Arises heap) (found : heap.get? h = some object)
      (plain : ∀ text, object ≠ .string text) (still : ∀ text, change object ≠ .string text) :
      Arises (heap.update h change)
  | collect {heap : Heap} (arises : Arises heap) (roots : List Handle) : Arises (heap.collect roots)

/-- The bytes of all objects together. -/
def held (heap : Heap) : Nat :=
  ∑ i ∈ range heap.slots.size, heap.sizeAt i

/-- The bytes in use are those of the objects. -/
def Accounted (heap : Heap) : Prop :=
  heap.bytes = heap.held

theorem Arises.tidy {heap : Heap} (arises : heap.Arises) : heap.Tidy := by
  induction arises with
  | empty policy => exact tidy_empty policy
  | insert _ plain size tidy => exact tidy.insert rfl plain
  | insertString _ missing tidy => exact (insertString_spec tidy missing rfl).1
  | update _ found plain still tidy => exact tidy.update found plain still
  | collect _ roots tidy => exact tidy.collect roots

theorem sizeAt_vacant {heap : Heap} {i : Nat} (vacant : heap.slots[i]? = some none) :
    heap.sizeAt i = 0 := by
  simp [sizeAt,vacant]

theorem Accounted.insert {heap : Heap} (accounted : heap.Accounted) (tidy : heap.Tidy)
    (object : Object) (size : Nat) : (heap.insert object size).2.Accounted := by
  rw [Accounted,held] at accounted
  rw [Heap.insert]
  split
  next index free known =>
    have vacant : heap.slots[index]? = some none := tidy.vacant index (by simp [known])
    have inside : index ∈ range heap.slots.size :=
      Finset.mem_range.mpr (Array.getElem?_eq_some_iff.mp vacant).1
    rw [Accounted,held]
    dsimp only
    rw [Array.size_setIfInBounds,← Finset.add_sum_erase _ _ inside,accounted,
      ← Finset.add_sum_erase _ _ inside,sizeAt_vacant vacant,Nat.zero_add,Nat.add_comm]
    congr 1
    · simp [sizeAt,Finset.mem_range.mp inside]
    · refine Finset.sum_congr rfl fun i member => ?_
      have other : index ≠ i := (Finset.ne_of_mem_erase member).symm
      simp only [sizeAt]
      rw [Array.getElem?_setIfInBounds_ne other]
  next =>
    rw [Accounted,held]
    dsimp only
    rw [Array.size_push,Finset.sum_range_succ,accounted]
    congr 1
    · refine Finset.sum_congr rfl fun i member => ?_
      have other : i ≠ heap.slots.size := (Finset.mem_range.mp member).ne
      simp only [sizeAt]
      rw [Array.getElem?_push,if_neg other]
    · simp [sizeAt]

theorem Accounted.update {heap : Heap} (accounted : heap.Accounted) (h : Handle)
    (change : Object → Object) : (heap.update h change).Accounted := by
  have same (i : Nat) : (heap.update h change).sizeAt i = heap.sizeAt i := by
    simp only [sizeAt,Heap.update,Array.getElem?_modify]
    split
    · cases heap.slots[i]? with
      | none => rfl
      | some resident => cases resident <;> rfl
    · rfl
  have size : (heap.update h change).slots.size = heap.slots.size := Array.size_modify
  rw [Accounted,held,size,Finset.sum_congr rfl fun i _ => same i]
  exact accounted

/-- Freed one after the other, objects give back their bytes together. -/
theorem foldl_sub (heap : Heap) (dead : List Nat) (bytes : Nat) :
    dead.foldl (fun bytes index => bytes - heap.sizeAt index) bytes =
      bytes - (dead.map heap.sizeAt).sum := by
  induction dead generalizing bytes with
  | nil => rfl
  | cons first rest ih => rw [List.foldl_cons,ih,List.map_cons,List.sum_cons,Nat.sub_add_eq]

/-- The places that a collection frees. -/
def freed (heap : Heap) (roots : List Handle) : List Nat :=
  heap.unreached (heap.reached roots)

theorem freed_sorted (heap : Heap) (roots : List Handle) : (heap.freed roots).Pairwise (· < ·) :=
  List.pairwise_lt_range.filter _

theorem mem_unreached {heap : Heap} {marked : Array Bool} {i : Nat} :
    i ∈ heap.unreached marked ↔ heap.isAlive ⟨i⟩ ∧ marked.getD i false = false := by
  rw [unreached,List.mem_filter,List.mem_range,Bool.and_eq_true,Bool.not_eq_true',isAlive,get?,
    Option.isSome_map]
  refine ⟨And.right,fun both => ⟨?_,both⟩⟩
  by_contra outside
  simp [Array.getElem?_eq_none (Nat.le_of_not_lt outside)] at both

theorem sizeAt_sweep (heap : Heap) (marked : Array Bool) (i : Nat) :
    (heap.sweep marked).sizeAt i = if marked.getD i false then heap.sizeAt i else 0 := by
  simp only [sizeAt,sweep,Array.getElem?_mapIdx]
  cases heap.slots[i]? with
  | none => simp
  | some resident => split <;> simp [*]

/-- What remains and what is freed make up what there was. -/
theorem held_sweep (heap : Heap) (marked : Array Bool) :
    (heap.sweep marked).held + ((heap.unreached marked).map heap.sizeAt).sum = heap.held := by
  have size : (heap.sweep marked).slots.size = heap.slots.size := Array.size_mapIdx
  have gone : ((heap.unreached marked).map heap.sizeAt).sum =
      ∑ i ∈ range heap.slots.size, if marked.getD i false then 0 else heap.sizeAt i := by
    have distinct : (heap.unreached marked).Nodup := List.nodup_range.filter _
    rw [← List.sum_toFinset _ distinct]
    refine (Finset.sum_subset_zero_on_sdiff (fun i member => ?_) (fun i member => ?_)
      fun i member => ?_)
    · rw [List.mem_toFinset,unreached,List.mem_filter] at member
      exact Finset.mem_range.mpr (List.mem_range.mp member.1)
    · rw [Finset.mem_sdiff,List.mem_toFinset,mem_unreached,isAlive,get?,Option.isSome_map] at member
      by_cases there : marked.getD i false = true
      · rw [if_pos there]
      · have empty : (heap.slots[i]?).join = none := by
          rw [← Option.not_isSome_iff_eq_none]
          exact fun some => member.2 ⟨some,by simpa using there⟩
        rw [if_neg there,sizeAt,empty]
        rfl
    · rw [List.mem_toFinset,mem_unreached] at member
      rw [member.2]
      rfl
  rw [held,size,gone,← Finset.sum_add_distrib,held]
  refine Finset.sum_congr rfl fun i _ => ?_
  rw [sizeAt_sweep]
  split
  · exact Nat.add_zero _
  · exact Nat.zero_add _

theorem Accounted.bytes_collect {heap : Heap} (accounted : heap.Accounted) (roots : List Handle) :
    (heap.collect roots).bytes + ((heap.freed roots).map heap.sizeAt).sum = heap.bytes := by
  have parts := heap.held_sweep (heap.reached roots)
  have rest : (heap.collect roots).bytes = heap.bytes - ((heap.freed roots).map heap.sizeAt).sum :=
    foldl_sub heap _ _
  rw [Accounted] at accounted
  rw [rest,freed]
  omega

theorem Accounted.collect {heap : Heap} (accounted : heap.Accounted) (roots : List Handle) :
    (heap.collect roots).Accounted := by
  have parts := heap.held_sweep (heap.reached roots)
  have bytes := accounted.bytes_collect roots
  have same : (heap.collect roots).held = (heap.sweep (heap.reached roots)).held := rfl
  rw [Accounted] at accounted ⊢
  rw [freed] at bytes
  omega

theorem Arises.accounted {heap : Heap} (arises : heap.Arises) : heap.Accounted := by
  induction arises with
  | empty policy => rfl
  | insert before plain size accounted => exact accounted.insert before.tidy _ size
  | insertString before missing accounted => exact accounted.insert before.tidy _ _
  | update _ _ _ _ accounted => exact accounted.update _ _
  | collect _ roots accounted => exact accounted.collect roots

end ScriptMachine.Heap
