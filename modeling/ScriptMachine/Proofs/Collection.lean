import Mathlib
import ScriptMachine.Heap.Collect

/-! The arena and its collections. A collection keeps every object that the roots reach, with its
place and its content, and frees others only; an allocation takes a place that holds nothing. Both
keep the free places and the interned strings in order. -/
namespace ScriptMachine.Heap

/-- The objects that are found by following references from the roots. -/
inductive Reaches (heap : Heap) (roots : List Handle) : Handle → Prop
  | root {h : Handle} (member : h ∈ roots) : Reaches heap roots h
  | next {h r : Handle} (reached : Reaches heap roots h) (member : r ∈ heap.references h) :
      Reaches heap roots r

/-! Marking. -/

theorem isSettled_iff {marked : Array Bool} {h : Handle} :
    isSettled marked h = true ↔ marked[h.index]? ≠ some false := by
  cases found : marked[h.index]? with
  | none => simp [isSettled,Array.getD_eq_getD_getElem?,found]
  | some b => cases b <;> simp [isSettled,Array.getD_eq_getD_getElem?,found]

theorem isSettled_set {marked : Array Bool} {h : Handle} (place : Nat)
    (settled : isSettled marked h = true) :
    isSettled (marked.setIfInBounds place true) h = true := by
  rw [isSettled_iff] at settled ⊢
  rw [Array.getElem?_setIfInBounds]
  split
  · split <;> simp
  · exact settled

/-- Every round marks one place more. -/
theorem count_set {marked : Array Bool} {place : Nat} (unmarked : marked[place]? = some false) :
    (marked.setIfInBounds place true).count false + 1 = marked.count false := by
  obtain ⟨bound,value⟩ := Array.getElem?_eq_some_iff.mp unmarked
  have positive : 0 < marked.count false :=
    Array.count_pos_iff.mpr (value ▸ Array.getElem_mem bound)
  rw [Array.setIfInBounds_def,dif_pos bound,Array.count_set bound,value]
  simp
  omega

/-- With as many rounds as there are unmarked places, all work is done: whatever a marked object
refers to is marked. -/
theorem mark_settles (heap : Heap) (rounds : Nat) (marked : Array Bool) (work : List Handle)
    (enough : marked.count false ≤ rounds)
    (closed : ∀ h, marked[h.index]? = some true → ∀ r ∈ heap.references h,
      isSettled marked r = true ∨ r ∈ work) :
    (∀ h ∈ work, isSettled (heap.mark rounds marked work) h = true) ∧
      (∀ h, isSettled marked h = true → isSettled (heap.mark rounds marked work) h = true) ∧
      (∀ h, (heap.mark rounds marked work)[h.index]? = some true → ∀ r ∈ heap.references h,
        isSettled (heap.mark rounds marked work) r = true) := by
  induction rounds generalizing marked work with
  | zero =>
    have every (h : Handle) : isSettled marked h = true := by
      rw [isSettled_iff]
      intro unmarked
      have := count_set unmarked
      omega
    exact ⟨fun h _ => every h,fun _ known => known,fun _ _ r _ => every r⟩
  | succ rounds ih =>
    rw [mark]
    cases left : work.dropWhile (isSettled marked) with
    | nil =>
      have every := List.dropWhile_eq_nil_iff.mp left
      refine ⟨every,fun _ known => known,fun h known r member => ?_⟩
      rcases closed h known r member with settled | later
      · exact settled
      · exact every r later
    | cons h rest =>
      have split := List.takeWhile_append_dropWhile (p := isSettled marked) (l := work)
      rw [left] at split
      have unmarked : marked[h.index]? = some false := by
        have unsettled := List.head?_dropWhile_not (isSettled marked) work
        rw [left] at unsettled
        by_contra other
        simp [isSettled_iff.mpr other] at unsettled
      have before (r : Handle) (member : r ∈ work.takeWhile (isSettled marked)) :
          isSettled marked r = true := by
        simpa using List.mem_takeWhile_imp member
      obtain ⟨done,kept,all⟩ := ih (marked.setIfInBounds h.index true)
        (heap.references h ++ rest) (by have := count_set unmarked; omega) (by
          intro k known r member
          by_cases same : k = h
          · exact .inr (List.mem_append_left _ (same ▸ member))
          · have other : h.index ≠ k.index := fun equal => same (by cases h; cases k; simp_all)
            rw [Array.getElem?_setIfInBounds_ne other] at known
            rcases closed k known r member with settled | later
            · exact .inl (isSettled_set _ settled)
            · rw [← split,List.mem_append,List.mem_cons] at later
              rcases later with early | rfl | late
              · exact .inl (isSettled_set _ (before r early))
              · refine .inl (isSettled_iff.mpr ?_)
                rw [Array.getElem?_setIfInBounds]
                simp
              · exact .inr (List.mem_append_right _ late))
      refine ⟨fun r member => ?_,fun r known => kept r (isSettled_set _ known),all⟩
      rw [← split,List.mem_append,List.mem_cons] at member
      rcases member with early | rfl | late
      · exact kept r (isSettled_set _ (before r early))
      · refine kept r (isSettled_iff.mpr ?_)
        rw [Array.getElem?_setIfInBounds]
        simp
      · exact done r (List.mem_append_right _ late)

theorem size_mark (heap : Heap) (rounds : Nat) (marked : Array Bool) (work : List Handle) :
    (heap.mark rounds marked work).size = marked.size := by
  induction rounds generalizing marked work with
  | zero => rfl
  | succ rounds ih =>
    rw [mark]
    split
    · rfl
    · rw [ih,Array.size_setIfInBounds]

/-- The roots are marked, and with an object all that it refers to. -/
theorem reached_closed (heap : Heap) (roots : List Handle) :
    (∀ h ∈ roots, h.index < heap.slots.size →
      (heap.reached roots).getD h.index false = true) ∧
      ∀ h, (heap.reached roots).getD h.index false = true → ∀ r ∈ heap.references h,
        r.index < heap.slots.size → (heap.reached roots).getD r.index false = true := by
  obtain ⟨done,-,closed⟩ := heap.mark_settles heap.slots.size
    (Array.replicate heap.slots.size false) roots (by simp) (by simp [Array.getElem?_replicate])
  have size : (heap.reached roots).size = heap.slots.size := by
    rw [reached,size_mark,Array.size_replicate]
  have marks {h : Handle} (inside : h.index < heap.slots.size)
      (settled : isSettled (heap.reached roots) h = true) :
      (heap.reached roots).getD h.index false = true := by
    rw [isSettled_iff] at settled
    rw [← size] at inside
    rw [Array.getElem?_eq_getElem inside] at settled
    simpa [Array.getD_eq_getD_getElem?,inside] using settled
  refine ⟨fun h member inside => marks inside (done h member),?_⟩
  intro h marked r member inside
  refine marks inside (closed h ?_ r member)
  rw [Array.getD_eq_getD_getElem?] at marked
  change (heap.reached roots)[h.index]? = some true
  cases found : (heap.reached roots)[h.index]? with
  | none => simp [found] at marked
  | some b => simpa [found] using marked

theorem index_lt {heap : Heap} {h : Handle} {o : Object} (found : heap.get? h = some o) :
    h.index < heap.slots.size := by
  by_contra outside
  simp [get?,Array.getElem?_eq_none (Nat.le_of_not_lt outside)] at found

/-- Everything that the roots reach is marked. -/
theorem reached_complete {heap : Heap} {roots : List Handle} {h : Handle}
    (reaches : heap.Reaches roots h) (inside : h.index < heap.slots.size) :
    (heap.reached roots).getD h.index false = true := by
  obtain ⟨first,closed⟩ := heap.reached_closed roots
  induction reaches with
  | root member => exact first _ member inside
  | @next h r _ member ih =>
    refine closed h (ih ?_) r member inside
    cases found : heap.get? h with
    | none => simp [references,found] at member
    | some o => exact index_lt found

/-! Sweeping. -/

theorem get?_sweep (heap : Heap) (marked : Array Bool) (h : Handle) :
    (heap.sweep marked).get? h =
      if marked.getD h.index false = true then heap.get? h else none := by
  simp only [get?,sweep,Array.getElem?_mapIdx]
  cases heap.slots[h.index]? with
  | none => simp
  | some resident => split <;> simp [*]

/-- A collection changes no object. -/
theorem get?_of_collect {heap : Heap} {roots : List Handle} {h : Handle} {o : Object}
    (found : (heap.collect roots).get? h = some o) : heap.get? h = some o := by
  have swept := heap.get?_sweep (heap.reached roots) h
  change (heap.collect roots).get? h = _ at swept
  rw [swept] at found
  split at found
  · exact found
  · contradiction

/-- A collection keeps what the roots reach. -/
theorem get?_collect {heap : Heap} {roots : List Handle} {h : Handle}
    (reaches : heap.Reaches roots h) : (heap.collect roots).get? h = heap.get? h := by
  have swept := heap.get?_sweep (heap.reached roots) h
  change (heap.collect roots).get? h = _ at swept
  rw [swept]
  by_cases inside : h.index < heap.slots.size
  · rw [if_pos (reached_complete reaches inside)]
  · have missing : heap.get? h = none := by
      simp [get?,Array.getElem?_eq_none (Nat.le_of_not_lt inside)]
    simp [missing]

/-- What a remaining object refers to remains as well. -/
theorem get?_collect_references {heap : Heap} {roots : List Handle} {h r : Handle} {o : Object}
    (found : (heap.collect roots).get? h = some o) (member : r ∈ o.references) :
    (heap.collect roots).get? r = heap.get? r := by
  have before := get?_of_collect found
  have swept (k : Handle) := heap.get?_sweep (heap.reached roots) k
  change ∀ k, (heap.collect roots).get? k = _ at swept
  have marked : (heap.reached roots).getD h.index false = true := by
    by_contra unmarked
    rw [swept,if_neg unmarked] at found
    contradiction
  rw [swept]
  cases known : heap.get? r with
  | none => simp
  | some x =>
    rw [if_pos ((heap.reached_closed roots).2 h marked r (by simpa [references,before]) ?_)]
    exact index_lt known

/-! Order in the arena. -/

/-- The free places hold nothing and are listed once, and the table of interned strings lists
exactly the strings in the arena, hence no two of them with the same bytes. -/
structure Tidy (heap : Heap) : Prop where
  distinct : heap.free.Nodup
  vacant : ∀ index ∈ heap.free, heap.slots[index]? = some none
  interned : ∀ text h, heap.find? text = some h ↔ heap.get? h = some (.string text)

theorem tidy_empty (policy : Policy) : (empty policy).Tidy :=
  ⟨List.nodup_nil,by simp [empty],by simp [empty,find?,get?]⟩

theorem Tidy.collect {heap : Heap} (tidy : heap.Tidy) (roots : List Handle) :
    (heap.collect roots).Tidy where
  distinct := by
    refine List.Nodup.append ?_ tidy.distinct ?_
    · exact List.nodup_reverse.mpr (List.nodup_range.filter _)
    · intro index dead free
      have vacant := tidy.vacant index free
      simp [unreached,vacant] at dead
  vacant := by
    intro index member
    change (heap.slots.mapIdx _)[index]? = _
    rw [Array.getElem?_mapIdx]
    rcases List.mem_append.mp member with dead | free
    · simp only [unreached,List.mem_reverse,List.mem_filter,List.mem_range,Bool.and_eq_true,
        Bool.not_eq_true'] at dead
      rw [Array.getElem?_eq_getElem dead.1]
      simp [dead.2.2]
    · simp [tidy.vacant index free]
  interned := by
    intro text h
    change (heap.strings.filter _)[text]? = some h ↔ _
    have swept := heap.get?_sweep (heap.reached roots) h
    change (heap.collect roots).get? h = _ at swept
    rw [swept,Std.TreeMap.getElem?_filter']
    have known := tidy.interned text h
    rw [find?] at known
    rw [Option.filter_eq_some_iff,known]
    by_cases marked : (heap.reached roots).getD h.index false = true
    · simp [marked]
    · simp [marked]

/-- A new object takes a place that held nothing, and all others stay where they are. -/
theorem insert_spec {heap grown : Heap} {object : Object} {size : Nat} {h : Handle}
    (tidy : heap.Tidy) (inserted : heap.insert object size = (h,grown)) :
    heap.get? h = none ∧ grown.get? h = some object ∧
      (∀ other, other ≠ h → grown.get? other = heap.get? other) ∧ grown.strings = heap.strings ∧
      grown.free.Nodup ∧ ∀ index ∈ grown.free, grown.slots[index]? = some none := by
  have differ {a b : Handle} (other : a ≠ b) : b.index ≠ a.index := fun same =>
    other (by cases a; cases b; simp_all)
  rw [insert] at inserted
  split at inserted
  next index free known =>
    cases inserted
    have vacant : heap.slots[index]? = some none := tidy.vacant index (by simp [known])
    have distinct := tidy.distinct
    rw [known,List.nodup_cons] at distinct
    have bound := (Array.getElem?_eq_some_iff.mp vacant).1
    refine ⟨by simp [get?,vacant],?_,?_,rfl,distinct.2,?_⟩
    · simp [get?,bound]
    · intro other different
      simp [get?,Array.getElem?_setIfInBounds_ne (differ different)]
    · intro place member
      have different : index ≠ place := fun same => distinct.1 (same ▸ member)
      rw [Array.getElem?_setIfInBounds_ne different]
      exact tidy.vacant place (by simp [known,member])
  next known =>
    cases inserted
    refine ⟨by simp [get?],by simp [get?],?_,rfl,by simp [known],by simp [known]⟩
    intro other different
    have outside := differ different
    rw [get?,get?,Array.getElem?_push,if_neg outside.symm]

theorem collections_insert (heap : Heap) (object : Object) (size : Nat) :
    (heap.insert object size).2.collections = heap.collections := by
  rw [Heap.insert]
  split <;> rfl

theorem Tidy.insert {heap grown : Heap} {object : Object} {size : Nat} {h : Handle}
    (tidy : heap.Tidy) (inserted : heap.insert object size = (h,grown))
    (plain : ∀ text, object ≠ .string text) : grown.Tidy := by
  obtain ⟨vacant,found,others,strings,distinct,free⟩ := insert_spec tidy inserted
  refine ⟨distinct,free,fun text other => ?_⟩
  rw [find?,strings,← find?,tidy.interned]
  by_cases same : other = h
  · subst same
    simp [vacant,found,plain]
  · rw [others other same]

/-- A string that was not there yet. -/
theorem insertString_spec {heap grown : Heap} {text : Bytes} {h : Handle} (tidy : heap.Tidy)
    (missing : heap.find? text = none) (inserted : heap.insertString text = (h,grown)) :
    grown.Tidy ∧ heap.get? h = none ∧ grown.get? h = some (.string text) ∧
      ∀ other, other ≠ h → grown.get? other = heap.get? other := by
  rw [insertString] at inserted
  cases first : heap.insert (.string text) (Footprint.string text) with
  | mk place larger =>
    rw [first] at inserted
    cases inserted
    obtain ⟨vacant,found,others,strings,distinct,free⟩ := insert_spec tidy first
    refine ⟨⟨distinct,free,fun other place => ?_⟩,vacant,found,others⟩
    change (larger.strings.insert text h)[other]? = some place ↔ larger.get? place = _
    rw [Std.TreeMap.getElem?_insert,strings]
    have known := tidy.interned other place
    rw [find?] at known
    by_cases same : place = h
    · subst same
      rw [found]
      by_cases equal : text = other
      · subst equal
        simp
      · simp [equal,known,vacant]
    · rw [others place same,← known]
      by_cases equal : text = other
      · subst equal
        rw [find?] at missing
        simp [missing,Ne.symm same]
      · simp [equal]

theorem get?_update (heap : Heap) (h : Handle) (change : Object → Object) (other : Handle) :
    (heap.update h change).get? other =
      if other = h then (heap.get? h).map change else heap.get? other := by
  by_cases same : other = h
  · subst same
    simp only [update,get?,Array.getElem?_modify,↓reduceIte]
    cases heap.slots[other.index]? with
    | none => rfl
    | some resident => cases resident <;> rfl
  · have different : h.index ≠ other.index := fun equal => same (by cases h; cases other; simp_all)
    simp [update,get?,Array.getElem?_modify,different,same]

/-- A change that leaves the strings alone. -/
theorem Tidy.change {heap : Heap} {h : Handle} {change : Object → Object} (tidy : heap.Tidy)
    (strings : ∀ text, (heap.get? h).map change = some (.string text) ↔
      heap.get? h = some (.string text)) : (heap.update h change).Tidy where
  distinct := tidy.distinct
  vacant := by
    intro index free
    have vacant := tidy.vacant index free
    simp only [Heap.update,Array.getElem?_modify]
    split <;> simp [vacant]
  interned := by
    intro text other
    change heap.find? text = some other ↔ _
    rw [tidy.interned,get?_update]
    by_cases same : other = h
    · subst same
      rw [if_pos rfl,strings]
    · rw [if_neg same]

/-- Changing an object that is no string, and does not become one. -/
theorem Tidy.update {heap : Heap} {h : Handle} {object : Object} {change : Object → Object}
    (tidy : heap.Tidy) (found : heap.get? h = some object) (plain : ∀ text, object ≠ .string text)
    (still : ∀ text, change object ≠ .string text) : (heap.update h change).Tidy :=
  tidy.change fun text => by simp [found,plain,still]

end ScriptMachine.Heap
