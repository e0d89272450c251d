import ScriptMachine.Heap

/-! Freeing what the roots do not reach. Marking follows references from a work list, and every
round marks one more place, so no more rounds are needed than there are places. -/
namespace ScriptMachine.Heap

def references (heap : Heap) (h : Handle) : List Handle :=
  match heap.get? h with
  | some object => object.references
  | none => []

/-- Is there nothing to do for this handle? -/
def isSettled (marked : Array Bool) (h : Handle) : Bool :=
  marked.getD h.index true

/-- Marks what the work list reaches, in a bounded number of rounds. -/
def mark (heap : Heap) : Nat → Array Bool → List Handle → Array Bool
  | 0, marked, _ => marked
  | rounds + 1, marked, work =>
    match work.dropWhile (isSettled marked) with
    | [] => marked
    | h :: rest =>
      mark heap rounds (marked.setIfInBounds h.index true) (heap.references h ++ rest)

/-- Which places hold an object that the roots reach. -/
def reached (heap : Heap) (roots : List Handle) : Array Bool :=
  heap.mark heap.slots.size (Array.replicate heap.slots.size false) roots

/-- The occupied places without a mark, in ascending order. -/
def unreached (heap : Heap) (marked : Array Bool) : List Nat :=
  (List.range heap.slots.size).filter fun i =>
    ((heap.slots[i]?).join).isSome && !marked.getD i false

def sizeAt (heap : Heap) (index : Nat) : Nat :=
  ((heap.slots[index]?).join.map (·.size)).getD 0

/-- Frees the places without a mark. -/
def sweep (heap : Heap) (marked : Array Bool) : Heap :=
  let dead := heap.unreached marked
  { heap with
    slots := heap.slots.mapIdx fun i resident => if marked.getD i false then resident else none
    free := dead.reverse ++ heap.free
    strings := heap.strings.filter fun _ h => marked.getD h.index false
    bytes := dead.foldl (fun bytes index => bytes - heap.sizeAt index) heap.bytes }

/-- The limit that the policy sets for so many remaining bytes. -/
def nextLimit (policy : Policy) (bytes : Nat) : Nat :=
  max (Float.ofNat bytes * policy.growth).toUInt64.toNat policy.threshold

/-- Frees every object that the roots do not reach, and sets the next limit. -/
def collect (heap : Heap) (roots : List Handle) : Heap :=
  let swept := heap.sweep (heap.reached roots)
  { swept with
    limit := nextLimit swept.policy swept.bytes
    collections := swept.collections + 1 }

end ScriptMachine.Heap
