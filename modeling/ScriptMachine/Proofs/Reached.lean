import Mathlib
import ScriptMachine.Proofs.Rules

/-! What the captures of functions under construction reach. Each entry stands for one variable of a
function around, so a function has as many entries as variables it has used of those functions, in its
own code or for a function nested in it. -/
namespace ScriptMachine

open Compile

/-- The variable that an entry stands for, as the function next around sees it, given the captures of
the functions around. -/
def Capture.target (around : List (List Capture)) (c : Capture) : Option Variable :=
  if c.isLocal then some ⟨0,c.index⟩ else follow around c.index

theorem follow_cons (own : List Capture) (around : List (List Capture)) (k : Nat) :
    follow (own :: around) k = (own[k]?.bind (·.target around)).map .deeper := by
  rw [follow]
  cases own[k]? with
  | none => rfl
  | some c =>
    dsimp only
    rw [Option.bind_some,Capture.target]
    split <;> rfl

/-- The variables around a function that its entries stand for. -/
def reached : List (List Capture) → Finset Variable
  | [] => ∅
  | own :: around => (own.filterMap (·.target around)).toFinset

@[simp] theorem mem_reached {own : List Capture} {around : List (List Capture)} {v : Variable} :
    v ∈ reached (own :: around) ↔ ∃ c ∈ own, c.target around = some v := by
  simp [reached]

/-- One more entry reaches one more variable. -/
theorem reached_append {own : List Capture} {around : List (List Capture)} {c : Capture} {v : Variable}
    (leads : c.target around = some v) :
    reached ((own ++ [c]) :: around) = insert v (reached (own :: around)) := by
  ext w
  simp [leads,or_comm,eq_comm]

/-- A variable as the function sees it that is so many functions further out than the next one around,
unless it is not outside of that one. -/
def Variable.beyond? : Nat → Variable → Option Variable
  | 0, v => v.outward?
  | k + 1, v => v.outward?.bind (beyond? k)

@[simp] theorem Variable.beyond?_deeper (k : Nat) (v : Variable) :
    beyond? (k + 1) v.deeper = beyond? k v := rfl

@[simp] theorem Variable.beyond?_inside (k slot : Nat) : beyond? k ⟨0,slot⟩ = none := by
  cases k <;> rfl

section

variable {own outer : List Capture} {around larger : List (List Capture)}
  {blocks : List (List Bytes)} {scopes : Scopes}

theorem Chained.target_isSome (chained : Chained (own :: around) (blocks :: scopes)) {c : Capture}
    (member : c ∈ own) : ∃ v, c.target around = some v := by
  obtain ⟨k,bound,rfl⟩ := List.mem_iff_getElem.mp member
  obtain ⟨v,leads,-⟩ := chained.leads bound
  rw [follow_cons,List.getElem?_eq_getElem bound] at leads
  obtain ⟨w,known,-⟩ := Option.map_eq_some_iff.mp leads
  exact ⟨w,known⟩

theorem Chained.nodup (chained : Chained (own :: around) (blocks :: scopes)) : own.Nodup := by
  cases chained with
  | script => exact List.nodup_nil
  | function distinct => exact distinct

/-- A function reaches as many variables as it has entries. -/
theorem Chained.card_reached (chained : Chained (own :: around) (blocks :: scopes)) :
    (reached (own :: around)).card = own.length := by
  let place (c : Capture) : Variable := (c.target around).getD ⟨0,0⟩
  have entry (c : Capture) (member : c ∈ own) : c.target around = some (place c) := by
    obtain ⟨v,known⟩ := chained.target_isSome member
    simp [place,known]
  have listed : own.filterMap (·.target around) = own.map place := by
    rw [List.filterMap_congr entry]
    exact congrFun List.filterMap_eq_map own
  have apart : ∀ c ∈ own, ∀ d ∈ own, place c = place d → c = d := by
    intro c first d second same
    obtain ⟨j,here,rfl⟩ := List.mem_iff_getElem.mp first
    obtain ⟨k,there,rfl⟩ := List.mem_iff_getElem.mp second
    have leads : follow (own :: around) j = follow (own :: around) k := by
      rw [follow_cons,follow_cons,List.getElem?_eq_getElem here,List.getElem?_eq_getElem there,
        Option.bind_some,Option.bind_some,entry _ first,entry _ second,same]
    simp only [chained.apart here there leads]
  rw [reached,listed,List.toFinset_card_of_nodup (chained.nodup.map_on apart),List.length_map]

/-- One more entry of the innermost function. -/
theorem Chained.snoc {more : List (List Bytes)} {c : Capture}
    (chained : Chained (own :: outer :: around) (blocks :: more :: scopes)) (missing : c ∉ own)
    (link : c.index < if c.isLocal then more.flatten.length else outer.length) :
    Chained ((own ++ [c]) :: outer :: around) (blocks :: more :: scopes) := by
  cases chained with
  | function distinct linked further =>
    refine .function ?_ (fun d member => ?_) further
    · refine List.nodup_append.mpr ⟨distinct,List.nodup_singleton c,?_⟩
      rintro old member new other rfl
      exact missing (List.mem_singleton.mp other ▸ member)
    · rcases List.mem_append.mp member with old | new
      · exact linked d old
      · obtain rfl := List.mem_singleton.mp new
        exact link

/-- Entries of functions around that are added later change nothing. -/
theorem Chained.reached_grown (chained : Chained (own :: around) (blocks :: scopes))
    (grown : List.Forall₂ (· <+: ·) around larger) :
    reached (own :: larger) = reached (own :: around) := by
  have same (c : Capture) (member : c ∈ own) : c.target larger = c.target around := by
    obtain ⟨v,known⟩ := chained.target_isSome member
    rw [known]
    rw [Capture.target] at known ⊢
    split at known
    next isLocal => rwa [if_pos isLocal]
    next notLocal => rw [if_neg notLocal,follow_grown grown known]
  rw [reached,reached,List.filterMap_congr same]

end

namespace Compile

variable {f g outer : FunctionScope} {rest enclosing later : List FunctionScope} {name : Bytes}
  {index : Nat}

/-- Functions under construction capture what is in scope in those around them. -/
theorem Nested.chained (nested : Nested (f :: rest))
    (distinct : ∀ h ∈ f :: rest, h.captures.Nodup) :
    Chained ((f :: rest).map (·.captures)) ((f :: rest).map (·.names)) := by
  induction rest generalizing f with
  | nil =>
    rw [List.map_singleton,List.map_singleton,nested.2]
    exact .script _
  | cons outer rest ih =>
    obtain ⟨-,linked,further⟩ := nested
    obtain ⟨own,others⟩ := List.forall_mem_cons.mp distinct
    refine .function own (fun c member => ?_) (ih further others)
    have link := linked c member
    split at link
    next isLocal =>
      rw [if_pos isLocal,outer.length_names]
      exact further.regular.cells_lt link
    next notLocal =>
      rw [if_neg notLocal]
      exact link

/-- A new entry reaches its variable; one that is there already does so too. -/
theorem FunctionScope.capture?_reached {c : Capture} {around : List (List Capture)} {v : Variable}
    (found : f.capture? c = some (index,g)) (leads : c.target around = some v) :
    reached (g.captures :: around) = insert v (reached (f.captures :: around)) := by
  rw [capture?] at found
  split at found
  next place known =>
    cases found
    obtain ⟨bound,same,-⟩ := List.findIdx?_eq_some_iff_getElem.mp known
    refine (Finset.insert_eq_of_mem (mem_reached.mpr ⟨_,List.getElem_mem bound,?_⟩)).symm
    rw [of_decide_eq_true same,leads]
  next =>
    split at found
    · cases found
      exact reached_append leads
    · contradiction

theorem FunctionScope.capture?_full {c : Capture} (full : f.capture? c = none) :
    c ∉ f.captures ∧ captureLimit ≤ f.captures.length := by
  rw [capture?] at full
  split at full
  · contradiction
  next absent =>
    split at full
    · contradiction
    next many =>
      refine ⟨fun member => ?_,Nat.not_lt.mp many⟩
      have different := List.findIdx?_eq_none_iff.mp absent c member
      simp at different

/-- A search for a variable around adds it to what each function on the way to it reaches. -/
theorem resolveCapture_reached
    (found : resolveCapture name f enclosing = .captured index g later)
    (nested : Nested (f :: enclosing)) (distinct : ∀ h ∈ f :: enclosing, h.captures.Nodup)
    {v : Variable} (meaning : Scopes.find name (enclosing.map (·.names)) = some v) (k : Nat) :
    reached (((g :: later).map (·.captures)).drop k) =
      reached (((f :: enclosing).map (·.captures)).drop k) ∪ (v.deeper.beyond? k).toFinset := by
  induction enclosing generalizing f g later index v k with
  | nil => simp [resolveCapture] at found
  | cons outer rest ih =>
    have chained := nested.chained distinct
    obtain ⟨-,-,further⟩ := nested
    obtain ⟨own,others⟩ := List.forall_mem_cons.mp distinct
    rw [resolveCapture] at found
    rw [List.map_cons] at meaning
    cases known : outer.slot? name with
    | some slot =>
      rw [known] at found
      dsimp only at found
      rw [further.regular.find_inside known] at meaning
      cases meaning
      split at found
      next place inner added =>
        cases found
        cases k with
        | zero =>
          have grown : reached (g.captures :: (outer :: rest).map (·.captures)) = _ :=
            FunctionScope.capture?_reached added rfl
          refine grown.trans ?_
          rw [Variable.beyond?,Variable.outward?_deeper,Option.toFinset_some,Finset.insert_eq,
            Finset.union_comm]
          rfl
        | succ k =>
          rw [Variable.beyond?_deeper,Variable.beyond?_inside,Option.toFinset_none,
            Finset.union_empty]
          rfl
      next => contradiction
    | none =>
      rw [known] at found
      dsimp only at found
      rw [further.regular.find_outside known] at meaning
      obtain ⟨w,beyond,rfl⟩ := Option.map_eq_some_iff.mp meaning
      split at found
      next place larger functions resolved =>
        split at found
        next position inner added =>
          cases found
          cases k with
          | zero =>
            obtain ⟨-,u,named,leads⟩ := resolveCapture_leads resolved further others
            rw [beyond] at named
            cases named
            obtain ⟨raises,wider,-⟩ := resolveCapture_spec resolved further
            have target : Capture.target ((larger :: functions).map (·.captures)) ⟨place,false⟩ =
                some w.deeper := leads
            have kept : reached (f.captures :: (larger :: functions).map (·.captures)) = _ :=
              chained.reached_grown (raises_chain (.cons raises wider)).1
            refine (FunctionScope.capture?_reached added target).trans ?_
            rw [kept,Variable.beyond?,Variable.outward?_deeper,Option.toFinset_some,
              Finset.insert_eq,Finset.union_comm]
            rfl
          | succ k =>
            rw [Variable.beyond?_deeper]
            exact ih resolved further others beyond k
        next => contradiction
      next => contradiction
      next => contradiction

/-- An entry that finds no room would be one too many. -/
theorem Nested.refused {c : Capture} {v : Variable} (nested : Nested (f :: outer :: rest))
    (distinct : ∀ h ∈ f :: outer :: rest, h.captures.Nodup) (none : f.capture? c = none)
    (leads : c.target ((outer :: rest).map (·.captures)) = some v)
    (link : c.index < if c.isLocal then outer.names.flatten.length else outer.captures.length) :
    captureLimit < (insert v (reached (f.captures :: (outer :: rest).map (·.captures)))).card := by
  obtain ⟨missing,many⟩ := FunctionScope.capture?_full none
  have larger := ((nested.chained distinct).snoc missing link).card_reached
  rw [← reached_append leads]
  refine Nat.lt_of_lt_of_eq (Nat.lt_succ_of_le many) (Eq.symm (larger.trans ?_))
  simp

/-- A search fails where some function on the way has reached as many variables as it may, and not the
one that is searched for. -/
theorem resolveCapture_full (full : resolveCapture name f enclosing = .full)
    (nested : Nested (f :: enclosing)) (distinct : ∀ h ∈ f :: enclosing, h.captures.Nodup) :
    ∃ v k w, Scopes.find name (enclosing.map (·.names)) = some v ∧ k < enclosing.length ∧
      v.deeper.beyond? k = some w ∧ captureLimit <
        (insert w (reached (((f :: enclosing).map (·.captures)).drop k))).card := by
  induction enclosing generalizing f with
  | nil => simp [resolveCapture] at full
  | cons outer rest ih =>
    obtain ⟨regular,linked,further⟩ := id nested
    obtain ⟨own,others⟩ := List.forall_mem_cons.mp distinct
    rw [resolveCapture] at full
    rw [List.map_cons]
    cases known : outer.slot? name with
    | some slot =>
      rw [known] at full
      dsimp only at full
      split at full
      next => contradiction
      next refusal =>
        refine ⟨_,0,_,further.regular.find_inside known _,Nat.zero_lt_succ _,rfl,?_⟩
        have inside := further.regular.slot?_lt known
        rw [← FunctionScope.length_names] at inside
        exact nested.refused distinct refusal rfl inside
    | none =>
      rw [known] at full
      dsimp only at full
      split at full
      next place larger functions resolved =>
        split at full
        next => contradiction
        next refusal =>
          obtain ⟨kept,v,named,leads⟩ := resolveCapture_leads resolved further others
          obtain ⟨raises,wider,inner,bound⟩ := resolveCapture_spec resolved further
          have same : reached (f.captures :: (larger :: functions).map (·.captures)) = _ :=
            (nested.chained distinct).reached_grown (raises_chain (.cons raises wider)).1
          have many := Nested.refused (v := v.deeper) ⟨regular,linked.raise rfl raises,inner⟩
            (List.forall_mem_cons.mpr ⟨own,kept⟩) refusal leads bound
          rw [same] at many
          exact ⟨v.deeper,0,_,by rw [further.regular.find_outside known,named]; rfl,
            Nat.zero_lt_succ _,rfl,many⟩
      next => contradiction
      next resolved =>
        obtain ⟨v,k,w,named,bound,beyond,many⟩ := ih resolved further others
        exact ⟨v.deeper,k + 1,w,by rw [further.regular.find_outside known,named]; rfl,
          Nat.succ_lt_succ bound,beyond,many⟩

end Compile

end ScriptMachine
