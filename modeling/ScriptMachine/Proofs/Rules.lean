import Mathlib
import ScriptMachine.Proofs.Naming

/-! The static rules of the language. A tree alone tells which of them it breaks and where: what is
declared twice, what stands outside of a function or a loop, what is assigned without being a variable
or a field, and which functions have too many locals or reach too many variables around them. -/
namespace ScriptMachine

open Compile

/-- A rule that is broken, and where. -/
structure Fault where
  cause : Diagnostic.Cause
  span : Span
  deriving DecidableEq, Repr

namespace Fault

/-- How the fault is reported. -/
def located (source : Source) (fault : Fault) : Diagnostic :=
  .locate source fault.cause fault.span

/-- A rule that is kept is no fault. -/
def check (rule : Prop) [Decidable rule] (cause : Diagnostic.Cause) (span : Span) : List Fault :=
  if rule then [] else [⟨cause,span⟩]

@[simp] theorem check_eq_nil {rule : Prop} [Decidable rule] {cause : Diagnostic.Cause} {span : Span} :
    check rule cause span = [] ↔ rule := by
  simp [check]

@[simp] theorem mem_check {rule : Prop} [Decidable rule] {cause : Diagnostic.Cause} {span : Span}
    {fault : Fault} : fault ∈ check rule cause span ↔ ¬rule ∧ fault = ⟨cause,span⟩ := by
  rw [check]
  split <;> simp [*]

theorem broken {rule : Prop} [Decidable rule] {cause : Diagnostic.Cause} {span : Span}
    (not : ¬rule) : ⟨cause,span⟩ ∈ check rule cause span :=
  mem_check.mpr ⟨not,rfl⟩

end Fault

/-! Repeated names. -/

/-- The entries whose names have been seen or stand before them. -/
def repeated (cause : Bytes → Diagnostic.Cause) (seen : List Bytes) :
    List (Bytes × Span) → List Fault
  | [] => []
  | (name,span) :: rest =>
    Fault.check (name ∉ seen) (cause name) span ++ repeated cause (name :: seen) rest

section

variable {cause : Bytes → Diagnostic.Cause} {seen : List Bytes} {entries more : List (Bytes × Span)}

theorem repeated_append : repeated cause seen (entries ++ more) =
    repeated cause seen entries ++ repeated cause ((entries.map (·.1)).reverse ++ seen) more := by
  induction entries generalizing seen with
  | nil => rfl
  | cons first rest ih =>
    rw [List.cons_append,repeated,repeated,ih]
    simp

/-- Nothing is repeated where all names differ. -/
theorem repeated_eq_nil : repeated cause seen entries = [] ↔
    (entries.map (·.1)).Nodup ∧ ∀ entry ∈ entries, entry.1 ∉ seen := by
  induction entries generalizing seen with
  | nil => simp [repeated]
  | cons first rest ih =>
    rw [repeated,List.append_eq_nil_iff,Fault.check_eq_nil,ih,List.map_cons,List.nodup_cons,
      List.forall_mem_cons]
    constructor
    · rintro ⟨new,distinct,others⟩
      refine ⟨⟨?_,distinct⟩,new,fun entry member known => others entry member (.tail _ known)⟩
      intro again
      obtain ⟨entry,member,same⟩ := List.mem_map.mp again
      exact others entry member (same ▸ List.mem_cons_self)
    · rintro ⟨⟨apart,distinct⟩,new,others⟩
      refine ⟨new,distinct,fun entry member known => ?_⟩
      rcases List.mem_cons.mp known with same | known
      · exact apart (same ▸ List.mem_map_of_mem member)
      · exact others entry member known

end

/-- The name that a statement declares. -/
def Stmt.declaration? : Stmt → Option (Bytes × Span)
  | .declare span name _ | .function span name .. | .struct span name _ => some (name,span)
  | _ => none

/-- What is declared directly in a block. -/
def declarations (body : List Stmt) : List (Bytes × Span) :=
  body.filterMap Stmt.declaration?

/-! Variables of functions around. -/

/-- A variable as the next function around sees it, unless it is not outside of this one. -/
def Variable.outward? : Variable → Option Variable
  | ⟨0,_⟩ => none
  | ⟨distance + 1,slot⟩ => some ⟨distance,slot⟩

@[simp] theorem Variable.outward?_deeper (v : Variable) : v.deeper.outward? = some v := rfl

/-- A place where a local variable is used, of this function or one around it. -/
structure Mention where
  used : Variable
  span : Span
  deriving DecidableEq, Repr

/-- What a function uses of those around it. -/
def outward (mentions : List Mention) : List Mention :=
  mentions.filterMap fun m => m.used.outward?.map (⟨·,m.span⟩)

def Scopes.mentions (scopes : Scopes) (name : Bytes) (span : Span) : List Mention :=
  (scopes.find name).toList.map (⟨·,span⟩)

mutual

/-- The places in an expression where local variables are used, in the order in which they come about. -/
def Expr.mentions (scopes : Scopes) : Expr → List Mention
  | .number .. | .string .. | .bool .. | .nil _ => []
  | .binary _ _ lhs rhs | .logical _ _ lhs rhs => lhs.mentions scopes ++ rhs.mentions scopes
  | .unary _ _ operand => operand.mentions scopes
  | .name span spelling => scopes.mentions spelling span
  | .call _ callee arguments => callee.mentions scopes ++ Expr.mentionsOf scopes arguments
  | .assign span (.name _ spelling) value =>
    value.mentions scopes ++ scopes.mentions spelling span
  | .assign _ (.field _ object _) value => value.mentions scopes ++ object.mentions scopes
  | .assign _ _ value => value.mentions scopes
  | .field _ object _ => object.mentions scopes
  | .lambda _ parameters body => outward (Stmt.mentionsIn (scopes.enter parameters) body)

def Expr.mentionsOf (scopes : Scopes) : List Expr → List Mention
  | [] => []
  | first :: rest => first.mentions scopes ++ Expr.mentionsOf scopes rest

def Stmt.mentions (scopes : Scopes) : Stmt → List Mention
  | .expression _ value | .print _ value | .declare _ _ (some value) => value.mentions scopes
  | .declare _ _ none | .struct .. | .breakLoop _ | .continueLoop _ => []
  | .block _ body => Stmt.mentionsIn scopes.openBlock body
  | .function _ name parameters body =>
    outward (Stmt.mentionsIn ((scopes.declare name).enter parameters) body)
  | .ret _ (some value) => value.mentions scopes
  | .ret _ none => []
  | .branch _ condition yes none =>
    condition.mentions scopes ++ Stmt.mentionsIn scopes.openBlock yes
  | .branch _ condition yes (some no) =>
    condition.mentions scopes ++ Stmt.mentionsIn scopes.openBlock yes ++
      Stmt.mentionsIn scopes.openBlock no
  | .loop _ none body => Stmt.mentionsIn scopes.openBlock body
  | .loop _ (some condition) body =>
    condition.mentions scopes ++ Stmt.mentionsIn scopes.openBlock body

def Stmt.mentionsIn (scopes : Scopes) : List Stmt → List Mention
  | [] => []
  | first :: rest => first.mentions scopes ++ Stmt.mentionsIn (first.after scopes) rest

end

/-- The places at which more variables are used than a function may capture. -/
def crowded (seen : Finset Variable) : List Mention → List Fault
  | [] => []
  | m :: rest =>
    Fault.check ((insert m.used seen).card ≤ captureLimit) .tooManyCaptures m.span ++
      crowded (insert m.used seen) rest

section

variable {seen : Finset Variable} {mentions front back : List Mention} {m : Mention}

/-- The variables of some uses. -/
def usedBy (mentions : List Mention) : Finset Variable :=
  (mentions.map (·.used)).toFinset

@[simp] theorem usedBy_nil : usedBy [] = ∅ := rfl

@[simp] theorem usedBy_cons : usedBy (m :: mentions) = insert m.used (usedBy mentions) := by
  simp [usedBy]

/-- A function is not crowded if it uses few enough variables in all. -/
theorem crowded_eq_nil (few : seen.card ≤ captureLimit) :
    crowded seen mentions = [] ↔ (seen ∪ usedBy mentions).card ≤ captureLimit := by
  induction mentions generalizing seen with
  | nil => simpa [crowded] using few
  | cons m rest ih =>
    rw [crowded,List.append_eq_nil_iff,Fault.check_eq_nil,usedBy_cons,Finset.union_insert,
      ← Finset.insert_union]
    constructor
    · rintro ⟨first,others⟩
      exact (ih first).mp others
    · intro all
      have first := (Finset.card_le_card Finset.subset_union_left).trans all
      exact ⟨first,(ih first).mpr all⟩

theorem mem_crowded
    (many : captureLimit < (insert m.used (seen ∪ usedBy front)).card) :
    ⟨.tooManyCaptures,m.span⟩ ∈ crowded seen (front ++ m :: back) := by
  induction front generalizing seen with
  | nil =>
    rw [usedBy_nil,Finset.union_empty] at many
    exact List.mem_append_left _ (Fault.broken (Nat.not_le.mpr many))
  | cons first rest ih =>
    refine List.mem_append_right _ (ih ?_)
    rwa [usedBy_cons,Finset.union_insert,← Finset.insert_union] at many

end

/-! The rules. -/

/-- The function around has room for one more local. -/
def Scopes.room (scopes : Scopes) (span : Span) : List Fault :=
  Fault.check ((scopes.headD []).flatten.length < localLimit) .tooManyLocals span

/-- The rules for a function as such: its parameters and what is declared directly in its body have
different names, there are not too many of them, and it does not use too many variables of the
functions around it. -/
def functionFaults (span : Span) (parameters : List Bytes) (body : List Stmt)
    (mentions : List Mention) : List Fault :=
  repeated .duplicateVariable [] (parameters.map (·,span) ++ declarations body) ++
    Fault.check (parameters.length ≤ localLimit) .tooManyLocals span ++
    crowded ∅ (outward mentions)

/-- The rules for the statements of a block: what is declared directly in it has different names. -/
def blockFaults (body : List Stmt) (inside : List Fault) : List Fault :=
  repeated .duplicateVariable [] (declarations body) ++ inside

/-- A function keeps the rules if its names differ and the limits are kept. -/
theorem functionFaults_eq_nil {span : Span} {parameters : List Bytes} {body : List Stmt}
    {mentions : List Mention} : functionFaults span parameters body mentions = [] ↔
      (parameters ++ (declarations body).map (·.1)).Nodup ∧ parameters.length ≤ localLimit ∧
        (usedBy (outward mentions)).card ≤ captureLimit := by
  rw [functionFaults,List.append_eq_nil_iff,List.append_eq_nil_iff,repeated_eq_nil,
    Fault.check_eq_nil,crowded_eq_nil (Nat.zero_le _),Finset.empty_union,and_assoc]
  simp [Function.comp_def]

mutual

def Expr.faults (scopes : Scopes) : Expr → List Fault
  | .number .. | .string .. | .bool .. | .nil _ | .name .. => []
  | .binary _ _ lhs rhs | .logical _ _ lhs rhs => lhs.faults scopes ++ rhs.faults scopes
  | .unary _ _ operand => operand.faults scopes
  | .call _ callee arguments => callee.faults scopes ++ Expr.faultsOf scopes arguments
  | .assign _ (.name ..) value => value.faults scopes
  | .assign _ (.field _ object _) value => value.faults scopes ++ object.faults scopes
  | .assign _ target value => ⟨.badTarget,target.span⟩ :: value.faults scopes
  | .field _ object _ => object.faults scopes
  | .lambda span parameters body =>
    functionFaults span parameters body (Stmt.mentionsIn (scopes.enter parameters) body) ++
      Stmt.faultsIn (scopes.enter parameters) false body

def Expr.faultsOf (scopes : Scopes) : List Expr → List Fault
  | [] => []
  | first :: rest => first.faults scopes ++ Expr.faultsOf scopes rest

def Stmt.faults (scopes : Scopes) (inLoop : Bool) : Stmt → List Fault
  | .expression _ value | .print _ value => value.faults scopes
  | .declare span _ none => scopes.room span
  | .declare span _ (some value) => value.faults scopes ++ scopes.room span
  | .block _ body => blockFaults body (Stmt.faultsIn scopes.openBlock inLoop body)
  | .function span name parameters body =>
    scopes.room span ++
      functionFaults span parameters body
        (Stmt.mentionsIn ((scopes.declare name).enter parameters) body) ++
      Stmt.faultsIn ((scopes.declare name).enter parameters) false body
  | .struct span _ fields =>
    repeated .duplicateField [] (fields.map (·,span)) ++ scopes.room span
  | .ret span none => Fault.check (1 < scopes.length) .returnOutsideFunction span
  | .ret span (some value) =>
    Fault.check (1 < scopes.length) .returnOutsideFunction span ++ value.faults scopes
  | .branch _ condition yes none =>
    condition.faults scopes ++ blockFaults yes (Stmt.faultsIn scopes.openBlock inLoop yes)
  | .branch _ condition yes (some no) =>
    condition.faults scopes ++ blockFaults yes (Stmt.faultsIn scopes.openBlock inLoop yes) ++
      blockFaults no (Stmt.faultsIn scopes.openBlock inLoop no)
  | .loop _ none body => blockFaults body (Stmt.faultsIn scopes.openBlock true body)
  | .loop _ (some condition) body =>
    condition.faults scopes ++ blockFaults body (Stmt.faultsIn scopes.openBlock true body)
  | .breakLoop span => Fault.check inLoop .breakOutsideLoop span
  | .continueLoop span => Fault.check inLoop .continueOutsideLoop span

/-- The faults in statements one after the other. -/
def Stmt.faultsIn (scopes : Scopes) (inLoop : Bool) : List Stmt → List Fault
  | [] => []
  | first :: rest => first.faults scopes inLoop ++ Stmt.faultsIn (first.after scopes) inLoop rest

end

/-- Everything that is wrong with a script. Its globals have different names. -/
def programFaults (program : List Stmt) : List Fault :=
  repeated .duplicateGlobal [] (declarations program) ++ Stmt.faultsIn [[]] false program

end ScriptMachine
