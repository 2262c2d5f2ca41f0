import CrossRef.Check.Analysis
import Std.Data.HashMap

/-! The bindings that have been met in a file, by name. Those of one name are kept in runs, which tell how
far they reach, so that looking a name up does not go through all that have gone out of scope. -/

namespace CrossRef.Check

/-- Some bindings, the last one first. Behind `reach` none of them is in scope. -/
structure Run where
  bindings : List Binding
  reach : Option Nat
  within_reach : ∀ b ∈ bindings, ∀ offset, b.covers offset → reach.all (offset < ·)

namespace Run

/-- A binding alone. -/
def single (b : Binding) : Run where
  bindings := [b]
  reach := b.scopeEnd
  within_reach c member offset covers := by
    cases List.mem_singleton.1 member
    exact Binding.before_scopeEnd covers

/-- The nearest binding at an offset, among those of a run. -/
def nearest? (run : Run) (offset : Nat) : Option Binding :=
  if run.reach.all (offset < ·) then run.bindings.find? (·.covers offset) else none

theorem nearest?_eq (run : Run) (offset : Nat) :
    run.nearest? offset = run.bindings.find? (·.covers offset) := by
  rw [nearest?]
  split
  · rfl
  · rename_i behind
    refine (List.find?_eq_none.2 fun b member covers => ?_).symm
    exact behind (run.within_reach b member offset covers)

/-- The run with one more binding in front, if both of them end. -/
def extend? (run : Run) (b : Binding) : Option Run :=
  match ends : run.reach, last : b.scopeEnd with
  | some reach, some scopeEnd =>
    some ⟨b :: run.bindings, some (max scopeEnd reach), fun c member offset covers => by
      rcases List.mem_cons.1 member with same | old
      · have inside := Binding.before_scopeEnd covers
        simp only [same, last, Option.all_some, decide_eq_true_eq] at inside ⊢
        omega
      · have inside := run.within_reach c old offset covers
        simp only [ends, Option.all_some, decide_eq_true_eq] at inside ⊢
        omega⟩
  | _, _ => none

theorem bindings_of_extend? {run longer : Run} {b : Binding} (some_longer : run.extend? b = some longer) :
    longer.bindings = b :: run.bindings := by
  rw [extend?] at some_longer
  split at some_longer
  · cases some_longer
    rfl
  · cases some_longer

end Run

/-- The runs of one name, the last one first. -/
abbrev Runs := List Run

namespace Runs

def bindings (runs : Runs) : List Binding :=
  runs.flatMap (·.bindings)

/-- Adds a binding to the last run or behind it. -/
def push (runs : Runs) (b : Binding) : Runs :=
  match runs with
  | [] => [.single b]
  | run :: rest =>
    match run.extend? b with
    | some longer => longer :: rest
    | none => .single b :: run :: rest

/-- The nearest binding at an offset. -/
def nearest? (runs : Runs) (offset : Nat) : Option Binding :=
  runs.findSome? (·.nearest? offset)

theorem bindings_push (runs : Runs) (b : Binding) : (runs.push b).bindings = b :: runs.bindings := by
  cases runs with
  | nil => rfl
  | cons run rest =>
    rw [push]
    split
    · rename_i longer some_longer
      simp [bindings, Run.bindings_of_extend? some_longer]
    · rfl

theorem nearest?_eq (runs : Runs) (offset : Nat) :
    runs.nearest? offset = runs.bindings.find? (·.covers offset) := by
  simp only [nearest?, bindings, List.find?_flatMap, Run.nearest?_eq]

end Runs

/-- The bindings that have been met in a file. -/
structure OwnBindings where
  byName : Std.HashMap String Runs

namespace OwnBindings

def empty : OwnBindings := ⟨∅⟩

def runs (own : OwnBindings) (name : String) : Runs :=
  own.byName.getD name []

def add (own : OwnBindings) (b : Binding) : OwnBindings :=
  ⟨own.byName.insert b.symbol.name ((own.runs b.symbol.name).push b)⟩

/-- The bindings of a list, which starts with the last one. -/
def ofList (bindings : List Binding) : OwnBindings :=
  bindings.foldr (fun b own => own.add b) empty

/-- The nearest binding of a reference's name, among those in scope. -/
def nearest? (own : OwnBindings) (r : Reference) : Option Binding :=
  (own.runs r.name).nearest? r.offset

@[simp] theorem ofList_cons (b : Binding) (bindings : List Binding) :
    ofList (b :: bindings) = (ofList bindings).add b :=
  rfl

theorem runs_add (own : OwnBindings) (b : Binding) (name : String) :
    (own.add b).runs name = if b.symbol.name = name then (own.runs name).push b else own.runs name := by
  by_cases same : b.symbol.name = name
  · subst same
    simp [runs, add]
  · simp [runs, add, Std.HashMap.getD_insert, same]

/-- The runs of a name hold its bindings, in their order. -/
theorem bindings_runs (bindings : List Binding) (name : String) :
    ((ofList bindings).runs name).bindings = bindings.filter (·.symbol.name = name) := by
  induction bindings with
  | nil => simp [ofList, empty, runs, Runs.bindings]
  | cons b rest ih =>
    rw [ofList_cons, runs_add]
    by_cases same : b.symbol.name = name <;> simp [same, Runs.bindings_push, ih]

theorem nearest?_ofList (bindings : List Binding) (r : Reference) :
    (ofList bindings).nearest? r =
      bindings.find? fun b => b.symbol.name = r.name ∧ b.covers r.offset := by
  rw [nearest?, Runs.nearest?_eq, bindings_runs, List.find?_filter]
  simp

end OwnBindings

end CrossRef.Check
