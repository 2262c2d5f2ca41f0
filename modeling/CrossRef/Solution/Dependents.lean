import CrossRef.Solution.Basic

/-! Which projects depend on a project, directly or through others. -/

namespace CrossRef.Solution

/-- The projects that refer to one project, in project order. -/
def referrers (s : Solution) (id : ProjectId) : List ProjectId :=
  (s.projects.filter (·.configuration.references.contains id)).map (·.id)

/-- Searches breadth first: takes the first project of the queue and puts the ones that refer to it, if
they are new, behind the queue and behind those found before. Takes at most `steps` from the queue. -/
def reach (s : Solution) : (steps : Nat) → (queue found : List ProjectId) → List ProjectId
  | 0, _, found => found
  | _, [], found => found
  | steps + 1, current :: queue, found =>
    let fresh := (s.referrers current).filter (!found.contains ·)
    reach s steps (queue ++ fresh) (found ++ fresh)

/-- The projects that depend on a project, the nearest first. Each project enters the queue at most once,
so one step for each of them and one for the start is enough. -/
def dependents (s : Solution) (id : ProjectId) : List ProjectId :=
  (s.reach (s.projects.length + 1) [id] [id]).tail

end CrossRef.Solution
