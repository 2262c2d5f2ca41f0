import CrossRef.Solution.Basic

/-! What a checker gets to see of a project: its files, and in the same way those of the projects that it
refers to. A project is left out below itself, so the tree is finite even if references form a cycle. -/

namespace CrossRef

structure SourceFile where
  path : Path
  version : Nat
  text : String
deriving DecidableEq, Repr, Inhabited

structure Options where
  project : ProjectId
  /-- The files in the order in which they are compiled. -/
  files : List SourceFile
  defines : List String
  references : List Options
  /-- Differs whenever something that a check depends on differs. -/
  stamp : Stamp
deriving Inhabited

def Options.contains (options : Options) (path : Path) : Bool :=
  options.files.any (·.path.Same path)

/-- The options of a project, given those of the projects that it refers to. -/
def Project.options (p : Project) (references : List Options) : Options where
  project := p.id
  files := p.documents.map fun d => ⟨d.path, d.version, d.text⟩
  defines := p.configuration.defines
  references
  stamp := references.foldl (fun stamp referenced => .join stamp referenced.stamp) p.stamp

namespace Solution

/-- The options of a project that is reached through a chain of others, unless it lies on that chain.
`depth` bounds how much longer the chain may get. -/
def optionsBelow (s : Solution) : (depth : Nat) → (chain : List ProjectId) → ProjectId → Option Options
  | 0, _, _ => none
  | depth + 1, chain, id =>
    match s.project? id with
    | none => none
    | some project =>
      if chain.contains id then none
      else some (project.options
        (project.configuration.references.filterMap (optionsBelow s depth (id :: chain))))

/-- The options of a project. No chain is longer than the number of projects. -/
def options? (s : Solution) (id : ProjectId) : Option Options :=
  s.optionsBelow s.projects.length [] id

end Solution

end CrossRef
