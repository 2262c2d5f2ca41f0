import CrossRef.Collect.Buckets
import CrossRef.Search.Visibility

/-! Uses by document. A use in a file belongs to each document that the file backs. -/

namespace CrossRef

structure DocumentUses where
  document : DocumentId
  uses : List Use
deriving DecidableEq, Repr, Inhabited

/-- Keeps the first use of each place. -/
def distinctPlaces (uses : List Use) : List Use :=
  distinctBy (fun u => u.place.key) uses

/-- The uses of each document, in the order in which they come; the documents in the order of their ids.
Uses in files that the solution does not know are left out. -/
def groupByDocument (uses : List Use) (solution : Solution) : List DocumentUses :=
  let pairs := uses.flatMap fun u => (solution.documentsOf u.place.file).map fun id => (id, u)
  let documents := distinctBy DocumentId.key (pairs.map (·.1))
  let byDocument := Buckets.ofList (fun pair : DocumentId × Use => pair.1.key) pairs
  (documents.mergeSort fun a b => (compare a b).isLE).map fun id =>
    ⟨id, (byDocument.get id.key).map (·.2)⟩

end CrossRef
