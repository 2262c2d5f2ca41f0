import CrossRef.Proofs.FileUsesFound
import CrossRef.Proofs.HiddenSymbols
import CrossRef.Proofs.PlannedTokens
import CrossRef.Proofs.Preview

/-! A rename does not depend on the use that it is started from. Wherever a symbol is met, as the file's own or as one
that another file or project shows, it is the same symbol; and what it takes to find its uses depends on the document
of the start only if no other document can see the symbol, and then there is no other start. -/

namespace CrossRef
open Check Syntax

/-- Plans that agree in all that carrying them out depends on. -/
structure Plan.Alike (plan other : Plan) : Prop where
  symbol : plan.symbol = other.symbol
  visibility : plan.visibility = other.visibility
  new : plan.new = other.new
  strategy : plan.strategy = other.strategy
  origin : plan.visibility = .currentDocument → plan.document = other.document ∧ plan.version = other.version ∧
    plan.text = other.text ∧ plan.fileUses = other.fileUses

namespace Plan.Alike

variable {plan other : Plan}

theorem change (alike : plan.Alike other) : plan.change = other.change := by
  have step : plan.changeDocument = other.changeDocument := by
    funext s group
    simp only [changeDocument, alike.symbol, alike.new, alike.strategy]
  funext s groups
  rw [Plan.change, Plan.change, step]

variable {m : Type → Type} [Monad m] (service : Service m)

theorem locations (alike : plan.Alike other) (t : Solution) (cancelled : Bool) :
    service.locations plan t cancelled = service.locations other t cancelled := by
  cases seen : plan.visibility with
  | projects ids isInternal =>
    have shown := alike.visibility.symm.trans seen
    simp only [Service.locations, seen, shown, alike.symbol]
    rfl
  | currentDocument =>
    have shown := alike.visibility.symm.trans seen
    obtain ⟨document, version, text, fileUses⟩ := alike.origin seen
    have origin : service.originUses plan t = service.originUses other t := by
      simp only [Service.originUses, document, version, text, fileUses]
    simp only [Service.locations, seen, shown, alike.symbol, origin]

theorem apply (alike : plan.Alike other) (t : Solution) (cancelled : Bool) :
    service.apply plan t cancelled = service.apply other t cancelled := by
  simp only [Service.apply, alike.locations service, alike.change]

end Plan.Alike

namespace Service

variable {lookup : Lookup} {s : Solution} {document : Document} {span : Span} {strategy : Rename.Strategy}
  {change : String → String} {plan : Plan}

/-- A plan is made for a symbol that is bound somewhere in the solution, and in the document of the plan itself if no
other file can see it. -/
theorem binding_of_plan (valid : WellFormed s) (member : document ∈ s.documents)
    (made : ((plain lookup).plan s document span strategy change).run = .ok (some plan)) :
    ∃ p ∈ s.projects, ∃ d ∈ p.documents, ∃ b ∈ (p.analysis d).bindings, plan.symbol = b.symbol ∧
      (b.symbol.isPrivateToFile = true → d = document) := by
  obtain ⟨p, u, reported, same⟩ := symbol_of_plan valid member made
  obtain ⟨listed, inside, options, checked, m, b, resolved, symbol, -⟩ := reported
  by_cases hidden : b.symbol.isPrivateToFile = true
  · have own := Environment.own_of_private hidden resolved
    exact ⟨p, listed, document, inside, b, own, same.symm.trans symbol, fun _ => rfl⟩
  · obtain ⟨q, second, e, among, bound⟩ := Solution.exists_binding valid listed inside checked resolved
    exact ⟨q, second, e, among, b, bound, same.symm.trans symbol, fun absurd => (hidden absurd).elim⟩

private theorem strategy_of_plan (made : ((plain lookup).plan s document span strategy change).run = .ok (some plan)) :
    plan.strategy = strategy := by
  obtain ⟨resolved, visibility, -, -, -, -, whole⟩ := resolved_of_plan made
  rw [whole]

variable {e : Document} {other : Span} {change' : String → String} {twin : Plan}

private theorem alike_of_plans (valid : WellFormed s) (plain : s.Plain) (names : s.PlainNames)
    (member : document ∈ s.documents) (among : e ∈ s.documents)
    (made : ((Service.plain lookup).plan s document span strategy change).run = .ok (some plan))
    (made' : ((Service.plain lookup).plan s e other strategy change').run = .ok (some twin))
    (same : plan.symbol.id = twin.symbol.id) (new : plan.new = twin.new) : plan.Alike twin := by
  obtain ⟨p, first, d, inside, b, bound, symbol, own⟩ := binding_of_plan valid member made
  obtain ⟨q, second, f, within, c, bound', symbol', own'⟩ := binding_of_plan valid among made'
  rw [symbol, symbol'] at same
  have named := Solution.name_of_id plain.free names first second inside within bound bound' same
  obtain rfl := plain.binding_unique valid first second inside within bound bound' named same
  have strategies := (strategy_of_plan made).trans (strategy_of_plan made').symm
  obtain ⟨options, planned⟩ := plan_eq_ok made
  obtain ⟨options', planned'⟩ := plan_eq_ok made'
  have seen := symbol ▸ planned.visible
  have seen' := symbol' ▸ planned'.visible
  cases hidden : b.symbol.isPrivateToFile with
  | false =>
    rw [Solution.visibility?_of_shown valid first inside bound hidden] at seen seen'
    refine ⟨symbol.trans symbol'.symm, Option.some.inj (seen.symm.trans seen'), new, strategies, ?_⟩
    intro absurd
    rw [absurd] at seen
    cases seen
  | true =>
    -- Only the declaring document sees the symbol, so both plans were made there.
    obtain rfl := own hidden
    obtain rfl := own' hidden
    have place := (symbol_of_binding bound).2.1.symm.trans (symbol_of_binding bound').2.1
    have path : d.path = f.path := congrArg Place.file (Option.some.inj place)
    obtain rfl := plain.eq_of_same member among (path ▸ .refl _)
    obtain rfl := Option.some.inj (planned.present.symm.trans planned'.present)
    refine ⟨symbol.trans symbol'.symm, Option.some.inj (seen.symm.trans seen'), new, strategies, fun _ => ?_⟩
    exact ⟨planned.origin.trans planned'.origin.symm, planned.version.trans planned'.version.symm,
      planned.text.trans planned'.text.symm, planned.uses.trans planned'.uses.symm⟩

end Service

/-- Plans to give the same symbol the same name, made at any two places of a solution, agree on where the symbol can
be used, list the same uses in every solution, whatever became of the one they were made for, and change it in the
same way. -/
theorem rename_from_any_use {lookup : Lookup} {s : Solution} (run : Reachable s) (plain : s.Plain)
    (names : s.PlainNames) {d e : Document} (first : d ∈ s.documents) (second : e ∈ s.documents) {span other : Span}
    {strategy : Rename.Strategy} {change change' : String → String} {plan twin : Plan}
    (made : ((Service.plain lookup).plan s d span strategy change).run = .ok (some plan))
    (made' : ((Service.plain lookup).plan s e other strategy change').run = .ok (some twin))
    (same : plan.symbol.id = twin.symbol.id) (new : plan.new = twin.new) :
    plan.symbol = twin.symbol ∧ plan.visibility = twin.visibility ∧
      ∀ {m : Type → Type} [Monad m] (service : Service m) (t : Solution) (cancelled : Bool),
        service.locations plan t cancelled = service.locations twin t cancelled ∧
        service.apply plan t cancelled = service.apply twin t cancelled := by
  have alike := Service.alike_of_plans run.wellFormed plain names first second made made' same new
  refine ⟨alike.symbol, alike.visibility, ?_⟩
  intro m _ service t cancelled
  exact ⟨alike.locations service t cancelled, alike.apply service t cancelled⟩

namespace Sample

private theorem exists_plan_from_client : ∃ plan,
    ((Service.plain .precise).plan solution client ⟨8, 1⟩ .batched fun _ => "c").run = .ok (some plan) ∧
      plan.new = "c" ∧ plan.symbol = declared.symbol ∧ plan.document = client.id := by
  have cut : Span.slice? ⟨8, 1⟩ client.text = some "a" := by decide
  have narrowed : (Syntax.narrow client.text ⟨8, 1⟩).start = 8 := by decide
  obtain ⟨resolved, found, use⟩ := client_resolved
  have symbol : resolved.use.symbol = declared.symbol := by
    rw [use]
    rfl
  have seen : resolved.use.symbol.visibility? client solution = some (.projects ["Lib"] false) := by
    rw [symbol]
    rfl
  exact ⟨_, Service.plan_of_resolved (by decide) cut (by decide) (narrowed ▸ found) seen .batched fun _ => "c", rfl,
    symbol, rfl⟩

theorem rename_from_library_or_client : ∃ plan twin,
    ((Service.plain .precise).plan solution library ⟨4, 1⟩ .batched fun _ => "c").run = .ok (some plan) ∧
    ((Service.plain .precise).plan solution client ⟨8, 1⟩ .batched fun _ => "c").run = .ok (some twin) ∧
    plan.document.project ≠ twin.document.project ∧ plan.visibility = twin.visibility ∧
    ∀ t, (Service.plain .precise).apply plan t false = (Service.plain .precise).apply twin t false := by
  have plain : solution.Plain := ⟨by decide, by decide⟩
  have names : solution.PlainNames := by unfold Solution.PlainNames; decide
  obtain ⟨plan, made, new, symbol⟩ := exists_plan_from_library
  obtain ⟨twin, made', new', symbol', origin⟩ := exists_plan_from_client
  obtain ⟨-, visibility, outcome⟩ := rename_from_any_use reachable plain names (by decide) (by decide) made made'
    (by rw [symbol, symbol']) (new.trans new'.symm)
  obtain ⟨_, planned⟩ := Service.plan_eq_ok made
  refine ⟨plan, twin, made, made', ?_, visibility, fun t => (outcome (.plain .precise) t false).2⟩
  rw [planned.origin, origin]
  decide

end Sample

end CrossRef
