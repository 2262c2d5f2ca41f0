import CrossRef.Proofs.AgreeingService
import CrossRef.Proofs.RememberedChecks
import CrossRef.Proofs.StampedOptions

/-! A session answers from its current solution and its plans alone. What the cache holds from earlier steps is
never seen: edits keep the outline of a solution, and in one outline the inputs of a check are told by project,
path, version, text and stamp, even if edits that know nothing of each other use one version number. -/

namespace CrossRef
open Check

/-- A solution with the projects and documents of another one, whatever their texts. Edits lead to no other. -/
structure Solution.Akin (base s : Solution) : Prop where
  wellFormed : WellFormed s
  outline : s.outline = base.outline

namespace Solution.Akin

variable {base s t : Solution}

theorem withText (akin : base.Akin s) {id : DocumentId} {text : String} (edit : s.withText id text = .ok t) :
    base.Akin t :=
  ⟨akin.wellFormed.withText edit, (withText_outline edit).trans akin.outline⟩

theorem change (akin : base.Akin s) {plan : Plan} {groups : List DocumentUses}
    (changed : plan.change s groups = .ok t) : base.Akin t := by
  induction groups generalizing s with
  | nil =>
    cases changed
    exact akin
  | cons group rest ih =>
    rw [Plan.change, List.foldlM_cons] at changed
    obtain ⟨next, first, changed⟩ := bind_eq_ok changed
    refine ih ?_ changed
    unfold Plan.changeDocument at first
    split at first
    · cases first
      exact akin
    · simp only at first
      split at first
      · cases first
        exact akin
      · next d _ _ =>
        cases edit : s.withText group.document
          (Rename.replace plan.strategy d.text plan.symbol.name plan.new (group.uses.map (·.place.range))) with
        | error e =>
          rw [edit] at first
          cases first
        | ok edited =>
          rw [edit] at first
          cases first
          exact akin.withText edit

end Solution.Akin

inductive Inquiry.Within (base : Solution) : Inquiry → Prop where
  | file {s : Solution} {id : DocumentId} {d : Document} {options : Options} (akin : base.Akin s)
      (found : s.document? id = some d) (checked : s.options? d.id.project = some options) :
      Within base (.file d.path d.version d.text options)
  | project {s : Solution} {id : ProjectId} {options : Options} (akin : base.Akin s)
      (checked : s.options? id = some options) : Within base (.project options)

theorem Inquiry.Within.exists_options {base : Solution} {q : Inquiry} (within : q.Within base) :
    ∃ s id, base.Akin s ∧ s.options? id = some q.options := by
  cases within with
  | file akin found checked => exact ⟨_, _, akin, checked⟩
  | project akin checked => exact ⟨_, _, akin, checked⟩

/-- Solutions that are akin keep what callers of the cache promise. -/
theorem Inquiry.within_contract (base : Solution) : Contract (Within base) where
  options := by
    intro q r first second project stamp
    obtain ⟨s, id, akin, checked⟩ := first.exists_options
    obtain ⟨t, other, alike, present⟩ := second.exists_options
    exact Solution.options_unique (akin.outline.trans alike.outline.symm) checked present project stamp
  spelling := by
    intro path version text options path' version' text' options' first second project components
    cases first with
    | file akin found checked =>
      cases second with
      | file alike present known =>
        rw [Solution.project_of_optionsBelow checked, Solution.project_of_optionsBelow known] at project
        have same := akin.wellFormed.id_unique alike.wellFormed (akin.outline.trans alike.outline.symm) found
          present (Prod.ext project components)
        exact congrArg DocumentId.path same

/-- A checker that remembers, while time passes before each check. -/
def patientChecker (inner : Checker Id) : Checker (StateM (Cache × List Nat)) where
  file path version text options := fun (cache, delays) =>
    let (answer, next) := ((cachedChecker inner).file path version text options).run (cache.wait (delays.headD 0))
    (answer, next, delays.tail)
  project options := fun (cache, delays) =>
    let (answer, next) := ((cachedChecker inner).project options).run (cache.wait (delays.headD 0))
    (answer, next, delays.tail)

def Service.remembering (lookup : Syntax.Lookup) : Service (StateM (Cache × List Nat)) :=
  ⟨patientChecker plainChecker, Solution.options?, lookup⟩

private theorem Service.remembering_mirrors (lookup : Syntax.Lookup) (base : Solution) :
    (remembering lookup).Mirrors (fun state => state.1.Sound plainChecker (Inquiry.Within base)) lookup base.Akin where
  options := rfl
  lookup := rfl
  file := by
    intro s id d options akin found checked
    constructor
    intro (cache, delays) sound
    have waited : (cache.wait (delays.headD 0)).Sound plainChecker (Inquiry.Within base) :=
      ⟨sound.files, sound.projects⟩
    obtain ⟨next, answered, kept⟩ :=
      waited.checkFile (Inquiry.within_contract base) (.file akin found checked)
    refine ⟨(next, delays.tail), ?_, kept⟩
    simp only [remembering, patientChecker, cachedChecker, StateT.run, answered]
    rfl
  project := by
    intro s id options akin checked
    constructor
    intro (cache, delays) sound
    have waited : (cache.wait (delays.headD 0)).Sound plainChecker (Inquiry.Within base) :=
      ⟨sound.files, sound.projects⟩
    obtain ⟨next, answered, kept⟩ := waited.checkProject (Inquiry.within_contract base) (.project akin checked)
    refine ⟨(next, delays.tail), ?_, kept⟩
    simp only [remembering, patientChecker, cachedChecker, StateT.run, answered]
    rfl

/-- What a client does: it makes a request, searches projects for a symbol that it knows, or puts a solution into
the store that it has edited on its own. -/
inductive Move where
  | request (request : Request)
  | search (symbol : Symbol) (projects : List ProjectId) (cancelled : Bool)
  | put (solution : Solution)

/-- Edits keep the outline, so a solution that is put into the store has it too. -/
def Move.Keeps (base : Solution) : Move → Prop
  | put solution => base.Akin solution
  | request (.replace projects) => ∀ built, Solution.build projects = .ok built → base.Akin built
  | _ => True

/-- The solution that a move puts into the store, given its reply: that of a commit or an edit that succeeded. -/
def Move.stored? : Move → Except Error Reply → Option Solution
  | request (.commit ..), .ok (.changed updated _) => some updated
  | request (.edit ..), .ok (.changed updated _) => some updated
  | request (.replace _), .ok (.solution built) => some built
  | put solution, _ => some solution
  | _, _ => none

namespace Session

section
variable {m : Type → Type} [Monad m] (service : Service m)

def move (session : Session) : Move → m (Except Error Reply × Session)
  | .request request => session.step service request
  | .search symbol projects cancelled => do
    let found ← (service.usesInProjects symbol projects session.current cancelled).run
    return (found.map fun uses => .uses (some uses), session)
  | .put solution => return (.ok (.solution solution), { session with current := solution })

def play (session : Session) : List Move → m (List (Except Error Reply) × Session)
  | [] => return ([], session)
  | move :: rest => do
    let (reply, next) ← session.move service move
    let (replies, last) ← play next rest
    return (reply :: replies, last)

end

variable {lookup : Syntax.Lookup} {base : Solution} {session : Session}

theorem step_plain (session : Session) (request : Request) :
    session.step (.plain lookup) request =
      match (session.ask (.plain lookup) request).run with
      | .error e => (.error e, session)
      | .ok reply => (.ok reply, session.after request reply) := by
  unfold step
  cases (session.ask (.plain lookup) request).run <;> rfl

private theorem current_after (session : Session) (request : Request) (reply : Reply) :
    (session.after request reply).current = ((Move.request request).stored? (.ok reply)).getD session.current := by
  cases request <;> cases reply
  case plan.plan made => cases made <;> rfl
  all_goals rfl

/-- The current solution is the one that the last successful commit or edit has left. -/
theorem current_of_move (session : Session) (move : Move) :
    (session.move (.plain lookup) move).2.current =
      (move.stored? (session.move (.plain lookup) move).1).getD session.current := by
  cases move with
  | request request =>
    simp only [Session.move, step_plain]
    cases (session.ask (.plain lookup) request).run with
    | error e => cases request <;> rfl
    | ok reply => exact session.current_after request reply
  | search | put => rfl

private theorem akin_of_apply (akin : base.Akin session.current) {plan : Plan} {cancelled : Bool} {updated : Solution}
    (applied : ((Service.plain lookup).apply plan session.current cancelled).run = .ok updated) :
    base.Akin updated := by
  obtain ⟨groups, -, changed⟩ := Service.run_bind_eq_ok applied
  cases outcome : plan.change session.current groups with
  | error e =>
    rw [outcome] at changed
    cases changed
  | ok result =>
    rw [outcome] at changed
    cases changed
    exact akin.change outcome

private theorem eq_ok_of_mapError {outcome : Except SolutionError Solution} {updated : Solution}
    (made : (liftM (outcome.mapError Error.solution) : ExceptT Error Id Solution).run = .ok updated) :
    outcome = .ok updated := by
  cases outcome with
  | error e => cases made
  | ok result =>
    cases made
    rfl

private theorem akin_of_ask (akin : base.Akin session.current) {request : Request}
    (kept : (Move.request request).Keeps base) {reply : Reply}
    (answered : (session.ask (.plain lookup) request).run = .ok reply) {stored : Solution}
    (changes : (Move.request request).stored? (.ok reply) = some stored) : base.Akin stored := by
  cases request with
  | commit name cancelled =>
    simp only [ask] at answered
    split at answered
    · cases answered
      cases changes
    · obtain ⟨updated, applied, done⟩ := Service.run_bind_eq_ok answered
      cases done
      cases changes
      exact akin_of_apply akin applied
  | edit id text =>
    obtain ⟨updated, edited, done⟩ := Service.run_bind_eq_ok answered
    cases done
    cases changes
    exact akin.withText (eq_ok_of_mapError edited)
  | replace projects =>
    obtain ⟨built, success, done⟩ := Service.run_bind_eq_ok answered
    cases done
    cases changes
    exact kept _ (eq_ok_of_mapError success)
  | candidate | fileUses | references | projectUses | documentOf | plan | locations | apply | current =>
    cases reply <;> cases changes

private theorem akin_move (akin : base.Akin session.current) {move : Move} (kept : move.Keeps base) :
    base.Akin (session.move (.plain lookup) move).2.current := by
  rw [current_of_move]
  cases stored : move.stored? (session.move (.plain lookup) move).1 with
  | none => exact akin
  | some updated =>
    cases move with
    | request request =>
      simp only [Session.move, step_plain] at stored
      cases answered : (session.ask (.plain lookup) request).run with
      | error e =>
        rw [answered] at stored
        cases request <;> cases stored
      | ok reply =>
        rw [answered] at stored
        exact akin_of_ask akin kept answered stored
    | search => cases stored
    | put solution =>
      cases stored
      exact kept

theorem akin_play (akin : base.Akin session.current) {moves : List Move} (kept : ∀ move ∈ moves, move.Keeps base) :
    base.Akin (session.play (.plain lookup) moves).2.current := by
  induction moves generalizing session with
  | nil => exact akin
  | cons move rest ih =>
    have later : base.Akin (session.move (.plain lookup) move).2.current :=
      akin_move akin (kept move (List.mem_cons_self ..))
    exact ih later fun next member => kept next (List.mem_cons_of_mem move member)

section
variable {σ : Type} {valid : σ → Prop} {service : Service (StateM σ)}
  (mirrors : service.Mirrors valid lookup base.Akin)

include mirrors

private theorem move_agrees (akin : base.Akin session.current) (move : Move) :
    Agrees valid (session.move service move) (session.move (.plain lookup) move) := by
  cases move with
  | request request => exact step_agrees mirrors akin request
  | search symbol projects cancelled =>
    exact (mirrors.usesInProjects akin symbol projects cancelled).bind (.pure _)
  | put solution => exact .pure _

/-- A whole session agrees with the plain one: each move does, and none leaves the outline. -/
theorem play_agrees (akin : base.Akin session.current) {moves : List Move} (kept : ∀ move ∈ moves, move.Keeps base) :
    Agrees valid (session.play service moves) (session.play (.plain lookup) moves) := by
  induction moves generalizing session with
  | nil => exact .pure _
  | cons move rest ih =>
    apply (move_agrees mirrors akin move).bind
    have later : base.Akin (session.move (.plain lookup) move).2.current :=
      akin_move akin (kept move (List.mem_cons_self ..))
    exact (ih later fun next member => kept next (List.mem_cons_of_mem move member)).bind (.pure _)

end

theorem play_plain_cons (session : Session) (move : Move) (rest : List Move) :
    session.play (.plain lookup) (move :: rest) =
      ((session.move (.plain lookup) move).1 :: ((session.move (.plain lookup) move).2.play (.plain lookup) rest).1,
        ((session.move (.plain lookup) move).2.play (.plain lookup) rest).2) := rfl

theorem play_plain_append (session : Session) (before rest : List Move) :
    session.play (.plain lookup) (before ++ rest) =
      ((session.play (.plain lookup) before).1 ++ ((session.play (.plain lookup) before).2.play (.plain lookup) rest).1,
        ((session.play (.plain lookup) before).2.play (.plain lookup) rest).2) := by
  induction before generalizing session with
  | nil => rfl
  | cons move before ih => rw [List.cons_append, play_plain_cons, ih, play_plain_cons]; rfl

theorem length_play_plain (session : Session) (moves : List Move) :
    (session.play (.plain lookup) moves).1.length = moves.length := by
  induction moves generalizing session with
  | nil => rfl
  | cons move rest ih => rw [play_plain_cons, List.length_cons, List.length_cons, ih]

theorem reply_of_play (session : Session) (before : List Move) (move : Move) (rest : List Move) :
    (session.play (.plain lookup) (before ++ move :: rest)).1[before.length]? =
      some ((session.play (.plain lookup) before).2.move (.plain lookup) move).1 := by
  rw [play_plain_append, ← length_play_plain session before, List.getElem?_append_right (Nat.le_refl _), Nat.sub_self]
  rfl

/-- What a service that remembers replies to some moves, and the session that they lead to. -/
def remembered (lookup : Syntax.Lookup) (strategy : Rename.Strategy) (lifetime capacity : Nat) (delays : List Nat)
    (base : Solution) (moves : List Move) : List (Except Error Reply) × Session :=
  ((play (.remembering lookup) ⟨base, [], strategy⟩ moves).run (.create lifetime capacity, delays)).1

theorem remembered_eq (valid : WellFormed base) (lookup : Syntax.Lookup) (strategy : Rename.Strategy)
    (lifetime capacity : Nat) (delays : List Nat) {moves : List Move} (kept : ∀ move ∈ moves, move.Keeps base) :
    remembered lookup strategy lifetime capacity delays base moves =
      play (.plain lookup) ⟨base, [], strategy⟩ moves := by
  have akin : base.Akin (Session.mk base [] strategy).current := ⟨valid, rfl⟩
  have agrees := play_agrees (Service.remembering_mirrors lookup base) akin kept
  obtain ⟨state, ran, -⟩ := agrees.run (.create lifetime capacity, delays) (Cache.sound_create lifetime capacity)
  exact congrArg Prod.fst ran

/-- Each reply of a session is the one that the plain service gives on the session that was reached, and the
current solution is always the one that the last successful commit or edit has left. -/
theorem replies_without_history (built : Reachable base) (lookup : Syntax.Lookup) (strategy : Rename.Strategy)
    (lifetime capacity : Nat) (delays : List Nat) (moves : List Move) (kept : ∀ move ∈ moves, move.Keeps base) :
    let played := remembered lookup strategy lifetime capacity delays base
    (played moves).1.length = moves.length ∧
    ∀ before move rest, moves = before ++ move :: rest →
      let reached := (played before).2
      let (reply, next) := reached.move (.plain lookup) move
      (played moves).1[before.length]? = some reply ∧ (played (before ++ [move])).2 = next ∧
        next.current = (move.stored? reply).getD reached.current := by
  intro played
  have plain : ∀ steps : List Move, (∀ move ∈ steps, move.Keeps base) →
      played steps = play (.plain lookup) ⟨base, [], strategy⟩ steps :=
    fun steps => remembered_eq built.wellFormed lookup strategy lifetime capacity delays
  refine ⟨?_, ?_⟩
  · rw [plain moves kept, length_play_plain]
  · intro before move rest parts
    subst parts
    have earlier := plain before fun move member => kept move (List.mem_append_left _ member)
    have onward := plain (before ++ [move]) fun next member =>
      kept next (List.append_cons .. ▸ List.mem_append_left rest member)
    simp only
    rw [plain _ kept, earlier, onward, reply_of_play, play_plain_append]
    exact ⟨rfl, rfl, current_of_move _ move⟩

end Session

namespace Sample

def askReferences (cancelled : Bool) : Move :=
  .request (.references ⟨client.id, 8⟩ cancelled)

/-- Two edits of one version, made without regard to each other. In the second solution nothing declares the name
that the client uses. -/
theorem divergent_edits_replied : ∃ one other, solution.withText library.id "let a = 2" = .ok one ∧
    solution.withText library.id "let c = 1" = .ok other ∧
    let moves := [.put one, askReferences false, askReferences true, .put other, askReferences false]
    let played := Session.remembered .precise .sequential 5 1 [1] solution
    (played moves).1.length = 5 ∧
      (played moves).1[1]? = some (Session.move (.plain .precise) (played [.put one]).2 (askReferences false)).1 ∧
      (played moves).1[4]? = some (Session.move (.plain .precise) (played [.put one, askReferences false,
        askReferences true, .put other]).2 (askReferences false)).1 := by
  have valid := reachable.wellFormed
  have akin : solution.Akin solution := ⟨valid, rfl⟩
  have found : solution.document? library.id = some library := by decide
  obtain ⟨one, first⟩ := valid.exists_withText found "let a = 2"
  obtain ⟨other, second⟩ := valid.exists_withText found "let c = 1"
  refine ⟨one, other, first, second, ?_⟩
  intro moves played
  have kept : ∀ move ∈ moves, move.Keeps solution := by
    simp only [moves, List.forall_mem_cons, Move.Keeps, askReferences]
    exact ⟨akin.withText first, trivial, trivial, akin.withText second, trivial, List.forall_mem_nil _⟩
  obtain ⟨length, each⟩ := Session.replies_without_history reachable .precise .sequential 5 1 [1] moves kept
  exact ⟨length, (each [.put one] _ _ rfl).1,
    (each [.put one, askReferences false, askReferences true, .put other] _ _ rfl).1⟩

end Sample

end CrossRef
