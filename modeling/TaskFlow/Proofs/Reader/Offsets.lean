import TaskFlow.Definition.Reader
import TaskFlow.Proofs.Definition.Structure

namespace TaskFlow

open ReadFault

def TaskMention.bare (t : TaskMention) : TaskMention :=
  { t with offset := 0 }

def Definition.bare : Definition → Definition :=
  fold (fun t => .task t.bare) .sequence .split fun t cs =>
    .transition t.bare (cs.map fun c => (c.1.1, c.2))

namespace Definition

variable (t : TaskMention) (ds : List Definition) (cs : List Clause)

@[simp]
theorem bare_task : (task t).bare = task t.bare := by
  simp [bare]

@[simp]
theorem bare_sequence : (sequence ds).bare = sequence (ds.map bare) := by
  simp [bare]

@[simp]
theorem bare_split : (split ds).bare = split (ds.map bare) := by
  simp [bare]

@[simp]
theorem bare_transition :
    (transition t cs).bare = transition t.bare (cs.map fun c => (c.1, c.2.bare)) := by
  simp [bare, Function.comp_def]

@[simp]
theorem steps_bare (d : Definition) : d.bare.steps = d.steps.map bare := by
  cases d <;> simp [steps]

@[simp]
theorem inOrder_map_bare : inOrder (ds.map bare) = (inOrder ds).bare := by
  match ds with
  | [] | [_] | _ :: _ :: _ => simp [inOrder, List.flatMap_map, List.map_flatMap]

end Definition

def Token.bare (t : Token) : Token :=
  { t with start := 0 }

def ReadFault.Cause.bare : Cause → Cause
  | unclosed opening found => unclosed opening.bare found
  | afterCatchAll p _ => afterCatchAll p 0
  | duplicateLabel label _ => duplicateLabel label 0
  | c => c

namespace Chain

def bare (c : Chain) : Chain where
  source := c.source.bare
  clauses := c.clauses.map fun c => (c.1, c.2.bare)
  catchAll := c.catchAll.map fun _ => 0

variable (c : Chain)

@[simp]
theorem definition_bare : c.bare.definition = c.definition.bare := by
  simp only [definition, bare, List.isEmpty_map]
  split <;> simp

@[simp]
theorem covers_bare (p : String) : c.bare.covers p = c.covers p := by
  simp [covers, bare, Function.comp_def]

@[simp]
theorem addClause_bare (p : String) (d : Definition) :
    c.bare.addClause p d.bare = (c.addClause p d).bare := by
  simp [addClause, bare]

@[simp]
theorem noteStatus_bare (p : String) (offset : Nat) :
    c.bare.noteStatus p 0 = (c.noteStatus p offset).bare := by
  simp only [noteStatus]
  split <;> simp [bare]

end Chain

def Place.bare : Place → Place
  | step => step
  | target chain p => target chain.bare p

def Level.bare (l : Level) : Level where
  branches := l.branches.map Definition.bare
  steps := l.steps.map Definition.bare

def Bracket.bare (b : Bracket) : Bracket where
  opening := b.opening.bare
  place := b.place.bare
  outer := b.outer.bare

def Awaiting.bare : Awaiting → Awaiting
  | element => element
  | afterName name _ place => afterName name 0 place.bare
  | afterLabel label _ place => afterLabel label 0 place.bare
  | afterLabeled label _ task _ place => afterLabeled label 0 task 0 place.bare
  | clause chain => clause chain.bare
  | status chain => status chain.bare
  | afterStatus chain p _ => afterStatus chain.bare p 0
  | target chain p => target chain.bare p
  | afterStep => afterStep
  | nothing whole => nothing whole.bare

namespace Reading

def bare (r : Reading) : Reading where
  awaiting := r.awaiting.bare
  level := r.level.bare
  brackets := r.brackets.map Bracket.bare
  labels := r.labels.map fun l => (l.1, 0)

def outcome (e : Except ReadFault Reading) : Except ReadFault.Cause Reading :=
  e.mapError (·.cause.bare)

-- Whether two steps come to the same, but for offsets in the second one.
def SameButOffsets (e e' : Except ReadFault Reading) : Prop :=
  outcome e = (outcome e').map bare

namespace SameButOffsets

theorem ok {r r' : Reading} (h : r' = r.bare) : SameButOffsets (.ok r') (.ok r) :=
  congrArg Except.ok h

theorem error {c c' : Cause} {offset offset' : Nat} (h : c.bare = c'.bare) :
    SameButOffsets (.error ⟨c, offset⟩) (.error ⟨c', offset'⟩) :=
  congrArg Except.error h

theorem ite {p : Prop} [Decidable p] {e₁ e₁' e₂ e₂' : Except ReadFault Reading}
    (h₁ : p → SameButOffsets e₁ e₁') (h₂ : ¬p → SameButOffsets e₂ e₂') :
    SameButOffsets (if p then e₁ else e₂) (if p then e₁' else e₂') := by
  split
  · exact h₁ ‹_›
  · exact h₂ ‹_›

end SameButOffsets

variable {limit : Int} (r : Reading) (t : Token)

@[simp]
theorem branch_bare (l : Level) : branch l.bare = (branch l).bare := by
  simp [branch, Level.bare, ← List.map_reverse]

@[simp]
theorem put_bare (d : Definition) (place : Place) :
    r.bare.put d.bare place.bare = (r.put d place).bare := by
  cases place <;> simp [put, bare, Place.bare, Level.bare, Awaiting.bare]

theorem close_bare (b : Bracket) (rest : List Bracket) (d : Definition) :
    r.bare.close b.bare (rest.map Bracket.bare) d.bare = (r.close b rest d).bare := by
  simp only [close, ← put_bare]
  rfl

theorem openBracket_bare (place : Place) :
    SameButOffsets (r.bare.openBracket limit t.bare place.bare) (r.openBracket limit t place) := by
  simp only [openBracket, bare, List.length_map]
  exact .ite (fun _ => .error rfl) (fun _ => .ok rfl)

theorem notClosing_bare (b : Bracket) (e : Expectation) :
    (notClosing b.bare e t.bare).bare = (notClosing b e t).bare := by
  simp only [notClosing, apply_ite Cause.bare]
  rfl

theorem takeAfterStep_bare :
    SameButOffsets (r.bare.takeAfterStep t.bare) (r.takeAfterStep t) := by
  simp only [takeAfterStep]
  refine .ite (fun _ => .ok rfl) (fun _ => ?_)
  simp only [show r.bare.brackets = r.brackets.map Bracket.bare from rfl,
    show r.bare.level = r.level.bare from rfl, branch_bare]
  cases r.brackets
  case nil =>
    refine .ite (fun _ => .ok rfl) (fun _ => .ite (fun _ => .error rfl) (fun _ => ?_))
    exact .ite (fun _ => .error rfl) (fun _ => .error rfl)
  case cons b rest =>
    refine .ite (fun _ => ?split) (fun _ => ?group)
    case split =>
      refine .ite (fun _ => .ok rfl) (fun _ => .ite (fun _ => ?_) (fun _ => ?_))
      · have := r.close_bare b rest (.split (branch r.level :: r.level.branches).reverse)
        rw [Definition.bare_split, List.map_reverse] at this
        exact .ok this
      · exact .error (notClosing_bare t b _)
    case group =>
      refine .ite (fun _ => ?_) (fun _ => .error (notClosing_bare t b _))
      rw [close_bare]
      exact .ok rfl

theorem takeClause_bare (chain : Chain) :
    SameButOffsets (r.bare.takeClause chain.bare t.bare) (r.takeClause chain t) := by
  simp only [takeClause]
  refine .ite (fun _ => .ok rfl) (fun _ => ?_)
  have := (r.put chain.definition .step).takeAfterStep_bare t
  rwa [← put_bare, ← Chain.definition_bare] at this

theorem takeAfterTask_bare (task : TaskMention) (place : Place) :
    SameButOffsets (r.bare.takeAfterTask task.bare place.bare t.bare)
      (r.takeAfterTask task place t) := by
  cases place
  case step => exact r.takeClause_bare t { source := task }
  case target chain p =>
    have := r.takeClause_bare t (chain.addClause p (.task task))
    rwa [← Chain.addClause_bare] at this

theorem takeElement_bare (place : Place) {otherwise otherwise' : Cause}
    (h : otherwise.bare = otherwise'.bare) :
    SameButOffsets (r.bare.takeElement limit place.bare otherwise t.bare)
      (r.takeElement limit place otherwise' t) := by
  obtain ⟨lexeme, start⟩ := t
  cases lexeme
  case openAngle | openParen => exact r.openBracket_bare _ place
  case identifier            => exact .ok rfl
  all_goals exact .error h

theorem takeStatus_bare (chain : Chain) :
    SameButOffsets (r.bare.takeStatus chain.bare t.bare) (r.takeStatus chain t) := by
  obtain ⟨lexeme, start⟩ := t
  cases lexeme
  case identifier | quoted | star => exact .ok rfl
  all_goals exact .error rfl

theorem takeAfterStatus_bare (chain : Chain) (p : String) (offset : Nat) :
    SameButOffsets (r.bare.takeAfterStatus chain.bare p 0 t.bare)
      (r.takeAfterStatus chain p offset t) := by
  simp only [takeAfterStatus]
  refine .ite (fun _ => .error rfl) (fun _ => ?_)
  rw [show chain.bare.catchAll = chain.catchAll.map fun _ => 0 from rfl]
  cases chain.catchAll
  case some => exact .error rfl
  case none =>
    rw [Chain.covers_bare, Chain.noteStatus_bare]
    refine .ite (fun _ => .error rfl) (fun _ => .ite (fun _ => .ok rfl) (fun _ => .error rfl))

theorem lookup_bare (ls : List (String × Nat)) (label : String) :
    (ls.map fun l => (l.1, 0)).lookup label = (ls.lookup label).map fun _ => 0 := by
  induction ls
  case nil => rfl
  case cons l ls hi =>
    rw [List.map_cons, List.lookup_cons, List.lookup_cons, hi]
    split <;> rfl

theorem takeLexeme_bare :
    SameButOffsets (r.bare.takeLexeme limit t.bare) (r.takeLexeme limit t) := by
  obtain ⟨awaiting, level, brackets, labels⟩ := r
  cases awaiting <;> simp only [takeLexeme, bare, Awaiting.bare]
  case element => exact takeElement_bare ⟨.element, level, brackets, labels⟩ t .step rfl
  case afterName name offset place =>
    refine .ite (fun _ => .ok rfl) (fun _ => ?_)
    exact takeAfterTask_bare ⟨.afterName name offset place, level, brackets, labels⟩ t
      { name, offset } place
  case afterLabel label offset place =>
    obtain ⟨lexeme, start⟩ := t
    cases lexeme
    case identifier => exact .ok rfl
    all_goals exact .error rfl
  case afterLabeled label offset name offset' place =>
    rw [lookup_bare]
    cases labels.lookup label
    case some => exact .error rfl
    case none =>
      exact takeAfterTask_bare
        ⟨.afterLabeled label offset name offset' place, level, brackets, (label, offset) :: labels⟩
        t ⟨name, some label, offset'⟩ place
  case clause chain => exact takeClause_bare ⟨_, level, brackets, labels⟩ t chain
  case status chain => exact takeStatus_bare ⟨_, level, brackets, labels⟩ t chain
  case afterStatus chain p offset =>
    exact takeAfterStatus_bare ⟨_, level, brackets, labels⟩ t chain p offset
  case target chain p =>
    exact takeElement_bare ⟨_, level, brackets, labels⟩ t (.target chain p) rfl
  case afterStep => exact takeAfterStep_bare ⟨_, level, brackets, labels⟩ t
  case nothing => exact .ok rfl

theorem step_bare : SameButOffsets (r.bare.step limit t.bare) (r.step limit t) := by
  have h : SameButOffsets (r.bare.takeLexeme limit t.bare) (r.takeLexeme limit t) :=
    r.takeLexeme_bare t
  obtain ⟨lexeme, start⟩ := t
  cases lexeme
  case invalid => exact .error rfl
  all_goals exact h

theorem run_bare (ts : List Token) :
    SameButOffsets ((ts.map Token.bare).foldlM (step limit) r.bare) (ts.foldlM (step limit) r) := by
  induction ts generalizing r
  case nil => exact .ok rfl
  case cons t ts hi =>
    have h : SameButOffsets (r.bare.step limit t.bare) (r.step limit t) := r.step_bare t
    rw [List.map_cons, List.foldlM_cons, List.foldlM_cons]
    cases he : r.step limit t <;> cases he' : r.bare.step limit t.bare <;>
      simp only [he, he', SameButOffsets, outcome] at h
    case error.error => exact h
    case ok.ok => cases h; exact hi _
    all_goals cases h

end Reading

end TaskFlow
