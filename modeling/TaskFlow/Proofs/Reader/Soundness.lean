import TaskFlow.Proofs.Grammar
import TaskFlow.Proofs.Reader.Offsets

namespace TaskFlow

-- The last phrase of several stands apart from those that a separator follows.
theorem intercalate_concat (sep : Lexeme) (ls : List (List Lexeme)) (l : List Lexeme) :
    [sep].intercalate (ls ++ [l]) = ls.flatMap (· ++ [sep]) ++ l := by
  induction ls
  case nil => simp
  case cons hd tl hi =>
    rw [List.cons_append, List.intercalate_cons_of_ne_nil (by simp), hi]
    simp

-- Phrases that are all followed by a separator, with the definitions they denote, latest first.
inductive Ended (sep : Lexeme) (n : Phrase) : List Lexeme → List Definition → Prop
  | nil : Ended sep n [] []
  | cons : Ended sep n ls ds → Derives n ls₁ d → Ended sep n (ls ++ ls₁ ++ [sep]) (d :: ds)

variable {ls ls₁ ls₂ ls₃ ls₄ : List Lexeme} {l : Lexeme} {d : Definition} {ds : List Definition}

namespace Ended

theorem parts {sep : Lexeme} {n : Phrase} (h : Ended sep n ls ds) :
    ∃ ps : List (List Lexeme × Definition), (∀ p ∈ ps, Derives n p.1 p.2) ∧
      ls = ps.flatMap (fun p => p.1 ++ [sep]) ∧ ds = (ps.map (·.2)).reverse := by
  induction h
  case nil => exact ⟨[], by simp⟩
  case cons ls ds ls₁ d _ hd hi =>
    obtain ⟨ps, hps, rfl, rfl⟩ := hi
    refine ⟨ps ++ [(ls₁, d)], List.forall_mem_append.mpr ⟨hps, ?_⟩, by simp, by simp⟩
    exact List.forall_mem_singleton.mpr hd

theorem sequence (h : Ended .ampersands .element ls ds) (hd : Derives .element ls₁ d) :
    Derives .sequence (ls ++ ls₁) (.inOrder (d :: ds).reverse) := by
  obtain ⟨ps, hps, rfl, rfl⟩ := h.parts
  have hps' : ∀ p ∈ ps ++ [(ls₁, d)], Derives .element p.1 p.2 :=
    List.forall_mem_append.mpr ⟨hps, List.forall_mem_singleton.mpr hd⟩
  have hs := Derives.sequence (by simp) hps'
  simpa [intercalate_concat, List.flatMap_map] using hs

theorem split (h : Ended .bars .sequence ls ds) (hd : Derives .sequence ls₁ d) :
    Derives .split (.openAngle :: (ls ++ ls₁) ++ [.closeAngle]) (.split (d :: ds).reverse) := by
  obtain ⟨ps, hps, rfl, rfl⟩ := h.parts
  have hps' : ∀ p ∈ ps ++ [(ls₁, d)], Derives .sequence p.1 p.2 :=
    List.forall_mem_append.mpr ⟨hps, List.forall_mem_singleton.mpr hd⟩
  have hs := Derives.split (by simp) hps'
  simpa [intercalate_concat, List.flatMap_map] using hs

end Ended

theorem Chain.definition_eq (c : Chain) : c.definition = .ofClauses c.source c.clauses.reverse := by
  unfold definition
  match h : c.clauses.reverse with
  | [] => simp_all [Definition.ofClauses]
  | _ :: _ =>
    have : c.clauses ≠ [] := by rintro hc; simp [hc] at h
    simp [Definition.ofClauses, this]

theorem Definition.ofClauses_inj {t t' : TaskMention} {cs cs' : List Clause}
    (h : ofClauses t cs = ofClauses t' cs') : t = t' ∧ cs = cs' := by
  cases cs <;> cases cs' <;> simp_all [ofClauses]

namespace Derives

theorem of_task {t : TaskMention} (h : LabeledTask ls t) : Derives .transition ls (.task t) := by
  have := Derives.transition h (List.forall_mem_nil _) (List.forall_mem_nil _)
  simpa [Definition.ofClauses] using this

-- One more clause behind a transition, or behind a task that has no clause yet.
theorem addClause {c : Chain} {p : String} (h : Derives .transition ls c.definition)
    (hl : l.pattern? = some p) (hd : Derives .target ls₁ d) :
    Derives .transition (ls ++ [.arrow, l, .colon] ++ ls₁) (c.addClause p d).definition := by
  rw [Chain.definition_eq] at h ⊢
  generalize he : Definition.ofClauses c.source c.clauses.reverse = d' at h
  cases h
  case alternative hm _ => simp [Phrase.alternatives] at hm
  case transition ls t as ht hs hd' =>
    obtain ⟨rfl, hc⟩ := Definition.ofClauses_inj he
    have hs' : ∀ a ∈ as ++ [⟨l, ls₁, d⟩], a.status.pattern?.isSome :=
      List.forall_mem_append.mpr ⟨hs, List.forall_mem_singleton.mpr (by simp [hl])⟩
    have hd' : ∀ a ∈ as ++ [⟨l, ls₁, d⟩], Derives .target a.lexemes a.target :=
      List.forall_mem_append.mpr ⟨hd', List.forall_mem_singleton.mpr hd⟩
    have := Derives.transition ht hs' hd'
    simpa [Chain.addClause, hc, Arm.spelling, Arm.clause, hl] using this

end Derives

-- Whether lexemes spell finished branches, and finished steps of the next branch.
def Level.Spelled (l : Level) (ls : List Lexeme) : Prop :=
  ∃ ls₁ ls₂, ls = ls₁ ++ ls₂ ∧ Ended .bars .sequence ls₁ l.branches ∧
    Ended .ampersands .element ls₂ l.steps

-- Whether lexemes lead up to a place: nothing to a step, a chain and a status to a target.
def Place.Spelled : Place → List Lexeme → Prop
  | step, ls => ls = []
  | target chain p, ls =>
    ∃ ls₁ l, ls = ls₁ ++ [.arrow, l, .colon] ∧ Derives .transition ls₁ chain.definition ∧
      l.pattern? = some p

-- Whether there are branches only where the innermost bracket is that of a split.
def Level.Fits (l : Level) (bs : List Bracket) : Prop :=
  l.branches = [] ∨ ∃ b ∈ bs.head?, b.opening.lexeme = .openAngle

inductive Enclosed : List Bracket → List Lexeme → Prop
  | nil : Enclosed [] []
  | cons {b bs ls₁ ls₂ ls₃} :
    Enclosed bs ls₁ → b.outer.Fits bs → b.outer.Spelled ls₂ → b.place.Spelled ls₃ →
    b.opening.lexeme = .openAngle ∨ b.opening.lexeme = .openParen →
    Enclosed (b :: bs) (ls₁ ++ ls₂ ++ ls₃ ++ [b.opening.lexeme])

def Awaiting.Spelled : Awaiting → List Lexeme → Prop
  | element, ls => ls = []
  | afterName name offset place, ls =>
    offset = 0 ∧ ∃ ls₁, ls = ls₁ ++ [.identifier name] ∧ place.Spelled ls₁
  | afterLabel label _ place, ls =>
    ∃ ls₁, ls = ls₁ ++ [.identifier label, .colon] ∧ place.Spelled ls₁
  | afterLabeled label _ name offset place, ls =>
    offset = 0 ∧ ∃ ls₁, ls = ls₁ ++ [.identifier label, .colon, .identifier name] ∧
      place.Spelled ls₁
  | clause chain, ls => Derives .transition ls chain.definition
  | status chain, ls => ∃ ls₁, ls = ls₁ ++ [.arrow] ∧ Derives .transition ls₁ chain.definition
  | afterStatus chain p _, ls =>
    ∃ ls₁ l, ls = ls₁ ++ [.arrow, l] ∧ Derives .transition ls₁ chain.definition ∧
      l.pattern? = some p
  | target chain p, ls => (Place.target chain p).Spelled ls
  | afterStep, _ | nothing _, _ => False

namespace Reading

-- Whether the lexemes that were read are those that a state stands for.
inductive Spelled : Reading → List Lexeme → Prop
  | awaiting {a l bs labels ls₁ ls₂ ls₃} :
    Enclosed bs ls₁ → l.Fits bs → l.Spelled ls₂ → a.Spelled ls₃ →
    Spelled ⟨a, l, bs, labels⟩ (ls₁ ++ ls₂ ++ ls₃)
  | afterStep {branches steps d bs labels ls₁ ls₂ ls₃} :
    Enclosed bs ls₁ → Level.Fits ⟨branches, steps⟩ bs → Level.Spelled ⟨branches, steps⟩ ls₂ →
    Derives .element ls₃ d →
    Spelled ⟨.afterStep, ⟨branches, d :: steps⟩, bs, labels⟩ (ls₁ ++ ls₂ ++ ls₃)
  | nothing {d level bs labels ls} :
    Derives .sequence ls d → Spelled ⟨.nothing d, level, bs, labels⟩ (ls ++ [.endOfInput])

variable {limit : Int} {r r' : Reading} {a : Awaiting} {level : Level} {bs : List Bracket}
  {labels : List (String × Nat)} {c : Chain} {q : Place} {offset : Nat}

section Taken

variable {start : Nat} {p : String}

theorem ne_refuse {t : Token} {c : ReadFault.Cause} : refuse t c ≠ .ok r :=
  nofun

-- How the lexeme behind a step is taken. Outside of brackets only the input may end there, and
-- otherwise the innermost bracket decides.
inductive BehindStep (r : Reading) : Lexeme → Reading → Prop
  | ampersands : BehindStep r .ampersands { r with awaiting := .element }
  | conclusion : r.brackets = [] →
    BehindStep r .endOfInput { r with awaiting := .nothing (branch r.level) }
  | bars {b rest} : r.brackets = b :: rest → b.opening.lexeme = .openAngle →
    BehindStep r .bars
      { r with awaiting := .element, level := { branches := branch r.level :: r.level.branches } }
  | closeAngle {b rest} : r.brackets = b :: rest → b.opening.lexeme = .openAngle →
    BehindStep r .closeAngle
      (r.close b rest (.split (branch r.level :: r.level.branches).reverse))
  | closeParen {b rest} : r.brackets = b :: rest → b.opening.lexeme ≠ .openAngle →
    BehindStep r .closeParen (r.close b rest (branch r.level))

-- The innermost bracket is looked at only when no further step comes.
theorem behindStep_of_takeAfterStep (h : r.takeAfterStep ⟨l, start⟩ = .ok r') :
    r.BehindStep l r' := by
  simp only [takeAfterStep] at h
  split at h
  case isTrue hl =>
    cases h
    cases hl
    exact .ampersands
  case isFalse =>
    split at h
    case h_1 hb =>
      split at h
      case isTrue hl =>
        cases h
        cases hl
        exact .conclusion hb
      case isFalse =>
        split at h
        · cases h
        · split at h <;> cases h
    case h_2 b rest hb =>
      split at h
      case isTrue ho =>
        split at h
        case isTrue hl =>
          cases h
          cases hl
          exact .bars hb ho
        case isFalse =>
          split at h
          case isTrue hl =>
            cases h
            cases hl
            exact .closeAngle hb ho
          case isFalse => cases h
      case isFalse ho =>
        split at h
        case isTrue hl =>
          cases h
          cases hl
          exact .closeParen hb ho
        case isFalse => cases h

theorem takeStatus_cases (h : r.takeStatus c ⟨l, start⟩ = .ok r') :
    ∃ p, l.pattern? = some p ∧ r' = { r with awaiting := .afterStatus c p start } := by
  cases l <;> simp only [takeStatus, ne_refuse] at h
  all_goals exact ⟨_, rfl, (Except.ok.inj h).symm⟩

-- Three demands on the pattern come before the colon.
theorem takeAfterStatus_cases (h : r.takeAfterStatus c p offset ⟨l, start⟩ = .ok r') :
    l = .colon ∧ r' = { r with awaiting := .target (c.noteStatus p offset) p } := by
  simp only [takeAfterStatus] at h
  split at h
  · cases h
  split at h
  · cases h
  split at h
  · cases h
  split at h
  case isTrue hl => exact ⟨hl, (Except.ok.inj h).symm⟩
  case isFalse => cases h

end Taken

theorem Spelled.congr (h : r.Spelled ls) (he : ls = ls₁) : r.Spelled ls₁ :=
  he ▸ h

-- A group or a split that was closed stands where it was opened.
theorem Spelled.put (he : Enclosed bs ls₁) (hf : level.Fits bs) (hl : level.Spelled ls₂)
    (hp : q.Spelled ls₃) {n : Phrase} (hn : n = .split ∨ n = .group) (hd : Derives n ls₄ d) :
    (put ⟨a, level, bs, labels⟩ d q).Spelled (ls₁ ++ ls₂ ++ ls₃ ++ ls₄) := by
  cases q
  case step =>
    cases hp
    rw [List.append_nil]
    refine .afterStep he hf hl (.alternative ?_ hd)
    rcases hn with rfl | rfl <;> simp [Phrase.alternatives]
  case target chain p =>
    obtain ⟨ls₅, l, rfl, hc, hs⟩ := hp
    have ht : Derives .target ls₄ d := by
      refine .alternative ?_ hd
      rcases hn with rfl | rfl <;> simp [Phrase.alternatives]
    exact .congr (.awaiting he hf hl (hc.addClause hs ht)) (by simp)

theorem Spelled.openBracket (he : Enclosed bs ls₁) (hf : level.Fits bs) (hl : level.Spelled ls₂)
    (hp : q.Spelled ls₃) (ho : l = .openAngle ∨ l = .openParen)
    (h : openBracket limit ⟨a, level, bs, labels⟩ ⟨l, 0⟩ q = .ok r') :
    r'.Spelled (ls₁ ++ ls₂ ++ ls₃ ++ [l]) := by
  simp only [Reading.openBracket] at h
  split at h
  · cases h
  · cases h
    have hb := Enclosed.cons (b := ⟨⟨l, 0⟩, q, level⟩) he hf hl hp ho
    exact .congr (.awaiting hb (.inl rfl) ⟨[], [], rfl, .nil, .nil⟩ rfl) (by simp)

theorem Spelled.takeAfterStep {branches steps} (he : Enclosed bs ls₁)
    (hf : Level.Fits ⟨branches, steps⟩ bs) (hl : Level.Spelled ⟨branches, steps⟩ ls₂)
    (hd : Derives .element ls₃ d)
    (h : takeAfterStep ⟨a, ⟨branches, d :: steps⟩, bs, labels⟩ ⟨l, 0⟩ = .ok r') :
    r'.Spelled (ls₁ ++ ls₂ ++ ls₃ ++ [l]) := by
  obtain ⟨ls₄, ls₅, rfl, hbs, hs⟩ := hl
  have hseq := hs.sequence hd
  cases behindStep_of_takeAfterStep h
  case ampersands => exact .congr (.awaiting he hf ⟨_, _, rfl, hbs, hs.cons hd⟩ rfl) (by simp)
  case conclusion hb =>
    -- There are no branches outside of brackets.
    obtain rfl : bs = [] := hb
    obtain rfl : branches = [] := by simpa [Level.Fits] using hf
    cases he
    cases hbs
    exact .congr (.nothing hseq) (by simp)
  case bars b rest hb ho =>
    obtain rfl : bs = b :: rest := hb
    exact .congr (.awaiting he (.inr ⟨b, rfl, ho⟩) ⟨_, _, rfl, hbs.cons hseq, .nil⟩ rfl) (by simp)
  case closeAngle b rest hb ho =>
    obtain rfl : bs = b :: rest := hb
    cases he
    case cons hl' hp _ he hf' =>
      exact .congr (.put he hf' hl' hp (.inl rfl) (hbs.split hseq)) (by simp [ho])
  case closeParen b rest hb ho =>
    -- In parentheses there is a single sequence.
    obtain rfl : bs = b :: rest := hb
    obtain rfl : branches = [] := by simpa [Level.Fits, ho] using hf
    cases hbs
    cases he
    case cons hl' hp hb he hf' =>
      have hb := hb.resolve_left ho
      exact .congr (.put he hf' hl' hp (.inr rfl) (.group hseq)) (by simp [hb])

theorem Spelled.takeClause (he : Enclosed bs ls₁) (hf : level.Fits bs) (hl : level.Spelled ls₂)
    (hc : Derives .transition ls₃ c.definition)
    (h : takeClause ⟨a, level, bs, labels⟩ c ⟨l, 0⟩ = .ok r') :
    r'.Spelled (ls₁ ++ ls₂ ++ ls₃ ++ [l]) := by
  simp only [Reading.takeClause] at h
  split at h
  case isTrue hl' =>
    cases h
    cases hl'
    exact .congr (.awaiting he hf hl ⟨_, rfl, hc⟩) (by simp)
  case isFalse =>
    exact Spelled.takeAfterStep he hf hl (.alternative (by simp [Phrase.alternatives]) hc) h

theorem Spelled.takeAfterTask {t : TaskMention} (he : Enclosed bs ls₁) (hf : level.Fits bs)
    (hl : level.Spelled ls₂) (hp : q.Spelled ls₃) (ht : LabeledTask ls₄ t)
    (h : takeAfterTask ⟨a, level, bs, labels⟩ t q ⟨l, 0⟩ = .ok r') :
    r'.Spelled (ls₁ ++ ls₂ ++ (ls₃ ++ ls₄) ++ [l]) := by
  cases q
  case step =>
    cases hp
    exact Spelled.takeClause he hf hl (c := { source := t }) (Derives.of_task ht) h
  case target chain p =>
    obtain ⟨ls₅, l, rfl, hc, hs⟩ := hp
    have hd : Derives .target ls₄ (.task t) :=
      .alternative (by simp [Phrase.alternatives]) (.labeledTask ht)
    exact Spelled.takeClause he hf hl (hc.addClause hs hd) h

theorem Spelled.takeElement {otherwise : ReadFault.Cause} (he : Enclosed bs ls₁)
    (hf : level.Fits bs) (hl : level.Spelled ls₂) (hp : q.Spelled ls₃)
    (h : takeElement limit ⟨a, level, bs, labels⟩ q otherwise ⟨l, 0⟩ = .ok r') :
    r'.Spelled (ls₁ ++ ls₂ ++ ls₃ ++ [l]) := by
  cases l <;> simp only [Reading.takeElement, ne_refuse] at h
  case openAngle => exact Spelled.openBracket he hf hl hp (.inl rfl) h
  case openParen => exact Spelled.openBracket he hf hl hp (.inr rfl) h
  case identifier name =>
    cases h
    exact .congr (.awaiting he hf hl ⟨rfl, _, rfl, hp⟩) (by simp)

-- What is awaited says what was spelled last, so each kind of it is a case of its own. Nothing
-- comes behind the end of the input.
theorem Spelled.step (h : r.Spelled ls) (hi : Lexeme.endOfInput ∉ ls)
    (hs : step limit r ⟨l, 0⟩ = .ok r') : r'.Spelled (ls ++ [l]) := by
  -- An invalid lexeme is taken in no state.
  replace hs : takeLexeme limit r ⟨l, 0⟩ = .ok r' := by
    cases l <;> first | exact hs | cases hs
  cases h
  case nothing => simp at hi
  case afterStep he hf hl hd => exact Spelled.takeAfterStep he hf hl hd hs
  case awaiting a level bs labels ls₁ ls₂ ls₃ he hf hl ha =>
    cases a
    case afterStep => cases ha
    case nothing => cases ha
    case element => exact Spelled.takeElement he hf hl (q := .step) ha hs
    case target  => exact Spelled.takeElement he hf hl (q := .target _ _) ha hs
    case clause  => exact Spelled.takeClause he hf hl ha hs
    case afterName name offset place =>
      obtain ⟨rfl, ls₄, rfl, hp⟩ := ha
      simp only [takeLexeme] at hs
      split at hs
      case isTrue hl' =>
        cases hs
        cases hl'
        exact .congr (.awaiting he hf hl ⟨_, rfl, hp⟩) (by simp)
      case isFalse => exact Spelled.takeAfterTask he hf hl hp (.plain name) hs
    case afterLabel label offset place =>
      obtain ⟨ls₄, rfl, hp⟩ := ha
      simp only [takeLexeme] at hs
      split at hs
      case h_1 name hl' =>
        cases hs
        cases hl'
        exact .congr (.awaiting he hf hl ⟨rfl, _, rfl, hp⟩) (by simp)
      case h_2 => cases hs
    case afterLabeled label offset name offset' place =>
      obtain ⟨rfl, ls₄, rfl, hp⟩ := ha
      simp only [takeLexeme] at hs
      split at hs
      case h_1 => cases hs
      case h_2 => exact Spelled.takeAfterTask he hf hl hp (.labeled label name) hs
    case status chain =>
      obtain ⟨ls₄, rfl, hc⟩ := ha
      obtain ⟨p, hp, rfl⟩ := takeStatus_cases hs
      exact .congr (.awaiting he hf hl ⟨_, l, rfl, hc, hp⟩) (by simp)
    case afterStatus chain p offset =>
      obtain ⟨ls₄, l', rfl, hc, hl'⟩ := ha
      obtain ⟨rfl, rfl⟩ := takeAfterStatus_cases hs
      have hn : (chain.noteStatus p offset).definition = chain.definition := by
        simp only [Chain.noteStatus]
        split <;> rfl
      exact .congr (.awaiting he hf hl ⟨ls₄, l', rfl, hn ▸ hc, hl'⟩) (by simp)

def run (limit : Int) (r : Reading) (ls : List Lexeme) : Except ReadFault Reading :=
  ls.foldlM (fun r l => step limit r ⟨l, 0⟩) r

@[simp]
theorem run_nil : run limit r [] = .ok r :=
  rfl

theorem run_cons : run limit r (l :: ls) = step limit r ⟨l, 0⟩ >>= (run limit · ls) :=
  rfl

theorem run_append : run limit r (ls ++ ls₁) = run limit r ls >>= (run limit · ls₁) := by
  simp [run]

theorem run_concat : run limit r (ls ++ [l]) = run limit r ls >>= (step limit · ⟨l, 0⟩) := by
  simp [run]

theorem Spelled.run (h : r.Spelled ls) (hi : Lexeme.endOfInput ∉ ls ++ ls₁)
    (hr : run limit r ls₁ = .ok r') : r'.Spelled (ls ++ ls₁) := by
  induction ls₁ generalizing r ls
  case nil =>
    cases hr
    simpa using h
  case cons l ls₁ hi' =>
    rw [run_cons] at hr
    cases hs : Reading.step limit r ⟨l, 0⟩ <;> rw [hs] at hr
    case error => cases hr
    case ok =>
      rw [List.append_cons] at hi ⊢
      simp only [List.mem_append, not_or] at hi
      exact hi' (h.step hi.1.1 hs) (by simp_all) hr

theorem Spelled.initial : Spelled { } [] :=
  .awaiting .nil (.inl rfl) ⟨[], [], rfl, .nil, .nil⟩ rfl

-- Every step keeps up what a state says about the lexemes that were read, so a run that accepts
-- them has read a sequence of the grammar.
theorem derives_of_run {whole : Definition} (hi : Lexeme.endOfInput ∉ ls)
    (h : run limit { } (ls ++ [.endOfInput]) = .ok r) (hw : r.awaiting = .nothing whole) :
    Derives .sequence ls whole := by
  rw [run_concat] at h
  cases hr : run limit { } ls <;> rw [hr] at h
  case error => cases h
  case ok r₁ =>
    replace h : Reading.step limit r₁ ⟨.endOfInput, 0⟩ = .ok r := h
    have hs : r.Spelled (ls ++ [.endOfInput]) := (Spelled.initial.run hi hr).step hi h
    generalize he : ls ++ [.endOfInput] = ls' at hs
    cases hs <;> cases hw
    case awaiting ha => cases ha
    case nothing hd  => rwa [(List.append_inj' he rfl).1]

end Reading

end TaskFlow
