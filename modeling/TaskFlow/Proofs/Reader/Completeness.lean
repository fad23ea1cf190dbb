import TaskFlow.Proofs.Grammar.Unambiguous
import TaskFlow.Proofs.Reader.Demands
import TaskFlow.Proofs.Reader.Soundness

namespace TaskFlow

open Lexeme

variable {limit : Int} {ls rest : List Lexeme} {l : Lexeme} {d : Definition} {t : TaskMention}

def Place.chain (t : TaskMention) : Place → Chain
  | step => { source := t }
  | target chain p => chain.addClause p (.task t)

namespace Chain

def patterns (c : Chain) : List (Option String) :=
  (c.clauses.map (·.1)).reverse

-- Whether a chain remembers just a wildcard that it has.
def Honest (c : Chain) : Prop :=
  c.catchAll = none ↔ some wildcard ∉ c.patterns

-- The chain with one more clause, whose pattern was noted.
def follow (c : Chain) (p : String) (d : Definition) : Chain :=
  (c.noteStatus p 0).addClause p d

def extend (c : Chain) (as : List Arm) : Chain :=
  as.foldl (fun c a => c.follow (a.status.pattern?.getD "") a.target) c

variable {c : Chain} {p : String} {as : List Arm}

@[simp]
theorem noteStatus_clauses : (c.noteStatus p 0).clauses = c.clauses := by
  rw [noteStatus]
  split
  all_goals rfl

@[simp]
theorem noteStatus_source : (c.noteStatus p 0).source = c.source := by
  rw [noteStatus]
  split
  all_goals rfl

theorem follow_patterns : (c.follow p d).patterns = c.patterns ++ [some p] := by
  simp [follow, addClause, patterns]

theorem Honest.follow (h : c.Honest) : (c.follow p d).Honest := by
  rw [Honest] at h
  rw [Honest, follow_patterns]
  by_cases hp : p = wildcard
  · simp [Chain.follow, addClause, noteStatus, hp]
  · simpa [Chain.follow, addClause, noteStatus, hp, Ne.symm hp] using h

theorem covers_iff : c.covers p ↔ some p ∈ c.patterns := by
  simp [covers, patterns]

theorem extend_definition (h : ∀ a ∈ as, a.status.pattern?.isSome) :
    (c.extend as).definition = .ofClauses c.source (c.clauses.reverse ++ as.map Arm.clause) := by
  induction as generalizing c
  case nil => simp [extend, definition_eq]
  case cons a as hi =>
    have ⟨p, hp⟩ := Option.isSome_iff_exists.mp (h a (by simp))
    have := hi (c := c.follow p a.target) (fun a ha => h a (by simp [ha]))
    simpa [extend, hp, follow, addClause, Arm.clause] using this

end Chain

namespace Reading

variable {r r' : Reading} {res : Except ReadFault Reading} {q : Place} {labels : List String}
  {patterns : List (List (Option String))}

-- Whether a phrase at the given place comes next.
def Expects (r : Reading) : Place → Prop
  | .step => r.awaiting = .element
  | .target chain p => r.awaiting = .target chain p

-- Whether the spelling alone decides what a run comes to: a state, or a lexeme out of place.
def BySpelling (res : Except ReadFault Reading) : Prop :=
  ∀ f, res = .error f → f.cause.isMisplaced

-- Whether reading lexemes turns one state into another but for the labels, just if the first state
-- admits the lexemes, and provided that the phrase which they spell is over behind them. Then none
-- of the lexemes is out of place, so if there is one it stands behind them.
def Passes (limit : Int) (n : Phrase) (ls : List Lexeme) (labels : List String)
    (patterns : List (List (Option String))) (r r' : Reading) : Prop :=
  ∀ rest res, rest ≠ [] → n.EndsBefore rest → BySpelling res →
    (run limit r (ls ++ rest) = res ↔
      Admits limit r labels patterns ls ∧ run limit (r'.noting labels) rest = res)

theorem bySpelling_ok : BySpelling (.ok r) :=
  nofun

theorem run_of_step (h : step limit r ⟨l, 0⟩ = .ok r') :
    run limit r (l :: ls) = run limit r' ls := by
  rw [run_cons, h]
  rfl

theorem run_ne_ok (h : ∀ r', step limit r ⟨l, 0⟩ ≠ .ok r') : run limit r (l :: ls) ≠ .ok r₁ := by
  rw [run_cons]
  cases hs : step limit r ⟨l, 0⟩
  case error => nofun
  case ok    => exact absurd hs (h _)

theorem run_ne (h : ∃ f, step limit r ⟨l, 0⟩ = .error f ∧ f.cause.isMisplaced = false)
    (hs : BySpelling res) : run limit r (l :: ls) ≠ res := by
  have ⟨f, h, hf⟩ := h
  rw [run_cons, h]
  rintro rfl
  exact absurd (hs f rfl) (by simp [hf])

theorem run_congr (h : step limit r ⟨l, 0⟩ = step limit r' ⟨l, 0⟩) :
    run limit r (l :: ls) = run limit r' (l :: ls) := by
  rw [run_cons, run_cons, h]

theorem step_eq_takeLexeme {start : Nat} (h : ∀ c, l ≠ .invalid c) :
    step limit r ⟨l, start⟩ = takeLexeme limit r ⟨l, start⟩ := by
  cases l <;> first | rfl | exact absurd rfl (h _)

-- An invalid character is refused in every state, so it takes no part in telling states apart.
theorem step_congr
    (h : (∀ c, l ≠ .invalid c) → takeLexeme limit r ⟨l, 0⟩ = takeLexeme limit r' ⟨l, 0⟩) :
    step limit r ⟨l, 0⟩ = step limit r' ⟨l, 0⟩ := by
  cases l <;> first | rfl | exact h (by simp)

theorem put_noting : (r.put d q).noting labels = (r.noting labels).put d q := by
  cases q
  all_goals rfl

section Tasks

theorem step_identifier {name : String} (hr : r.Expects q) :
    step limit r ⟨.identifier name, 0⟩ = .ok { r with awaiting := .afterName name 0 q } := by
  rw [step_eq_takeLexeme (by simp)]
  cases q <;> simp only [Expects] at hr <;> simp only [takeLexeme, hr] <;> rfl

theorem takeAfterTask_eq {tk : Token} : r.takeAfterTask t q tk = r.takeClause (q.chain t) tk := by
  cases q
  all_goals rfl

theorem step_afterName {name : String} (hl : l ≠ .colon) :
    step limit { r with awaiting := .afterName name 0 q } ⟨l, 0⟩
      = step limit { r with awaiting := .clause (q.chain { name }) } ⟨l, 0⟩ := by
  refine step_congr fun _ => ?_
  simp only [takeLexeme, hl, if_false, takeAfterTask_eq]
  rfl

theorem fresh_singleton {label : String} : r.Fresh [label] ↔ r.labels.lookup label = none := by
  simp [Fresh, List.lookup_eq_none_iff]
  grind

-- The label is judged at the lexeme behind the task.
theorem step_afterLabeled {label name : String} (h : r.Fresh [label]) :
    step limit { r with awaiting := .afterLabeled label 0 name 0 q } ⟨l, 0⟩
      = step limit
        ({ r with awaiting := .clause (q.chain { name, label := some label }) }.noting [label])
        ⟨l, 0⟩ := by
  refine step_congr fun _ => ?_
  rw [fresh_singleton] at h
  simp only [takeLexeme, h, takeAfterTask_eq]
  rfl

theorem step_afterLabeled_error {label name : String} (h : ¬ r.Fresh [label]) :
    ∃ f, step limit { r with awaiting := .afterLabeled label 0 name 0 q } ⟨l, 0⟩ = .error f ∧
      f.cause.isMisplaced = false := by
  have ⟨first, hf⟩ := Option.ne_none_iff_exists'.mp (mt fresh_singleton.mpr h)
  cases l
  case invalid c => exact ⟨⟨.invalidCharacter c, 0⟩, rfl, rfl⟩
  all_goals
    refine ⟨⟨.duplicateLabel label first, 0⟩, ?_, rfl⟩
    rw [step_eq_takeLexeme (by simp)]
    simp [takeLexeme, hf]

theorem passes_labeledTask (h : LabeledTask ls t) (hr : r.Expects q) :
    Passes limit .labeledTask ls (Definition.task t).labels [] r { r with awaiting := .clause (q.chain t) } := by
  rintro (_ | ⟨l, rest⟩) res hn he hs
  case nil => contradiction
  case cons =>
    have hl : l ≠ .colon := by simpa [Phrase.EndsBefore, Phrase.extensions] using he
    cases h
    case plain name =>
      have ha : Admits limit r [] [] [.identifier name] :=
        ⟨fresh_nil, by simp, by simp [nestsFrom_cons, opens]⟩
      rw [List.singleton_append, run_of_step (step_identifier hr),
        run_congr (step_afterName hl)]
      simp [ha]
    case labeled label name =>
      have hc : step limit { r with awaiting := .afterName label 0 q } ⟨.colon, 0⟩
          = .ok { r with awaiting := .afterLabel label 0 q } := rfl
      have hi : step limit { r with awaiting := .afterLabel label 0 q } ⟨.identifier name, 0⟩
          = .ok { r with awaiting := .afterLabeled label 0 name 0 q } := rfl
      have ha : Admits limit r [label] [] [.identifier label, .colon, .identifier name] ↔
          r.Fresh [label] := by
        simp [admits_iff, nestsFrom_cons, opens]
      rw [List.cons_append, run_of_step (step_identifier hr), List.cons_append, run_of_step hc,
        List.singleton_append, run_of_step hi]
      simp only [Definition.labels_task, Option.toList_some, ha]
      -- The label is judged only when the lexeme behind the task comes.
      by_cases hf : r.Fresh [label]
      case pos =>
        rw [run_congr (step_afterLabeled hf)]
        simp [hf]
      case neg =>
        exact iff_of_false (run_ne (step_afterLabeled_error hf) hs) (hf ·.1)

end Tasks

section Passes

variable {n m : Phrase} {ls' : List Lexeme} {labels' : List String}
  {patterns' : List (List (Option String))} {r₁ r₂ : Reading}

theorem Passes.of_step (h : step limit r ⟨l, 0⟩ = .ok r') (ho : l.opens = false) :
    Passes limit n [l] [] [] r r' := by
  intro rest res _ _ _
  have ha : Admits limit r [] [] [l] := ⟨fresh_nil, by simp, by simp [nestsFrom_cons, ho]⟩
  rw [List.singleton_append, run_of_step h]
  simp [ha]

-- The second part is read in a state that knows the labels of the first part.
theorem Passes.append (h : Passes limit n ls labels patterns r r₁) (hl : Lexeme.level ls = 0)
    (he : ∀ rest, m.EndsBefore rest → n.EndsBefore (ls' ++ rest)) (hb : r₁.brackets = r.brackets)
    (hr : r₁.labels = r.labels)
    (h' : Passes limit m ls' labels' patterns' (r₁.noting labels) (r₂.noting labels)) :
    Passes limit m (ls ++ ls') (labels ++ labels') (patterns ++ patterns') r r₂ := by
  intro rest res hn hm hs
  have ha : Admits limit (r₁.noting labels) labels' patterns' ls' ↔
      Admits limit (r.noting labels) labels' patterns' ls' := by
    simp [admits_iff, Fresh, noting, hb, hr]
  rw [List.append_assoc, h _ _ (by simp [hn]) (he rest hm) hs, h' rest res hn hm hs,
    ← noting_append,
    Admits.append_iff hl, ha, and_assoc]

theorem Passes.cons (hs : step limit r ⟨l, 0⟩ = .ok r₁) (ho : l.opens = false)
    (hc : l.closes = false) (hb : r₁.brackets = r.brackets) (hr : r₁.labels = r.labels)
    (h : Passes limit n ls labels patterns r₁ r₂) :
    Passes limit n (l :: ls) labels patterns r r₂ := by
  refine Passes.append (n := .split) (.of_step hs ho) ?_ ?_ hb hr h
  · simp [Lexeme.level, ho, hc]
  · simp [Phrase.EndsBefore, Phrase.extensions]

theorem Passes.congr (h : Passes limit n ls labels patterns r r')
    (hp : (∀ ps ∈ patterns, Selective ps) ↔ ∀ ps ∈ patterns', Selective ps) :
    Passes limit n ls labels patterns' r r' := by
  intro rest res hn he hs
  rw [h rest res hn he hs, admits_iff, admits_iff, hp]

def opened (r : Reading) (l : Lexeme) (q : Place) : Reading :=
  { r with awaiting := .element, level := { }, brackets := ⟨⟨l, 0⟩, q, r.level⟩ :: r.brackets }

theorem step_opener {start : Nat} (hq : r.Expects q) (ho : l.opens) :
    step limit r ⟨l, start⟩ = openBracket limit r ⟨l, start⟩ q := by
  cases l <;> simp [opens] at ho
  all_goals
    rw [step_eq_takeLexeme (by simp)]
    cases q <;> simp only [Expects] at hq <;> simp only [takeLexeme, hq, takeElement]

-- Only an opening bracket depends on the limit.
theorem Passes.opener (hq : r.Expects q) (ho : l.opens)
    (h : Passes limit n ls labels patterns (r.opened l q) r') :
    Passes limit n (l :: ls) labels patterns r r' := by
  intro rest res hn he hs
  have hc : l.closes = false := by cases l <;> simp [opens] at ho <;> rfl
  have ha : Admits limit r labels patterns (l :: ls) ↔
      r.brackets.length + 1 ≤ limit ∧ Admits limit (r.opened l q) labels patterns ls := by
    simp [admits_iff, nestsFrom_cons, ho, opened, Fresh, Lexeme.level, hc]
    grind
  rw [List.cons_append, ha]
  by_cases hd : r.brackets.length + 1 ≤ limit
  case pos =>
    have ht : step limit r ⟨l, 0⟩ = .ok (r.opened l q) := by
      rw [step_opener hq ho]
      exact if_neg (by omega)
    rw [run_of_step ht, h rest res hn he hs]
    simp [hd]
  case neg =>
    have ht : step limit r ⟨l, 0⟩ = .error ⟨.tooDeep l (r.brackets.length + 1) limit, 0⟩ := by
      rw [step_opener hq ho]
      exact if_pos (by omega)
    exact iff_of_false (run_ne ⟨_, ht, rfl⟩ hs) (hd ·.1.1)

end Passes

section Parts

variable {ps : List (List Lexeme × Definition)} {b : Bracket} {bs : List Bracket}
  {ds : List Definition}

def behind (r : Reading) (steps : List Definition) : Reading :=
  { r with
    awaiting := .afterStep, level := { r.level with steps := steps.reverse ++ r.level.steps } }

theorem step_ampersands (h : r.awaiting = .afterStep) :
    step limit r ⟨.ampersands, 0⟩ = .ok { r with awaiting := .element } := by
  rw [step_eq_takeLexeme (by simp)]
  simp [takeLexeme, h, takeAfterStep]

theorem passes_steps (hn : ps ≠ [])
    (h : ∀ p ∈ ps, ∀ r : Reading, r.Expects .step →
      Passes limit .element p.1 p.2.labels p.2.patternLists r (r.put p.2 .step))
    (hz : ∀ p ∈ ps, Lexeme.level p.1 = 0) (hr : r.awaiting = .element) :
    Passes limit .sequence ([.ampersands].intercalate (ps.map (·.1))) (ps.flatMap (·.2.labels))
      (ps.flatMap (·.2.patternLists)) r (r.behind (ps.map (·.2))) := by
  induction ps generalizing r
  case nil => contradiction
  case cons p ps hi =>
    have hp := h p (by simp) r hr
    cases ps
    case nil =>
      intro rest res hn he hs
      have := hp rest res hn (Phrase.EndsBefore.mono he (by simp [Phrase.extensions])) hs
      simpa [behind, put] using this
    case cons p' ps =>
      -- The other steps are read from the state behind the separator.
      have he : ∀ ls, Phrase.element.EndsBefore (.ampersands :: ls) := by
        simp [Phrase.EndsBefore, Phrase.extensions]
      have hps := hi (r := { (r.put p.2 .step).noting p.2.labels with awaiting := .element })
        (by simp) (fun p hp => h p (by simp [hp])) (fun p hp => hz p (by simp [hp])) rfl
      have hb : behind { (r.put p.2 .step).noting p.2.labels with awaiting := .element }
          ((p' :: ps).map (·.2)) = (r.behind ((p :: p' :: ps).map (·.2))).noting p.2.labels := by
        simp [behind, put, noting]
      rw [hb] at hps
      have hps := Passes.cons (r := (r.put p.2 .step).noting p.2.labels) (step_ampersands rfl)
        rfl rfl rfl rfl hps
      simpa using hp.append (hz p (by simp)) (fun _ _ => he _) rfl rfl hps

theorem step_bars (hr : r.awaiting = .afterStep) (hb : r.brackets = b :: bs)
    (ho : b.opening.lexeme = .openAngle) (hd : branch r.level = d) :
    step limit r ⟨.bars, 0⟩ = .ok
      { r with awaiting := .element, level := { branches := d :: r.level.branches } } := by
  rw [step_eq_takeLexeme (by simp)]
  simp [takeLexeme, hr, takeAfterStep, hb, ho, hd]

theorem step_closeAngle (hr : r.awaiting = .afterStep) (hb : r.brackets = b :: bs)
    (ho : b.opening.lexeme = .openAngle) (hd : branch r.level = d) :
    step limit r ⟨.closeAngle, 0⟩
      = .ok (r.close b bs (.split (d :: r.level.branches).reverse)) := by
  rw [step_eq_takeLexeme (by simp)]
  simp [takeLexeme, hr, takeAfterStep, hb, ho, hd]

theorem step_closeParen (hr : r.awaiting = .afterStep) (hb : r.brackets = b :: bs)
    (ho : b.opening.lexeme = .openParen) (hd : branch r.level = d) :
    step limit r ⟨.closeParen, 0⟩ = .ok (r.close b bs d) := by
  rw [step_eq_takeLexeme (by simp)]
  simp [takeLexeme, hr, takeAfterStep, hb, ho, hd]

-- What a state has to become behind a sequence: its steps are those of the current branch.
def ReadsSequence (limit : Int) (ls : List Lexeme) (d : Definition) : Prop :=
  ∃ ss, .inOrder ss = d ∧ ∀ r : Reading, r.awaiting = .element →
    Passes limit .sequence ls d.labels d.patternLists r (r.behind ss)

theorem endsBefore_bars (n : Phrase) : n.EndsBefore (.bars :: rest) := by
  cases n <;> simp [Phrase.EndsBefore, Phrase.extensions]

theorem endsBefore_closeAngle (n : Phrase) : n.EndsBefore (.closeAngle :: rest) := by
  cases n <;> simp [Phrase.EndsBefore, Phrase.extensions]

theorem endsBefore_closeParen (n : Phrase) : n.EndsBefore (.closeParen :: rest) := by
  cases n <;> simp [Phrase.EndsBefore, Phrase.extensions]

theorem branch_behind {ss : List Definition} (h : r.level.steps = []) :
    branch (r.behind ss).level = .inOrder ss := by
  simp [branch, behind, h]

-- What a bracket becomes does not depend on what else was read inside.
theorem close_congr {r' : Reading} (h : r.labels = r'.labels) : r.close b bs d = r'.close b bs d := by
  rw [close, close, h]
  cases b.place
  all_goals rfl

theorem close_noting : (r.close b bs d).noting labels = (r.noting labels).close b bs d :=
  put_noting

-- By induction on the branches: `r` stands in front of the first of them, and those before are
-- among the branches that it has already.
theorem passes_branches (hn : ps ≠ []) (h : ∀ p ∈ ps, ReadsSequence limit p.1 p.2)
    (hz : ∀ p ∈ ps, Lexeme.level p.1 = 0) (hr : r.awaiting = .element) (hl : r.level.steps = [])
    (hb : r.brackets = b :: bs) (ho : b.opening.lexeme = .openAngle) :
    Passes limit .split ([.bars].intercalate (ps.map (·.1)) ++ [.closeAngle])
      (ps.flatMap (·.2.labels)) (ps.flatMap (·.2.patternLists)) r
      (r.close b bs (.split (r.level.branches.reverse ++ ps.map (·.2)))) := by
  induction ps generalizing r
  case nil => contradiction
  case cons p ps hi =>
    have ⟨ss, hs, hp⟩ := h p (by simp)
    have hp := hp r hr
    have hd : branch (r.behind ss).level = p.2 := by rw [branch_behind hl, hs]
    let r' := (r.behind ss).noting p.2.labels
    cases ps
    case nil =>
      -- The last branch ends with the bracket.
      have hc : step limit r' ⟨.closeAngle, 0⟩ =
          .ok (r'.close b bs (.split (p.2 :: r.level.branches).reverse)) :=
        step_closeAngle rfl hb ho hd
      have hc : Passes limit .split [.closeAngle] [] [] r'
          ((r.close b bs (.split (r.level.branches.reverse ++ [p.2]))).noting p.2.labels) := by
        refine .of_step (hc.trans ?_) rfl
        rw [close_noting, List.reverse_cons]
        exact congrArg _ (close_congr rfl)
      simpa using hp.append (hz p (by simp)) (fun _ _ => endsBefore_closeAngle _) rfl rfl hc
    case cons p' ps =>
      -- Behind the bars the next branch begins.
      let r₁ : Reading :=
        { r' with awaiting := .element, level := { branches := p.2 :: r.level.branches } }
      have hc : step limit r' ⟨.bars, 0⟩ = .ok r₁ := step_bars rfl hb ho hd
      have hps := hi (r := r₁) (by simp) (fun p hp => h p (by simp [hp]))
        (fun p hp => hz p (by simp [hp])) rfl rfl hb
      have hr₁ : r₁.close b bs (.split (r₁.level.branches.reverse ++ (p' :: ps).map (·.2)))
          = (r.close b bs
            (.split (r.level.branches.reverse ++ (p :: p' :: ps).map (·.2)))).noting p.2.labels := by
        have he : r₁.level.branches.reverse ++ (p' :: ps).map (·.2)
            = r.level.branches.reverse ++ (p :: p' :: ps).map (·.2) := by simp [r₁]
        rw [he, close_noting]
        exact close_congr rfl
      rw [hr₁] at hps
      have hps := Passes.cons (r := r') hc rfl rfl rfl rfl hps
      simpa using hp.append (hz p (by simp)) (fun _ _ => endsBefore_bars _) rfl rfl hps

end Parts

section Clauses

variable {c : Chain} {p : String} {a : Arm} {as : List Arm}

theorem step_status (h : l.pattern? = some p) :
    step limit { r with awaiting := .status c } ⟨l, 0⟩
      = .ok { r with awaiting := .afterStatus c p 0 } := by
  rw [step_eq_takeLexeme (by rintro c rfl; simp [pattern?] at h)]
  cases l <;> simp_all [takeLexeme, takeStatus, pattern?]

-- The pattern is judged at the colon.
theorem step_colon {offset start : Nat} (hp : p ≠ "") (hw : c.catchAll = none)
    (hc : c.covers p = false) :
    step limit { r with awaiting := .afterStatus c p offset } ⟨.colon, start⟩
      = .ok { r with awaiting := .target (c.noteStatus p offset) p } := by
  rw [step_eq_takeLexeme (by simp)]
  simp [takeLexeme, takeAfterStatus, hp, hw, hc]

theorem step_afterStatus (hc : c.Honest) (h : Selective (c.patterns ++ [some p])) :
    step limit { r with awaiting := .afterStatus c p 0 } ⟨.colon, 0⟩
      = .ok { r with awaiting := .target (c.noteStatus p 0) p } := by
  have ⟨_, he, hw, hp⟩ := selective_concat.mp h
  exact step_colon he (hc.mpr hw) (by rwa [← Bool.not_eq_true, Chain.covers_iff])

theorem step_afterStatus_error (hc : c.Honest) (hs : Selective c.patterns)
    (h : ¬ Selective (c.patterns ++ [some p])) :
    ∃ f, step limit { r with awaiting := .afterStatus c p 0 } ⟨.colon, 0⟩ = .error f ∧
      f.cause.isMisplaced = false := by
  rw [step_eq_takeLexeme (by simp)]
  simp only [takeLexeme, takeAfterStatus]
  split
  · exact ⟨_, rfl, rfl⟩
  split
  · exact ⟨_, rfl, rfl⟩
  split
  · exact ⟨_, rfl, rfl⟩
  case isFalse he _ hn hv =>
    rw [Chain.covers_iff] at hv
    exact absurd (selective_concat.mpr ⟨hs, by simpa using he, hc.mp hn, hv⟩) h

def ReadsTarget (limit : Int) (ls : List Lexeme) (d : Definition) : Prop :=
  ∀ (r : Reading) (c : Chain) (p : String), r.Expects (.target c p) →
    Passes limit .target ls d.labels d.patternLists r (r.put d (.target c p))

theorem passes_arm (hp : a.status.pattern? = some p) (h : ReadsTarget limit a.lexemes a.target)
    (hc : c.Honest) (hs : Selective c.patterns) :
    Passes limit .target a.spelling a.target.labels
      ((c.patterns ++ [some p]) :: a.target.patternLists)
      { r with awaiting := .clause c } { r with awaiting := .clause (c.follow p a.target) } := by
  have ho : a.status.opens = false ∧ a.status.closes = false := by
    cases ha : a.status <;> simp [ha, pattern?] at hp <;> exact ⟨rfl, rfl⟩
  have hst : step limit { r with awaiting := .status c } ⟨a.status, 0⟩
      = .ok { r with awaiting := .afterStatus c p 0 } := step_status hp
  have har : step limit { r with awaiting := .clause c } ⟨.arrow, 0⟩
      = .ok { r with awaiting := .status c } := rfl
  -- The pattern is judged when its colon comes, before anything of the target is read.
  by_cases hse : Selective (c.patterns ++ [some p])
  case pos =>
    have hd := h { r with awaiting := .target (c.noteStatus p 0) p } (c.noteStatus p 0) p rfl
    have hd := hd.cons (step_afterStatus hc hse) rfl rfl rfl rfl
    have hd := (hd.cons hst ho.1 ho.2 rfl rfl).cons har rfl rfl rfl rfl
    exact hd.congr (by simp [hse])
  case neg =>
    intro rest res _ _ hr
    refine iff_of_false ?_ fun ha => hse (ha.1.selective _ (by simp))
    rw [Arm.spelling, List.cons_append, List.cons_append, run_of_step har, run_of_step hst]
    exact run_ne (step_afterStatus_error hc hs hse) hr

-- By induction on the arms. The patterns before them are those of the chain, and a pattern that
-- they rule out is refused at once, whatever comes behind it.
theorem passes_arms (hs : ∀ a ∈ as, a.status.pattern?.isSome)
    (h : ∀ a ∈ as, ReadsTarget limit a.lexemes a.target) (hz : ∀ a ∈ as, Lexeme.level a.lexemes = 0)
    (hc : c.Honest) (hp : Selective c.patterns) :
    Passes limit .target (as.flatMap Arm.spelling) (as.flatMap (·.target.labels))
      ((c.patterns ++ as.map (·.status.pattern?)) :: as.flatMap (·.target.patternLists))
      { r with awaiting := .clause c } { r with awaiting := .clause (c.extend as) } := by
  induction as generalizing r c
  case nil =>
    intro rest res _ _ _
    have ha : Admits limit { r with awaiting := .clause c } [] [c.patterns] [] :=
      ⟨fresh_nil, by simpa using hp, nestsFrom_nil⟩
    simp [ha, Chain.extend]
  case cons a as hi =>
    have ⟨p, hp'⟩ := Option.isSome_iff_exists.mp (hs a (by simp))
    have ha := passes_arm (r := r) hp' (h a (by simp)) hc hp
    have hl : Lexeme.level a.spelling = 0 := (a.level_spelling (hs a (by simp))).trans (hz a (by simp))
    have he : ∀ rest, Phrase.target.EndsBefore rest →
        Phrase.target.EndsBefore (as.flatMap Arm.spelling ++ rest) := by
      cases as <;> simp [Arm.spelling, Phrase.EndsBefore, Phrase.extensions]
    by_cases hse : Selective (c.patterns ++ [some p])
    case pos =>
      have hx : (c.follow p a.target).extend as = c.extend (a :: as) := by simp [Chain.extend, hp']
      have has := hi (r := r.noting a.target.labels) (c := c.follow p a.target)
        (fun a ha => hs a (by simp [ha])) (fun a ha => h a (by simp [ha]))
        (fun a ha => hz a (by simp [ha])) hc.follow (by rwa [Chain.follow_patterns])
      rw [hx, Chain.follow_patterns] at has
      refine (ha.append hl he rfl rfl has).congr ?_
      simp [hp', hse]
      grind
    case neg =>
      intro rest res hn hr hs
      rw [List.flatMap_cons, List.append_assoc, ha _ res (by simp [hn]) (he rest hr) hs]
      refine iff_of_false (fun h => hse (h.1.selective _ (by simp))) fun h => hse ?_
      have : Selective (c.patterns ++ [some p] ++ as.map (·.status.pattern?)) :=
        h.1.selective _ (by simp [hp'])
      exact this.of_append

theorem step_clause (h : l ≠ .arrow) :
    step limit { r with awaiting := .clause c } ⟨l, 0⟩
      = step limit (r.put c.definition .step) ⟨l, 0⟩ := by
  refine step_congr fun _ => ?_
  simp only [takeLexeme, takeClause, h, if_false]
  rfl

theorem labels_ofClauses {cs : List Clause} :
    (Definition.ofClauses t cs).labels = t.label.toList ++ cs.flatMap (·.2.labels) := by
  cases cs <;> simp [Definition.ofClauses]

theorem selective_patternLists_ofClauses {cs : List Clause} :
    (∀ ps ∈ (Definition.ofClauses t cs).patternLists, Selective ps) ↔
      ∀ ps ∈ cs.map (·.1) :: cs.flatMap (·.2.patternLists), Selective ps := by
  cases cs <;> simp [Definition.ofClauses, selective_nil]

theorem passes_transition (ht : LabeledTask ls t) (hs : ∀ a ∈ as, a.status.pattern?.isSome)
    (h : ∀ a ∈ as, ReadsTarget limit a.lexemes a.target) (hz : ∀ a ∈ as, Lexeme.level a.lexemes = 0)
    (hr : r.Expects .step) :
    Passes limit .transition (ls ++ as.flatMap Arm.spelling)
      (Definition.ofClauses t (as.map Arm.clause)).labels
      (Definition.ofClauses t (as.map Arm.clause)).patternLists r
      (r.put (.ofClauses t (as.map Arm.clause)) .step) := by
  have hc : Chain.Honest { source := t } := by simp [Chain.Honest, Chain.patterns]
  have has := passes_arms (r := r.noting t.label.toList) hs h hz hc selective_nil
  have hb : ∀ rest, Phrase.target.EndsBefore rest →
      Phrase.labeledTask.EndsBefore (as.flatMap Arm.spelling ++ rest) := by
    cases as <;> simp [Arm.spelling, Phrase.EndsBefore, Phrase.extensions]
  have hp : Passes limit .target (ls ++ as.flatMap Arm.spelling)
      (Definition.ofClauses t (as.map Arm.clause)).labels
      (Definition.ofClauses t (as.map Arm.clause)).patternLists r
      { r with awaiting := .clause (Chain.extend { source := t } as) } := by
    rw [labels_ofClauses]
    have : Passes limit .target _ _ _ r
        { r with awaiting := .clause (Chain.extend { source := t } as) } :=
      (passes_labeledTask ht hr).append ht.level_eq_zero hb rfl rfl
        (by rw [Definition.labels_task]; exact has)
    refine Passes.congr (by simpa [List.flatMap_map, Arm.clause] using this) ?_
    rw [selective_patternLists_ofClauses]
    simp [Arm.clause, Chain.patterns, List.flatMap_map, Function.comp_def]
  -- Only a lexeme that is no arrow shows that the transition has ended, so the chain is put in its
  -- place when that lexeme is taken.
  rintro (_ | ⟨l, rest⟩) res hn he hres
  case nil => contradiction
  case cons =>
    have hl : l ≠ .arrow := by
      have := he l rfl
      simp [Phrase.extensions] at this
      exact this.1
    have hd : (Chain.extend { source := t } as).definition = .ofClauses t (as.map Arm.clause) :=
      Chain.extend_definition hs
    let r₁ := r.noting (Chain.extend { source := t } as).definition.labels
    have hx : step limit { r₁ with awaiting := .clause (Chain.extend { source := t } as) } ⟨l, 0⟩
        = step limit (r₁.put (Chain.extend { source := t } as).definition .step) ⟨l, 0⟩ :=
      step_clause hl
    rw [hp _ res hn (Phrase.EndsBefore.mono he (by simp [Phrase.extensions])) hres, put_noting,
      ← hd]
    rw [← run_congr hx]
    rfl

end Clauses

section Phrases

-- What reading a phrase makes of a state, for each kind of phrase.
def Reads (limit : Int) (ls : List Lexeme) (d : Definition) : Phrase → Prop
  | .sequence => ReadsSequence limit ls d
  | .target => ReadsTarget limit ls d
  | .labeledTask => ∃ t, d = .task t ∧ LabeledTask ls t
  | n@.element | n@.transition => ∀ r : Reading, r.Expects .step →
    Passes limit n ls d.labels d.patternLists r (r.put d .step)
  | n@.split | n@.group => ∀ (r : Reading) (q : Place), r.Expects q →
    Passes limit n ls d.labels d.patternLists r (r.put d q)

variable {n : Phrase} {ds : List Definition}

theorem Passes.phrase {m : Phrase} {r' : Reading} (h : Passes limit n ls labels patterns r r')
    (hs : n.extensions ⊆ m.extensions) : Passes limit m ls labels patterns r r' :=
  fun rest res hn he => h rest res hn (Phrase.EndsBefore.mono he hs)

theorem close_opened :
    (r.opened l q).close ⟨⟨l, 0⟩, q, r.level⟩ r.brackets d = r.put d q := by
  cases q
  all_goals rfl

end Phrases

end Reading

-- By induction on the derivation, with what reading makes of a state for each kind of phrase.
open Reading in
theorem Derives.reads {n : Phrase} (h : Derives n ls d) : Reading.Reads limit ls d n := by
  induction h
  case sequence ps hn hd hi =>
    refine ⟨ps.map (·.2), rfl, fun r hr => ?_⟩
    have := passes_steps hn hi (fun p hp => (hd p hp).level_eq_zero) hr
    rw [Definition.flatMap_inOrder Definition.labels_sequence, Definition.flatMap_inOrder Definition.patternLists_sequence]
    simpa [List.flatMap_map] using this
  case split ps hn hd hi =>
    intro r q hq
    have := passes_branches (r := r.opened .openAngle q) hn hi
      (fun p hp => (hd p hp).level_eq_zero) rfl rfl rfl rfl
    have := Passes.opener hq rfl this
    rw [close_opened] at this
    simpa [opened, List.flatMap_map] using this
  case group ls d hd hi =>
    intro r q hq
    have ⟨ss, hs, hp⟩ := hi
    -- The steps inside are read first. Closing the bracket then leaves the state in which it was
    -- opened, with the group in its place.
    let r₁ := (r.opened .openParen q).behind ss
    have hc : step limit (r₁.noting d.labels) ⟨.closeParen, 0⟩
        = .ok ((r₁.noting d.labels).close ⟨⟨.openParen, 0⟩, q, r.level⟩ r.brackets d) :=
      step_closeParen rfl rfl rfl ((branch_behind rfl).trans hs)
    have hr₁ : (r₁.noting d.labels).close ⟨⟨.openParen, 0⟩, q, r.level⟩ r.brackets d
        = (r.put d q).noting d.labels := by
      rw [← close_opened, close_noting]
      exact close_congr rfl
    rw [hr₁] at hc
    have hp := (hp (r.opened .openParen q) rfl).append (m := .group) hd.level_eq_zero
      (fun rest _ => endsBefore_closeParen _) rfl rfl (.of_step hc rfl)
    simpa using Passes.opener hq rfl hp
  case transition ht hs hd hi =>
    intro r hr
    exact passes_transition ht hs hi (fun a ha => (hd a ha).level_eq_zero) hr
  case labeledTask ht => exact ⟨_, rfl, ht⟩
  case alternative n m ls d hm hd hi =>
    -- What may follow an element or a target may also follow each phrase that it can be.
    cases n <;> simp [Phrase.alternatives] at hm
    case element =>
      intro r hr
      obtain rfl | rfl | rfl := hm
      · exact (hi r .step hr).phrase (by simp [Phrase.extensions])
      · exact (hi r .step hr).phrase (by simp [Phrase.extensions])
      · exact (hi r hr).phrase (by simp [Phrase.extensions])
    case target =>
      intro r c p hr
      obtain rfl | rfl | rfl := hm
      · obtain ⟨t, rfl, ht⟩ := hi
        exact ((passes_labeledTask ht hr).congr (by simp)).phrase (by simp [Phrase.extensions])
      · exact (hi r _ hr).phrase (by simp [Phrase.extensions])
      · exact (hi r _ hr).phrase (by simp [Phrase.extensions])

end TaskFlow
