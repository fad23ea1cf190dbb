import TaskFlow.Proofs.Reader.Progress
import TaskFlow.Proofs.Token.Spacing

namespace TaskFlow

open Lexeme ReadFault

namespace ReadFault.Cause

variable {c : Cause}

-- How many tokens in front of the refused one a fault stands.
def lag : Cause → Nat
  | emptyPattern | afterCatchAll .. | duplicateTransition .. => 1
  | duplicateLabel .. => 3
  | _ => 0

@[simp]
theorem lag_bare : c.bare.lag = c.lag := by
  cases c <;> rfl

@[simp]
theorem kind_bare : c.bare.kind = c.kind := by
  cases c <;> rfl

theorem lag_of_isMisplaced (h : c.isMisplaced) : c.lag = 0 := by
  cases c <;> first | rfl | cases h

end ReadFault.Cause

-- Whether the name, label or pattern that is still to be judged stands where one of the last tokens
-- does. Tokens stand latest first.
def Awaiting.Recalls (past : List Token) : Awaiting → Prop
  | afterName _ offset _ | afterStatus _ _ offset => past[0]?.map (·.start) = some offset
  | afterLabel _ offset _ => past[1]?.map (·.start) = some offset
  | afterLabeled _ offset _ _ _ => past[2]?.map (·.start) = some offset
  | _ => True

namespace Reading

variable {limit : Int} {r r' : Reading} {t t' : Token} {ts ts' past past' : List Token}
  {f f' : ReadFault} {q : Place} {d : Definition} {e e' : Except ReadFault Definition}

section Positions

theorem recalls_put : (r.put d q).awaiting.Recalls past := by
  cases q <;> trivial

theorem Moves.recalls (h : Moves limit r t r') (hp : r.awaiting.Recalls past) :
    r'.awaiting.Recalls (t :: past) := by
  induction h
  case name | status => rfl
  case label ha | labeled ha =>
    rw [ha] at hp
    exact hp
  case closeAngle | closeParen => exact recalls_put
  case task hi | labeledTask hi => exact hi trivial
  case clause hi => exact hi recalls_put
  all_goals trivial

theorem Refusal.start_eq (h : Refusal limit r t f) (hp : r.awaiting.Recalls past) :
    (t :: past)[f.cause.lag]?.map (·.start) = some f.offset := by
  cases h
  case misplaced hc _ =>
    rw [Cause.lag_of_isMisplaced hc]
    rfl
  case emptyPattern ha | afterCatchAll ha _ | duplicateTransition ha _ | duplicateLabel ha _ =>
    rw [ha] at hp
    exact hp
  all_goals rfl

end Positions

section Agreement

theorem outcome_step_congr (limit : Int) (hr : r.bare = r'.bare) (ht : t.lexeme = t'.lexeme) :
    (outcome (step limit r t)).map bare = (outcome (step limit r' t')).map bare := by
  have h : SameButOffsets _ (step limit r t) := r.step_bare t
  have h' : SameButOffsets _ (step limit r' t') := r'.step_bare t'
  have ht : t.bare = t'.bare := by rw [Token.bare, ht]; rfl
  rw [← h, ← h', hr, ht]

theorem getElem?_reverse_append {α : Type} {x y : α} {xs : List α} {i : Nat} (ys : List α)
    (h : (x :: xs)[i]? = some y) : (xs.reverse ++ x :: ys)[xs.length - i]? = some y := by
  have hi := (List.getElem?_eq_some_iff.mp h).1
  rw [List.length_cons] at hi
  rw [List.append_cons, ← List.reverse_cons, List.getElem?_append_left (by simp),
    List.getElem?_reverse (by simp), ← h]
  congr 1
  simp
  omega

-- Whether what two lists of tokens come to is the same: the same definition up to offsets, or
-- faults of the same kind at tokens of the same index.
inductive Agree (ts ts' : List Token) :
    Except ReadFault Definition → Except ReadFault Definition → Prop
  | ok {a a' : Definition} : a.bare = a'.bare → Agree ts ts' (.ok a) (.ok a')
  | error {f f' : ReadFault} {i : Nat} {t t' : Token} : f.cause.kind = f'.cause.kind →
    ts[i]? = some t → ts'[i]? = some t' → f.offset = t.start → f'.offset = t'.start →
    Agree ts ts' (.error f) (.error f')

theorem agree_of_refusals (h : Refusal limit r t f) (h' : Refusal limit r' t' f')
    (hp : r.awaiting.Recalls past) (hp' : r'.awaiting.Recalls past')
    (hl : past.length = past'.length) (hc : f.cause.bare = f'.cause.bare) :
    Agree (past.reverse ++ t :: ts) (past'.reverse ++ t' :: ts') (.error f) (.error f') := by
  obtain ⟨u, hu, hs⟩ := Option.map_eq_some_iff.mp (h.start_eq hp)
  obtain ⟨u', hu', hs'⟩ := Option.map_eq_some_iff.mp (h'.start_eq hp')
  have hlag : f.cause.lag = f'.cause.lag := by rw [← Cause.lag_bare, hc, Cause.lag_bare]
  have hk : f.cause.kind = f'.cause.kind := by rw [← Cause.kind_bare, hc, Cause.kind_bare]
  have hu' := getElem?_reverse_append ts' hu'
  rw [← hlag, ← hl] at hu'
  exact .error hk (getElem?_reverse_append ts hu) hu' hs.symm hs'.symm

-- By induction on the tokens to come. The two readers stay in the same state up to offsets, and
-- both recall what they took.
theorem Concludes.agree (h : Concludes limit r ts e) (h' : Concludes limit r' ts' e')
    (hr : r.bare = r'.bare) (hts : ts.map (·.lexeme) = ts'.map (·.lexeme))
    (hp : r.awaiting.Recalls past) (hp' : r'.awaiting.Recalls past')
    (hl : past.length = past'.length) : Agree (past.reverse ++ ts) (past'.reverse ++ ts') e e' := by
  induction h generalizing r' ts' past past'
  case complete hd =>
    cases h'
    case complete hd' =>
      have ha := congrArg (·.awaiting) hr
      simp only [bare, hd, hd', Awaiting.bare, Awaiting.nothing.injEq] at ha
      exact .ok ha
    all_goals cases hts
  case refused hc hs =>
    cases ts'
    case nil => cases hts
    case cons t' ts' =>
      have hst := outcome_step_congr limit hr (List.cons.inj hts).1
      cases h'
      case refused hc' hs' =>
        rw [hs, hs'] at hst
        exact agree_of_refusals (refusal_of_step hs) (refusal_of_step hs') hp hp' hl
          (Except.error.inj hst)
      case taken hc' hs' _ =>
        rw [hs, hs'] at hst
        cases hst
  case taken hc hs _ hi =>
    cases ts'
    case nil => cases hts
    case cons t' ts' =>
      have hst := outcome_step_congr limit hr (List.cons.inj hts).1
      cases h'
      case refused hc' hs' =>
        rw [hs, hs'] at hst
        cases hst
      case taken hc' hs' h' =>
        rw [hs, hs'] at hst
        have := hi h' (Except.ok.inj hst) (List.cons.inj hts).2 ((moves_of_step hc hs).recalls hp)
          ((moves_of_step hc' hs').recalls hp') (congrArg (· + 1) hl)
        simpa using this

end Agreement

end Reading

open Reading

-- Gaps between the tokens of a text do not matter but for offsets.
theorem Definition.read_respaced {text text' : String} {ls : List Lexeme}
    (ht : (Token.scan text).map (·.lexeme) = ls ++ [.endOfInput]) (hn : ls ≠ [])
    (hs : Spaced ls text'.toList) (limit : Int) :
    (Token.scan text').map (·.lexeme) = (Token.scan text).map (·.lexeme) ∧
    Agree (Token.scan text) (Token.scan text') (read text limit) (read text' limit) := by
  have hl : lexemes text.toList = ls ++ [.endOfInput] := ht
  have hl' : lexemes text'.toList = ls ++ [.endOfInput] :=
    hs.lexemes_eq (forall_mem_of_lexemes_eq hl)
  have hc : Concludes limit { } (Token.scan text) (read text limit) :=
    concludes_scan (not_blank_of_lexemes hl hn)
  have hc' : Concludes limit { } (Token.scan text') (read text' limit) :=
    concludes_scan (not_blank_of_lexemes hl' hn)
  have he : (Token.scan text').map (·.lexeme) = (Token.scan text).map (·.lexeme) := hl'.trans hl.symm
  refine ⟨he, ?_⟩
  change Agree ([].reverse ++ Token.scan text) ([].reverse ++ Token.scan text') _ _
  exact hc.agree hc' rfl he.symm trivial trivial rfl

theorem scan_dashBeforeArrow : (Token.scan "a-->X:b").map (·.lexeme)
    = [.identifier "a-", .arrow, .identifier "X", .colon, .identifier "b", .endOfInput] := by
  simp [Token.scan, scanFrom_cons, isGap, first?, isNameChar, nameRun, isWord_of_lt]
  simp [Token.scanFrom]

theorem spaced_dashBeforeArrow :
    Spaced [.identifier "a-", .arrow, .identifier "X", .colon, .identifier "b"]
      "\ta- -> X\n: b".toList := by
  have hn : ∀ c ∈ [], isGap c := List.forall_mem_nil _
  have hs (c : Char) (h : isGap c) : ∀ d ∈ [c], isGap d := List.forall_mem_singleton.mpr h
  have h₁ := Spaced.cons (l := .identifier "b") (hs ' ' rfl) (by simp) (.nil hn)
  have h₂ := Spaced.cons (l := .colon) (hs '\n' rfl) (by simp [isGap]) h₁
  have h₃ := Spaced.cons (l := .identifier "X") (hs ' ' rfl) (by simp [isGap]) h₂
  have h₄ := Spaced.cons (l := .arrow) (hs ' ' rfl) (by simp [isGap]) h₃
  have h₅ := Spaced.cons (l := .identifier "a-") (hs '\t' rfl) (by simp [isGap]) h₄
  simpa [text] using h₅

theorem Definition.read_respaced_dashBeforeArrow :
    (Token.scan "\ta- -> X\n: b").map (·.lexeme) = (Token.scan "a-->X:b").map (·.lexeme) ∧
    Agree (Token.scan "a-->X:b") (Token.scan "\ta- -> X\n: b")
      (read "a-->X:b" 0) (read "\ta- -> X\n: b" 0) :=
  read_respaced scan_dashBeforeArrow (List.cons_ne_nil _ _) spaced_dashBeforeArrow 0

end TaskFlow
