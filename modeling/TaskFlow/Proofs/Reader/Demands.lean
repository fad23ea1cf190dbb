import TaskFlow.Proofs.Grammar
import TaskFlow.Definition.Reader

namespace TaskFlow

namespace ReadFault.Cause

-- Whether something is demanded beyond the grammar and not given.
def isDemand : Cause → Bool
  | emptyPattern | afterCatchAll .. | duplicateTransition .. | duplicateLabel ..
  | tooDeep .. => true
  | _ => false

-- Whether a lexeme stands where the grammar has no place for it.
def isMisplaced : Cause → Bool
  | unexpected .. | barsOutsideSplit | unopened _ | unclosed .. | noStatus _ | noColon ..
  | noTarget .. => true
  | _ => false

end ReadFault.Cause

-- Whether the patterns of a task tell its clauses apart: none is empty, none stands twice, and the
-- wildcard stands last.
structure Selective (ps : List (Option String)) : Prop where
  nonempty : some "" ∉ ps
  nodup : ps.Nodup
  wildcard_last : some wildcard ∉ ps.dropLast

namespace Lexeme

variable {limit n : Int} {l : Lexeme} {ls ls' : List Lexeme}

-- How many of the brackets that lexemes open they leave open.
def level (ls : List Lexeme) : Int :=
  ls.countP opens - ls.countP closes

@[simp]
theorem level_nil : level [] = 0 :=
  rfl

@[simp]
theorem level_append : level (ls ++ ls') = level ls + level ls' := by
  simp only [level, List.countP_append]
  omega

theorem level_cons : level (l :: ls) = level [l] + level ls :=
  @level_append [l] ls

-- Whether no bracket opens a level above the limit, when `n` brackets are open beforehand.
def NestsFrom (limit n : Int) (ls : List Lexeme) : Prop :=
  ∀ ls₁ l ls₂, ls = ls₁ ++ l :: ls₂ → l.opens → n + level ls₁ + 1 ≤ limit

@[simp]
theorem nestsFrom_nil : NestsFrom limit n [] := by
  simp [NestsFrom]

theorem nestsFrom_cons :
    NestsFrom limit n (l :: ls) ↔ (l.opens → n + 1 ≤ limit) ∧ NestsFrom limit (n + level [l]) ls := by
  constructor
  case mp =>
    refine fun h => ⟨fun hl => by simpa using h [] l ls rfl hl, fun ls₁ l' ls₂ he hl => ?_⟩
    have := h (l :: ls₁) l' ls₂ (by simp [he]) hl
    rw [level_cons] at this
    omega
  case mpr =>
    rintro ⟨h, h'⟩ (_ | ⟨hd, ls₁⟩) l' ls₂ he hl <;> cases he
    · simpa using h hl
    · have := h' ls₁ l' ls₂ rfl hl
      rw [level_cons]
      omega

theorem nestsFrom_append :
    NestsFrom limit n (ls ++ ls') ↔ NestsFrom limit n ls ∧ NestsFrom limit (n + level ls) ls' := by
  induction ls generalizing n
  case nil => simp
  case cons l ls hi =>
    rw [List.cons_append, nestsFrom_cons, nestsFrom_cons, hi, @level_cons l ls, Int.add_assoc,
      and_assoc]

end Lexeme

open Lexeme

-- A phrase closes the brackets that it opens.
theorem LabeledTask.level_eq_zero {ls : List Lexeme} {t : TaskMention} (h : LabeledTask ls t) :
    level ls = 0 := by
  cases h
  all_goals rfl

theorem Arm.level_spelling {a : Arm} (h : a.status.pattern?.isSome) :
    level a.spelling = level a.lexemes := by
  have hs : level [a.status] = 0 := by
    cases ha : a.status <;> simp [ha, pattern?] at h <;> rfl
  rw [spelling, level_cons, level_cons (l := a.status), hs, level_cons (l := .colon)]
  simp [level, opens, closes]

theorem level_flatMap {α : Type} {f : α → List Lexeme} {xs : List α}
    (h : ∀ x ∈ xs, level (f x) = 0) : level (xs.flatMap f) = 0 := by
  induction xs
  case nil => rfl
  case cons x xs hi =>
    rw [List.flatMap_cons, level_append, h x List.mem_cons_self,
      hi fun y hy => h y (List.mem_cons_of_mem x hy)]
    rfl

theorem level_intercalate {sep : Lexeme} {ps : List (List Lexeme)} (hs : level [sep] = 0)
    (h : ∀ p ∈ ps, level p = 0) : level ([sep].intercalate ps) = 0 := by
  induction ps
  case nil => rfl
  case cons p ps hi =>
    cases ps
    case nil => simpa using h
    case cons =>
      rw [List.intercalate_cons_cons, level_append, level_append, hi (by simp_all), hs, h p (by simp)]
      rfl

theorem Derives.level_eq_zero {n : Phrase} {ls : List Lexeme} {d : Definition}
    (h : Derives n ls d) : level ls = 0 := by
  induction h
  case sequence hi => exact level_intercalate rfl (by simpa using hi)
  case split ps _ _ hi =>
    have : level ([.bars].intercalate (ps.map (·.1))) = 0 :=
      level_intercalate rfl (by simpa using hi)
    rw [List.cons_append, level_cons, level_append, this]
    rfl
  case group hi =>
    rw [List.cons_append, level_cons, level_append, hi]
    rfl
  case transition ht hs _ hi =>
    rw [level_append, ht.level_eq_zero, Int.zero_add]
    exact level_flatMap fun a ha => (Arm.level_spelling (hs a ha)).trans (hi a ha)
  case labeledTask ht => exact ht.level_eq_zero
  case alternative hi => exact hi

theorem selective_nil : Selective [] :=
  ⟨by simp, .nil, by simp⟩

-- A pattern more may be neither empty nor known, and no wildcard may stand before it.
theorem selective_concat {ps : List (Option String)} {p : String} :
    Selective (ps ++ [some p]) ↔
      Selective ps ∧ p ≠ "" ∧ some wildcard ∉ ps ∧ some p ∉ ps := by
  constructor
  case mp =>
    rintro ⟨he, hn, hw⟩
    rw [List.dropLast_concat] at hw
    rw [List.mem_append, not_or, List.mem_singleton] at he
    have ⟨hn, _, hp⟩ := List.nodup_append.mp hn
    have hp : some p ∉ ps := fun h => hp _ h _ (by simp) rfl
    refine ⟨⟨he.1, hn, fun h => hw (List.dropLast_subset ps h)⟩, ?_, hw, hp⟩
    rintro rfl
    simp at he
  case mpr =>
    rintro ⟨⟨he, hn, _⟩, hp, hw, hm⟩
    refine ⟨?_, ?_, ?_⟩
    · simpa [he] using Ne.symm hp
    · have : ∀ a ∈ ps, a ≠ some p := by
        rintro a ha rfl
        exact hm ha
      simpa [List.nodup_append, hn] using this
    · rwa [List.dropLast_concat]

theorem Selective.of_append {ps ps' : List (Option String)} (h : Selective (ps ++ ps')) :
    Selective ps where
  nonempty hm := h.nonempty (List.mem_append_left _ hm)
  nodup := (List.nodup_append.mp h.nodup).1
  wildcard_last hm := by
    refine h.wildcard_last ?_
    cases ps'
    case nil => simpa using hm
    case cons =>
      rw [List.dropLast_append_of_ne_nil (by simp)]
      exact List.mem_append_left _ (List.dropLast_subset ps hm)

namespace Reading

def noting (r : Reading) (labels : List String) : Reading :=
  { r with labels := labels.reverse.map (·, 0) ++ r.labels }

variable {limit : Int} {r : Reading} {labels labels' : List String}
  {patterns patterns' : List (List (Option String))} {ls ls' : List Lexeme}

@[simp]
theorem noting_nil : r.noting [] = r :=
  rfl

theorem noting_append : r.noting (labels ++ labels') = (r.noting labels).noting labels' := by
  simp [noting]

-- Whether labels were met neither before nor twice.
def Fresh (r : Reading) (labels : List String) : Prop :=
  labels.Nodup ∧ ∀ l ∈ labels, l ∉ r.labels.map (·.1)

@[simp]
theorem fresh_nil : r.Fresh [] := by
  simp [Fresh]

theorem fresh_append :
    r.Fresh (labels ++ labels') ↔ r.Fresh labels ∧ (r.noting labels).Fresh labels' := by
  simp only [Fresh, noting, List.nodup_append, List.mem_append, List.map_append, List.map_map,
    List.map_reverse, List.mem_reverse]
  simp
  grind

-- Whether a state admits a phrase of the given lexemes, which uses the given labels, and whose
-- tasks have clauses of the given patterns.
structure Admits (limit : Int) (r : Reading) (labels : List String)
    (patterns : List (List (Option String))) (ls : List Lexeme) : Prop where
  fresh : r.Fresh labels
  selective : ∀ ps ∈ patterns, Selective ps
  nests : NestsFrom limit r.brackets.length ls

theorem admits_iff : Admits limit r labels patterns ls ↔
    r.Fresh labels ∧ (∀ ps ∈ patterns, Selective ps) ∧ NestsFrom limit r.brackets.length ls :=
  ⟨fun ⟨hf, hs, hn⟩ => ⟨hf, hs, hn⟩, fun ⟨hf, hs, hn⟩ => ⟨hf, hs, hn⟩⟩

theorem Admits.append_iff (h : Lexeme.level ls = 0) :
    Admits limit r (labels ++ labels') (patterns ++ patterns') (ls ++ ls') ↔
      Admits limit r labels patterns ls ∧
        Admits limit (r.noting labels) labels' patterns' ls' := by
  simp only [admits_iff, fresh_append, nestsFrom_append, h, List.forall_mem_append, noting]
  grind

end Reading

end TaskFlow
