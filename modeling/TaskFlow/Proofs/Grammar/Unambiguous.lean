import TaskFlow.Proofs.Grammar

namespace TaskFlow

namespace Phrase

variable {n m : Phrase} {rest : List Lexeme}

theorem EndsBefore.nil : n.EndsBefore [] :=
  nofun

theorem endsBefore_cons {l : Lexeme} : n.EndsBefore (l :: rest) ↔ l ∉ n.extensions := by
  simp [EndsBefore]

theorem EndsBefore.mono (h : n.EndsBefore rest) (hs : m.extensions ⊆ n.extensions) :
    m.EndsBefore rest :=
  fun l hl hc => h l hl (hs hc)

theorem extensions_subset (hm : m ∈ n.alternatives) : m.extensions ⊆ n.extensions := by
  cases n <;> simp [alternatives] at hm
  all_goals rcases hm with rfl | rfl | rfl <;> simp [extensions]

def BeginsWith : Phrase → Lexeme → Prop
  | split, l => l = .openAngle
  | group, l => l = .openParen
  | transition, l | labeledTask, l => ∃ name, l = .identifier name
  | _, _ => True

-- The first lexeme tells the alternatives of a phrase apart.
theorem alternative_eq {m' : Phrase} {l : Lexeme} (h : m ∈ n.alternatives)
    (h' : m' ∈ n.alternatives) (hl : m.BeginsWith l) (hl' : m'.BeginsWith l) : m = m' := by
  cases n <;> simp [alternatives] at h h'
  all_goals
    rcases h with rfl | rfl | rfl <;> rcases h' with rfl | rfl | rfl <;>
      simp_all [BeginsWith]

end Phrase

variable {n : Phrase} {ls ls' rest rest' : List Lexeme} {d d' : Definition} {t t' : TaskMention}

theorem LabeledTask.head (h : LabeledTask ls t) : ∃ name tl, ls = .identifier name :: tl := by
  cases h
  all_goals exact ⟨_, _, rfl⟩

theorem Derives.head {m : Phrase} (h : Derives m ls d) (hm : m ∈ n.alternatives) :
    ∃ l tl, ls = l :: tl ∧ m.BeginsWith l := by
  have hn : m ≠ .sequence ∧ m.alternatives = [] := by
    cases n <;> simp [Phrase.alternatives] at hm
    all_goals rcases hm with rfl | rfl | rfl <;> simp [Phrase.alternatives]
  cases h
  case sequence         => exact absurd rfl hn.1
  case split | group    => exact ⟨_, _, rfl, rfl⟩
  case alternative h _  => simp [hn.2] at h
  case transition h _ _ | labeledTask h =>
    obtain ⟨name, tl, rfl⟩ := h.head
    exact ⟨_, _, rfl, name, rfl⟩

-- A name in front of a colon is a label, so the lexeme behind a task must not be a colon.
theorem LabeledTask.unique (h : LabeledTask ls t) (h' : LabeledTask ls' t')
    (hr : Phrase.labeledTask.EndsBefore rest) (hr' : Phrase.labeledTask.EndsBefore rest')
    (he : ls ++ rest = ls' ++ rest') : ls = ls' ∧ t = t' := by
  cases h <;> cases h' <;> simp at he
  case plain.plain => simp [he]
  case labeled.labeled => simp [he]
  case plain.labeled =>
    rw [he.2, Phrase.endsBefore_cons] at hr
    simp [Phrase.extensions] at hr
  case labeled.plain =>
    rw [← he.2, Phrase.endsBefore_cons] at hr'
    simp [Phrase.extensions] at hr'

-- Whether a phrase is the only one of its kind that its lexemes can begin with.
def Unique (n : Phrase) (ls : List Lexeme) (d : Definition) : Prop :=
  ∀ ⦃ls' d' rest rest'⦄, Derives n ls' d' → n.EndsBefore rest → n.EndsBefore rest' →
    ls ++ rest = ls' ++ rest' → ls = ls' ∧ d = d'

theorem intercalate_append (sep : Lexeme) (l : List Lexeme) (ls : List (List Lexeme)) :
    [sep].intercalate (l :: ls) ++ rest
      = l ++ if ls = [] then rest else sep :: ([sep].intercalate ls ++ rest) := by
  cases ls <;> simp

-- Phrases with separators between them. What follows a phrase tells whether another one comes.
theorem separated_unique {sep : Lexeme} (hs : sep ∉ n.extensions)
    {ps ps' : List (List Lexeme × Definition)} (hne : ps ≠ []) (hne' : ps' ≠ [])
    (hu : ∀ p ∈ ps, Unique n p.1 p.2) (hd : ∀ p ∈ ps', Derives n p.1 p.2)
    (hr : n.EndsBefore rest) (hr' : n.EndsBefore rest')
    (ht : ∀ tl, rest ≠ sep :: tl) (ht' : ∀ tl, rest' ≠ sep :: tl)
    (he : [sep].intercalate (ps.map (·.1)) ++ rest
      = [sep].intercalate (ps'.map (·.1)) ++ rest') : ps = ps' := by
  induction ps generalizing ps'
  case nil => contradiction
  case cons p ps hi =>
    obtain ⟨p', ps', rfl⟩ := List.exists_cons_of_ne_nil hne'
    simp only [List.map_cons, intercalate_append, List.map_eq_nil_iff] at he
    have ends {qs : List (List Lexeme × Definition)} {tl} (h : n.EndsBefore tl) :
        n.EndsBefore (if qs = [] then tl else sep :: ([sep].intercalate (qs.map (·.1)) ++ tl)) := by
      split
      · exact h
      · exact Phrase.endsBefore_cons.mpr hs
    have ⟨h₁, h₂⟩ := hu p (by simp) (hd p' (by simp)) (ends hr) (ends hr') he
    rw [h₁] at he
    replace he := List.append_cancel_left he
    rw [Prod.ext h₁ h₂]
    cases ps <;> cases ps' <;> simp only [reduceIte, reduceCtorEq] at he
    case nil.nil  => rfl
    case nil.cons => exact absurd he (ht _)
    case cons.nil => exact absurd he.symm (ht' _)
    case cons.cons =>
      have hu' := fun q hq => hu q (List.mem_cons_of_mem _ hq)
      have hd' := fun q hq => hd q (List.mem_cons_of_mem _ hq)
      rw [hi (by simp) (by simp) hu' hd' (List.cons.inj he).2]

theorem arms_endsBefore {as : List Arm} (h : Phrase.transition.EndsBefore rest) :
    Phrase.target.EndsBefore (as.flatMap Arm.spelling ++ rest) := by
  cases as
  case nil  => exact fun l hl => mt (by simp_all [Phrase.extensions]) (h l hl)
  case cons => simp [Arm.spelling, Phrase.EndsBefore, Phrase.extensions]

-- By induction on the arms. An arrow tells that another arm comes, and none follows a transition.
theorem arms_unique {as as' : List Arm}
    (hu : ∀ a ∈ as, Unique .target a.lexemes a.target)
    (hd : ∀ a ∈ as', Derives .target a.lexemes a.target)
    (hr : Phrase.transition.EndsBefore rest) (hr' : Phrase.transition.EndsBefore rest')
    (he : as.flatMap Arm.spelling ++ rest = as'.flatMap Arm.spelling ++ rest') : as = as' := by
  induction as generalizing as' <;> cases as'
  case nil.nil => rfl
  case nil.cons =>
    rw [List.flatMap_nil, List.nil_append] at he
    simp [he, Arm.spelling, Phrase.EndsBefore, Phrase.extensions] at hr
  case cons.nil =>
    rw [List.flatMap_nil, List.nil_append] at he
    simp [← he, Arm.spelling, Phrase.EndsBefore, Phrase.extensions] at hr'
  case cons.cons a as hi a' as' =>
    simp only [List.flatMap_cons, Arm.spelling, List.cons_append, List.append_assoc,
      List.cons.injEq, true_and] at he
    have ⟨h₁, h₂⟩ := hu a (by simp) (hd a' (by simp)) (arms_endsBefore hr) (arms_endsBefore hr') he.2
    rw [h₁] at he
    have hu' := fun b hb => hu b (List.mem_cons_of_mem _ hb)
    have hd' := fun b hb => hd b (List.mem_cons_of_mem _ hb)
    rw [hi hu' hd' (List.append_cancel_left he.2)]
    congr 1
    cases a
    cases a'
    simp_all

-- By induction on the first derivation. The second one ends with the same rule: a phrase without
-- alternatives has one rule, and otherwise the first lexeme tells the rule.
theorem Derives.unique (h : Derives n ls d) : Unique n ls d := by
  intro ls' d' rest rest' h' hr hr' he
  induction h generalizing ls' d' rest rest' <;> cases h'
  case sequence.sequence hne _ hi _ hne' hd' =>
    have := separated_unique (by simp [Phrase.extensions]) hne hne' hi hd'
      (hr.mono (by simp [Phrase.extensions])) (hr'.mono (by simp [Phrase.extensions])) ?_ ?_ he
    · simp [this]
    all_goals
      rintro tl rfl
      simp_all [Phrase.EndsBefore, Phrase.extensions]
  case split.split hne _ hi _ hne' hd' =>
    simp only [List.cons_append, List.append_assoc, List.cons.injEq, true_and] at he
    have := separated_unique (by simp [Phrase.extensions]) hne hne' hi hd' ?_ ?_ ?_ ?_ he
    · simp [this]
    all_goals simp [Phrase.EndsBefore, Phrase.extensions]
  case group.group hi _ hd' =>
    simp only [List.cons_append, List.append_assoc, List.cons.injEq, true_and] at he
    have := hi hd' ?_ ?_ he
    · simp [this]
    all_goals simp [Phrase.EndsBefore, Phrase.extensions]
  case transition.transition ht _ _ hi _ _ _ ht' _ hd' =>
    simp only [List.append_assoc] at he
    have ⟨h₁, h₂⟩ := ht.unique ht' (arms_endsBefore hr) (arms_endsBefore hr') he
    rw [h₁] at he
    have := arms_unique hi hd' hr hr' (List.append_cancel_left he)
    simp [h₁, h₂, this]
  case labeledTask.labeledTask ht _ ht' =>
    have := ht.unique ht' hr hr' he
    simp [this]
  case alternative.alternative hm hd hi _ hm' hd' =>
    -- Both derivations begin with the same lexeme, and that decides between the alternatives.
    obtain ⟨l, tl, rfl, hl⟩ := hd.head hm
    obtain ⟨l', tl', rfl, hl'⟩ := hd'.head hm'
    cases (List.cons.inj he).1
    cases Phrase.alternative_eq hm hm' hl hl'
    have hs := Phrase.extensions_subset hm
    exact hi hd' (hr.mono hs) (hr'.mono hs) he
  all_goals simp [Phrase.alternatives] at *

theorem Derives.denotes_unique (h : Derives n ls d) (h' : Derives n ls d') : d = d' :=
  (h.unique h' .nil .nil rfl).2

end TaskFlow
