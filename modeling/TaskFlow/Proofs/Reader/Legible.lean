import TaskFlow.Proofs.Definition.Depth
import TaskFlow.Proofs.Reader.Text
import TaskFlow.Proofs.Token.Spacing

namespace TaskFlow

open Lexeme Definition

variable {limit : Int} {text : String} {ls : List Lexeme} {l : Lexeme} {d a : Definition}
  {cs : List Char} {c : Char}

theorem isQuotable_of_isNameChar (h : isNameChar c cs) : isQuotable c := by
  simp only [isNameChar, Bool.or_eq_true, Bool.and_eq_true, beq_iff_eq] at h
  simp only [isQuotable, Bool.and_eq_true, bne_iff_ne]
  constructor
  all_goals
    rintro rfl
    simp [isWord_of_lt] at h

theorem all_isQuotable_of_nameRun (h : (nameRun cs).2 = []) : cs.all isQuotable := by
  induction cs
  case nil => rfl
  case cons c cs hi =>
    rw [nameRun] at h
    split at h
    case isFalse => cases h
    case isTrue hc => simpa [isQuotable_of_isNameChar hc] using hi h

theorem quotable_pattern? (h : l.Writable) : Quotable l.pattern? := by
  cases l
  case identifier s =>
    simp only [Lexeme.Writable, isName, Bool.and_eq_true, List.isEmpty_iff] at h
    exact all_isQuotable_of_nameRun h.2
  case quoted s => exact h
  case star => simp [Quotable, pattern?, wildcard, isQuotable]
  all_goals simp [Quotable, pattern?]

theorem LabeledTask.named {t : TaskMention} (h : LabeledTask ls t) (hl : ∀ l ∈ ls, l.Writable) :
    t.Named := by
  cases h
  case plain name => exact ⟨hl (.identifier name) (by simp), nofun⟩
  case labeled label name =>
    refine ⟨hl (.identifier name) (by simp), ?_⟩
    rintro _ ⟨⟩
    exact hl (.identifier label) (by simp)

theorem Definition.writable_iff :
    d.Writable ↔ d.Throughout TaskMention.Named fun ps => ∀ p ∈ ps, Quotable p :=
  ⟨fun ⟨h, h'⟩ => ⟨h, h'⟩, fun ⟨h, h'⟩ => ⟨h, h'⟩⟩

theorem mem_intercalate_of_mem {α : Type} {sep : List α} {xs : List (List α)} {xs' : List α} {x : α}
    (h : xs' ∈ xs) (hx : x ∈ xs') : x ∈ sep.intercalate xs := by
  have ⟨pre, post, he⟩ := List.append_of_mem h
  rw [he, intercalate_append_cons]
  simp [hx]

-- By induction on the derivation: each part is made of some of the lexemes of the whole.
theorem Derives.throughout {p : Phrase} (h : Derives p ls d) (hl : ∀ l ∈ ls, l.Writable) :
    d.Throughout TaskMention.Named fun ps => ∀ p ∈ ps, Quotable p := by
  induction h
  case sequence ps _ _ hi =>
    refine throughout_inOrder.mpr (List.forall_mem_map.mpr fun q hq => hi q hq fun l hm => hl l ?_)
    exact mem_intercalate_of_mem (List.mem_map_of_mem hq) hm
  case split ps _ _ hi =>
    refine throughout_split.mpr (List.forall_mem_map.mpr fun q hq => hi q hq fun l hm => hl l ?_)
    rw [List.mem_append, List.mem_cons]
    exact .inl (.inr (mem_intercalate_of_mem (List.mem_map_of_mem hq) hm))
  case group hi => exact hi fun l hm => hl l (by simp [hm])
  case transition t as ht hs _ hi =>
    have ht := ht.named fun l hm => hl l (List.mem_append_left _ hm)
    have ha a (ha : a ∈ as) : Quotable a.clause.1 ∧
        a.clause.2.Throughout TaskMention.Named fun ps => ∀ p ∈ ps, Quotable p := by
      have hm : ∀ l ∈ a.spelling, l.Writable := fun l hm =>
        hl l (List.mem_append_right _ (List.mem_flatMap.mpr ⟨a, ha, hm⟩))
      refine ⟨quotable_pattern? (hm _ (by simp [Arm.spelling])), hi a ha fun l h => hm l ?_⟩
      simp [Arm.spelling, h]
    cases as
    case nil => exact throughout_task.mpr ht
    case cons a as =>
      refine throughout_transition.mpr ⟨ht, ?_, List.forall_mem_map.mpr fun b hb => (ha b hb).2⟩
      rw [List.map_map]
      exact List.forall_mem_map.mpr fun b hb => (ha b hb).1
  case labeledTask ht => exact throughout_task.mpr (ht.named hl)
  case alternative hi => exact hi hl

-- What every definition that was read satisfies, whatever the limit.
structure Definition.WellFormed (d : Definition) : Prop where
  normal : d.Normal
  writable : d.Writable
  labels : d.labels.Nodup
  selective : ∀ ps ∈ d.patternLists, Selective ps

-- What is known of a definition that was read within a limit.
structure Definition.Legible (limit : Int) (d : Definition) : Prop extends d.WellFormed where
  roomy : Roomy limit 0 d

theorem Definition.wellFormed_of_read (h : read text limit = .ok a) : a.bare.WellFormed := by
  have ⟨ls, he, hd, _, hlabels, hs⟩ := exists_read_iff.mp ⟨a, h, rfl⟩
  refine ⟨hd.normal, writable_iff.mpr (hd.throughout fun l hm => ?_), hlabels, hs⟩
  exact writable_of_mem_lexemes (he ▸ List.mem_append_left _ hm)

theorem Definition.legible_of_read (hl : 0 ≤ limit) (h : read text limit = .ok a) :
    a.bare.Legible limit := by
  have ⟨ls, _, hd, hn, _⟩ := exists_read_iff.mp ⟨a, h, rfl⟩
  exact ⟨wellFormed_of_read h, (hd.roomy hn hl).1⟩

end TaskFlow
