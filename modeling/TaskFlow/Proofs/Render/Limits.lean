import TaskFlow.Proofs.Layout.Canonical
import TaskFlow.Proofs.Render.Canonical

namespace TaskFlow

open Definition Lexeme

namespace Definition

variable {d a : Definition} {ds : List Definition} {limit limit' : Int} {text : String} {g : Graph}

def Dashless (d : Definition) : Prop :=
  ∀ t ∈ d.mentions, t.name.toList.getLast? ≠ some '-'

theorem dashless_bare : d.bare.Dashless ↔ d.Dashless := by
  rw [Dashless, mentions_bare, List.forall_mem_map]
  rfl

theorem Dashless.canonical (h : d.Dashless) : d.canonical.Dashless :=
  (throughout_canonical (Q := fun t => t.name.toList.getLast? ≠ some '-') (R := fun _ => True)
    ⟨h, fun _ _ => trivial⟩).1

section Regions

theorem foldr_max_le_of_forall {α : Type} {f g : α → Nat} {xs : List α} {k : Nat}
    (h : ∀ x ∈ xs, f x ≤ 2 * g x + k) : (xs.map f).foldr max 0 ≤ 2 * (xs.map g).foldr max 0 + k := by
  refine foldr_max_le_iff.mpr (List.forall_mem_map.mpr fun x hx => ?_)
  have := h x hx
  have := le_foldr_max (List.mem_map_of_mem (f := g) hx)
  omega

-- Whether brackets bound how many branches of a definition one is in at a time. Several clauses
-- need no bracket in front of a split, a bracket that encloses a target makes up for them.
structure Bounded (d : Definition) : Prop where
  anywhere : d.regionDepth ≤ 2 * d.nesting + 1
  simple : d.isSimple → d.regionDepth ≤ 2 * d.nesting

theorem Bounded.target (h : d.Bounded) : d.regionDepth ≤ 2 * d.targetNesting := by
  have := h.anywhere
  rw [targetNesting]
  split
  case isTrue hs  => exact h.simple hs
  case isFalse => omega

-- By induction on the definition. A split opens a bracket by itself, and several clauses have one
-- around them where they are a target.
theorem bounded : d.Bounded := by
  induction d using induct_of_clauses
  case task => exact ⟨by simp, by simp⟩
  case sequence ds hi =>
    refine ⟨?_, nofun⟩
    rw [regionDepth_sequence, nesting_sequence]
    exact foldr_max_le_of_forall fun d hd => (hi d hd).anywhere
  case split ds hi =>
    have := foldr_max_le_of_forall fun d hd => (hi d hd).anywhere
    have hs : (split ds).regionDepth ≤ 2 * (split ds).nesting := by
      rw [regionDepth_split, nesting_split]
      omega
    exact ⟨Nat.le_succ_of_le hs, fun _ => hs⟩
  case only hi =>
    have := hi.target
    refine ⟨?_, nofun⟩
    simp
    omega
  case clauses hl hi =>
    refine ⟨?_, nofun⟩
    rw [nesting_transition, regionDepth_clauses hl, Nat.add_comm]
    exact Nat.add_le_add_right (foldr_max_le_of_forall (k := 0) fun c hc => (hi c hc).target) 1

end Regions

section Depth

theorem WellFormed.not_clashes (h : d.WellFormed) (hn : d.Dashless) : ¬ d.canonical.Clashes :=
  Definition.not_clashes h.writable_canonical hn.canonical

theorem WellFormed.canonical (h : d.WellFormed) : d.canonical.WellFormed where
  normal := h.normal.canonical
  writable := h.writable_canonical
  labels := by
    rw [Definition.labels, h.normal.mentions_canonical, List.filterMap_map]
    exact h.labels
  selective := (throughout_canonical (Q := fun _ => True) ⟨fun _ _ => trivial, h.selective⟩).2

theorem WellFormed.bracketDepth_text_le (hl : 0 ≤ limit) (h : d.WellFormed) (hc : ¬ d.Clashes)
    (hd : d.nesting ≤ limit) : bracketDepth d.text ≤ limit := by
  have hs := spelled h.writable hc [] .nil (by simp)
  rw [List.append_nil] at hs
  rw [bracketDepth_le_iff hl, hs, nestsFrom_append]
  exact ⟨h.normal.nestsFrom_spelling (by omega), by simp [nestsFrom_cons, opens]⟩

theorem WellFormed.exists_read (hl : 0 ≤ limit) (h : d.WellFormed) (hc : ¬ d.Clashes)
    (hd : d.nesting ≤ limit) : ∃ a, read d.text limit = .ok a ∧ a.bare = d.bare :=
  (read_text_iff h.normal h.writable hl).mpr
    ⟨hc, h.bracketDepth_text_le hl hc hd, h.labels, h.selective⟩

theorem Legible.nesting_canonical_le (h : d.Legible limit) : d.canonical.nesting ≤ limit := by
  have hn := nesting_inOrder_le (nesting_parts_le (d := d))
  have := h.roomy.nesting
  rw [Definition.canonical]
  omega

-- Whether a definition that was read within a limit is rendered within it depends on the branches
-- that one is in at a time. The walk has room for twice as many as the limit says.
theorem exists_render_iff_of_read (hl : 0 ≤ limit) (h : read text limit = .ok a)
    (hn : a.Dashless) : ∃ g, a.toGraph = .ok g ∧
      ((∃ t, g.render limit = .ok t) ↔ (a.regionDepth : Int) ≤ 2 * limit) := by
  have hx := legible_of_read hl h
  have ⟨f, hf, hd⟩ := hx.drawn
  have hb := hx.canonical.bracketDepth_text_le hl (hx.not_clashes (dashless_bare.mpr hn))
    hx.nesting_canonical_le
  have hr := hx.roomy.leadsFit
  refine ⟨f.whole, toGraph_bare ▸ hf, ?_⟩
  simp only [hd.render_eq_ok_iff hx.toWellFormed, exists_eq_left, walkable_iff, regionDepth_bare]
  simp [hb, hr]

end Depth

-- A task that selects on its exit status, in a branch behind a clause of such a task.
def nestedSelections : Definition :=
  .transition ⟨"a", none, 0⟩ [(some "X", .split [.transition ⟨"b", none, 0⟩
    [(some "X", .task ⟨"c", none, 0⟩), (some "Y", .task ⟨"d", none, 0⟩)]]),
    (some "Y", .task ⟨"e", none, 0⟩)]

theorem wellFormed_nestedSelections : nestedSelections.WellFormed where
  normal := by simp [nestedSelections, normal_transition, normal_split, Normal.task]
  writable := by
    have hn {s : String} (hs : s ∈ ["a", "b", "c", "d", "e"]) : TaskMention.Named ⟨s, none, 0⟩ := by
      refine ⟨?_, nofun⟩
      revert s
      simp [isName, nameRun, isNameChar, isWord_of_lt]
    exact ⟨by simp [nestedSelections, hn], by simp [nestedSelections, Quotable, isQuotable]⟩
  labels := by simp [nestedSelections]
  selective := by
    have hs : Selective [some "X", some "Y"] := ⟨by decide, by decide, by decide⟩
    simp [nestedSelections, hs]

theorem text_nestedSelections :
    nestedSelections.text = "a -> X: <b -> X: c -> Y: d> -> Y: e" := by
  have hs {p : String} (hp : p ∈ ["X", "Y"]) : statusText p = p := by
    revert p
    simp [statusText, isName, nameRun, isNameChar, isWord_of_lt]
  simp [nestedSelections, text, texts, clausesText, TaskMention.text, isSimple, hs]

theorem not_render_nestedSelections :
    ∃ a g, read "a -> X: <b -> X: c -> Y: d> -> Y: e" 1 = .ok a ∧ a.toGraph = .ok g ∧
      ¬ ∃ t, g.render 1 = .ok t := by
  have hn : nestedSelections.Dashless := by simp [nestedSelections, Dashless]
  have hw := wellFormed_nestedSelections
  have hd : nestedSelections.nesting ≤ (1 : Int) := by
    simp [nestedSelections, targetNesting, isSimple]
  obtain ⟨a, ha, hb⟩ := hw.exists_read (by decide) (Definition.not_clashes hw.writable hn) hd
  rw [text_nestedSelections] at ha
  have hna : a.Dashless := dashless_bare.mp (hb ▸ dashless_bare.mpr hn)
  obtain ⟨g, hg, hr⟩ := exists_render_iff_of_read (by decide) ha hna
  refine ⟨a, g, ha, hg, fun ht => ?_⟩
  have hr := hr.mp ht
  rw [← regionDepth_bare, hb, regionDepth_bare] at hr
  revert hr
  simp [nestedSelections, regionDepth_clauses]

end Definition

end TaskFlow
