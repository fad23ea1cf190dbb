import TaskFlow.Proofs.Graph.Isomorphism
import TaskFlow.Proofs.Render.Limits

namespace TaskFlow

open TaskFlow.Graph Lexeme

variable {d a : Definition} {limit limit' : Int} {text t : String} {g : Graph} {n : Nat}

namespace Definition

theorem LeadsFit.mono_limit (h : LeadsFit limit n d) (hl : limit ≤ limit') : LeadsFit limit' n d := by
  induction h
  case task => exact .task
  case sequence hs hi his => exact .sequence hi his
  case split hi => exact .split hi
  case only hn _ hi => exact .only (by omega) hi
  case select hc _ hi => exact .select hc hi

-- One level more makes room for every definition that was read.
theorem Legible.walkable (h : d.Legible limit) : Walkable (limit + 1) 0 0 d where
  regions := by
    have := (@bounded d).anywhere
    have := h.roomy.nesting
    omega
  leads := h.roomy.leadsFit.mono_limit (by omega)

theorem Legible.exists_render (hl : 0 ≤ limit) (h : d.Legible limit) (hc : ¬ d.canonical.Clashes) :
    ∃ g, d.toGraph = .ok g ∧ g.render (limit + 1) = .ok d.canonical.text := by
  have ⟨f, hf, hd⟩ := h.drawn
  have hb := h.canonical.bracketDepth_text_le hl hc h.nesting_canonical_le
  exact ⟨f.whole, hf, (hd.render_eq_ok_iff h.toWellFormed).mpr ⟨rfl, h.walkable, by omega⟩⟩

-- A text whose graph has been rendered gives the same nodes, the same links and the same text
-- again. The renderer needs one level more than the reader for it.
theorem exists_reproduction (hl : 0 ≤ limit) (h : read text limit = .ok a) (hn : a.Dashless) :
    ∃ g t b g', a.toGraph = .ok g ∧ g.render (limit + 1) = .ok t ∧ read t limit = .ok b ∧
      b.toGraph = .ok g' ∧ g'.nodes = g.nodes ∧ g'.links.Perm g.links ∧
      g'.render (limit + 1) = .ok t := by
  have hx := legible_of_read hl h
  have hc := hx.not_clashes (dashless_bare.mpr hn)
  have ⟨g, hg, ht⟩ := hx.exists_render hl hc
  have ⟨b, hb, hbare⟩ := hx.canonical.exists_read hl hc hx.nesting_canonical_le
  have ⟨g', hg', hnodes, hlinks⟩ := toGraph_canonical hx.normal hg
  -- What is read again has the same canonical form, and so the same text.
  have hcc : b.bare.canonical = a.bare.canonical := by
    rw [hbare, canonical_bare, canonical_canonical]
  have ⟨g'', hg'', ht'⟩ := (legible_of_read hl hb).exists_render hl (hcc ▸ hc)
  rw [toGraph_bare, toGraph_of_bare hbare, hg'] at hg''
  cases hg''
  exact ⟨g, _, b, g', toGraph_bare ▸ hg, ht, hb, (toGraph_of_bare hbare).trans hg', hnodes, hlinks,
    hcc ▸ ht'⟩

theorem reproduction_twoSteps : ∃ a g b g', read "a -> X: (b && c)" 1 = .ok a ∧
    a.toGraph = .ok g ∧ g.render 2 = .ok "a -> X: b && c" ∧ read "a -> X: b && c" 1 = .ok b ∧
      b.toGraph = .ok g' ∧ g'.nodes = g.nodes ∧ g'.links.Perm g.links ∧
      g'.render 2 = .ok "a -> X: b && c" := by
  have hn : twoSteps.Dashless := by simp [twoSteps, Dashless]
  have hw := wellFormed_twoSteps
  have hd : twoSteps.nesting ≤ (1 : Int) := by simp [twoSteps, targetNesting, isSimple]
  obtain ⟨a, ha, hbare⟩ := hw.exists_read (by decide) (Definition.not_clashes hw.writable hn) hd
  have hna : a.Dashless := dashless_bare.mp (hbare ▸ dashless_bare.mpr hn)
  obtain ⟨g, t, b, g', hg, ht, hb, hg', hnodes, hlinks, ht'⟩ :=
    exists_reproduction (by decide) ha hna
  have hx : twoSteps.text = "a -> X: (b && c)" := by
    simp [twoSteps, text, texts, clausesText, TaskMention.text, isSimple, statusText_twoSteps]
  have hx' : t = "a -> X: b && c" := by
    obtain ⟨f, hf, hd⟩ := hw.drawn
    have hfg := (toGraph_of_bare hbare).symm.trans hg
    cases hf.symm.trans hfg
    exact ((hd.render_eq_ok_iff hw).mp ht).1.trans (canonicalText_eq ▸ canonicalText_twoSteps)
  subst hx'
  exact ⟨a, g, b, g', hx ▸ ha, hg, ht, hb, hg', hnodes, hlinks, ht'⟩

-- The rendered text is read again, and has an equivalent graph, unless a split in it closes right
-- behind a name that ends in a dash.
theorem roundtrip_iff (hl : 0 ≤ limit) (h : read text limit = .ok a) (hg : a.toGraph = .ok g)
    (ht : g.render limit = .ok t) :
    (∃ b g', read t limit = .ok b ∧ b.toGraph = .ok g' ∧ g'.equivalent g) ↔
      ¬ a.canonical.Clashes := by
  have hx := legible_of_read hl h
  rw [← toGraph_bare] at hg
  have ⟨f, hf, hd⟩ := hx.drawn
  cases hg.symm.trans hf
  have ⟨he, _, hb⟩ := (hd.render_eq_ok_iff hx.toWellFormed).mp ht
  have hw := hx.canonical
  subst he
  rw [← @canonical_bare a]
  constructor
  · rintro ⟨b, _, hr, _⟩ hc
    exact not_read_of_clashes hw.writable hc hr
  · intro hc
    have ⟨b, hr, hbare⟩ := (read_text_iff hw.normal hw.writable hl).mpr
      ⟨hc, hb, hw.labels, hw.selective⟩
    -- The canonical form has the same graph up to the order of nodes and links.
    have ⟨g', hg', hnodes, hlinks⟩ := toGraph_canonical hx.normal hg
    have hs := hd.sound hx.toWellFormed
    have hp := (Iso.of_perm hnodes.symm hlinks.symm).proper ⟨hs.ids, hs.ends⟩
    exact ⟨b, g', hr, (toGraph_of_bare hbare).trans hg', (Iso.of_perm hnodes hlinks).equivalent hp⟩

-- A branch that ends in a dash.
def dashAtEnd : Definition :=
  .split [.task ⟨"a-", none, 0⟩]

theorem wellFormed_dashAtEnd : dashAtEnd.WellFormed where
  normal := by simp [dashAtEnd, normal_split, Normal.task]
  writable := by
    have hn : TaskMention.Named ⟨"a-", none, 0⟩ :=
      ⟨by simp [isName, nameRun, isNameChar, isWord_of_lt], nofun⟩
    exact ⟨by simp [dashAtEnd, hn], by simp [dashAtEnd]⟩
  labels := by simp [dashAtEnd]
  selective := by simp [dashAtEnd]

theorem text_dashAtEnd : dashAtEnd.text = "<a->" := by
  simp [dashAtEnd, text, texts, TaskMention.text]

theorem canonical_dashAtEnd : dashAtEnd.canonical = dashAtEnd := by
  simp [dashAtEnd, canonical, inOrder, TaskMention.bare]

theorem clashes_dashAtEnd : dashAtEnd.Clashes := by
  refine .last (d := .task ⟨"a-", none, 0⟩) ?_ rfl
  rfl

theorem not_roundtrip_dashAtEnd : ∃ a g, read "<a- >" 1 = .ok a ∧ a.toGraph = .ok g ∧
    g.render 1 = .ok "<a->" ∧
    ¬ ∃ b g', read "<a->" 1 = .ok b ∧ b.toGraph = .ok g' ∧ g'.equivalent g := by
  have hw := wellFormed_dashAtEnd
  have hs : lexemes "<a- >".toList = dashAtEnd.spelling ++ [.endOfInput] := by
    simp [lexemes, scanFrom_cons, isGap, first?, isNameChar, nameRun, isWord_of_lt, dashAtEnd]
    simp [Token.scanFrom, TaskMention.spelling]
  have hn : NestsFrom 1 0 dashAtEnd.spelling := by
    simp [dashAtEnd, TaskMention.spelling, nestsFrom_cons, opens, level]
  obtain ⟨a, ha, hbare⟩ : ∃ a, read "<a- >" 1 = .ok a ∧ a.bare = dashAtEnd.bare := by
    refine exists_read_iff.mpr ⟨_, hs, hw.normal.denoted.sequence, hn, ?_, ?_⟩
    · exact labels_bare ▸ hw.labels
    · exact patternLists_bare ▸ hw.selective
  obtain ⟨f, hf, hd⟩ := hw.drawn
  have hg := (toGraph_of_bare hbare).trans hf
  have ht : f.whole.render 1 = .ok "<a->" := by
    refine (hd.render_eq_ok_iff hw).mpr ⟨?_, ?_, ?_⟩
    · rw [canonical_dashAtEnd, text_dashAtEnd]
    · simp [dashAtEnd, walkable_iff, leadsFit_split, LeadsFit.task]
    · rw [canonical_dashAtEnd, text_dashAtEnd, bracketDepth_le_iff (by decide)]
      simp [lexemes, scanFrom_cons, isGap, first?, isNameChar, nameRun, isWord_of_lt]
      simp [Token.scanFrom, nestsFrom_cons, opens, level, closes]
  have hc : a.canonical.Clashes := by
    rw [← canonical_bare, hbare, canonical_bare, canonical_dashAtEnd]
    exact clashes_dashAtEnd
  exact ⟨a, f.whole, ha, hg, ht, fun h => (roundtrip_iff (by decide) ha hg ht).mp h hc⟩

end Definition

end TaskFlow
