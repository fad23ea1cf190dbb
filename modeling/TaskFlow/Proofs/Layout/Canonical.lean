import TaskFlow.Proofs.Definition.Canonical
import TaskFlow.Proofs.Layout.Blocks

namespace TaskFlow

open Subgraph

namespace Subgraph

variable {f f' g g' h : Subgraph} {fs gs : List Subgraph} {fork join n : Node}

-- Whether two subgraphs differ in the order of their links only.
structure Alike (f f' : Subgraph) : Prop where
  entry : f.entry = f'.entry
  exits : f.exits = f'.exits
  nodes : f.nodes = f'.nodes
  links : f.links.Perm f'.links

namespace Alike

theorem refl (f : Subgraph) : f.Alike f :=
  ⟨rfl, rfl, rfl, .refl _⟩

theorem symm (h : f.Alike g) : g.Alike f :=
  ⟨h.entry.symm, h.exits.symm, h.nodes.symm, h.links.symm⟩

theorem trans (h₁ : f.Alike g) (h₂ : g.Alike h) : f.Alike h :=
  ⟨h₁.entry.trans h₂.entry, h₁.exits.trans h₂.exits, h₁.nodes.trans h₂.nodes,
    h₁.links.trans h₂.links⟩

theorem exitsTo (h : f.Alike f') (x : String) : f.exitsTo x = f'.exitsTo x := by
  rw [Subgraph.exitsTo, Subgraph.exitsTo, h.exits]

theorem followedBy (h : f.Alike f') (h' : g.Alike g') :
    (f.followedBy g).Alike (f'.followedBy g') where
  entry := h.entry
  exits := h'.exits
  nodes := congrArg₂ _ h.nodes h'.nodes
  links := by
    rw [Subgraph.followedBy, Subgraph.followedBy, h.exitsTo, h'.entry]
    exact (h.links.append h'.links).append_right _

theorem foldl (h : f.Alike f') :
    (fs.foldl Subgraph.followedBy f).Alike (fs.foldl Subgraph.followedBy f') := by
  induction fs generalizing f f'
  case nil => exact h
  case cons hi => exact hi (h.followedBy (.refl _))

end Alike

theorem alike_assoc : ((f.followedBy g).followedBy h).Alike (f.followedBy (g.followedBy h)) where
  entry := rfl
  exits := rfl
  nodes := List.append_assoc ..
  links := by
    refine List.perm_iff_count.mpr fun l => ?_
    simp only [followedBy, List.count_append, exitsTo]
    omega

theorem alike_foldl :
    (fs.foldl followedBy (f.followedBy g)).Alike (f.followedBy (fs.foldl followedBy g)) := by
  induction fs generalizing g
  case nil => exact .refl _
  case cons hi => exact (Alike.foldl alike_assoc).trans hi

theorem chained_append (hf : fs ≠ []) (hg : gs ≠ []) :
    (chained (fs ++ gs)).Alike ((chained fs).followedBy (chained gs)) := by
  cases fs
  case nil => contradiction
  case cons f fs =>
    cases gs
    case nil => contradiction
    case cons g gs =>
      rw [List.cons_append, chained, List.foldl_append, List.foldl_cons]
      exact alike_foldl

-- What follows an only clause may as well follow the whole transition.
theorem alike_select_followedBy {c : Option String} :
    ((select n [(c, f)]).followedBy g).Alike (select n [(c, f.followedBy g)]) where
  entry := rfl
  exits := by simp [followedBy, select]
  nodes := by simp [followedBy, select]
  links := by
    refine List.perm_iff_count.mpr fun l => ?_
    simp [followedBy, select, exitsTo, List.count_cons]
    omega

theorem alike_select_foldl {c : Option String} :
    (fs.foldl followedBy (select n [(c, f)])).Alike (select n [(c, fs.foldl followedBy f)]) := by
  induction fs generalizing f
  case nil => exact .refl _
  case cons g fs hi => exact (Alike.foldl alike_select_followedBy).trans hi

theorem alike_sideBySide {bs : List (Subgraph × Subgraph)} (hb : ∀ b ∈ bs, b.1.Alike b.2) :
    (sideBySide fork join (bs.map (·.1))).Alike (sideBySide fork join (bs.map (·.2))) where
  entry := rfl
  exits := rfl
  nodes := by
    have := List.flatMap_congr fun b hm => (hb b hm).nodes
    simpa [sideBySide, List.flatMap_map] using this
  links := by
    simp only [sideBySide, List.flatMap_map]
    refine List.Perm.append (List.Perm.flatMap_left _ fun b hm => (hb b hm).links) (.of_eq ?_)
    refine List.flatMap_congr fun b hm => ?_
    rw [(hb b hm).entry, (hb b hm).exitsTo]

theorem alike_select {cs : List (Option String × Subgraph × Subgraph)}
    (hc : ∀ c ∈ cs, c.2.1.Alike c.2.2) :
    (select n (cs.map fun c => (c.1, c.2.1))).Alike (select n (cs.map fun c => (c.1, c.2.2))) where
  entry := rfl
  exits := by
    simpa [select, List.flatMap_map] using List.flatMap_congr fun c hm => (hc c hm).exits
  nodes := by
    simpa [select, List.flatMap_map] using List.flatMap_congr fun c hm => (hc c hm).nodes
  links := by
    simp only [select, List.flatMap_map]
    refine List.Perm.flatMap_left _ fun c hm => ?_
    rw [(hc c hm).entry]
    exact (hc c hm).links.append_right _

end Subgraph

namespace Definition

variable {p p' p₁ : IdPool} {d : Definition} {ds es : List Definition} {cs : List Clause}
  {f : Subgraph} {fs gs : List Subgraph} {t : TaskMention}

section Bare

theorem layOutBranches_congr {e : Definition → Definition}
    (h : ∀ d ∈ ds, ∀ p, layOut p (e d) = layOut p d) :
    layOutBranches p (ds.map e) = layOutBranches p ds := by
  induction ds generalizing p
  case nil => rfl
  case cons d ds hi =>
    rw [List.forall_mem_cons] at h
    simp only [List.map_cons, layOutBranches, h.1, hi h.2]

theorem layOutClauses_congr {e : Definition → Definition}
    (h : ∀ c ∈ cs, ∀ p, layOut p (e c.2) = layOut p c.2) :
    layOutClauses p (cs.map fun c => (c.1, e c.2)) = layOutClauses p cs := by
  have := layOutBranches_congr (p := p) (List.forall_mem_map.mpr h)
  rw [List.map_map] at this
  simpa [layOutClauses_eq, Function.comp_def] using congrArg _ this

theorem layOut_bare : layOut p d.bare = layOut p d := by
  induction d generalizing p
  case task => rw [bare_task]; rfl
  case sequence ds hi =>
    rw [bare_sequence]
    by_cases hn : ds = []
    case pos => simp [hn]
    case neg =>
      rw [layOut_sequence _ hn, layOut_sequence _ (by simpa using hn),
        layOutBranches_congr fun d hd p => hi d hd]
  case split ds hi =>
    rw [bare_split, layOut, layOut]
    simp only [layOutBranches_congr fun d hd p => hi d hd]
  case transition t cs hi =>
    rw [bare_transition, layOut, layOut]
    simp only [layOutClauses_congr fun c hc p => hi c hc]
    rfl

theorem toGraph_bare : d.bare.toGraph = d.toGraph := by
  simp only [toGraph, layOut_bare]

-- What a text is read as decides what its graph is, whatever the offsets.
theorem toGraph_of_bare {a : Definition} (h : a.bare = d.bare) : a.toGraph = d.toGraph := by
  rw [← toGraph_bare, h, toGraph_bare]

end Bare

section EqOk

theorem bind_eq_ok {ε α β : Type} {x : Except ε α} {k : α → Except ε β} {b : β} :
    (x >>= k) = .ok b ↔ ∃ a, x = .ok a ∧ k a = .ok b := by
  cases x <;> simp [bind, Except.bind]

theorem map_eq_ok {ε α β : Type} {x : Except ε α} {k : α → β} {b : β} :
    x.map k = .ok b ↔ ∃ a, x = .ok a ∧ k a = b := by
  cases x <;> simp [Except.map]

theorem layOut_sequence_eq_ok (hn : ds ≠ []) : layOut p (sequence ds) = .ok (f, p') ↔
    ∃ fs, layOutBranches p ds = .ok (fs, p') ∧ f = chained fs := by
  simp only [layOut_sequence p hn, map_eq_ok, Prod.exists, Prod.mk.injEq]
  constructor
  · rintro ⟨fs, _, hs, rfl, rfl⟩
    exact ⟨fs, hs, rfl⟩
  · rintro ⟨fs, hs, rfl⟩
    exact ⟨fs, p', hs, rfl, rfl⟩

theorem layOutBranches_cons_eq_ok : layOutBranches p (d :: ds) = .ok (fs, p') ↔
    ∃ f p₁ gs, layOut p d = .ok (f, p₁) ∧ layOutBranches p₁ ds = .ok (gs, p') ∧ fs = f :: gs := by
  simp only [layOutBranches, bind_eq_ok, Prod.exists, pure, Except.pure, Except.ok.injEq,
    Prod.mk.injEq]
  constructor
  · rintro ⟨f, p₁, hf, gs, _, hs, rfl, rfl⟩
    exact ⟨f, p₁, gs, hf, hs, rfl⟩
  · rintro ⟨f, p₁, gs, hf, hs, rfl⟩
    exact ⟨f, p₁, hf, gs, p', hs, rfl, rfl⟩

theorem layOut_split_eq_ok : layOut p (split ds) = .ok (f, p') ↔
    ∃ fork p₁ fs p₂ join, p.newNode "FORK" .fork = .ok (fork, p₁) ∧
      layOutBranches p₁ ds = .ok (fs, p₂) ∧ p₂.newNode "JOIN" .join = .ok (join, p') ∧
      f = sideBySide fork join fs := by
  simp only [layOut, bind_eq_ok, Prod.exists, pure, Except.pure, Except.ok.injEq, Prod.mk.injEq]
  constructor
  · rintro ⟨fork, p₁, hf, fs, p₂, hs, join, _, hj, rfl, rfl⟩
    exact ⟨fork, p₁, fs, p₂, join, hf, hs, hj, rfl⟩
  · rintro ⟨fork, p₁, fs, p₂, join, hf, hs, hj, rfl⟩
    exact ⟨fork, p₁, hf, fs, p₂, hs, join, p', hj, rfl, rfl⟩

theorem layOut_transition_eq_ok : layOut p (transition t cs) = .ok (f, p') ↔
    ∃ n p₁ fs, p.newTask t = .ok (n, p₁) ∧ layOutBranches p₁ (cs.map (·.2)) = .ok (fs, p') ∧
      f = select n ((cs.map (·.1)).zip fs) := by
  simp only [layOut, layOutClauses_eq, bind_eq_ok, map_eq_ok, Prod.exists, pure, Except.pure,
    Except.ok.injEq, Prod.mk.injEq]
  constructor
  · rintro ⟨n, p₁, hn, _, _, ⟨fs, _, hs, rfl, rfl⟩, rfl, rfl⟩
    exact ⟨n, p₁, fs, hn, hs, rfl⟩
  · rintro ⟨n, p₁, fs, hn, hs, rfl⟩
    exact ⟨n, p₁, hn, _, p', ⟨fs, p', hs, rfl, rfl⟩, rfl, rfl⟩

end EqOk

theorem layOutBranches_append_eq_ok (h : layOutBranches p ds = .ok (fs, p₁))
    (h' : layOutBranches p₁ es = .ok (gs, p')) :
    layOutBranches p (ds ++ es) = .ok (fs ++ gs, p') := by
  induction ds generalizing p fs
  case nil =>
    cases h
    exact h'
  case cons d ds hi =>
    obtain ⟨f, p₂, fs, hf, hs, rfl⟩ := layOutBranches_cons_eq_ok.mp h
    exact layOutBranches_cons_eq_ok.mpr ⟨f, p₂, _, hf, hi hs, rfl⟩

theorem layOutBranches_ne_nil (hd : ds ≠ []) (h : layOutBranches p ds = .ok (fs, p')) : fs ≠ [] := by
  cases ds
  case nil => contradiction
  case cons d ds =>
    obtain ⟨f, _, fs, _, _, rfl⟩ := layOutBranches_cons_eq_ok.mp h
    exact List.cons_ne_nil f fs

theorem layOut_inOrder (hn : ds ≠ []) (h : ∀ d ∈ ds, d.isStep) : layOut p (inOrder ds)
    = (layOutBranches p ds).map fun r => (chained r.1, r.2) := by
  match ds with
  | [] => contradiction
  | [d] =>
    rw [inOrder, ← layOut_sequence p hn]
    simp only [layOut]
    cases layOut p d <;> simp [bind, Except.bind, layOutSteps, pure, Except.pure]
  | d :: d' :: ds => rw [inOrder_of_isStep (by simp) h, layOut_sequence p hn]

-- Whether the steps of the canonical form of a definition are laid out as the definition is, but
-- for the order of the links.
def Follows (d : Definition) : Prop :=
  d.parts ≠ [] ∧ (∀ p ∈ d.parts, p.isStep) ∧ ∀ ⦃p f p'⦄, layOut p d = .ok (f, p') →
    ∃ fs, layOutBranches p d.parts = .ok (fs, p') ∧ (chained fs).Alike f

theorem Follows.canonical (hd : d.Follows) (h : layOut p d = .ok (f, p')) :
    ∃ f', layOut p d.canonical = .ok (f', p') ∧ f'.Alike f := by
  have ⟨fs, hs, ha⟩ := hd.2.2 h
  refine ⟨chained fs, ?_, ha⟩
  rw [Definition.canonical, layOut_inOrder hd.1 hd.2.1, hs]
  rfl

theorem layOutBranches_canonical (hd : ∀ d ∈ ds, d.Follows)
    (h : layOutBranches p ds = .ok (fs, p')) : ∃ bs : List (Subgraph × Subgraph),
      layOutBranches p (ds.map Definition.canonical) = .ok (bs.map (·.1), p') ∧ fs = bs.map (·.2) ∧
        ∀ b ∈ bs, b.1.Alike b.2 := by
  induction ds generalizing p fs
  case nil =>
    cases h
    exact ⟨[], rfl, rfl, List.forall_mem_nil _⟩
  case cons d ds hi =>
    rw [List.forall_mem_cons] at hd
    obtain ⟨f, p₁, fs, hf, hs, rfl⟩ := layOutBranches_cons_eq_ok.mp h
    have ⟨f', hf', ha⟩ := hd.1.canonical hf
    obtain ⟨bs, hbs, rfl, hb⟩ := hi hd.2 hs
    refine ⟨(f', f) :: bs, ?_, rfl, List.forall_mem_cons.mpr ⟨ha, hb⟩⟩
    exact layOutBranches_cons_eq_ok.mpr ⟨f', p₁, _, hf', hbs, rfl⟩

theorem layOutBranches_parts (hn : ds ≠ []) (hd : ∀ d ∈ ds, d.Follows)
    (h : layOutBranches p ds = .ok (fs, p')) :
    ∃ gs, layOutBranches p (ds.flatMap parts) = .ok (gs, p') ∧ (chained gs).Alike (chained fs) := by
  induction ds generalizing p fs
  case nil => contradiction
  case cons d ds hi =>
    rw [List.forall_mem_cons] at hd
    obtain ⟨f, p₁, fs, hf, hs, rfl⟩ := layOutBranches_cons_eq_ok.mp h
    have ⟨gs, hg, ha⟩ := hd.1.2.2 hf
    by_cases he : ds = []
    case pos =>
      subst he
      cases hs
      exact ⟨gs, by simpa using hg, ha⟩
    case neg =>
      have ⟨gs', hg', ha'⟩ := hi he hd.2 hs
      -- Chains can be taken apart anywhere: the order of links is all that differs.
      refine ⟨gs ++ gs', layOutBranches_append_eq_ok hg hg', ?_⟩
      have hgs := layOutBranches_ne_nil hd.1.1 hg
      have hgs' : gs' ≠ [] := by
        refine layOutBranches_ne_nil ?_ hg'
        have ⟨e, hm⟩ := List.exists_mem_of_ne_nil ds he
        exact fun hn => (hd.2 e hm).1 (List.flatMap_eq_nil_iff.mp hn e hm)
      have hfs := layOutBranches_ne_nil he hs
      exact ((chained_append hgs hgs').trans (ha.followedBy ha')).trans
        (chained_append (List.cons_ne_nil f []) hfs).symm

theorem layOutBranches_singleton (h : layOut p d = .ok (f, p')) :
    layOutBranches p [d] = .ok ([f], p') :=
  layOutBranches_cons_eq_ok.mpr ⟨f, p', [], h, rfl, rfl⟩

theorem follows_split (hd : ∀ d ∈ ds, d.Follows) : (split ds).Follows := by
  refine ⟨by simp, by simp [isStep], fun p f p' h => ?_⟩
  obtain ⟨fork, p₁, fs, p₂, join, hf, hs, hj, rfl⟩ := layOut_split_eq_ok.mp h
  obtain ⟨bs, hbs, rfl, hb⟩ := layOutBranches_canonical hd hs
  refine ⟨[sideBySide fork join (bs.map Prod.fst)], ?_, alike_sideBySide hb⟩
  rw [parts_split]
  exact layOutBranches_singleton (layOut_split_eq_ok.mpr ⟨fork, p₁, _, p₂, join, hf, hbs, hj, rfl⟩)

theorem follows_clauses (hl : cs.length ≠ 1) (hd : ∀ c ∈ cs, c.2.Follows) :
    (transition t cs).Follows := by
  rw [Follows, parts_clauses hl]
  refine ⟨by simp, by simp [isStep], fun p f p' h => ?_⟩
  obtain ⟨n, p₁, fs, hn, hs, rfl⟩ := layOut_transition_eq_ok.mp h
  obtain ⟨bs, hbs, rfl, hb⟩ := layOutBranches_canonical (List.forall_mem_map.mpr hd) hs
  have hps : (cs.map fun c => (c.1, c.2.canonical)).map (·.1) = cs.map (·.1) := by
    rw [List.map_map]
    rfl
  refine ⟨[select n ((cs.map (·.1)).zip (bs.map (·.1)))], layOutBranches_singleton ?_, ?_⟩
  · refine layOut_transition_eq_ok.mpr ⟨n, p₁, bs.map (·.1), hn, ?_, by rw [hps]⟩
    rw [List.map_map] at hbs ⊢
    exact hbs
  · rw [List.zip_map_right, List.zip_map_right]
    exact alike_select fun c hc => hb c.2 (List.of_mem_zip hc).2

theorem follows_only_clause {c : Clause} (hd : c.2.Follows) : (transition t [c]).Follows := by
  obtain ⟨q, qs, hq⟩ := List.exists_cons_of_ne_nil hd.1
  have hsteps := hd.2.1
  rw [hq, List.forall_mem_cons] at hsteps
  rw [Follows, parts_only_clause, hq]
  refine ⟨by simp [under], List.forall_mem_cons.mpr ⟨rfl, hsteps.2⟩, fun p f p' h => ?_⟩
  obtain ⟨n, p₁, fs, hn, hs, rfl⟩ := layOut_transition_eq_ok.mp h
  obtain ⟨f, p₂, gs, hf, hnil, rfl⟩ := layOutBranches_cons_eq_ok.mp hs
  cases hnil
  obtain ⟨fs, hfs, ha⟩ := hd.2.2 hf
  rw [hq] at hfs
  obtain ⟨g, p₃, gs, hg, hgs, rfl⟩ := layOutBranches_cons_eq_ok.mp hfs
  refine ⟨select n [(c.1, g)] :: gs, ?_, ?_⟩
  · refine layOutBranches_cons_eq_ok.mpr ⟨_, p₃, gs, ?_, hgs, rfl⟩
    exact layOut_transition_eq_ok.mpr ⟨n, p₁, [g], hn, layOutBranches_singleton hg, rfl⟩
  · have ha : ∀ x ∈ [(c.1, chained (g :: gs), f)], x.2.1.Alike x.2.2 :=
      List.forall_mem_singleton.mpr ha
    exact alike_select_foldl.trans (alike_select ha)

theorem Normal.follows (h : d.Normal) : d.Follows := by
  induction d, h using Normal.induct_of_clauses
  case task t =>
    refine ⟨by simp, by simp [isStep], fun p f p' h => ?_⟩
    rw [parts_task, ← bare_task]
    exact ⟨[f], layOutBranches_singleton (layOut_bare.trans h), .refl f⟩
  case sequence ds hl hs hn hi =>
    have hne : ds ≠ [] := by
      rintro rfl
      cases hl
    refine ⟨(Normal.sequence hl hs hn).parts_ne_nil, isStep_parts, fun p f p' h => ?_⟩
    obtain ⟨fs, hs, rfl⟩ := (layOut_sequence_eq_ok hne).mp h
    rw [parts_sequence]
    exact layOutBranches_parts hne hi hs
  case split hi => exact follows_split hi
  case only hi => exact follows_only_clause hi
  case clauses hl hi => exact follows_clauses hl hi

theorem toGraph_canonical {g : Graph} (hd : d.Normal) (h : d.toGraph = .ok g) :
    ∃ g', d.canonical.toGraph = .ok g' ∧ g'.nodes = g.nodes ∧ g'.links.Perm g.links := by
  simp only [toGraph, bind_eq_ok, Prod.exists, pure, Except.pure, Except.ok.injEq] at h ⊢
  obtain ⟨start, p, hs, finish, p', hf, f, p'', hl, rfl⟩ := h
  have ⟨f', hl', ha⟩ := hd.follows.canonical hl
  refine ⟨_, ⟨start, p, hs, finish, p', hf, f', p'', hl', rfl⟩, ?_, ?_⟩
  · simp [anchored, ha.nodes]
  · rw [anchored, anchored, ha.entry, ha.exitsTo]
    exact ha.links.append_right _

end Definition

end TaskFlow
