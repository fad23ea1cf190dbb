import TaskFlow.Proofs.Definition.Normal
import TaskFlow.Proofs.Layout.Ids

namespace TaskFlow

namespace Subgraph

def ids (f : Subgraph) : List String :=
  f.nodes.map (·.id)

def chained : List Subgraph → Subgraph
  | [] => ⟨"", [], [], []⟩
  | f :: fs => fs.foldl followedBy f

theorem nodes_foldl_followedBy {f : Subgraph} {fs : List Subgraph} :
    (fs.foldl followedBy f).nodes = f.nodes ++ fs.flatMap (·.nodes) := by
  induction fs generalizing f
  case nil => simp
  case cons hi =>
    rw [List.foldl_cons, hi]
    simp [followedBy]

theorem nodes_chained {fs : List Subgraph} : (chained fs).nodes = fs.flatMap (·.nodes) := by
  cases fs
  case nil  => rfl
  case cons => simp [chained, nodes_foldl_followedBy]

end Subgraph

open Subgraph

def NodeType.nameless (type : NodeType) : Attributes :=
  ⟨type, none, none⟩

-- The subgraph of a definition is made of the subgraphs of its parts and has ids of its own.
inductive Block : Definition → Subgraph → Prop
  | task {t n} : n.attributes = t.attributes → Block (.task t) (.ofNode n)
  | sequence {bs : List (Definition × Subgraph)} : bs ≠ [] → (∀ b ∈ bs, Block b.1 b.2) →
    Block (.sequence (bs.map (·.1))) (chained (bs.map (·.2)))
  | split {fork join} {bs : List (Definition × Subgraph)} :
    fork.attributes = NodeType.fork.nameless → join.attributes = NodeType.join.nameless →
    (∀ b ∈ bs, Block b.1 b.2) →
    Block (.split (bs.map (·.1))) (.sideBySide fork join (bs.map (·.2)))
  | transition {t n} {cs : List (Option String × Definition × Subgraph)} :
    n.attributes = t.attributes → (∀ c ∈ cs, Block c.2.1 c.2.2) →
    Block (.transition t (cs.map fun c => (c.1, c.2.1))) (.select n (cs.map fun c => (c.1, c.2.2)))

namespace Definition

-- Whether a definition can be drawn as a graph: its tasks have names, and its sequences have steps.
inductive Drawable : Definition → Prop
  | task {t} : t.name ≠ "" → Drawable (.task t)
  | sequence {ds} : ds ≠ [] → (∀ d ∈ ds, Drawable d) → Drawable (.sequence ds)
  | split {ds} : (∀ d ∈ ds, Drawable d) → Drawable (.split ds)
  | transition {t cs} : t.name ≠ "" → (∀ c ∈ cs, Drawable c.2) → Drawable (.transition t cs)

variable {p p' : IdPool} {d : Definition} {ds : List Definition} {cs : List Clause} {f : Subgraph}

theorem layOutSteps_eq (p : IdPool) (f : Subgraph) (ds : List Definition) : layOutSteps p f ds
    = (layOutBranches p ds).map fun r => (r.1.foldl followedBy f, r.2) := by
  induction ds generalizing p f
  case nil => rfl
  case cons d ds hi =>
    rw [layOutSteps, layOutBranches]
    cases d.layOut p
    case error => rfl
    case ok r =>
      simp only [bind, Except.bind, hi]
      cases layOutBranches r.2 ds <;> rfl

theorem layOut_sequence (p : IdPool) (hn : ds ≠ []) : layOut p (sequence ds)
    = (layOutBranches p ds).map fun r => (chained r.1, r.2) := by
  cases ds
  case nil => contradiction
  case cons d ds =>
    simp only [layOut, layOutBranches]
    cases d.layOut p
    case error => rfl
    case ok r =>
      simp only [bind, Except.bind, layOutSteps_eq]
      cases layOutBranches r.2 ds <;> rfl

theorem layOutClauses_eq (p : IdPool) (cs : List Clause) : layOutClauses p cs
    = (layOutBranches p (cs.map (·.2))).map fun r => ((cs.map (·.1)).zip r.1, r.2) := by
  induction cs generalizing p
  case nil => rfl
  case cons c cs hi =>
    obtain ⟨pattern, d⟩ := c
    simp only [layOutClauses, List.map_cons, layOutBranches]
    cases d.layOut p
    case error => rfl
    case ok r =>
      simp only [bind, Except.bind, hi]
      cases layOutBranches r.2 (cs.map (·.2)) <;> rfl

-- Two lists of pairs that share a component are one list of triples.
theorem exists_zip {α β γ : Type} {xs : List (α × β)} {ys : List (β × γ)}
    (h : ys.map (·.1) = xs.map (·.2)) : ∃ zs : List (α × β × γ),
      xs = zs.map (fun z => (z.1, z.2.1)) ∧ ys = zs.map (·.2) := by
  induction xs generalizing ys
  case nil =>
    cases List.map_eq_nil_iff.mp h
    exact ⟨[], rfl, rfl⟩
  case cons x xs hi =>
    cases ys
    case nil => cases h
    case cons y ys =>
      rw [List.map_cons, List.map_cons, List.cons.injEq] at h
      have ⟨zs, hx, hy⟩ := hi h.2
      refine ⟨(x.1, x.2, y.2) :: zs, by rw [hx]; rfl, ?_⟩
      rw [hy, List.map_cons, ← h.1]

def Lays (d : Definition) : Prop :=
  ∀ p, ∃ f p', d.layOut p = .ok (f, p') ∧ Block d f ∧ p.Gives f.ids p'

theorem layOutBranches_eq_ok (p : IdPool) (h : ∀ d ∈ ds, d.Lays) :
    ∃ bs : List (Definition × Subgraph), ∃ p', layOutBranches p ds = .ok (bs.map (·.2), p') ∧
      bs.map (·.1) = ds ∧ (∀ b ∈ bs, Block b.1 b.2) ∧ p.Gives (bs.flatMap (·.2.ids)) p' := by
  induction ds generalizing p
  case nil => exact ⟨[], p, rfl, rfl, List.forall_mem_nil _, .nil⟩
  case cons d ds hi =>
    rw [List.forall_mem_cons] at h
    have ⟨f, p₁, he, hb, hg⟩ := h.1 p
    have ⟨bs, p', hes, hm, hbs, hgs⟩ := hi p₁ h.2
    refine ⟨(d, f) :: bs, p', ?_, by simp [hm], List.forall_mem_cons.mpr ⟨hb, hbs⟩, hg.append hgs⟩
    rw [layOutBranches, he]
    simp [bind, Except.bind, hes, pure, Except.pure]

theorem lays_task {t : TaskMention} (ht : t.name ≠ "") : (task t).Lays := by
  intro p
  have ⟨n, p', he, hn, hg⟩ := @IdPool.newTask_eq_ok p t ht
  refine ⟨.ofNode n, p', ?_, .task hn, hg⟩
  rw [layOut, he]
  rfl

theorem lays_sequence (hn : ds ≠ []) (h : ∀ d ∈ ds, d.Lays) : (sequence ds).Lays := by
  intro p
  have ⟨bs, p', he, hm, hb, hg⟩ := layOutBranches_eq_ok p h
  subst hm
  refine ⟨chained (bs.map (·.2)), p', ?_, .sequence (by simpa using hn) hb, ?_⟩
  · rw [layOut_sequence p hn, he]
    rfl
  · rw [ids, nodes_chained, List.map_flatMap, List.flatMap_map]
    exact hg

theorem lays_split (h : ∀ d ∈ ds, d.Lays) : (split ds).Lays := by
  intro p
  have ⟨fork, p₁, hf, hgf⟩ := @IdPool.newNode_eq_ok p "FORK" .fork none [] (by decide)
  have ⟨bs, p₂, he, hm, hb, hg⟩ := layOutBranches_eq_ok p₁ h
  have ⟨join, p₃, hj, hgj⟩ := @IdPool.newNode_eq_ok p₂ "JOIN" .join none [] (by decide)
  subst hm
  refine ⟨.sideBySide ⟨fork, .fork, none, []⟩ ⟨join, .join, none, []⟩ (bs.map (·.2)), p₃, ?_,
    .split rfl rfl hb, ?_⟩
  · rw [layOut, hf]
    simp only [bind, Except.bind, he, hj]
    rfl
  · have hg := hgf.cons (hg.append hgj)
    simpa [ids, sideBySide, List.map_flatMap, List.flatMap_map] using hg

theorem lays_transition {t : TaskMention} (ht : t.name ≠ "") (h : ∀ c ∈ cs, c.2.Lays) :
    (transition t cs).Lays := by
  intro p
  have ⟨n, p₁, hn, ha, hgn⟩ := @IdPool.newTask_eq_ok p t ht
  have ⟨bs, p₂, he, hm, hb, hg⟩ := layOutBranches_eq_ok p₁ (List.forall_mem_map.mpr h)
  have ⟨xs, hcs, hbs⟩ := exists_zip hm
  subst hcs hbs
  refine ⟨.select n (xs.map fun x => (x.1, x.2.2)), p₂, ?_,
    .transition ha fun x hx => hb x.2 (List.mem_map_of_mem hx), ?_⟩
  · rw [layOut, hn]
    simp only [bind, Except.bind, layOutClauses_eq, he]
    simp [Except.map, pure, Except.pure, List.zip_map', Function.comp_def]
  · have hg := hgn.cons hg
    simpa [ids, select, List.map_flatMap, List.flatMap_map] using hg

theorem Drawable.lays (h : d.Drawable) : d.Lays := by
  induction h
  case task ht => exact lays_task ht
  case sequence hn _ hi => exact lays_sequence hn hi
  case split hi => exact lays_split hi
  case transition ht _ hi => exact lays_transition ht hi

theorem Normal.drawable (hn : d.Normal) (ht : ∀ t ∈ d.mentions, t.name ≠ "") : d.Drawable := by
  induction hn
  case task t => exact .task (ht t (by simp))
  case sequence ds hl _ _ hi =>
    rw [mentions_sequence, List.forall_mem_flatMap] at ht
    refine .sequence ?_ fun d hd => hi d hd (ht d hd)
    rintro rfl
    cases hl
  case split hi =>
    rw [mentions_split, List.forall_mem_flatMap] at ht
    exact .split fun d hd => hi d hd (ht d hd)
  case transition hi =>
    rw [mentions_transition, List.forall_mem_cons, List.forall_mem_flatMap] at ht
    exact .transition ht.1 fun c hc => hi c hc (ht.2 c hc)

end Definition

end TaskFlow
