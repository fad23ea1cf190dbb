import TaskFlow.Proofs.Layout.Anchored

namespace TaskFlow

open TaskFlow.Graph Subgraph

-- What control passes: a node, or a link with its condition.
inductive Letter
  | node (attributes : Attributes)
  | link (condition : Option String)
deriving DecidableEq, Repr

-- The words that lead through a definition.
inductive Definition.Means : Definition → List Letter → Prop
  | task (t) : Means (.task t) [.node t.attributes]
  | sequence {ps : List (Definition × List Letter)} : ps ≠ [] → (∀ p ∈ ps, Means p.1 p.2) →
    Means (.sequence (ps.map (·.1))) ([.link none].intercalate (ps.map (·.2)))
  | split {d ds w} : d ∈ ds → Means d w →
    Means (.split ds) (.node NodeType.fork.nameless :: .link none ::
      (w ++ [.link none, .node NodeType.join.nameless]))
  | transition {t c cs w} : c ∈ cs → Means c.2 w →
    Means (.transition t cs) (.node t.attributes :: .link c.1 :: w)

inductive Graph.Leads (g : Graph) (finish : String) : String → List Letter → Prop
  | here {n} : n ∈ g.nodes → n.id = finish → Leads g finish n.id [.node n.attributes]
  | step {n l w} : n ∈ g.nodes → l ∈ g.outgoing n.id → Leads g finish l.target w →
    Leads g finish n.id (.node n.attributes :: .link l.condition :: w)

-- Whether a word leads from the start of a graph to its end.
def Graph.Spells (g : Graph) (w : List Letter) : Prop :=
  ∃ start ∈ g.nodesWith .start, ∃ finish ∈ g.nodesWith .finish, g.Leads finish.id start.id w

variable {g : Graph} {finish x : String} {d : Definition} {ds es : List Definition}
  {f f' : Subgraph} {n fork join : Node} {t : TaskMention} {c : Clause} {w : List Letter}

section Means

theorem means_task : (Definition.task t).Means w ↔ w = [.node t.attributes] := by
  refine ⟨fun h => ?_, fun h => h ▸ .task t⟩
  cases h
  rfl

theorem means_sequence : (Definition.sequence ds).Means w ↔
    ∃ ps : List (Definition × List Letter), ps ≠ [] ∧ (∀ p ∈ ps, p.1.Means p.2) ∧
      ps.map (·.1) = ds ∧ [.link none].intercalate (ps.map (·.2)) = w := by
  constructor
  case mp =>
    intro h
    generalize he : Definition.sequence ds = e at h
    cases h
    case sequence ps hn hp =>
      cases he
      exact ⟨ps, hn, hp, rfl, rfl⟩
    all_goals cases he
  case mpr =>
    rintro ⟨ps, hn, hp, rfl, rfl⟩
    exact .sequence hn hp

theorem means_singleton : (Definition.sequence [d]).Means w ↔ d.Means w := by
  rw [means_sequence]
  constructor
  case mp =>
    rintro ⟨ps, _, hp, he, rfl⟩
    obtain ⟨p, rfl, rfl⟩ := List.map_eq_singleton_iff.mp he
    simpa using hp
  case mpr => exact fun h => ⟨[(d, w)], by simp, by simpa using h, rfl, by simp⟩

theorem intercalate_append_of_ne_nil {α : Type} {sep : List α} {xs ys : List (List α)}
    (hx : xs ≠ []) (hy : ys ≠ []) :
    sep.intercalate (xs ++ ys) = sep.intercalate xs ++ sep ++ sep.intercalate ys := by
  induction xs
  case nil => contradiction
  case cons x xs hi =>
    by_cases h : xs = []
    case pos => simp [h, List.intercalate_cons_of_ne_nil hy]
    case neg => simp [hi h, List.intercalate_cons_of_ne_nil, h, hy]

theorem means_append (hd : ds ≠ []) (he : es ≠ []) : (Definition.sequence (ds ++ es)).Means w ↔
    ∃ v u, (Definition.sequence ds).Means v ∧ (Definition.sequence es).Means u ∧
      w = v ++ .link none :: u := by
  constructor
  case mp =>
    intro h
    obtain ⟨ps, _, hp, hm, rfl⟩ := means_sequence.mp h
    -- The words of the steps are split where the steps are.
    obtain ⟨qs, rs, rfl, rfl, rfl⟩ := List.map_eq_append_iff.mp hm
    rw [List.forall_mem_append] at hp
    have hq : qs ≠ [] := by simpa using hd
    have hr : rs ≠ [] := by simpa using he
    refine ⟨_, _, .sequence hq hp.1, .sequence hr hp.2, ?_⟩
    rw [List.map_append,
      intercalate_append_of_ne_nil (by simpa using hq) (by simpa using hr)]
    simp
  case mpr =>
    rintro ⟨v, u, hv, hu, rfl⟩
    obtain ⟨qs, hq, hqs, rfl, rfl⟩ := means_sequence.mp hv
    obtain ⟨rs, hr, hrs, rfl, rfl⟩ := means_sequence.mp hu
    refine means_sequence.mpr ⟨qs ++ rs, by simp [hq], List.forall_mem_append.mpr ⟨hqs, hrs⟩,
      by simp, ?_⟩
    rw [List.map_append,
      intercalate_append_of_ne_nil (by simpa using hq) (by simpa using hr)]
    simp

theorem means_split : (Definition.split ds).Means w ↔ ∃ d ∈ ds, ∃ v, d.Means v ∧
    w = .node NodeType.fork.nameless :: .link none ::
      (v ++ [.link none, .node NodeType.join.nameless]) := by
  constructor
  case mp =>
    intro h
    cases h
    case split d v hv hd => exact ⟨d, hd, v, hv, rfl⟩
  case mpr =>
    rintro ⟨d, hd, v, hv, rfl⟩
    exact .split hd hv

theorem means_transition {cs : List Clause} : (Definition.transition t cs).Means w ↔
    ∃ c ∈ cs, ∃ v, c.2.Means v ∧ w = .node t.attributes :: .link c.1 :: v := by
  constructor
  case mp =>
    intro h
    cases h
    case transition c v hv hc => exact ⟨c, hc, v, hv, rfl⟩
  case mpr =>
    rintro ⟨c, hc, v, hv, rfl⟩
    exact .transition hc hv

end Means

section Leads

theorem leads_iff (hg : g.ids.Nodup) (hn : n ∈ g.nodes) (hf : n.id ≠ finish) :
    g.Leads finish n.id w ↔ ∃ l ∈ g.outgoing n.id, ∃ v, g.Leads finish l.target v ∧
      w = .node n.attributes :: .link l.condition :: v := by
  constructor
  case mp =>
    intro h
    generalize hi : n.id = id at h
    cases h
    case here he => exact absurd (hi.trans he) hf
    case step n' l v hn' hl hv =>
      cases List.inj_on_of_nodup_map hg hn hn' hi
      exact ⟨l, hl, v, hv, rfl⟩
  case mpr =>
    rintro ⟨l, hl, v, hv, rfl⟩
    exact .step hn hl hv

-- A node with a single link, which has no condition.
theorem leads_pass (hg : g.ids.Nodup) (hn : n ∈ g.nodes) (hf : n.id ≠ finish)
    (ho : g.outgoing n.id = [{ source := n.id, target := x }]) :
    g.Leads finish n.id w ↔ ∃ v, g.Leads finish x v ∧ w = .node n.attributes :: .link none :: v := by
  rw [leads_iff hg hn hf, ho]
  simp

-- Whether the words that lead on from the entry of a subgraph are those of a definition, and behind
-- them those that lead on from the next node.
def Conveys (g : Graph) (finish x : String) (d : Definition) (f : Subgraph) : Prop :=
  ∀ w, g.Leads finish f.entry w ↔ ∃ v u, d.Means v ∧ g.Leads finish x u ∧ w = v ++ .link none :: u

theorem Conveys.followedBy (hd : ds ≠ []) (he : es ≠ [])
    (h : Conveys g finish f'.entry (.sequence ds) f) (h' : Conveys g finish x (.sequence es) f') :
    Conveys g finish x (.sequence (ds ++ es)) (f.followedBy f') := by
  intro w
  refine (h w).trans ⟨?_, ?_⟩
  · rintro ⟨v, u, hv, hu, rfl⟩
    obtain ⟨v', u', hv', hu', rfl⟩ := (h' u).mp hu
    exact ⟨_, u', (means_append hd he).mpr ⟨v, v', hv, hv', rfl⟩, hu', by simp⟩
  · rintro ⟨v, u, hv, hu, rfl⟩
    obtain ⟨v₁, v₂, hv₁, hv₂, rfl⟩ := (means_append hd he).mp hv
    exact ⟨v₁, _, hv₁, (h' _).mpr ⟨v₂, u, hv₂, hu, rfl⟩, by simp⟩

-- A word passes the fork, one of the branches and the join.
theorem conveys_sideBySide {bs : List (Definition × Subgraph)} (hg : g.ids.Nodup)
    (hfork : fork.attributes = NodeType.fork.nameless)
    (hjoin : join.attributes = NodeType.join.nameless) (hc : ∀ f ∈ bs.map (·.2), f.Closed)
    (hn : (sideBySide fork join (bs.map (·.2))).ids.Nodup)
    (hw : Wired g (sideBySide fork join (bs.map (·.2))) x)
    (hf : finish ∉ (sideBySide fork join (bs.map (·.2))).ids)
    (h : ∀ b ∈ bs, Conveys g finish join.id b.1 b.2) :
    Conveys g finish x (.split (bs.map (·.1))) (sideBySide fork join (bs.map (·.2))) := by
  intro w
  have hforkf : fork.id ≠ finish := fun he => hf (by simp [← he])
  have hjoinf : join.id ≠ finish := fun he => hf (by simp [← he])
  have hjoin' v := leads_pass (w := v) hg (hw.nodes (List.mem_append_right _ List.mem_cons_self))
    hjoinf (hw.outgoing_join hc hn)
  refine (leads_iff hg (hw.nodes List.mem_cons_self) hforkf).trans ?_
  rw [hw.outgoing_fork hc hn, List.map_map, hfork]
  constructor
  · rintro ⟨_, hl, w, hw, rfl⟩
    obtain ⟨b, hb, rfl⟩ := List.mem_map.mp hl
    obtain ⟨v, u, hv, hu, rfl⟩ := (h b hb w).mp hw
    obtain ⟨u', hu', rfl⟩ := (hjoin' u).mp hu
    refine ⟨_, u', means_split.mpr ⟨b.1, List.mem_map_of_mem hb, v, hv, rfl⟩, hu', ?_⟩
    simp [hjoin]
  · rintro ⟨v, u, hv, hu, rfl⟩
    obtain ⟨_, hd, v', hv', rfl⟩ := means_split.mp hv
    obtain ⟨b, hb, rfl⟩ := List.mem_map.mp hd
    refine ⟨_, List.mem_map_of_mem hb, _,
      (h b hb _).mpr ⟨v', _, hv', (hjoin' _).mpr ⟨u, hu, rfl⟩, rfl⟩, ?_⟩
    simp [hjoin]

theorem conveys_select {cs : List (Option String × Definition × Subgraph)} (hg : g.ids.Nodup)
    (ht : n.attributes = t.attributes) (hc : ∀ c ∈ cs.map (fun c => (c.1, c.2.2)), c.2.Closed)
    (hn : (select n (cs.map fun c => (c.1, c.2.2))).ids.Nodup)
    (hw : Wired g (select n (cs.map fun c => (c.1, c.2.2))) x)
    (hf : finish ∉ (select n (cs.map fun c => (c.1, c.2.2))).ids)
    (h : ∀ c ∈ cs, Conveys g finish x c.2.1 c.2.2) :
    Conveys g finish x (.transition t (cs.map fun c => (c.1, c.2.1)))
      (select n (cs.map fun c => (c.1, c.2.2))) := by
  intro w
  have hne : n.id ≠ finish := fun he => hf (by simp [← he])
  refine (leads_iff hg (hw.nodes List.mem_cons_self) hne).trans ?_
  rw [hw.outgoing_source hc hn, List.map_map, ht]
  constructor
  · rintro ⟨_, hl, w, hw, rfl⟩
    obtain ⟨c, hc, rfl⟩ := List.mem_map.mp hl
    obtain ⟨v, u, hv, hu, rfl⟩ := (h c hc w).mp hw
    exact ⟨_, u, means_transition.mpr ⟨_, List.mem_map_of_mem hc, v, hv, rfl⟩, hu, rfl⟩
  · rintro ⟨v, u, hv, hu, rfl⟩
    obtain ⟨_, hm, v', hv', rfl⟩ := means_transition.mp hv
    obtain ⟨c, hc, rfl⟩ := List.mem_map.mp hm
    exact ⟨_, List.mem_map_of_mem hc, _, (h c hc _).mpr ⟨v', u, hv', hu, rfl⟩, rfl⟩

end Leads

-- By induction on the subgraph in its place. The end of the graph lies outside, so that no word
-- ends before it leaves the subgraph.
theorem Block.conveys (hg : g.ids.Nodup) (h : Block d f) (hn : f.ids.Nodup) (hw : Wired g f x)
    (hf : finish ∉ f.ids) : Conveys g finish x d f := by
  refine wired_induct (P := fun d f x => finish ∉ f.ids → Conveys g finish x d f)
    (Q := fun ds f x => ds ≠ [] ∧ (finish ∉ f.ids → Conveys g finish x (.sequence ds) f))
    ?task ?step ?append ?sequence ?split ?transition h hn hw hf
  case task =>
    intro t n x ht hw hf w
    have hne : n.id ≠ finish := fun he => hf (by simp [← he])
    refine (leads_pass hg (hw.nodes List.mem_cons_self) hne hw.outgoing_node).trans ?_
    simp [means_task, ht]
  case step =>
    intro d f x h
    refine ⟨List.cons_ne_nil _ _, fun hf w => ?_⟩
    rw [h hf w]
    simp only [means_singleton]
  case append =>
    intro ds es f f' x ⟨hd, h⟩ ⟨he, h'⟩
    refine ⟨List.append_ne_nil_of_left_ne_nil hd es, fun hf => ?_⟩
    rw [ids_followedBy, List.mem_append, not_or] at hf
    exact (h hf.1).followedBy hd he (h' hf.2)
  case sequence => exact And.right
  case split =>
    intro fork join x bs hfork hjoin hc hn hw hi hf
    refine conveys_sideBySide hg hfork hjoin hc hn hw hf fun b hm => hi b hm fun he => hf ?_
    exact ids_subset_sideBySide (List.mem_map_of_mem (f := (·.2)) hm) he
  case transition =>
    intro t n x cs ht hc hn hw hi hf
    refine conveys_select hg ht hc hn hw hf fun c hm => hi c hm fun he => hf ?_
    exact ids_subset_select (List.mem_map_of_mem (f := fun c => (c.1, c.2.2)) hm) he

namespace Drawn

variable (h : Drawn d f)

include h

theorem spells_iff : f.whole.Spells w ↔ f.whole.Leads "END" "START" w := by
  have hs : f.whole.nodesWith .start = [Definition.startNode] :=
    congrArg _ (h.nodesWith_anchor (.inl rfl))
  have hf : f.whole.nodesWith .finish = [Definition.finishNode] :=
    congrArg _ (h.nodesWith_anchor (.inr rfl))
  simp only [Spells, hs, hf, List.mem_singleton, exists_eq_left]
  rfl

theorem leads_finish : f.whole.Leads "END" "END" w ↔ w = [.node NodeType.finish.nameless] := by
  have hm : Definition.finishNode ∈ f.whole.nodes := List.mem_cons_of_mem _ List.mem_cons_self
  constructor
  case mp =>
    intro hl
    generalize hi : "END" = id at hl
    cases hl
    case here n hn _ =>
      cases List.inj_on_of_nodup_map h.ids_whole_nodup hm hn hi
      rfl
    case step n l v hn hl _ =>
      rw [← hi, h.outgoing_finish] at hl
      cases hl
  case mpr => exact fun hw => hw ▸ .here hm rfl

end Drawn

namespace Definition

-- The words that lead through the graph are those of the definition, between the two anchors.
theorem exists_toGraph_spells_iff (h : d.Drawable) : ∃ g, d.toGraph = .ok g ∧ ∀ w, g.Spells w ↔
    ∃ v, d.Means v ∧ w = .node NodeType.start.nameless :: .link none ::
      (v ++ [.link none, .node NodeType.finish.nameless]) := by
  have ⟨f, hf, hx⟩ := h.drawn
  refine ⟨f.whole, hf, fun w => ?_⟩
  have hne : startNode.id ≠ "END" := by simp [startNode]
  rw [hx.spells_iff]
  refine (leads_pass hx.ids_whole_nodup List.mem_cons_self hne hx.outgoing_start).trans ?_
  simp only [hx.block.conveys hx.ids_whole_nodup hx.ids_nodup hx.placed.toWired hx.finish_notMem _,
    hx.leads_finish]
  constructor
  · rintro ⟨_, ⟨v, _, hv, rfl, rfl⟩, rfl⟩
    exact ⟨v, hv, rfl⟩
  · rintro ⟨v, hv, rfl⟩
    exact ⟨_, ⟨v, _, hv, rfl, rfl⟩, rfl⟩

-- A split with a task and with a task that nothing follows.
def deadEnd : Definition :=
  .split [.task ⟨"a", some "", 0⟩, .transition ⟨"b", none, 0⟩ []]

-- Only the word of the first branch comes through, and the empty label is not seen.
theorem spells_deadEnd : ∃ g, deadEnd.toGraph = .ok g ∧ ∀ w, g.Spells w ↔
    w = [.node ⟨.start, none, none⟩, .link none, .node ⟨.fork, none, none⟩, .link none,
      .node ⟨.task, some "a", none⟩, .link none, .node ⟨.join, none, none⟩, .link none,
      .node ⟨.finish, none, none⟩] := by
  have ht : Drawable deadEnd := by
    refine .split (List.forall_mem_cons.mpr ⟨.task (by decide), List.forall_mem_singleton.mpr ?_⟩)
    exact .transition (by decide) (List.forall_mem_nil _)
  have ⟨g, hg, hw⟩ := exists_toGraph_spells_iff ht
  refine ⟨g, hg, fun w => (hw w).trans ?_⟩
  simp [deadEnd, means_split, means_task, means_transition, NodeType.nameless,
    TaskMention.attributes, Option.filter]

end Definition

end TaskFlow
