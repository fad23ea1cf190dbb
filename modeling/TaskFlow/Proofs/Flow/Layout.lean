import TaskFlow.Proofs.Flow.Passages
import TaskFlow.Proofs.Layout.Anchored

namespace TaskFlow

open TaskFlow.Graph Subgraph

variable {g : Graph} {d : Definition} {f : Subgraph} {x : String}

def Subgraph.taskNodes (f : Subgraph) : List Node :=
  f.nodes.filter (·.type == .task)

section Tasks

variable {n fork join : Node} {fs : List Subgraph} {cs : List (Option String × Subgraph)}

theorem taskNodes_ofNode (h : n.type = .task) : (ofNode n).taskNodes = [n] :=
  List.filter_cons_of_pos (by simpa using h)

theorem taskNodes_followedBy {f' : Subgraph} :
    (f.followedBy f').taskNodes = f.taskNodes ++ f'.taskNodes :=
  List.filter_append ..

theorem taskNodes_sideBySide (hfork : fork.type = .fork) (hjoin : join.type = .join) :
    (sideBySide fork join fs).taskNodes = fs.flatMap taskNodes := by
  simp [Subgraph.taskNodes, sideBySide, List.filter_flatMap, hfork, hjoin]
  rfl

theorem taskNodes_select (h : n.type = .task) :
    (select n cs).taskNodes = n :: cs.flatMap (·.2.taskNodes) := by
  simp [Subgraph.taskNodes, select, List.filter_flatMap, h]

end Tasks

-- By induction on the subgraph: its tasks are in the order in which the definition mentions them,
-- and control leaves it by its exits only.
theorem Block.enacts (hg : g.ids.Nodup) (h : Block d f) (hn : f.ids.Nodup) (hw : Wired g f x) :
    g.Enacts ⟨d, f.taskNodes, g.Arrives f.entry⟩ (g.Arrives x) := by
  refine wired_induct
    (P := fun d f x => g.Enacts ⟨d, f.taskNodes, g.Arrives f.entry⟩ (g.Arrives x))
    (Q := fun ds f x => g.Enacts ⟨.sequence ds, f.taskNodes, g.Arrives f.entry⟩ (g.Arrives x))
    ?task ?step ?append ?sequence ?split ?transition h hn hw
  case task =>
    intro t n x ht hw
    have htask := Node.type_eq_task ht
    have he := arrives_of_not_silent hg (hw.nodes List.mem_cons_self) (by simp [Node.Silent, htask])
    have hx : g.Enacts ⟨.task t, [n], (· = n.id)⟩ (g.Arrives x) :=
      .task ht fun c v => by simp [flow_of_single hw.outgoing_node, eq_comm]
    rw [taskNodes_ofNode htask]
    exact he ▸ hx
  case step => exact fun h => h.single
  case append =>
    intro ds es f f' x h h'
    rw [taskNodes_followedBy]
    exact h.append h'
  case sequence => exact id
  case split =>
    intro fork join x bs hfork hjoin hc hn hw hi
    have hf : fork.type = .fork := congrArg Attributes.type hfork
    have hj : join.type = .join := congrArg Attributes.type hjoin
    -- Behind the join control comes to what follows the split.
    have hout : g.Arrives join.id = g.Arrives x := by
      funext v
      rw [arrives_of_silent hg (hw.nodes (by simp [sideBySide])) (.inr hj), hw.outgoing_join hc hn]
      simp
    have hin : g.Arrives fork.id = fun v => ∃ b ∈ bs, g.Arrives b.2.entry v := by
      funext v
      rw [arrives_of_silent hg (hw.nodes (by simp [sideBySide])) (.inl hf), hw.outgoing_fork hc hn]
      simp
    let ps := bs.map fun b => Passage.mk b.1 b.2.taskNodes (g.Arrives b.2.entry)
    have hps : ∀ p ∈ ps, g.Enacts p (g.Arrives x) :=
      List.forall_mem_map.mpr fun b hm => hout ▸ hi b hm
    have he : (sideBySide fork join (bs.map (·.2))).entry = fork.id := rfl
    rw [taskNodes_sideBySide hf hj, he, hin]
    simpa [ps, List.flatMap_map, Function.comp_def] using Enacts.split hps
  case transition =>
    intro t n x cs ht hc hn hw hi
    have htask := Node.type_eq_task ht
    have hin :=
      arrives_of_not_silent hg (hw.nodes List.mem_cons_self) (by simp [Node.Silent, htask])
    let qs := cs.map fun c => (c.1, Passage.mk c.2.1 c.2.2.taskNodes (g.Arrives c.2.2.entry))
    have hqs : ∀ q ∈ qs, g.Enacts q.2 (g.Arrives x) := List.forall_mem_map.mpr hi
    have hf : ∀ c v, g.Flow n.id c v ↔ ∃ q ∈ qs, q.1 = c ∧ q.2.entry v := fun c v => by
      rw [Graph.Flow, hw.outgoing_source hc hn]
      simp [qs, clauseLink]
    have he : (select n (cs.map fun c => (c.1, c.2.2))).entry = n.id := rfl
    rw [taskNodes_select htask, he, hin]
    simpa [qs, List.flatMap_map, Function.comp_def] using Enacts.transition ht hf hqs

theorem Drawn.enacts (h : Drawn d f) (hd : d.WellFormed) : f.whole.Enacts
    ⟨d, f.taskNodes, f.whole.Flow Definition.startNode.id none⟩ (· = Definition.finishNode.id) := by
  have hs := h.sound hd
  have hstart : f.whole.Flow Definition.startNode.id none = f.whole.Arrives f.entry := by
    funext v
    rw [flow_of_single (n := Definition.startNode) h.outgoing_start]
    simp
  rw [hstart, ← hs.arrives_finish]
  exact h.block.enacts hs.ids h.ids_nodup h.placed.toWired

end TaskFlow
