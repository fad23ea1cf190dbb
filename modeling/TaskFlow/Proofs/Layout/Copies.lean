import TaskFlow.Proofs.Flow.Passages
import TaskFlow.Proofs.Graph.Isomorphism
import TaskFlow.Proofs.Render.Canonical

namespace TaskFlow

open TaskFlow.Graph Subgraph Definition

variable {σ : String → String} {d d' : Definition} {f f' e e' : Subgraph}
  {n n' fork fork' join join' : Node} {x : String}

theorem forall_zip {α β γ : Type} {k : α → γ} {k' : β → γ} {xs : List α} {ys : List β}
    (h : ys.map k' = xs.map k) : ∀ p ∈ xs.zip ys, k p.1 = k' p.2 := by
  obtain ⟨zs, rfl, rfl, hz⟩ := exists_pairs h
  rw [List.zip_map']
  exact List.forall_mem_map.mpr fun z hm => (hz z hm).symm

theorem Node.vertex_renamed (ha : n'.attributes = n.attributes) (hi : σ n.id = n'.id) :
    n.vertex.renamed σ = n'.vertex := by
  rw [Node.vertex, Node.vertex, ha, ← hi]
  rfl

namespace Subgraph

-- Whether a subgraph is another one under new ids.
structure Copies (σ : String → String) (f f' : Subgraph) : Prop where
  entry : f'.entry = σ f.entry
  exits : f'.exits = f.exits.map σ
  nodes : f'.nodes.map Node.vertex = (f.nodes.map Node.vertex).map (·.renamed σ)
  links : f'.links = f.links.map (·.renamed σ)

namespace Copies

theorem exitsTo (h : f.Copies σ f') (x : String) :
    f'.exitsTo (σ x) = (f.exitsTo x).map (·.renamed σ) := by
  rw [Subgraph.exitsTo, Subgraph.exitsTo, h.exits, List.map_map, List.map_map]
  rfl

theorem ofNode (h : n.vertex.renamed σ = n'.vertex) : (ofNode n).Copies σ (ofNode n') where
  entry := (congrArg Vertex.id h).symm
  exits := congrArg (fun v : Vertex => [v.id]) h.symm
  nodes := congrArg (fun v : Vertex => [v]) h.symm
  links := rfl

theorem followedBy (h : f.Copies σ f') (h' : e.Copies σ e') :
    (f.followedBy e).Copies σ (f'.followedBy e') where
  entry := h.entry
  exits := h'.exits
  nodes := by simp only [Subgraph.followedBy, List.map_append, h.nodes, h'.nodes]
  links := by
    simp only [Subgraph.followedBy, List.map_append, h.links, h'.links, h'.entry, h.exitsTo]

section Parts

variable {β : Type} {l r : β → Subgraph} {bs : List β} (hb : ∀ b ∈ bs, (l b).Copies σ (r b))

include hb

theorem chained (hne : bs ≠ []) : (chained (bs.map l)).Copies σ (chained (bs.map r)) := by
  have foldl {f f' : Subgraph} {bs : List β} (h : f.Copies σ f')
      (hb : ∀ b ∈ bs, (l b).Copies σ (r b)) : ((bs.map l).foldl Subgraph.followedBy f).Copies σ
        ((bs.map r).foldl Subgraph.followedBy f') := by
    induction bs generalizing f f'
    case nil => exact h
    case cons hi =>
      rw [List.forall_mem_cons] at hb
      exact hi (h.followedBy hb.1) hb.2
  cases bs
  case nil => contradiction
  case cons b bs =>
    rw [List.forall_mem_cons] at hb
    exact foldl hb.1 hb.2

theorem sideBySide (hfork : fork.vertex.renamed σ = fork'.vertex)
    (hjoin : join.vertex.renamed σ = join'.vertex) :
    (sideBySide fork join (bs.map l)).Copies σ (sideBySide fork' join' (bs.map r)) where
  entry := (congrArg Vertex.id hfork).symm
  exits := congrArg (fun v : Vertex => [v.id]) hjoin.symm
  nodes := by
    simp only [Subgraph.sideBySide, List.flatMap_map, List.map_append, List.map_cons, List.map_nil,
      List.map_flatMap, hfork, hjoin]
    rw [List.flatMap_congr fun b hm => (hb b hm).nodes]
  links := by
    have hf : fork'.id = σ fork.id := (congrArg Vertex.id hfork).symm
    have hj : join'.id = σ join.id := (congrArg Vertex.id hjoin).symm
    simp only [Subgraph.sideBySide, List.flatMap_map, List.map_append, List.map_flatMap,
      List.map_cons]
    rw [List.flatMap_congr fun b hm => (hb b hm).links]
    refine congrArg _ (List.flatMap_congr fun b hm => ?_)
    rw [hf, hj, (hb b hm).entry, (hb b hm).exitsTo]
    rfl

theorem select {p p' : β → Option String} (hn : n.vertex.renamed σ = n'.vertex)
    (hp : ∀ b ∈ bs, p' b = p b) : (select n (bs.map fun b => (p b, l b))).Copies σ
      (select n' (bs.map fun b => (p' b, r b))) where
  entry := (congrArg Vertex.id hn).symm
  exits := by
    simp only [Subgraph.select, List.flatMap_map, List.map_flatMap]
    exact List.flatMap_congr fun b hm => (hb b hm).exits
  nodes := by
    simp only [Subgraph.select, List.flatMap_map, List.map_cons, List.map_flatMap, hn]
    rw [List.flatMap_congr fun b hm => (hb b hm).nodes]
  links := by
    have hi : n'.id = σ n.id := (congrArg Vertex.id hn).symm
    simp only [Subgraph.select, List.flatMap_map, List.map_flatMap]
    refine List.flatMap_congr fun b hm => ?_
    rw [hi, hp b hm, (hb b hm).links, (hb b hm).entry, List.map_append]
    rfl

end Parts

end Copies

end Subgraph

namespace Block

theorem length_eq (h : Block d f) (h' : Block d' f') (hd : d' = d) :
    f.nodes.length = f'.nodes.length := by
  rw [h.length_nodes, h'.length_nodes, hd]

-- By induction on one of the subgraphs. The other one is made of its parts in the same way.
theorem copies (h : Block d f) (h' : Block d' f') (hd : d' = d)
    (hi : ∀ p ∈ f.nodes.zip f'.nodes, σ p.1.id = p.2.id) : f.Copies σ f' := by
  induction h generalizing d' f'
  case task ht =>
    cases h'
    case task ht' =>
      cases hd
      exact .ofNode (Node.vertex_renamed (ht'.trans ht.symm) (hi _ List.mem_cons_self))
    all_goals cases hd
  case sequence bs hne hb hx =>
    cases h'
    case sequence bs' _ hb' =>
      obtain ⟨qs, rfl, rfl, hq⟩ := exists_pairs (Definition.sequence.inj hd)
      rw [List.forall_mem_map] at hb hb' hx
      have hl : ∀ q ∈ qs, q.1.2.nodes.length = q.2.2.nodes.length := fun q hm =>
        (hb q hm).length_eq (hb' q hm) (hq q hm)
      simp only [nodes_chained, List.flatMap_map, zip_flatMap hl, List.forall_mem_flatMap] at hi
      rw [List.map_map, List.map_map]
      exact .chained (fun q hm => hx q hm (hb' q hm) (hq q hm) (hi q hm)) (by simpa using hne)
    all_goals cases hd
  case split bs hfork hjoin hb hx =>
    cases h'
    case split bs' hfork' hjoin' hb' =>
      obtain ⟨qs, rfl, rfl, hq⟩ := exists_pairs (Definition.split.inj hd)
      rw [List.forall_mem_map] at hb hb' hx
      have hl : ∀ q ∈ qs, q.1.2.nodes.length = q.2.2.nodes.length := fun q hm =>
        (hb q hm).length_eq (hb' q hm) (hq q hm)
      have hls : (qs.flatMap (·.1.2.nodes)).length = (qs.flatMap (·.2.2.nodes)).length := by
        rw [List.length_flatMap, List.length_flatMap, List.map_congr_left hl]
      simp only [Subgraph.sideBySide, List.flatMap_map, List.cons_append, List.zip_cons_cons,
        List.zip_append hls, zip_flatMap hl, List.forall_mem_cons, List.forall_mem_append,
        List.forall_mem_flatMap] at hi
      rw [List.map_map, List.map_map]
      refine .sideBySide (fun q hm => hx q hm (hb' q hm) (hq q hm) (hi.2.1 q hm))
        (Node.vertex_renamed (hfork'.trans hfork.symm) hi.1)
        (Node.vertex_renamed (hjoin'.trans hjoin.symm) hi.2.2.1)
    all_goals cases hd
  case transition t n cs ht hb hx =>
    cases h'
    case transition n' cs' ht' hb' =>
      obtain ⟨he, hc⟩ := Definition.transition.inj hd
      obtain ⟨qs, rfl, rfl, hq⟩ := exists_pairs hc
      rw [List.forall_mem_map] at hb hb' hx
      simp only [Prod.mk.injEq] at hq
      have hl : ∀ q ∈ qs, q.1.2.2.nodes.length = q.2.2.2.nodes.length := fun q hm =>
        (hb q hm).length_eq (hb' q hm) (hq q hm).2
      simp only [Subgraph.select, List.flatMap_map, List.zip_cons_cons, zip_flatMap hl,
        List.forall_mem_cons, List.forall_mem_flatMap] at hi
      rw [List.map_map, List.map_map]
      refine .select (fun q hm => hx q hm (hb' q hm) (hq q hm).2 (hi.2 q hm))
        (Node.vertex_renamed ?_ hi.1) fun q hm => (hq q hm).1
      rw [ht', ht, he]
    all_goals cases hd

end Block

namespace Drawn

-- The anchors are told apart from all other nodes, so that their ids can be kept.
theorem exists_iso (h : Drawn d f) (h' : Drawn d f') : ∃ σ, Iso σ f.whole f'.whole := by
  have hl : ("START" :: "END" :: f.ids).length = ("START" :: "END" :: f'.ids).length := by
    simp [Subgraph.ids, h.block.length_nodes, h'.block.length_nodes]
  obtain ⟨σ, hσ⟩ := exists_map_eq h.nodup hl
  have hi : ∀ x ∈ f.whole.ids, ∀ y ∈ f.whole.ids, σ x = σ y → x = y := fun x hx y hy =>
    List.inj_on_of_nodup_map (hσ ▸ h'.nodup) hx hy
  simp only [List.map_cons, List.cons.injEq] at hσ
  obtain ⟨hstart, hfinish, hids⟩ := hσ
  -- Nodes in the same places have ids that belong together.
  have hc : f.Copies σ f' := by
    rw [Subgraph.ids, List.map_map] at hids
    exact h.block.copies h'.block rfl (forall_zip hids.symm)
  refine ⟨σ, hi, .of_eq ?_, .of_eq ?_⟩
  · have hs : startNode.vertex.renamed σ = startNode.vertex := Node.vertex_renamed rfl hstart
    have hf : finishNode.vertex.renamed σ = finishNode.vertex := Node.vertex_renamed rfl hfinish
    simp only [whole, anchored, List.map_cons, hs, hf, hc.nodes]
  · have hs : σ startNode.id = startNode.id := hstart
    have hf : f'.exitsTo finishNode.id = (f.exitsTo finishNode.id).map (·.renamed σ) := by
      rw [← hc.exitsTo]
      exact congrArg _ hfinish.symm
    simp only [whole, anchored, List.map_append, List.map_cons, hc.links, hc.entry, hf]
    simp [Link.renamed, hs]

end Drawn

end TaskFlow
