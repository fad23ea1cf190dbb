import TaskFlow.Proofs.Render.Safety
import TaskFlow.Proofs.Walk.Twins

namespace TaskFlow

namespace Graph

variable {σ : String → String} {g g' : Graph} {n n' start finish start' finish' : Node}
  {p p' q : Position} {left left' order rest : List Node} {d : Definition} {limit : Int}
  {type : NodeType}

namespace Twins

variable (h : Twins σ g g')

include h

section Demands

theorem nodesWith_perm : ((g.nodesWith type).map fun n => n.outlined.vertex.renamed σ).Perm
    ((g'.nodesWith type).map fun n => n.outlined.vertex) := by
  let q := fun v : Vertex => v.attributes.any (·.type == type)
  have hq : (fun n : Node => q (n.outlined.vertex.renamed σ)) = (·.type == type) := by
    funext n
    simp [q, Vertex.renamed, Node.vertex, Node.attributes]
  have hq' : (fun n : Node => q n.outlined.vertex) = (·.type == type) := by
    funext n
    simp [q, Node.vertex, Node.attributes]
  have hp := h.nodes_perm.filter q
  rw [List.filter_map, List.filter_map] at hp
  rwa [Function.comp_def, Function.comp_def, hq, hq'] at hp

theorem exists_anchor (hn : g.nodesWith type = [n]) :
    ∃ n', g'.nodesWith type = [n'] ∧ Mates σ n n' := by
  have hp := hn ▸ h.nodesWith_perm
  rw [List.map_singleton] at hp
  have ⟨n', hn', he⟩ := List.map_eq_singleton_iff.mp (List.perm_singleton.mp hp.symm)
  exact ⟨n', hn', he.symm⟩

theorem tasks_perm : ((g.nodesWith .task).map (·.attributes)).Perm
    ((g'.nodesWith .task).map (·.attributes)) := by
  have hp : List.Perm _ ((g'.nodesWith .task).map _) := h.nodesWith_perm
  have hp := hp.filterMap (·.attributes)
  rw [List.filterMap_map, List.filterMap_map] at hp
  have hs {g : Graph} {k : Node → Option Attributes} (hk : ∀ n, k n = some n.outlined.attributes) :
      (g.nodesWith .task).filterMap k = (g.nodesWith .task).map (·.attributes) := by
    rw [← List.filterMap_eq_map]
    refine List.filterMap_congr fun n hn => ?_
    have ht : n.type = .task := by simpa using (List.mem_filter.mp hn).2
    rw [hk, Node.outlined_of_task ht]
    rfl
  rw [hs, hs] at hp
  · exact hp
  all_goals exact fun _ => rfl

variable (hg : g.Proper)

include hg

theorem linksFit (hn : n ∈ g.nodes) (hm : Mates σ n n') (hf : g.LinksFit n) : g'.LinksFit n' := by
  have hi : n.id ∈ g.ids := List.mem_map_of_mem hn
  cases hf
  case plain ho => exact .plain (hm.id_eq ▸ h.outgoing_plain hg hi ho)
  case conditional cs ht ho hne hw hnd =>
    have hp := (h.outgoing_perm hg hi).symm.map (·.condition)
    rw [List.map_map] at hp
    have hp : ((g'.outgoing (σ n.id)).map (·.condition)).Perm (cs.map some) := ho ▸ hp
    have ⟨cs', ho', hcs⟩ := exists_of_perm_map hp
    refine .conditional (hm.type_eq.trans ht) (hm.id_eq ▸ ho') (fun he => hne ?_)
      (fun c hc => hw c (hcs.subset hc)) (hcs.nodup_iff.mpr hnd)
    exact List.nil_perm.mp (he ▸ hcs)

end Demands

-- The demands speak of ids, attributes, links and ways only, all of which twins share up to the new
-- ids.
theorem sound (hs : g.Sound start finish) : ∃ start' finish', g'.Sound start' finish' ∧
    Mates σ start start' ∧ Mates σ finish finish' := by
  have hg := hs.proper
  have ⟨start', hstart, hms⟩ := h.exists_anchor hs.nodesWith_start
  have ⟨finish', hfinish, hmf⟩ := h.exists_anchor hs.nodesWith_finish
  have hsi : start.id ∈ g.ids := List.mem_map_of_mem hs.start_mem.1
  have hfi : finish.id ∈ g.ids := List.mem_map_of_mem hs.finish_mem.1
  have hattributes {n'} (hn : n' ∈ g'.nodesWith .task) :
      ∃ n ∈ g.nodesWith .task, n.attributes = n'.attributes :=
    List.mem_map.mp (h.tasks_perm.mem_iff.mpr (List.mem_map_of_mem hn))
  refine ⟨start', finish', ?_, hms, hmf⟩
  exact {
    ids := (h.proper hg).ids
    nodesWith_start := hstart
    nodesWith_finish := hfinish
    ends := (h.proper hg).ends
    incoming := hms.id_eq ▸ h.incoming_eq_nil hg hsi hs.incoming
    outgoing := hmf.id_eq ▸ h.outgoing_eq_nil hg hfi hs.outgoing
    nameable n' hn := by
      have ⟨n, hn, ha⟩ := hattributes hn
      have hname : n.name = n'.name := congrArg Attributes.name ha
      have hlabel : n.label = n'.label := congrArg Attributes.label ha
      exact ⟨hname ▸ (hs.nameable n hn).name, hlabel ▸ (hs.nameable n hn).label⟩
    labels := by
      have hp := h.tasks_perm.filterMap Attributes.label
      rw [List.filterMap_map, List.filterMap_map] at hp
      exact hp.nodup_iff.mp hs.labels
    tasks hn := by
      have hp := h.tasks_perm
      rw [hn] at hp
      exact hs.tasks (List.map_eq_nil_iff.mp (List.perm_nil.mp hp))
    links hn := by
      have hp : (g.links.map (·.renamed σ)).Perm g'.links := h.links
      rw [hn] at hp
      exact hs.links (List.map_eq_nil_iff.mp (List.perm_nil.mp hp))
    linksFit n' hn := by
      have ⟨n, hn, hm⟩ := h.exists_mate_of hn
      exact h.linksFit hg hn hm (hs.linksFit n hn)
    -- Ways keep their direction under the new ids, so what can be reached still can be.
    reachable _ hm := by
      obtain ⟨id, hi, rfl⟩ := h.exists_id hm
      have ⟨s, hm, hw⟩ := way_of_mem_explore (hs.reachable id hi)
      rw [List.mem_singleton] at hm
      subst hm
      exact mem_explore_of_way (List.mem_singleton.mpr hms.id_eq.symm) (h.way_ids hg hw)
    leading _ hm := by
      obtain ⟨id, hi, rfl⟩ := h.exists_id hm
      have hw := (h.way_ids hg (hs.leading_way hi)).reverse fun x y hy => mem_predecessors.mpr hy
      exact mem_explore_of_way (List.mem_singleton.mpr hmf.id_eq.symm) hw }

section Walks

variable (hs : g.Sound start finish)

-- Whether two walks have the same nodes still to visit.
structure Left (σ : String → String) (g g' : Graph) (left left' : List Node) : Prop where
  known : left ⊆ g.nodes
  known' : left' ⊆ g'.nodes
  ids : (left.map fun n => σ n.id).Perm (left'.map (·.id))

include hs

theorem exists_visit (hl : Left σ g g' left left') (hn : n ∈ left) :
    ∃ n' ∈ left', Mates σ n n' ∧ Left σ g g' (left.erase n) (left'.erase n') := by
  have hg := hs.proper
  have ⟨n', hn', hm⟩ := h.exists_mate (hl.known hn)
  have ⟨m, hm', he⟩ := List.mem_map.mp (hl.ids.subset (List.mem_map_of_mem hn))
  have he := List.inj_on_of_nodup_map (h.proper hg).ids (hl.known' hm') hn' (he.trans hm.id_eq.symm)
  subst he
  refine ⟨m, hm', hm, List.Subset.trans List.erase_subset hl.known,
    List.Subset.trans List.erase_subset hl.known', ?_⟩
  have hp := ((List.perm_cons_erase hn).symm.map fun n => σ n.id).trans
    (hl.ids.trans ((List.perm_cons_erase hm').map (·.id)))
  rw [List.map_cons, List.map_cons, hm.id_eq] at hp
  exact hp.cons_inv

-- Step by step the walk through the one graph goes where the walk through the other one goes.
theorem exists_tour (ht : Tour (g.terrain finish.id limit) p left order q rest)
    (hl : Left σ g g' left left') (hp : p.Mates σ p')
    (hn : Nested finish.id p.region.stop p.fans) (ho : p.owed ⊆ g.ids) :
    ∃ order' q' rest', Tour (g'.terrain (σ finish.id) limit) p' left' order' q' rest' ∧
      q.Mates σ q' ∧ Left σ g g' rest rest' := by
  have hg := hs.proper
  induction ht generalizing p' left'
  case done => exact ⟨[], p', left', .done, hp, hl⟩
  case close p left p₁ _ _ _ f fans hh hf hc _ hi =>
    have ho₁ : p₁.owed ⊆ g.ids := hs.owed_subset_ids (.close hh hf hc .done) hl.known hn ho
    obtain ⟨f', fans', p₁', hf', hc', hm⟩ := Position.Mates.exists_closed
      (g'.terrain (σ finish.id) limit) hp hf hc rfl (h.injective_of_subset ho₁)
    have hh' : p'.here = p'.region.stop := by rw [hp.here, hp.region.stop, hh]
    have hn := (nested_cons.mp (hf ▸ hn)).2
    obtain ⟨order', q', rest', ht', hq⟩ := hi hl hm ((closeRegion_cases hc).2.nested hn) ho₁
    exact ⟨order', q', rest', .close hh' hf' hc' ht', hq⟩
  case visit p left p₁ _ _ _ n hh hmem hid hfin hv _ hi =>
    have ho₁ : p₁.owed ⊆ g.ids :=
      hs.owed_subset_ids (.visit hh hmem hid hfin hv .done) hl.known hn ho
    obtain ⟨n', hmem', hm, hl'⟩ := h.exists_visit hs hl hmem
    have hv := visit_cases hv
    have hnode := hl.known hmem
    have hstop : p.region.stop ∈ g.ids := ho (by simp [Position.owed])
    obtain ⟨p₁', hv', hm₁⟩ :=
      h.exists_visited hg hs.led hnode hm (hs.linksFit n hnode) hp hstop ho₁ hv
    have hh' : p'.here ≠ p'.region.stop := by
      rw [hp.here, hp.region.stop]
      exact fun he => hh (h.id_injective (ho List.mem_cons_self) hstop he)
    have hid' : n'.id = p'.here := by rw [hm.id_eq, hp.here, hid]
    obtain ⟨order', q', rest', ht', hq⟩ := hi hl' hm₁ (hv.nested hn) ho₁
    exact ⟨_, q', rest', .visit hh' hmem' hid' (hm.type_eq ▸ hfin) hv'.visit_eq ht', hq⟩

end Walks

theorem recovers (hr : g.Recovers limit d) : g'.Recovers limit d := by
  obtain ⟨start, finish, left, hs, hw, hleft, hd⟩ := hr
  have hg := hs.proper
  obtain ⟨start', finish', hs', hms, hmf⟩ := h.sound hs
  obtain ⟨order, q, ht, hq, he⟩ := Graph.exists_tour hw
  have hl : Left σ g g' g.nodes g'.nodes := by
    refine ⟨List.Subset.refl _, List.Subset.refl _, ?_⟩
    have := h.map_ids
    rwa [ids, List.map_map] at this
  have hp : (outset start finish).Mates σ (outset start' finish') :=
    ⟨.nil, ⟨hmf.id_eq, rfl, rfl⟩, hms.id_eq⟩
  obtain ⟨order', q', left', ht', hmq, hl'⟩ := h.exists_tour hs ht hl hp .outermost
    hs.owed_outset_subset
  rw [← hmf.id_eq] at ht'
  refine .intro start' finish' left' hs' ?_ (fun n' hn => ?_) hd
  · rw [← outset, ht'.walk_eq hs'.ids, walk_of_final (hmq.final hq), hmq.region.definition, he]
  -- What the walk leaves are the mates of what the other one leaves, so only ends are left.
  · obtain ⟨n, hn, hi⟩ := List.mem_map.mp (hl'.ids.mem_iff.mpr (List.mem_map_of_mem hn))
    obtain ⟨m, hm, hmates⟩ := h.exists_mate (hl'.known hn)
    cases List.inj_on_of_nodup_map hs'.ids (hl'.known' ‹_›) hm (hi.symm.trans hmates.id_eq.symm)
    exact hmates.type_eq.trans (hleft n hn)

theorem toDefinition_eq (ht : g.toDefinition limit = .ok d) : g'.toDefinition limit = .ok d :=
  recovers_iff.mpr (h.recovers (recovers_iff.mp ht))

end Twins

end Graph

end TaskFlow
