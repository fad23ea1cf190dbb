import TaskFlow.Proofs.Graph.PostDominance
import TaskFlow.Proofs.Render.Coverage

namespace TaskFlow.Graph

variable {g : Graph} {limit : Int} {start finish n : Node} {p p' q : Position}
  {left left' rest order : List Node} {id : String}

-- What the walk relies on when it looks something up: a node that comes next is a node of the
-- graph, and if it is not left it was visited before; each node but the last has an immediate
-- post-dominator; the chain of these is followed to its end; and there is no infinite walk.
structure Assured (g : Graph) (start finish : Node) (limit : Int) : Prop where
  here : ∀ order q left, Tour (g.terrain finish.id limit) (outset start finish) g.nodes order q left →
    q.here ∈ g.ids ∧ (q.here ∉ left.map (·.id) → q.here ∈ order.map (·.id))
  joins : ∀ id ∈ g.ids, id ≠ finish.id →
    ∃ x, (g.postDominators finish.id).lookup id = some x ∧ g.IsImmediate finish.id id x
  chain : ∀ id ∈ g.ids,
    Pursues (g.postDominators finish.id) id (chain (g.postDominators finish.id) g.ids id)
  ends : WellFounded fun s' s : Position × List Node =>
    Step (g.terrain finish.id limit) s.1 s.2 s'.1 s'.2

namespace Sound

variable (hs : g.Sound start finish)

include hs

theorem led : g.Led finish.id where
  nodup := hs.ids
  next id y hy := by
    obtain ⟨l, hl, rfl⟩ := List.mem_map.mp hy
    exact (hs.ends l (mem_outgoing.mp hl).1).2
  way _ := hs.leading_way

theorem postDominator_mem (hi : id ∈ g.ids) :
    (g.terrain finish.id limit).postDominator id ∈ g.ids := by
  rw [Terrain.postDominator, terrain]
  by_cases hf : id = finish.id
  case pos =>
    rw [hf, Led.lookup_postDominators_finish]
    exact List.mem_map_of_mem hs.finish_mem.1
  case neg =>
    rw [lookup_postDominators hi hf]
    exact (hs.led.isImmediate hi hf).mem

theorem branchesEnd_mem (hn : n ∈ g.nodes) : (g.terrain finish.id limit).branchesEnd n ∈ g.ids := by
  have hp : (g.terrain finish.id limit).postDominator n.id ∈ g.ids :=
    hs.postDominator_mem (List.mem_map_of_mem hn)
  rw [Terrain.branchesEnd]
  split
  case isTrue =>
    cases hj : matchingJoin? _ _ _
    case none => exact hp
    case some x => exact chain_subset _ _ _ (mem_of_matchingJoin? hj)
  case isFalse => exact hp

-- The walk comes across nodes of the graph only.
theorem owed_subset_ids (h : Tour (g.terrain finish.id limit) p left order q rest)
    (hl : left ⊆ g.nodes) (hn : Nested finish.id p.region.stop p.fans) (hp : p.owed ⊆ g.ids) :
    q.owed ⊆ g.ids := by
  induction h
  case done => exact hp
  case close hh hf hc _ hi =>
    have ⟨_, hc⟩ := closeRegion_cases hc
    rw [hf, nested_cons] at hn
    refine hi hl (hc.nested hn.2) fun x hx => hp ?_
    have hx := hc.mem_owed.mp hx
    rw [Position.owed, hh, hf, hn.1]
    exact List.mem_cons_of_mem _ hx
  case visit hm _ _ hv _ hi =>
    have hv := visit_cases hv
    refine hi (List.Subset.trans List.erase_subset hl) (hv.nested hn) fun x hx => ?_
    obtain hx | ⟨l, ho, rfl⟩ | rfl | rfl := hv.owed_cases hx
    case inl => exact hp hx
    case inr.inl => exact (hs.ends l (mem_outgoing.mp ho).1).2
    case inr.inr.inl => exact hs.postDominator_mem (List.mem_map_of_mem (hl hm))
    case inr.inr.inr => exact hs.branchesEnd_mem (hl hm)

-- All that the walk looks up in a graph which meets all demands is there, and the walk comes to an
-- end.
theorem assured : g.Assured start finish limit where
  here order q left h := by
    have hq := hs.owed_subset_ids h (List.Subset.refl _) .outermost hs.owed_outset_subset
      List.mem_cons_self
    refine ⟨hq, fun hr => ?_⟩
    have hm := (h.perm.map (·.id)).mem_iff.mp hq
    rw [List.map_append] at hm
    exact (List.mem_append.mp hm).resolve_right hr
  joins id hi hf := ⟨_, lookup_postDominators hi hf, hs.led.isImmediate hi hf⟩
  chain id hi := hs.led.pursues_chain hi fun y _ hd => hs.led.mem_of_postDominates hi hd
  ends := by
    let measure : Position × List Node → Nat × Nat := fun s => (s.2.length, openBranches s.1.fans)
    exact Subrelation.wf (fun h => h.decreases)
      (InvImage.wf measure (Prod.lex Nat.lt_wfRel Nat.lt_wfRel).wf)

end Sound

end TaskFlow.Graph
