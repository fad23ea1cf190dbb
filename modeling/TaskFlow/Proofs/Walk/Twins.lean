import TaskFlow.Proofs.Graph.Twins
import TaskFlow.Proofs.Walk.Tour

namespace TaskFlow.Graph

variable {σ : String → String} {g g' : Graph} {m m' : Terrain} {n n' : Node} {r r' : Region}
  {f f' : FanOut} {fans fans' : List FanOut} {p p' q : Position} {d : Definition}
  {finish id c : String} {limit : Int}

theorem orderedClauses_of_plain {ls : List Link} (h : ∀ l ∈ ls, l.condition = none) :
    orderedClauses ls = ls.map fun l => (none, l.target) := by
  have hs : ls.filter (·.condition != some wildcard) = ls := by
    rw [List.filter_eq_self]
    exact fun l hl => by simp [h l hl]
  have hw : ls.filter (·.condition == some wildcard) = [] := by
    rw [List.filter_eq_nil_iff]
    exact fun l hl => by simp [h l hl]
  rw [orderedClauses, hs, hw, List.append_nil]
  exact List.map_congr_left fun l hl => by rw [h l hl]

theorem orderedClauses_renamed {ls : List Link} :
    orderedClauses (ls.map (·.renamed σ)) = (orderedClauses ls).map fun c => (c.1, σ c.2) := by
  simp [orderedClauses, List.filter_map, Link.renamed, Function.comp_def]

-- What of a lead goes into a definition.
def Lead.outline (l : Lead) : TaskMention × String :=
  (l.node.task, l.condition)

namespace Region

-- Whether two stretches of walks correspond.
structure Mates (σ : String → String) (r r' : Region) : Prop where
  stop : r'.stop = σ r.stop
  parts : r'.parts = r.parts
  leads : r'.leads.map Lead.outline = r.leads.map Lead.outline

namespace Mates

variable (h : r.Mates σ r')

include h

theorem leads_length : r'.leads.length = r.leads.length := by
  simpa using congrArg List.length h.leads

theorem leads_eq_nil (hl : r.leads = []) : r'.leads = [] := by
  refine List.eq_nil_of_length_eq_zero ?_
  rw [h.leads_length, hl, List.length_nil]

theorem definition : r'.definition = r.definition := by
  rw [Region.definition, Region.definition, h.parts]

theorem add : (r.add d).Mates σ (r'.add d) where
  stop := h.stop
  parts := by
    have hl (r : Region) : (r.add d).parts = (r.leads.map Lead.outline).foldl
        (fun part l => .transition l.1 [(some l.2, part)]) d :: r.parts := by
      rw [List.foldl_map]
      rfl
    rw [hl, hl, h.leads, h.parts]
  leads := rfl

theorem arrive (hn : Graph.Mates σ n n') : (r.arrive n).Mates σ (r'.arrive n') := by
  rw [Region.arrive, Region.arrive, hn.type_eq]
  split
  case isTrue ht => exact hn.task ht ▸ h.add
  case isFalse => exact h

end Mates

end Region

namespace FanOut

structure Mates (σ : String → String) (f f' : FanOut) : Prop where
  task : f.conditional → f'.node.task = f.node.task
  conditional : f'.conditional = f.conditional
  join : f'.join = σ f.join
  outer : f.outer.Mates σ f'.outer
  done : f'.done = f.done
  condition : f'.condition = f.condition
  todo : f'.todo = f.todo.map fun c => (c.1, σ c.2)

namespace Mates

variable (h : f.Mates σ f')

include h

theorem close : (f.close d).Mates σ (f'.close d) :=
  { h with done := congrArg₂ _ (congrArg (·, d) h.condition) h.done }

theorem begin {c : Option String} {todo : List (Option String × String)} :
    (f.begin c todo).Mates σ (f'.begin c (todo.map fun c => (c.1, σ c.2))) :=
  { h with condition := rfl, todo := rfl }

theorem definition : f'.definition = f.definition := by
  rw [FanOut.definition, FanOut.definition, h.conditional, h.done]
  split
  case isTrue hc => rw [h.task hc]
  case isFalse => rfl

end Mates

end FanOut

structure Position.Mates (σ : String → String) (p p' : Position) : Prop where
  fans : List.Forall₂ (FanOut.Mates σ) p.fans p'.fans
  region : p.region.Mates σ p'.region
  here : p'.here = σ p.here

theorem Position.Mates.final (h : p.Mates σ p') (hf : p.Final) : p'.Final where
  here := by rw [h.here, h.region.stop, hf.here]
  fans := by
    have := h.fans
    rw [hf.fans, List.forall₂_nil_left_iff] at this
    exact this
  leads := h.region.leads_eq_nil hf.leads

-- A branch is begun just if its target is not the join. The pairing tells these two apart.
theorem Continued.exists_mate (h : Continued m f fans q) (hm : m'.limit = m.limit)
    (hf : f.Mates σ f') (hfs : List.Forall₂ (FanOut.Mates σ) fans fans')
    (hi : ∀ x ∈ q.owed, ∀ y ∈ q.owed, σ x = σ y → x = y) :
    ∃ q', Continued m' f' fans' q' ∧ q.Mates σ q' := by
  cases h
  case behind ht =>
    have ht : f'.todo = [] := by rw [hf.todo, ht, List.map_nil]
    refine ⟨_, .behind ht, hfs, ?_, hf.join⟩
    rw [hf.definition]
    exact hf.outer.add
  case branch c target todo ht hj hl =>
    have ht : f'.todo = (c, σ target) :: todo.map fun c => (c.1, σ c.2) := by
      rw [hf.todo, ht, List.map_cons]
    have hj : σ target ≠ f'.join := fun he =>
      hj (hi _ (by simp [Position.owed]) _ (by simp [Position.owed]) (he.trans hf.join))
    refine ⟨_, .branch ht hj (by rw [hm, ← hfs.length_eq]; exact hl), .cons hf.begin hfs, ?_, rfl⟩
    exact ⟨hf.join, rfl, rfl⟩

theorem Position.Mates.exists_closed (m' : Terrain) (hp : p.Mates σ p') (hf : p.fans = f :: fans)
    (hc : closeRegion m p f fans = .ok q) (hm : m'.limit = m.limit)
    (hi : ∀ x ∈ q.owed, ∀ y ∈ q.owed, σ x = σ y → x = y) :
    ∃ f' fans' q', p'.fans = f' :: fans' ∧ closeRegion m' p' f' fans' = .ok q' ∧
      q.Mates σ q' := by
  have ⟨hleads, hv⟩ := closeRegion_cases hc
  have hfans := hp.fans
  rw [hf] at hfans
  obtain ⟨f', fans', hff, hfs, hf'⟩ := List.forall₂_cons_left_iff.mp hfans
  have ⟨q', hv', hq⟩ := hv.exists_mate hm hff.close hfs hi
  refine ⟨f', fans', q', hf', ?_, hq⟩
  rw [closeRegion, hp.region.leads_eq_nil hleads, hp.region.definition]
  exact hv'.next_eq

namespace Twins

variable (h : Twins σ g g') (hg : g.Proper) (hl : g.Led finish)

include h hg hl

theorem postDominator_eq (hi : id ∈ g.ids) :
    (g'.terrain (σ finish) limit).postDominator (σ id)
      = σ ((g.terrain finish limit).postDominator id) := by
  have hp : (g'.postDominators (σ finish)).lookup (σ id) = _ := h.lookup_postDominators_eq hg hl hi
  rw [Terrain.postDominator, Terrain.postDominator, terrain, terrain, hp]
  cases (g.postDominators finish).lookup id <;> rfl

theorem branchesEnd_eq (hn : n ∈ g.nodes) (hm : Graph.Mates σ n n') :
    (g'.terrain (σ finish) limit).branchesEnd n' = σ ((g.terrain finish limit).branchesEnd n) := by
  have hi : n.id ∈ g.ids := List.mem_map_of_mem hn
  have hp : (g'.terrain (σ finish) limit).postDominator n'.id = _ :=
    hm.id_eq ▸ h.postDominator_eq hg hl hi
  have hc : chain (g'.postDominators (σ finish)) g'.ids n'.id = _ :=
    hm.id_eq ▸ h.chain_eq hg hl hi
  rw [Terrain.branchesEnd, Terrain.branchesEnd, hm.type_eq, hp]
  simp only [terrain, hc]
  rw [matchingJoin?_map fun id hi => h.type?_eq hg (chain_subset _ _ _ hi)]
  split
  case isTrue => cases matchingJoin? _ _ _ <;> rfl
  case isFalse => rfl

theorem selection_mates (hn : n ∈ g.nodes) (hm : Graph.Mates σ n n') (ht : n.type = .task)
    (hp : p.Mates σ p') : (selection (g.terrain finish limit) p n).Mates σ
      (selection (g'.terrain (σ finish) limit) p' n') where
  task _ := hm.task ht
  conditional := rfl
  join := (congrArg _ hm.id_eq).trans (h.postDominator_eq hg hl (List.mem_map_of_mem hn))
  outer := hp.region
  done := rfl
  condition := rfl
  todo := by
    have ho := h.clauses n.id (List.mem_map_of_mem hn)
    rw [← hm.id_eq] at ho
    exact ho

-- The order of branches is fixed in the same way as that of clauses, none of them has a condition.
theorem parallel_mates (hn : n ∈ g.nodes) (hm : Graph.Mates σ n n')
    (hc : ∀ l ∈ g.outgoing n.id, l.condition = none) (hp : p.Mates σ p') :
    (parallel (g.terrain finish limit) p n).Mates σ
      (parallel (g'.terrain (σ finish) limit) p' n') where
  task := nofun
  conditional := rfl
  join := h.branchesEnd_eq hg hl hn hm
  outer := hp.region.arrive hm
  done := rfl
  condition := rfl
  todo := by
    have hi : n.id ∈ g.ids := List.mem_map_of_mem hn
    have hc' : ∀ l ∈ g'.outgoing n'.id, l.condition = none :=
      hm.id_eq ▸ h.outgoing_plain hg hi hc
    have ho := h.clauses _ hi
    rw [← hm.id_eq, orderedClauses_of_plain hc', orderedClauses_of_plain hc, List.map_map] at ho
    rw [parallel, parallel, List.map_map]
    exact ho

-- One case for each kind of node. Ids are told apart only as far as the walk may come across them.
theorem exists_visited (hn : n ∈ g.nodes) (hm : Graph.Mates σ n n')
    (hf : (g.terrain finish limit).graph.LinksFit n) (hp : p.Mates σ p')
    (hs : p.region.stop ∈ g.ids) (hq : q.owed ⊆ g.ids)
    (hv : Visited (g.terrain finish limit) p n q) :
    ∃ q', Visited (g'.terrain (σ finish) limit) p' n' q' ∧ q.Mates σ q' := by
  have hi : n.id ∈ g.ids := List.mem_map_of_mem hn
  have hinj := h.injective_of_subset hq
  have hlim : (g'.terrain (σ finish) limit).limit = (g.terrain finish limit).limit := rfl
  cases hv
  case lead l c ho hc ht hlen =>
    have ho' := h.outgoing_eq_singleton hg hi ho
    rw [← hm.id_eq] at ho'
    have ht' : (l.renamed σ).target ≠ p'.region.stop := fun he =>
      ht (h.id_injective (hq (by simp [Position.owed, Position.lead])) hs
        (he.trans hp.region.stop))
    have hlen' : (p'.region.leads.length : Int) ≤ limit := hp.region.leads_length ▸ hlen
    have hx : n'.task = n.task := hm.task (hf.type_eq_task (by simp [ho]) hc)
    refine ⟨_, .lead ho' hc ht' hlen', hp.fans, ⟨hp.region.stop, hp.region.parts, ?_⟩, rfl⟩
    simp [Position.lead, Lead.outline, hx, hp.region.leads]
  case select hc ho hv =>
    have hc' : (g'.outgoing n'.id).any (·.hasCondition) := by
      obtain ⟨l, hl, hc⟩ := List.any_eq_true.mp hc
      have := (h.outgoing_perm hg hi).subset (List.mem_map_of_mem hl)
      exact hm.id_eq ▸ List.any_eq_true.mpr ⟨_, this, hc⟩
    have ho' : (g'.outgoing n'.id).length ≠ 1 := by
      rwa [hm.id_eq, h.outgoing_length hg hi]
    obtain ⟨l, hl', hc⟩ := List.any_eq_true.mp hc
    obtain ⟨c, hc⟩ := Option.isSome_iff_exists.mp hc
    have ht : n.type = .task := hf.type_eq_task hl' hc
    obtain ⟨q', hv', hq'⟩ :=
      hv.exists_mate hlim (h.selection_mates hg hl hn hm ht hp) hp.fans hinj
    exact ⟨q', .select hc' ho' hv', hq'⟩
  case pass l ho hc ht =>
    have ho' := h.outgoing_eq_singleton hg hi ho
    rw [← hm.id_eq] at ho'
    exact ⟨_, .pass ho' hc (hm.type_eq ▸ ht), hp.fans, hp.region.arrive hm, rfl⟩
  case split hc ht hv =>
    have hc : ∀ l ∈ g.outgoing n.id, l.condition = none := hc
    have hc' : ∀ l ∈ g'.outgoing n'.id, l.condition = none :=
      hm.id_eq ▸ h.outgoing_plain hg hi hc
    have ht' : n'.type = .fork ∨ (g'.outgoing n'.id).length ≠ 1 := by
      rwa [hm.type_eq, hm.id_eq, h.outgoing_length hg hi]
    obtain ⟨q', hv', hq'⟩ :=
      hv.exists_mate hlim (h.parallel_mates hg hl hn hm hc hp) hp.fans hinj
    exact ⟨q', .split hc' ht' hv', hq'⟩

end Twins

end TaskFlow.Graph
