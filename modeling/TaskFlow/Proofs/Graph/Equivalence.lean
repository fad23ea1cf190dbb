import TaskFlow.Proofs.Graph.Pairing

namespace TaskFlow.Graph

variable {g g' : Graph} {σ : String → String} {x y : String}

-- Whether the links that leave a node have no condition at all, or no two of them the same.
def Discerning (g : Graph) : Prop :=
  ∀ x ∈ g.ids, (∀ l ∈ g.outgoing x, l.condition = none) ∨ ((g.outgoing x).map (·.condition)).Nodup

-- Whether a mapping of ids pairs the nodes of two graphs, in type, name and label, and takes the
-- links of one graph to those of the other, each as often as it occurs.
structure Isomorphism (σ : String → String) (g g' : Graph) : Prop where
  bijective : Set.BijOn σ {x | x ∈ g.ids} {x | x ∈ g'.ids}
  nodes : ∀ n ∈ g.nodes, ∀ n' ∈ g'.nodes, n'.id = σ n.id →
    n'.type = n.type ∧ n'.name = n.name ∧ n'.label = n.label
  links : (g.links : Multiset Link).map (·.renamed σ) = g'.links

theorem Discerning.bundle (h : g.Discerning) (hg : g.Proper) (x y : String) :
    (∀ c ∈ g.bundle x y, c = none) ∨ (g.bundle x y).Nodup := by
  rw [bundle_eq]
  by_cases hx : x ∈ g.ids
  case pos =>
    refine (h x hx).imp (fun h => ?_) fun h => h.sublist (List.filter_sublist.map _)
    exact List.forall_mem_map.mpr fun l hl => h l (List.mem_of_mem_filter hl)
  case neg =>
    have : g.outgoing x = [] := List.filter_eq_nil_iff.mpr fun l hl he =>
      hx (beq_iff_eq.mp he ▸ (hg.ends l hl).1)
    simp [this]

theorem nodup_vertex {ns : List Node} (h : (ns.map (·.id)).Nodup) : (ns.map Node.vertex).Nodup :=
  .of_map (·.id) (by rwa [map_id_vertex])

theorem Iso.isomorphism (h : Iso σ g g') (hg' : g'.Proper) : Isomorphism σ g g' where
  bijective := by
    refine ⟨fun x hx => h.mem_ids hx, fun x hx y hy => h.injective x hx y hy, fun y hy => ?_⟩
    exact List.mem_map.mp (h.map_ids.mem_iff.mpr hy)
  nodes n hn n' hn' he := by
    have hm : n.vertex.renamed σ ∈ g'.nodes.map Node.vertex :=
      h.nodes.subset (List.mem_map_of_mem (List.mem_map_of_mem hn))
    obtain ⟨m, hm, hv⟩ := List.mem_map.mp hm
    have hid : m.id = n'.id := (congrArg Vertex.id hv).trans he.symm
    have := List.inj_on_of_nodup_map hg'.ids hm hn' hid
    subst this
    have ha : m.attributes = n.attributes := Option.some.inj (congrArg Vertex.attributes hv)
    exact ⟨congrArg Attributes.type ha, congrArg Attributes.name ha, congrArg Attributes.label ha⟩
  links := Multiset.coe_eq_coe.mpr h.links

theorem Isomorphism.iso (h : Isomorphism σ g g') (hg : g.Proper) (hg' : g'.Proper) : Iso σ g g' where
  injective x hx y hy := h.bijective.injOn hx hy
  nodes := by
    have hn : ((g.nodes.map Node.vertex).map (·.renamed σ)).Nodup := by
      refine .of_map (·.id) ?_
      have := hg.ids.map_on fun x hx y hy => h.bijective.injOn hx hy
      rw [ids, List.map_map] at this
      simpa [Function.comp_def, Vertex.renamed, Node.vertex] using this
    -- Ids tell nodes apart, so the node with the new id is the one with the same attributes.
    have hpaired {n n' : Node} (hm : n ∈ g.nodes) (hm' : n' ∈ g'.nodes) (he : n'.id = σ n.id) :
        n.vertex.renamed σ = n'.vertex := by
      obtain ⟨ht, hname, hl⟩ := h.nodes n hm n' hm' he
      simp [Vertex.renamed, Node.vertex, Node.attributes, he, ht, hname, hl]
    rw [List.map_map] at hn ⊢
    refine (List.perm_ext_iff_of_nodup hn (nodup_vertex hg'.ids)).mpr fun v => ?_
    rw [List.mem_map, List.mem_map]
    constructor
    · rintro ⟨n, hm, rfl⟩
      obtain ⟨n', hm', he⟩ := List.mem_map.mp (h.bijective.mapsTo (List.mem_map_of_mem hm))
      exact ⟨n', hm', (hpaired hm hm' he).symm⟩
    · rintro ⟨n', hm', rfl⟩
      obtain ⟨x, hx, he⟩ := h.bijective.surjOn (List.mem_map_of_mem hm')
      obtain ⟨n, hm, rfl⟩ := List.mem_map.mp hx
      exact ⟨n, hm, hpaired hm hm' he.symm⟩
  links := Multiset.coe_eq_coe.mp h.links

-- It is enough that the bundles of one of the graphs say how often each condition occurs.
theorem equivalent_iff_exists (hg : g.Proper) (hg' : g'.Proper) (hd : g'.Discerning) :
    g.equivalent g' ↔ ∃ σ, Isomorphism σ g g' := by
  constructor
  case mp =>
    intro h
    have ⟨σ, hi⟩ := hg.exists_iso hg' (hd.bundle hg') h
    exact ⟨σ, hi.isomorphism hg'⟩
  case mpr =>
    rintro ⟨σ, hp⟩
    exact (hp.iso hg hg').equivalent hg

def twoStatuses : Graph where
  nodes := [⟨"S", .start, none, []⟩, ⟨"E", .finish, none, []⟩, ⟨"a", .task, some "a", []⟩,
    ⟨"b", .task, some "b", [("label", "l")]⟩]
  links := [⟨"S", "a", none⟩, ⟨"a", "b", some "X"⟩, ⟨"a", "b", some "Y"⟩, ⟨"b", "E", none⟩]

-- `twoStatuses` with ids that say nothing and in another order.
def twoNumbers : Graph where
  nodes := [⟨"4", .task, some "b", [("label", "l")]⟩, ⟨"3", .task, some "a", []⟩,
    ⟨"1", .start, none, []⟩, ⟨"2", .finish, none, []⟩]
  links := [⟨"3", "4", some "Y"⟩, ⟨"1", "3", none⟩, ⟨"4", "2", none⟩, ⟨"3", "4", some "X"⟩]

theorem equivalent_twoNumbers : twoStatuses.Proper ∧ twoNumbers.Proper ∧ twoNumbers.Discerning ∧
    twoStatuses.equivalent twoNumbers := by
  have hg : twoStatuses.Proper := ⟨by decide, by decide⟩
  have hg' : twoNumbers.Proper := ⟨by decide, by decide⟩
  have hd : twoNumbers.Discerning := by
    unfold Discerning
    decide
  let number (id : String) : String :=
    ([("S", "1"), ("E", "2"), ("a", "3"), ("b", "4")].lookup id).getD id
  have hi : Iso number twoStatuses twoNumbers := ⟨by decide, by decide, by decide⟩
  exact ⟨hg, hg', hd, (equivalent_iff_exists hg hg' hd).mpr ⟨number, hi.isomorphism hg'⟩⟩

end TaskFlow.Graph
