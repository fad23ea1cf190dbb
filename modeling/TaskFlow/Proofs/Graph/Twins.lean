import TaskFlow.Proofs.Graph.Isomorphism
import TaskFlow.Proofs.Graph.PostDominance
import TaskFlow.Proofs.Walk.Hollow

namespace TaskFlow

-- A node without what does not show in a text: only of a task do the name and the label.
def Node.outlined (n : Node) : Node :=
  if n.type = .task then n else { id := n.id, type := n.type }

@[simp]
theorem Node.outlined_id (n : Node) : n.outlined.id = n.id := by
  rw [Node.outlined]
  split <;> rfl

@[simp]
theorem Node.outlined_type (n : Node) : n.outlined.type = n.type := by
  rw [Node.outlined]
  split <;> rfl

theorem Node.outlined_of_task {n : Node} (h : n.type = .task) : n.outlined = n :=
  if_pos h

namespace Graph

variable {σ : String → String} {g g' : Graph} {n n' : Node} {x y id finish via : String}

def outlined (g : Graph) : Graph :=
  { g with nodes := g.nodes.map Node.outlined }

@[simp]
theorem ids_outlined : g.outlined.ids = g.ids := by
  simp [ids, outlined, Function.comp_def]

theorem Proper.outlined (hg : g.Proper) : g.outlined.Proper where
  ids := ids_outlined.symm ▸ hg.ids
  ends := ids_outlined.symm ▸ hg.ends

-- Whether two nodes show the same in a text, but for their ids.
def Mates (σ : String → String) (n n' : Node) : Prop :=
  n.outlined.vertex.renamed σ = n'.outlined.vertex

namespace Mates

variable (h : Mates σ n n')

include h

theorem id_eq : n'.id = σ n.id := by
  have := congrArg Vertex.id h
  simpa [Vertex.renamed, Node.vertex] using this.symm

theorem attributes : n'.outlined.attributes = n.outlined.attributes :=
  Option.some.inj (congrArg Vertex.attributes h).symm

theorem type_eq : n'.type = n.type := by
  have := congrArg Attributes.type h.attributes
  simpa [Node.attributes] using this

theorem attributes_of_task (ht : n.type = .task) : n'.attributes = n.attributes := by
  have := h.attributes
  rwa [Node.outlined_of_task ht, Node.outlined_of_task (h.type_eq.trans ht)] at this

theorem task (ht : n.type = .task) : n'.task = n.task := by
  have hn : n'.name = n.name := congrArg Attributes.name (h.attributes_of_task ht)
  have hl : n'.label = n.label := congrArg Attributes.label (h.attributes_of_task ht)
  rw [Node.task, Node.task, hn, hl]

end Mates

-- Whether a graph is another one under new ids, with its nodes and links in another order, but with
-- the clauses of each task in the same order.
structure Twins (σ : String → String) (g g' : Graph) : Prop extends
    Iso σ g.outlined g'.outlined where
  clauses : ∀ id ∈ g.ids, orderedClauses (g'.outgoing (σ id))
    = (orderedClauses (g.outgoing id)).map fun c => (c.1, σ c.2)

namespace Twins

variable (h : Twins σ g g') (hg : g.Proper)

section Parts

include h

theorem map_ids : (g.ids.map σ).Perm g'.ids := by
  have := h.toIso.map_ids
  rwa [ids_outlined, ids_outlined] at this

theorem mem_ids (hx : x ∈ g.ids) : σ x ∈ g'.ids :=
  h.map_ids.subset (List.mem_map_of_mem hx)

theorem exists_id {x' : String} (hx : x' ∈ g'.ids) : ∃ x ∈ g.ids, σ x = x' :=
  List.mem_map.mp (h.map_ids.mem_iff.mpr hx)

theorem id_injective (hx : x ∈ g.ids) (hy : y ∈ g.ids) (he : σ x = σ y) : x = y := by
  rw [← ids_outlined] at hx hy
  exact h.injective x hx y hy he

theorem injective_of_subset {xs : List String} (hs : xs ⊆ g.ids) :
    ∀ x ∈ xs, ∀ y ∈ xs, σ x = σ y → x = y :=
  fun _ hx _ hy => h.id_injective (hs hx) (hs hy)

theorem nodes_perm : (g.nodes.map fun n => n.outlined.vertex.renamed σ).Perm
    (g'.nodes.map fun n => n.outlined.vertex) := by
  have := h.nodes
  simp only [outlined, List.map_map] at this
  exact this

theorem exists_mate (hn : n ∈ g.nodes) : ∃ n' ∈ g'.nodes, Mates σ n n' := by
  have ⟨n', hn', he⟩ := List.mem_map.mp (h.nodes_perm.subset (List.mem_map_of_mem hn))
  exact ⟨n', hn', he.symm⟩

theorem exists_mate_of (hn : n' ∈ g'.nodes) : ∃ n ∈ g.nodes, Mates σ n n' :=
  List.mem_map.mp (h.nodes_perm.mem_iff.mpr (List.mem_map_of_mem hn))

end Parts

include h hg

theorem proper : g'.Proper := by
  have := h.toIso.proper hg.outlined
  exact ⟨ids_outlined ▸ this.ids, ids_outlined ▸ this.ends⟩

theorem outgoing_perm (hx : x ∈ g.ids) :
    ((g.outgoing x).map (·.renamed σ)).Perm (g'.outgoing (σ x)) :=
  h.toIso.outgoing hg.outlined (ids_outlined.symm ▸ hx)

theorem incoming_perm (hx : x ∈ g.ids) :
    ((g.incoming x).map (·.renamed σ)).Perm (g'.incoming (σ x)) :=
  h.toIso.incoming hg.outlined (ids_outlined.symm ▸ hx)

theorem outgoing_eq_nil (hx : x ∈ g.ids) (ho : g.outgoing x = []) : g'.outgoing (σ x) = [] := by
  have hp := h.outgoing_perm hg hx
  rw [ho] at hp
  exact List.nil_perm.mp hp

theorem incoming_eq_nil (hx : x ∈ g.ids) (hi : g.incoming x = []) : g'.incoming (σ x) = [] := by
  have hp := h.incoming_perm hg hx
  rw [hi] at hp
  exact List.nil_perm.mp hp

theorem outgoing_eq_singleton {l : Link} (hx : x ∈ g.ids) (ho : g.outgoing x = [l]) :
    g'.outgoing (σ x) = [l.renamed σ] := by
  have := h.outgoing_perm hg hx
  rw [ho] at this
  exact List.perm_singleton.mp this.symm

theorem outgoing_length (hx : x ∈ g.ids) :
    (g'.outgoing (σ x)).length = (g.outgoing x).length := by
  simpa using (h.outgoing_perm hg hx).length_eq.symm

theorem outgoing_plain (hx : x ∈ g.ids) (ho : ∀ l ∈ g.outgoing x, l.condition = none) :
    ∀ l ∈ g'.outgoing (σ x), l.condition = none := by
  intro l hm
  obtain ⟨l, hl, rfl⟩ := List.mem_map.mp ((h.outgoing_perm hg hx).mem_iff.mpr hm)
  exact ho l hl

theorem mem_successors (hx : x ∈ g.ids) (hy : y ∈ g.successors x) : σ y ∈ g'.successors (σ x) := by
  obtain ⟨l, hl, rfl⟩ := List.mem_map.mp hy
  have hm := (h.outgoing_perm hg hx).subset (List.mem_map_of_mem hl)
  exact List.mem_map.mpr ⟨_, hm, rfl⟩

theorem symm : ∃ τ, Twins τ g' g ∧ ∀ x ∈ g.ids, τ (σ x) = x := by
  have ⟨τ, hi, hτ⟩ := h.toIso.symm hg.outlined
  rw [ids_outlined] at hτ
  refine ⟨τ, ⟨hi, fun id hid => ?_⟩, hτ⟩
  obtain ⟨id, hm, rfl⟩ := h.exists_id hid
  rw [hτ id hm, h.clauses id hm, List.map_map]
  refine ((List.map_congr_left fun c hc => ?_).trans (List.map_id _)).symm
  obtain ⟨l, hl, rfl⟩ := mem_orderedClauses.mp hc
  rw [Function.comp_apply, hτ _ (hg.ends l (mem_outgoing.mp hl).1).2]
  rfl

section Ways

theorem way {left left' : List String} (hl : left ⊆ g.ids) (hl' : ∀ x ∈ left, σ x ∈ left')
    (hw : Way g.successors left x y) : Way g'.successors left' (σ x) (σ y) := by
  induction hw
  case here hx => exact .here (hl' _ hx)
  case step hx hy _ hi => exact .step (hl' _ hx) (h.mem_successors hg (hl hx) hy) hi

theorem way_ids (hw : Way g.successors g.ids x y) : Way g'.successors g'.ids (σ x) (σ y) :=
  h.way hg (List.Subset.refl _) (fun _ => h.mem_ids) hw

theorem led (hl : g.Led finish) : g'.Led (σ finish) where
  nodup := (h.proper hg).ids
  next id y hy := by
    obtain ⟨l, hl, rfl⟩ := List.mem_map.mp hy
    exact ((h.proper hg).ends l (mem_outgoing.mp hl).1).2
  way id hi := by
    obtain ⟨id, hm, rfl⟩ := h.exists_id hi
    exact h.way_ids hg (hl.way id hm)

theorem postDominates (hv : via ∈ g.ids) (hd : g'.PostDominates (σ finish) (σ via) (σ id)) :
    g.PostDominates finish via id := by
  refine fun hw => hd (h.way hg List.erase_subset (fun x hx => ?_) hw)
  have ⟨hne, hx⟩ := hg.ids.mem_erase_iff.mp hx
  exact (List.mem_erase_of_ne fun he => hne (h.id_injective hx hv he)).mpr (h.mem_ids hx)

theorem postDominates_iff (hf : finish ∈ g.ids) (hv : via ∈ g.ids) (hi : id ∈ g.ids) :
    g'.PostDominates (σ finish) (σ via) (σ id) ↔ g.PostDominates finish via id := by
  refine ⟨h.postDominates hg hv, fun hd => ?_⟩
  have ⟨τ, h', hτ⟩ := h.symm hg
  refine h'.postDominates (h.proper hg) (h.mem_ids hv) ?_
  rwa [hτ _ hf, hτ _ hv, hτ _ hi]

variable (hl : g.Led finish)

include hl

theorem isImmediate (hi : id ∈ g.ids) (hx : g.IsImmediate finish id x) :
    g'.IsImmediate (σ finish) (σ id) (σ x) where
  mem := h.mem_ids hx.mem
  ne he := hx.ne (h.id_injective hx.mem hi he)
  dominates := (h.postDominates_iff hg (hl.way id hi).target_mem hx.mem hi).mpr hx.dominates
  nearest y hy hd := by
    have hf := (hl.way id hi).target_mem
    obtain ⟨y, hm, rfl⟩ := h.exists_id ((h.led hg hl).mem_of_postDominates (h.mem_ids hi) hd)
    rw [h.postDominates_iff hg hf hm hi] at hd
    rw [h.postDominates_iff hg hf hm hx.mem]
    exact hx.nearest y (fun he => hy (he ▸ rfl)) hd

theorem immediatePostDominator_eq (hi : id ∈ g.ids) (hf : id ≠ finish) :
    g'.immediatePostDominator (σ finish) (σ id) = σ (g.immediatePostDominator finish id) := by
  have hf' : σ id ≠ σ finish := fun he => hf (h.id_injective hi (hl.way id hi).target_mem he)
  exact (h.led hg hl).eq_of_isImmediate ((h.led hg hl).isImmediate (h.mem_ids hi) hf')
    (h.isImmediate hg hl hi (hl.isImmediate hi hf))

theorem lookup_postDominators_eq (hi : id ∈ g.ids) : (g'.postDominators (σ finish)).lookup (σ id)
    = ((g.postDominators finish).lookup id).map σ := by
  by_cases hf : id = finish
  case pos =>
    rw [hf, Led.lookup_postDominators_finish, Led.lookup_postDominators_finish]
    rfl
  case neg =>
    have hf' : σ id ≠ σ finish := fun he => hf (h.id_injective hi (hl.way id hi).target_mem he)
    rw [lookup_postDominators hi hf, lookup_postDominators (h.mem_ids hi) hf',
      h.immediatePostDominator_eq hg hl hi hf]
    rfl

theorem pursues {xs : List String} (hi : id ∈ g.ids)
    (hp : Pursues (g.postDominators finish) id xs) :
    Pursues (g'.postDominators (σ finish)) (σ id) (xs.map σ) := by
  induction hp
  case done id hn =>
    refine .done ?_
    rw [h.lookup_postDominators_eq hg hl hi, hn]
    rfl
  case on id x _ hs _ hk =>
    have hx : x ∈ g.ids := by
      have hf : id ≠ finish := by
        rintro rfl
        rw [Led.lookup_postDominators_finish] at hs
        cases hs
      rw [lookup_postDominators hi hf] at hs
      exact Option.some.inj hs ▸ (hl.isImmediate hi hf).mem
    refine .on ?_ (hk hx)
    rw [h.lookup_postDominators_eq hg hl hi, hs]
    rfl

theorem chain_eq (hi : id ∈ g.ids) : chain (g'.postDominators (σ finish)) g'.ids (σ id)
    = (chain (g.postDominators finish) g.ids id).map σ := by
  have hl' := h.led hg hl
  refine (hl'.pursues_chain (h.mem_ids hi) fun y _ hd => ?_).eq (h.pursues hg hl hi ?_)
  · exact hl'.mem_of_postDominates (h.mem_ids hi) hd
  · exact hl.pursues_chain hi fun y _ hd => hl.mem_of_postDominates hi hd

end Ways

theorem type?_eq (hi : id ∈ g.ids) : g'.type? (σ id) = g.type? id := by
  obtain ⟨n, hn, rfl⟩ := List.mem_map.mp hi
  have ⟨n', hn', hm⟩ := h.exists_mate hn
  have he := find?_of_nodup hg.ids (List.Subset.refl _) hn
  have he' := find?_of_nodup (h.proper hg).ids (List.Subset.refl _) hn'
  rw [hm.id_eq] at he'
  rw [type?, type?, node?, node?, he, he', Option.map_some, Option.map_some, hm.type_eq]

end Twins

theorem matchingJoin?_map {type type' : String → Option NodeType} {ids : List String} {depth : Nat}
    (ht : ∀ id ∈ ids, type' (σ id) = type id) :
    matchingJoin? type' depth (ids.map σ) = (matchingJoin? type depth ids).map σ := by
  induction ids generalizing depth
  case nil => rfl
  case cons id ids hi =>
    rw [List.forall_mem_cons] at ht
    simp only [List.map_cons, matchingJoin?, ht.1]
    cases type id
    case none => exact hi ht.2
    case some type => cases type <;> cases depth <;> first | rfl | exact hi ht.2

end Graph

end TaskFlow
