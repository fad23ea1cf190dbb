import TaskFlow.Graph.Equivalence
import TaskFlow.Proofs.Graph.Demands
import TaskFlow.Proofs.Graph.Search

namespace TaskFlow

variable {σ : String → String} {vs vs' : List Vertex} {k : Vertex → Nat}

def Node.vertex (n : Node) : Vertex :=
  ⟨n.id, some n.attributes⟩

def Vertex.renamed (σ : String → String) (v : Vertex) : Vertex :=
  { v with id := σ v.id }

def Link.renamed (σ : String → String) (l : Link) : Link :=
  { l with source := σ l.source, target := σ l.target }

-- What is a permutation of images consists of the images of a permutation.
theorem exists_of_perm_map {α β : Type} {k : α → β} {xs : List α} {ys : List β}
    (h : ys.Perm (xs.map k)) : ∃ zs : List α, ys = zs.map k ∧ zs.Perm xs :=
  (congrFun₂ (List.eq_map_comp_perm k) ys xs).mpr h

theorem exists_map_eq {α : Type} [DecidableEq α] {xs ys : List α} (hn : xs.Nodup)
    (hl : xs.length = ys.length) : ∃ σ : α → α, xs.map σ = ys := by
  induction xs generalizing ys
  case nil => exact ⟨id, (List.eq_nil_of_length_eq_zero hl.symm).symm⟩
  case cons x xs hi =>
    cases ys
    case nil => cases hl
    case cons y ys =>
      have ⟨hx, hn⟩ := List.nodup_cons.mp hn
      have ⟨σ, hσ⟩ := hi hn (Nat.succ.inj hl)
      refine ⟨Function.update σ x y, ?_⟩
      rw [List.map_cons, Function.update_self, ← hσ]
      refine congrArg _ (List.map_congr_left fun z hz => Function.update_of_ne ?_ ..)
      exact fun he => hx (he ▸ hz)

section Pairing

variable {α β : Type} [DecidableEq β] {fits : α → β → Bool} {agree : α × β → α × β → Bool}
  {m : α → β} {P : α → Prop}

-- The search cannot fail if there is a pairing: it may always choose the mate.
theorem canPair_of_mate {as : List α} {bs : List β} {done : List (α × β)}
    (hf : ∀ a, P a → fits a (m a))
    (hg : ∀ a b, P a → P b → agree (a, m a) (b, m b)) (hp : (as.map m).Perm bs)
    (ha : ∀ a ∈ as, P a) (hd : ∀ p ∈ done, P p.1 ∧ p.2 = m p.1) :
    canPair fits agree as bs done := by
  induction as generalizing bs done
  case nil => simpa [canPair] using hp
  case cons a as hi =>
    rw [List.forall_mem_cons] at ha
    have ⟨hm, hp⟩ := List.cons_perm_iff_perm_erase.mp hp
    have hda : ∀ p ∈ done, agree (a, m a) p := fun p hp => by
      have ⟨hpp, he⟩ := hd p hp
      have := hg a p.1 ha.1 hpp
      rwa [← he] at this
    have hd : ∀ p ∈ (a, m a) :: done, P p.1 ∧ p.2 = m p.1 :=
      List.forall_mem_cons.mpr ⟨⟨ha.1, rfl⟩, hd⟩
    have hc := hi hp ha.2 hd
    simp only [canPair, List.any_eq_true, Bool.and_eq_true, List.all_eq_true]
    exact ⟨m a, hm, ⟨⟨hf a ha.1, hg a a ha.1 ha.1⟩, hda⟩, hc⟩

end Pairing

theorem sameBundle_of_perm {xs ys : List (Option String)} (h : xs.Perm ys) : sameBundle xs ys := by
  simp [sameBundle, h.length_eq, h.mem_iff]

theorem mergeSort_congr {xs ys : List Nat} (h : xs.Perm ys) : xs.mergeSort = ys.mergeSort := by
  have sorted (xs : List Nat) : xs.mergeSort.Pairwise (· ≤ ·) := by
    have := @List.pairwise_mergeSort Nat (· ≤ ·) (by simp; omega) (by simp; omega) xs
    simpa using this
  exact List.Perm.eq_of_pairwise (fun _ _ _ _ => Nat.le_antisymm) (sorted xs) (sorted ys)
    (((List.mergeSort_perm ..).trans h).trans (List.mergeSort_perm ..).symm)

namespace Graph

variable {g g' : Graph} {n : Node} {x : String}

-- Whether the nodes of a graph have ids of their own, and its links join nodes.
structure Proper (g : Graph) : Prop where
  ids : g.ids.Nodup
  ends : ∀ l ∈ g.links, l.source ∈ g.ids ∧ l.target ∈ g.ids

theorem Sound.proper {start finish : Node} (hs : g.Sound start finish) : g.Proper :=
  ⟨hs.ids, hs.ends⟩

-- Whether a graph has the nodes and the links of another graph, in any order and under new ids.
structure Iso (σ : String → String) (g g' : Graph) : Prop where
  injective : ∀ x ∈ g.ids, ∀ y ∈ g.ids, σ x = σ y → x = y
  nodes : ((g.nodes.map Node.vertex).map (·.renamed σ)).Perm (g'.nodes.map Node.vertex)
  links : (g.links.map (·.renamed σ)).Perm g'.links

section Vertices

theorem putNode_of_notMem (h : n.id ∉ vs.map (·.id)) : putNode n vs = vs ++ [n.vertex] := by
  induction vs
  case nil => rfl
  case cons v vs hi =>
    rw [List.map_cons, List.mem_cons, not_or] at h
    rw [putNode, if_neg (Ne.symm h.1), hi h.2]
    rfl

theorem foldl_putNode {ns : List Node} (h : (vs.map (·.id) ++ ns.map (·.id)).Nodup) :
    ns.foldl (fun vs n => putNode n vs) vs = vs ++ ns.map Node.vertex := by
  induction ns generalizing vs
  case nil => simp
  case cons n ns hi =>
    have hn : n.id ∉ vs.map (·.id) := fun hm =>
      (List.disjoint_of_nodup_append h) hm (by simp)
    rw [List.foldl_cons, putNode_of_notMem hn, hi]
    · simp
    · simpa [Node.vertex] using h

theorem foldl_addEnd {ids : List String} (h : ids ⊆ vs.map (·.id)) : ids.foldl addEnd vs = vs := by
  induction ids
  case nil => rfl
  case cons id ids hi =>
    rw [List.cons_subset] at h
    have hm : vs.any (·.id == id) := by simpa using h.1
    rw [List.foldl_cons, addEnd, if_pos hm]
    exact hi h.2

theorem map_id_vertex {ns : List Node} : (ns.map Node.vertex).map (·.id) = ns.map (·.id) := by
  rw [List.map_map]
  rfl

theorem Proper.vertices (h : g.Proper) : g.vertices = g.nodes.map Node.vertex := by
  rw [Graph.vertices, foldl_putNode (by rw [List.map_nil, List.nil_append]; exact h.ids), List.nil_append]
  refine foldl_addEnd fun id hi => ?_
  have ⟨l, hl, hi⟩ := List.mem_flatMap.mp hi
  have := h.ends l hl
  rw [map_id_vertex]
  simp only [List.mem_cons, List.not_mem_nil, or_false] at hi
  obtain rfl | rfl := hi
  · exact this.1
  · exact this.2

theorem Proper.map_id_vertices (h : g.Proper) : g.vertices.map (·.id) = g.ids := by
  rw [h.vertices, map_id_vertex]
  rfl

end Vertices

section Colors

def painted (vs : List Vertex) (k : Vertex → Nat) : Coloring :=
  vs.map fun v => (v, k v)

theorem colorOf_painted {v : Vertex} (hn : (vs.map (·.id)).Nodup) (hv : v ∈ vs) :
    colorOf (painted vs k) v.id = k v := by
  have hn' : ((painted vs k).map (·.1.id)).Nodup := by
    rw [painted, List.map_map]
    exact hn
  have hm : (v, k v) ∈ painted vs k := List.mem_map_of_mem hv
  rw [colorOf, find?_of_nodup (f := fun x : Vertex × Nat => x.1.id) hn' (List.Subset.refl _) hm]
  rfl

-- Whether two colourings give paired vertices the same colour.
def Matched (σ : String → String) (vs vs' : List Vertex) (c : Coloring × Coloring) : Prop :=
  ∃ k k', c = (painted vs k, painted vs' k') ∧ ∀ v ∈ vs, k v = k' (v.renamed σ)

theorem colorBy_eq {α : Type} [BEq α] {mark mark' : Vertex → α} : colorBy vs vs' mark mark'
    = (painted vs fun v => (vs.map mark ++ vs'.map mark').idxOf (mark v),
      painted vs' fun v => (vs.map mark ++ vs'.map mark').idxOf (mark' v)) := by
  have hz {f : Vertex → Nat} {vs : List Vertex} : vs.zip (vs.map f) = painted vs f := by
    have := List.zip_map' (f := id) (g := f) (l := vs)
    rwa [List.map_id] at this
  simp only [colorBy, List.map_map, hz]
  rfl

theorem colorBy_matched {α : Type} [BEq α] {mark mark' : Vertex → α}
    (h : ∀ v ∈ vs, mark v = mark' (v.renamed σ)) :
    Matched σ vs vs' (colorBy vs vs' mark mark') :=
  ⟨_, _, colorBy_eq, fun v hv => congrArg (List.idxOf · _) (h v hv)⟩

end Colors

namespace Iso

theorem reordered (hn : g.nodes.Perm g'.nodes) (hl : g.links.Perm g'.links) : Iso id g g' where
  injective := fun _ _ _ _ => id
  nodes := by
    have hv (vs : List Vertex) : vs.map (·.renamed id) = vs := List.map_id vs
    rw [hv]
    exact hn.map _
  links := by
    have hr (ls : List Link) : ls.map (·.renamed id) = ls := List.map_id ls
    rw [hr]
    exact hl

theorem of_perm (hn : g.nodes = g'.nodes) (hl : g.links.Perm g'.links) : Iso id g g' :=
  reordered (.of_eq hn) hl

section Links

variable (h : Iso σ g g')

include h

theorem filter_links {p q : Link → Bool} (hp : ∀ l ∈ g.links, p l = q (l.renamed σ)) :
    ((g.links.filter p).map (·.renamed σ)).Perm (g'.links.filter q) := by
  refine .trans (.of_eq ?_) (h.links.filter q)
  rw [List.filter_map, List.filter_congr hp]
  rfl

theorem map_ids : (g.ids.map σ).Perm g'.ids := by
  have hp := h.nodes.map (·.id)
  rw [List.map_map, List.map_map, List.map_map] at hp
  rw [ids, List.map_map]
  exact hp

theorem mem_ids (hx : x ∈ g.ids) : σ x ∈ g'.ids :=
  h.map_ids.subset (List.mem_map_of_mem hx)

theorem beq_iff {x y : String} (hx : x ∈ g.ids) (hy : y ∈ g.ids) : (x == y) = (σ x == σ y) := by
  rw [Bool.eq_iff_iff, beq_iff_eq, beq_iff_eq]
  exact ⟨congrArg σ, h.injective x hx y hy⟩

variable (hg : g.Proper)

include hg

theorem outgoing (hx : x ∈ g.ids) :
    ((g.outgoing x).map (·.renamed σ)).Perm (g'.outgoing (σ x)) :=
  h.filter_links fun l hl => h.beq_iff (hg.ends l hl).1 hx

theorem incoming (hx : x ∈ g.ids) :
    ((g.incoming x).map (·.renamed σ)).Perm (g'.incoming (σ x)) :=
  h.filter_links fun l hl => h.beq_iff (hg.ends l hl).2 hx

theorem bundle {y : String} (hx : x ∈ g.ids) (hy : y ∈ g.ids) :
    (g.bundle x y).Perm (g'.bundle (σ x) (σ y)) := by
  have hp : ∀ l ∈ g.links, (decide (l.source = x) && decide (l.target = y))
      = (decide ((l.renamed σ).source = σ x) && decide ((l.renamed σ).target = σ y)) :=
    fun l hl => congrArg₂ _ (h.beq_iff (hg.ends l hl).1 hx) (h.beq_iff (hg.ends l hl).2 hy)
  have := (h.filter_links (q := fun l => l.source = σ x && l.target = σ y) hp).map (·.condition)
  rwa [List.map_map] at this

theorem nodup_map_ids : (g.ids.map σ).Nodup :=
  hg.ids.map_on h.injective

theorem proper : g'.Proper where
  ids := h.map_ids.nodup_iff.mp (h.nodup_map_ids hg)
  ends l hl := by
    obtain ⟨l, hm, rfl⟩ := List.mem_map.mp (h.links.mem_iff.mpr hl)
    exact ⟨h.mem_ids (hg.ends l hm).1, h.mem_ids (hg.ends l hm).2⟩

-- The new ids can be taken back.
theorem symm : ∃ τ, Iso τ g' g ∧ ∀ x ∈ g.ids, τ (σ x) = x := by
  have ⟨τ, hτ⟩ := exists_map_eq (h.nodup_map_ids hg) (List.length_map σ)
  have hτ : ∀ x ∈ g.ids, τ (σ x) = x := by
    rw [List.map_map] at hτ
    exact List.map_eq_map_iff.mp (hτ.trans (List.map_id _).symm)
  refine ⟨τ, ⟨fun x hx y hy he => ?_, ?_, ?_⟩, hτ⟩
  · obtain ⟨_, hm, rfl⟩ := List.mem_map.mp (h.map_ids.mem_iff.mpr hx)
    obtain ⟨_, hm', rfl⟩ := List.mem_map.mp (h.map_ids.mem_iff.mpr hy)
    rw [hτ _ hm, hτ _ hm'] at he
    rw [he]
  · refine (h.nodes.symm.map _).trans (.of_eq ?_)
    rw [List.map_map, List.map_map]
    refine List.map_congr_left fun n hn => ?_
    have := hτ n.id (List.mem_map_of_mem hn)
    simp [Vertex.renamed, Node.vertex, this]
  · refine (h.links.symm.map _).trans (.of_eq ?_)
    rw [List.map_map]
    refine (List.map_congr_left fun l hl => ?_).trans (List.map_id _)
    simp [Link.renamed, hτ _ (hg.ends l hl).1, hτ _ (hg.ends l hl).2]

omit hg in
theorem trans {g'' : Graph} {τ : String → String} (h' : Iso τ g' g'') :
    Iso (τ ∘ σ) g g'' where
  injective x hx y hy he :=
    h.injective x hx y hy (h'.injective _ (h.mem_ids hx) _ (h.mem_ids hy) he)
  nodes := by
    have := h.nodes.map (·.renamed τ)
    rw [List.map_map] at this
    exact this.trans h'.nodes
  links := by
    have := h.links.map (·.renamed τ)
    rw [List.map_map] at this
    exact this.trans h'.links

theorem vertices : (g.vertices.map (·.renamed σ)).Perm g'.vertices := by
  rw [hg.vertices, (h.proper hg).vertices]
  exact h.nodes

theorem signature {c c' : Coloring} (hc : ∀ id ∈ g.ids, colorOf c id = colorOf c' (σ id))
    {v : Vertex} (hv : v.id ∈ g.ids) : g.signature c v = g'.signature c' (v.renamed σ) := by
  have colors {ls ls' : List Link} {f : Link → String} (hl : (ls.map (·.renamed σ)).Perm ls')
      (hm : ∀ l ∈ ls, f l ∈ g.ids) (hf : ∀ l : Link, f (l.renamed σ) = σ (f l)) :
      (ls.map fun l => colorOf c (f l)).mergeSort = (ls'.map fun l => colorOf c' (f l)).mergeSort := by
    have he : ls.map (fun l => colorOf c (f l))
        = (ls.map (·.renamed σ)).map (fun l => colorOf c' (f l)) := by
      rw [List.map_map]
      exact List.map_congr_left fun l hl => (hc _ (hm l hl)).trans (by rw [← hf]; rfl)
    rw [he]
    exact mergeSort_congr (hl.map _)
  rw [Graph.signature, Graph.signature]
  refine congrArg₂ _ (hc v.id hv) (congrArg₂ _ ?_ ?_)
  · exact colors (h.outgoing hg hv) (fun l hl => (hg.ends l (mem_outgoing.mp hl).1).2) fun _ => rfl
  · exact colors (h.incoming hg hv) (fun l hl => (hg.ends l (mem_incoming.mp hl).1).1) fun _ => rfl

-- Colours that agree under the pairing give signatures that agree, and these the next colours.
theorem exists_refine (rounds : Nat) :
    Matched σ g.vertices g'.vertices (Graph.refine g g' g.vertices g'.vertices rounds) := by
  induction rounds
  case zero => exact colorBy_matched fun v _ => rfl
  case succ rounds hi =>
    obtain ⟨k, k', he, hk⟩ := hi
    rw [Graph.refine, he]
    have hn : (g.vertices.map (·.id)).Nodup := hg.map_id_vertices ▸ hg.ids
    have hg' := h.proper hg
    have hn' : (g'.vertices.map (·.id)).Nodup := hg'.map_id_vertices ▸ hg'.ids
    refine colorBy_matched fun v hv => h.signature hg (fun id hi => ?_) ?_
    · rw [← hg.map_id_vertices] at hi
      obtain ⟨w, hw, rfl⟩ := List.mem_map.mp hi
      have hw' : w.renamed σ ∈ g'.vertices :=
        (h.vertices hg).subset (List.mem_map_of_mem hw)
      rw [colorOf_painted hn hw, hk w hw]
      exact (colorOf_painted hn' hw').symm
    · exact hg.map_id_vertices ▸ List.mem_map_of_mem hv

end Links

theorem arranged_perm (hn : (vs.map (·.id)).Nodup) : (g.arranged (painted vs k)).Perm (painted vs k) := by
  have hm : (painted vs k).map (·.1.id) = vs.map (·.id) := by
    rw [painted, List.map_map]
    rfl
  have hf : ((painted vs k).map (·.1.id)).filterMap
      (fun id => (painted vs k).find? (·.1.id == id)) = painted vs k := by
    rw [List.filterMap_map]
    refine (List.filterMap_congr fun x hx => ?_).trans List.filterMap_some
    exact find?_of_nodup (f := fun x : Vertex × Nat => x.1.id) (hm ▸ hn) (List.Subset.refl _) hx
  rw [arranged]
  exact ((explore_perm (hm ▸ hn)).filterMap _).trans (.of_eq hf)

-- No round of colouring tells paired nodes apart, so the search does not miss the pairing.
theorem equivalent (h : Iso σ g g') (hg : g.Proper) : g.equivalent g' := by
  obtain ⟨k, k', he, hk⟩ := h.exists_refine hg Graph.rounds
  have hn : (g.vertices.map (·.id)).Nodup := hg.map_id_vertices ▸ hg.ids
  have hv := h.vertices hg
  -- The colours follow the renaming, so the painted vertices are the same up to order.
  have hc : ((painted g.vertices k).map fun x => (x.1.renamed σ, x.2)).Perm
      (painted g'.vertices k') := by
    refine .trans (.of_eq ?_) (hv.map fun v => (v, k' v))
    rw [painted, List.map_map, List.map_map]
    exact List.map_congr_left fun v hv => congrArg (v.renamed σ, ·) (hk v hv)
  rw [Graph.equivalent, he, Bool.and_eq_true, List.isPerm_iff]
  constructor
  · have := hc.map (·.2)
    rwa [List.map_map] at this
  · refine canPair_of_mate (m := fun x => (x.1.renamed σ, x.2)) (P := fun x => x.1.id ∈ g.ids)
      (fun x _ => by simp) (fun x y hx hy => ?_) (((arranged_perm hn).map _).trans hc)
      (fun x hx => ?_) (List.forall_mem_nil _)
    · rw [Bool.and_eq_true]
      exact ⟨sameBundle_of_perm (h.bundle hg hx hy), sameBundle_of_perm (h.bundle hg hy hx)⟩
    · obtain ⟨v, hv, rfl⟩ := List.mem_map.mp ((arranged_perm hn).subset hx)
      exact hg.map_id_vertices ▸ List.mem_map_of_mem hv

end Iso

end Graph

end TaskFlow
