import TaskFlow.Graph.Reach
import TaskFlow.Proofs.Layout.Tidy

namespace TaskFlow

open TaskFlow.Graph

namespace Subgraph

variable {f g : Subgraph} {fs : List Subgraph} {n fork join : Node} {x id : String}
  {cs : List (Option String × Subgraph)}

-- The links that leave a node of a subgraph whose exits lead to `x`.
def out (f : Subgraph) (x id : String) : List Link :=
  (f.links ++ f.exitsTo x).filter (·.source == id)

theorem filter_flatMap_of_nodup {α β γ : Type} {own : α → List β} {h : α → List γ} {q : γ → Bool}
    {xs : List α} {a : α} {z : β} (hn : (xs.flatMap own).Nodup) (ha : a ∈ xs) (hz : z ∈ own a)
    (hq : ∀ b ∈ xs, z ∉ own b → (h b).filter q = []) :
    (xs.flatMap h).filter q = (h a).filter q := by
  have ⟨pre, post, he⟩ := List.append_of_mem ha
  subst he
  rw [List.flatMap_append, List.flatMap_cons, List.nodup_append, List.nodup_append] at hn
  obtain ⟨_, ⟨_, _, hpost⟩, hpre⟩ := hn
  have hnil {ys : List α} (hy : ∀ b ∈ ys, (h b).filter q = []) : (ys.flatMap h).filter q = [] := by
    rw [List.filter_flatMap]
    exact List.flatMap_eq_nil_iff.mpr hy
  have h₁ : (pre.flatMap h).filter q = [] := by
    refine hnil fun b hb => hq b (List.mem_append_left _ hb) fun hm => ?_
    exact hpre z (List.mem_flatMap.mpr ⟨b, hb, hm⟩) z (List.mem_append_left _ hz) rfl
  have h₂ : (post.flatMap h).filter q = [] := by
    refine hnil fun b hb => hq b (List.mem_append_right _ (List.mem_cons_of_mem _ hb)) fun hm => ?_
    exact hpost z hz z (List.mem_flatMap.mpr ⟨b, hb, hm⟩) rfl
  rw [List.flatMap_append, List.flatMap_cons, List.filter_append, List.filter_append, h₁, h₂,
    List.nil_append, List.append_nil]

section Out

theorem filter_exitsTo_of_ne (h : id ∉ f.exits) : (f.exitsTo x).filter (·.source == id) = [] := by
  rw [List.filter_eq_nil_iff]
  intro l hl
  have ⟨e, he, hl⟩ := mem_exitsTo.mp hl
  subst hl
  simpa using fun hx : e = id => h (hx ▸ he)

theorem Closed.filter_links_of_notMem (hf : f.Closed) (h : id ∉ f.ids) :
    f.links.filter (·.source == id) = [] := by
  rw [List.filter_eq_nil_iff]
  intro l hl
  simpa using fun hx : l.source = id => h (hx ▸ (hf.ends l hl).1)

theorem Closed.filter_exitsTo_of_notMem (hf : f.Closed) (h : id ∉ f.ids) :
    (f.exitsTo x).filter (·.source == id) = [] :=
  filter_exitsTo_of_ne fun he => h (hf.exits id he)

theorem out_ofNode : (ofNode n).out x n.id = [{ source := n.id, target := x }] := by
  simp [out, ofNode, exitsTo]

variable (hf : f.Closed) (hg : g.Closed) (hn : (f.ids ++ g.ids).Nodup)

include hg hn in
theorem out_followedBy_left (hi : id ∈ f.ids) : (f.followedBy g).out x id = f.out g.entry id := by
  have hid : id ∉ g.ids := fun hm => (List.nodup_append.mp hn).2.2 id hi id hm rfl
  have he : (f.followedBy g).links ++ (f.followedBy g).exitsTo x
      = f.links ++ g.links ++ f.exitsTo g.entry ++ g.exitsTo x := rfl
  rw [out, out, he]
  simp only [List.filter_append, hg.filter_links_of_notMem hid, hg.filter_exitsTo_of_notMem hid,
    List.append_nil]

include hf hn in
theorem out_followedBy_right (hi : id ∈ g.ids) : (f.followedBy g).out x id = g.out x id := by
  have hid : id ∉ f.ids := fun hm => (List.nodup_append.mp hn).2.2 id hm id hi rfl
  have he : (f.followedBy g).links ++ (f.followedBy g).exitsTo x
      = f.links ++ g.links ++ f.exitsTo g.entry ++ g.exitsTo x := rfl
  rw [out, out, he]
  simp only [List.filter_append, hf.filter_links_of_notMem hid, hf.filter_exitsTo_of_notMem hid,
    List.nil_append, List.append_nil]

end Out

section Split

variable (h : ∀ f ∈ fs, f.Closed) (hn : (sideBySide fork join fs).ids.Nodup)

def ties (fork join : Node) (f : Subgraph) : List Link :=
  { source := fork.id, target := f.entry } :: f.exitsTo join.id

theorem nodes_subset_sideBySide (hf : f ∈ fs) : f.nodes ⊆ (sideBySide fork join fs).nodes :=
  fun _ hn => List.mem_append_left _ (List.mem_cons_of_mem _ (List.mem_flatMap.mpr ⟨f, hf, hn⟩))

theorem out_sideBySide : (sideBySide fork join fs).out x id
    = (fs.flatMap (·.links)).filter (·.source == id)
      ++ (fs.flatMap (ties fork join)).filter (·.source == id)
      ++ [({ source := join.id, target := x } : Link)].filter (·.source == id) := by
  rw [out, List.filter_append]
  have he : (sideBySide fork join fs).links = fs.flatMap (·.links) ++ fs.flatMap (ties fork join) :=
    rfl
  rw [he, List.filter_append]
  rfl

include hn in
theorem nodup_sideBySide : (fs.flatMap ids).Nodup ∧ fork.id ≠ join.id ∧
    ∀ f ∈ fs, fork.id ∉ f.ids ∧ join.id ∉ f.ids := by
  rw [ids_sideBySide, List.cons_append, List.nodup_cons, List.nodup_append, List.mem_append] at hn
  obtain ⟨hfork, hb, _, hj⟩ := hn
  refine ⟨hb, fun he => hfork (.inr (List.mem_singleton.mpr he)), fun f hf => ⟨fun hm => ?_,
    fun hm => ?_⟩⟩
  · exact hfork (.inl (List.mem_flatMap.mpr ⟨f, hf, hm⟩))
  · exact hj _ (List.mem_flatMap.mpr ⟨f, hf, hm⟩) _ (List.mem_singleton_self _) rfl

include h hn in
theorem out_branch (hf : f ∈ fs) (hi : id ∈ f.ids) :
    (sideBySide fork join fs).out x id = f.out join.id id := by
  have ⟨hb, _, hfj⟩ := nodup_sideBySide hn
  have hfork : fork.id ≠ id := fun he => (hfj f hf).1 (he ▸ hi)
  have hjoin : join.id ≠ id := fun he => (hfj f hf).2 (he ▸ hi)
  have h₁ := filter_flatMap_of_nodup (h := (·.links)) (q := (·.source == id)) hb hf hi
    fun f hf hid => (h f hf).filter_links_of_notMem hid
  have h₂ := filter_flatMap_of_nodup (h := ties fork join) (q := (·.source == id)) hb hf hi
    fun f hf hid => by simp [ties, hfork, (h f hf).filter_exitsTo_of_notMem hid]
  rw [out_sideBySide, h₁, h₂, out, List.filter_append]
  simp [ties, hfork, hjoin]

include h hn in
theorem out_fork : (sideBySide fork join fs).out x fork.id
    = fs.map fun f => { source := fork.id, target := f.entry } := by
  have ⟨_, hfj, hids⟩ := nodup_sideBySide hn
  have h₁ : (fs.flatMap (·.links)).filter (·.source == fork.id) = [] := by
    rw [List.filter_flatMap]
    exact List.flatMap_eq_nil_iff.mpr fun f hf => (h f hf).filter_links_of_notMem (hids f hf).1
  have h₂ : (fs.flatMap (ties fork join)).filter (·.source == fork.id)
      = fs.map fun f => { source := fork.id, target := f.entry } := by
    rw [List.filter_flatMap, List.map_eq_flatMap]
    refine List.flatMap_congr fun f hf => ?_
    simp [ties, (h f hf).filter_exitsTo_of_notMem (hids f hf).1]
  rw [out_sideBySide, h₁, h₂]
  simp [Ne.symm hfj]

include h hn in
theorem out_join : (sideBySide fork join fs).out x join.id
    = [{ source := join.id, target := x }] := by
  have ⟨_, hfj, hids⟩ := nodup_sideBySide hn
  have h₁ : (fs.flatMap (·.links)).filter (·.source == join.id) = [] := by
    rw [List.filter_flatMap]
    exact List.flatMap_eq_nil_iff.mpr fun f hf => (h f hf).filter_links_of_notMem (hids f hf).2
  have h₂ : (fs.flatMap (ties fork join)).filter (·.source == join.id) = [] := by
    rw [List.filter_flatMap]
    refine List.flatMap_eq_nil_iff.mpr fun f hf => ?_
    simp [ties, hfj, (h f hf).filter_exitsTo_of_notMem (hids f hf).2]
  rw [out_sideBySide, h₁, h₂]
  simp

end Split

section Select

variable (h : ∀ c ∈ cs, c.2.Closed) (hn : (select n cs).ids.Nodup)

theorem nodes_subset_select {c : Option String × Subgraph} (hc : c ∈ cs) :
    c.2.nodes ⊆ (select n cs).nodes := fun _ hn =>
  List.mem_cons_of_mem _ (List.mem_flatMap.mpr ⟨c, hc, hn⟩)

def clauseLink (n : Node) (c : Option String × Subgraph) : Link :=
  { source := n.id, target := c.2.entry, condition := c.1 }

theorem out_select : (select n cs).out x id
    = (cs.flatMap fun c => c.2.links ++ [clauseLink n c]).filter (·.source == id)
      ++ (cs.flatMap fun c => c.2.exitsTo x).filter (·.source == id) := by
  have he : (select n cs).exitsTo x = cs.flatMap fun c => c.2.exitsTo x := by
    rw [exitsTo, select, List.map_flatMap]
    rfl
  rw [out, List.filter_append, he]
  rfl

include h hn in
theorem out_clause {c : Option String × Subgraph} (hc : c ∈ cs) (hi : id ∈ c.2.ids) :
    (select n cs).out x id = c.2.out x id := by
  rw [ids_select, List.nodup_cons] at hn
  have hne : n.id ≠ id := fun he => hn.1 (he ▸ List.mem_flatMap.mpr ⟨c, hc, hi⟩)
  have h₁ := filter_flatMap_of_nodup (h := fun c => c.2.links ++ [clauseLink n c])
    (q := (·.source == id)) hn.2 hc hi fun c hc hid => by
      simp [clauseLink, hne, (h c hc).filter_links_of_notMem hid]
  have h₂ := filter_flatMap_of_nodup (h := fun c => c.2.exitsTo x) (q := (·.source == id))
    hn.2 hc hi fun c hc hid => (h c hc).filter_exitsTo_of_notMem hid
  rw [out_select, h₁, h₂, out, List.filter_append]
  simp [clauseLink, hne]

include h hn in
theorem out_select_self : (select n cs).out x n.id = cs.map (clauseLink n) := by
  rw [ids_select, List.nodup_cons] at hn
  have hids c (hc : c ∈ cs) : n.id ∉ c.2.ids := fun hm => hn.1 (List.mem_flatMap.mpr ⟨c, hc, hm⟩)
  have h₁ : (cs.flatMap fun c => c.2.links ++ [clauseLink n c]).filter (·.source == n.id)
      = cs.map (clauseLink n) := by
    rw [List.filter_flatMap, List.map_eq_flatMap]
    refine List.flatMap_congr fun c hc => ?_
    simp [clauseLink, (h c hc).filter_links_of_notMem (hids c hc)]
  have h₂ : (cs.flatMap fun c => c.2.exitsTo x).filter (·.source == n.id) = [] := by
    rw [List.filter_flatMap]
    exact List.flatMap_eq_nil_iff.mpr fun c hc => (h c hc).filter_exitsTo_of_notMem (hids c hc)
  rw [out_select, h₁, h₂, List.append_nil]

end Select

end Subgraph

open Subgraph

-- Whether a subgraph stands in a graph, and control leaves it for `x` only.
structure Wired (g : Graph) (f : Subgraph) (x : String) : Prop where
  nodes : f.nodes ⊆ g.nodes
  outgoing : ∀ id ∈ f.ids, g.outgoing id = f.out x id

namespace Wired

variable {g : Graph} {x y id : String} {f f' : Subgraph}

theorem ids (h : Wired g f x) : f.ids ⊆ g.ids :=
  List.map_subset _ h.nodes

theorem mem_successors (h : Wired g f x) (hi : id ∈ f.ids) :
    y ∈ g.successors id ↔ y ∈ after f.links id ∨ id ∈ f.exits ∧ y = x := by
  rw [successors, h.outgoing id hi, mem_after, List.mem_map]
  simp only [out, List.mem_filter, List.mem_append, mem_exitsTo, beq_iff_eq]
  constructor
  · rintro ⟨l, ⟨hl | ⟨e, he, rfl⟩, rfl⟩, rfl⟩
    · exact .inl ⟨l, hl, rfl, rfl⟩
    · exact .inr ⟨he, rfl⟩
  · rintro (⟨l, hl, rfl, rfl⟩ | ⟨he, rfl⟩)
    · exact ⟨l, ⟨.inl hl, rfl⟩, rfl⟩
    · exact ⟨_, ⟨.inr ⟨id, he, rfl⟩, rfl⟩, rfl⟩

-- Control stays in a subgraph until it leaves it for the next node.
theorem successors_mem (h : Wired g f x) (hf : f.Closed) (hi : id ∈ f.ids)
    (hy : y ∈ g.successors id) : y ∈ f.ids ∨ y = x := by
  obtain hy | ⟨_, rfl⟩ := (h.mem_successors hi).mp hy
  case inl =>
    have ⟨l, hl, _, ht⟩ := mem_after.mp hy
    exact .inl (ht ▸ (hf.ends l hl).2)
  case inr => exact .inr rfl

theorem way (h : Wired g f x) (hw : f.Inside id y) : Way g.successors f.ids id y :=
  hw.mono_next fun _ hi _ hy => (h.mem_successors hi).mpr (.inl hy)

theorem way_next (h : Wired g f x) (hf : f.Tidy) (hi : id ∈ f.ids) :
    Way g.successors (x :: f.ids) id x := by
  have ⟨e, he, hw⟩ := hf.leads id hi
  have hw := (h.way hw).mono (List.subset_cons_self x f.ids)
  exact hw.concat ((h.mem_successors (hf.exits e he)).mpr (.inr ⟨he, rfl⟩)) List.mem_cons_self

-- The part of a subgraph from which control leaves the subgraph, or goes on to another part.
theorem part (h : Wired g f x) (hn : f'.nodes ⊆ f.nodes)
    (ho : ∀ id ∈ f'.ids, f.out x id = f'.out y id) : Wired g f' y where
  nodes := List.Subset.trans hn h.nodes
  outgoing id hi := (h.outgoing id (List.map_subset _ hn hi)).trans (ho id hi)

section FollowedBy

variable {f₁ f₂ : Subgraph} (h : Wired g (f₁.followedBy f₂) x) (hn : (f₁.ids ++ f₂.ids).Nodup)

include h hn in
theorem right (h₁ : f₁.Closed) : Wired g f₂ x :=
  h.part (List.subset_append_right _ _) fun _ hi => out_followedBy_right h₁ hn hi

include h hn in
theorem left (h₂ : f₂.Closed) : Wired g f₁ f₂.entry :=
  h.part (List.subset_append_left _ _) fun _ hi => out_followedBy_left h₂ hn hi

end FollowedBy

section Split

variable {fork join : Node} {fs : List Subgraph} (h : Wired g (sideBySide fork join fs) x)
  (hf : ∀ f ∈ fs, f.Closed) (hn : (sideBySide fork join fs).ids.Nodup)

include h hf hn

theorem branch (hm : f ∈ fs) : Wired g f join.id :=
  h.part (nodes_subset_sideBySide hm) fun _ hi => out_branch hf hn hm hi

theorem outgoing_fork :
    g.outgoing fork.id = fs.map fun f => { source := fork.id, target := f.entry } :=
  (h.outgoing fork.id (by simp)).trans (out_fork hf hn)

theorem outgoing_join : g.outgoing join.id = [{ source := join.id, target := x }] :=
  (h.outgoing join.id (by simp)).trans (out_join hf hn)

end Split

section Select

variable {n : Node} {cs : List (Option String × Subgraph)} {c : Option String × Subgraph}
  (h : Wired g (select n cs) x) (hf : ∀ c ∈ cs, c.2.Closed) (hn : (select n cs).ids.Nodup)

include h hf hn

theorem clause (hc : c ∈ cs) : Wired g c.2 x :=
  h.part (nodes_subset_select hc) fun _ hi => out_clause hf hn hc hi

theorem outgoing_source : g.outgoing n.id = cs.map (clauseLink n) :=
  (h.outgoing n.id (by simp)).trans (out_select_self hf hn)

end Select

theorem outgoing_node {n : Node} (h : Wired g (ofNode n) x) :
    g.outgoing n.id = [{ source := n.id, target := x }] :=
  (h.outgoing n.id (by simp)).trans out_ofNode

end Wired

namespace Block

variable {g : Graph} {d : Definition} {f : Subgraph} {x : String}

-- The induction over a subgraph in its place: what the induction hypotheses need, that each part has
-- ids of its own and that control leaves it for one node, is shown here for all of them. `Q` tells of
-- a stretch of steps what `P` tells of a whole subgraph.
@[elab_as_elim]
theorem wired_induct {P : Definition → Subgraph → String → Prop}
    {Q : List Definition → Subgraph → String → Prop}
    (task : ∀ {t n x}, n.attributes = t.attributes → Wired g (ofNode n) x → P (.task t) (ofNode n) x)
    (step : ∀ {d f x}, P d f x → Q [d] f x)
    (append : ∀ {ds es f f' x}, Q ds f f'.entry → Q es f' x → Q (ds ++ es) (f.followedBy f') x)
    (sequence : ∀ {ds f x}, Q ds f x → P (.sequence ds) f x)
    (split : ∀ {fork join x} {bs : List (Definition × Subgraph)},
      fork.attributes = NodeType.fork.nameless → join.attributes = NodeType.join.nameless →
      (∀ f ∈ bs.map (·.2), f.Closed) → (sideBySide fork join (bs.map (·.2))).ids.Nodup →
      Wired g (sideBySide fork join (bs.map (·.2))) x → (∀ b ∈ bs, P b.1 b.2 join.id) →
      P (.split (bs.map (·.1))) (sideBySide fork join (bs.map (·.2))) x)
    (transition : ∀ {t n x} {cs : List (Option String × Definition × Subgraph)},
      n.attributes = t.attributes → (∀ c ∈ cs.map (fun c => (c.1, c.2.2)), c.2.Closed) →
      (select n (cs.map fun c => (c.1, c.2.2))).ids.Nodup →
      Wired g (select n (cs.map fun c => (c.1, c.2.2))) x → (∀ c ∈ cs, P c.2.1 c.2.2 x) →
      P (.transition t (cs.map fun c => (c.1, c.2.1))) (select n (cs.map fun c => (c.1, c.2.2))) x)
    (h : Block d f) (hn : f.ids.Nodup) (hw : Wired g f x) : P d f x := by
  induction h generalizing x
  case task ht => exact task ht hw
  case sequence bs hne hb hi =>
    have hn := nodup_chained hn
    let R := fun (ds : List Definition) (f : Subgraph) => f.Closed ∧ ∀ x, Wired g f x → Q ds f x
    have hr : R (bs.map (·.1)) (chained (bs.map (·.2))) := by
      refine chained_induct ?_ hne hn fun b hm => ?_
      · intro _ _ f f' hn ⟨hf, h⟩ ⟨hf', h'⟩
        exact ⟨hf.followedBy hf', fun x hw => append (h _ (hw.left hn hf')) (h' x (hw.right hn hf))⟩
      · have hnb := (List.nodup_flatMap.mp hn).1 b hm
        exact ⟨(hb b hm).closed hnb, fun x hw => step (hi b hm hnb hw)⟩
    exact sequence (hr.2 x hw)
  case split bs hfork hjoin hb hi =>
    have hnb := (List.nodup_flatMap.mp (nodup_branches hn)).1
    have hc := closed_branches hb hn
    refine split hfork hjoin hc hn hw fun b hm => ?_
    exact hi b hm (hnb b hm) (hw.branch hc hn (List.mem_map_of_mem hm))
  case transition cs ht hb hi =>
    have hnb := (List.nodup_flatMap.mp (nodup_clauses hn)).1
    have hc := closed_clauses hb hn
    refine transition ht hc hn hw fun c hm => ?_
    exact hi c hm (hnb c hm) (hw.clause hc hn (List.mem_map_of_mem (f := fun c => (c.1, c.2.2)) hm))

end Block

-- Whether a subgraph stands in a graph that ends at `finish`, and control leaves it for `x`, from
-- where it does not come back.
structure Placed (g : Graph) (finish : String) (f : Subgraph) (x : String) : Prop
    extends Wired g f x where
  onwards : Way g.successors (g.ids.filter (· ∉ f.ids)) x finish

namespace Placed

variable {g : Graph} {finish x y id : String} {f f' : Subgraph}

theorem next_mem (h : Placed g finish f x) : x ∈ g.ids ∧ x ∉ f.ids := by
  simpa using h.onwards.source_mem

theorem finish_mem (h : Placed g finish f x) : finish ∈ g.ids ∧ finish ∉ f.ids := by
  simpa using h.onwards.target_mem

theorem part (h : Placed g finish f x) (hn : f'.nodes ⊆ f.nodes) (hf : Wired g f' y)
    (hw : Way g.successors (g.ids.filter (· ∉ f'.ids)) y x) : Placed g finish f' y where
  toWired := hf
  onwards := by
    refine hw.trans (h.onwards.mono fun id hi => ?_)
    rw [List.mem_filter, decide_eq_true_eq] at hi ⊢
    exact ⟨hi.1, fun hm => hi.2 (List.map_subset _ hn hm)⟩

theorem here_next (h : Placed g finish f x) (hs : f'.ids ⊆ f.ids) :
    Way g.successors (g.ids.filter (· ∉ f'.ids)) x x := by
  refine .here ?_
  rw [List.mem_filter, decide_eq_true_eq]
  exact ⟨h.next_mem.1, fun hm => h.next_mem.2 (hs hm)⟩

section FollowedBy

variable {f₁ f₂ : Subgraph} (h : Placed g finish (f₁.followedBy f₂) x) (h₁ : f₁.Tidy) (h₂ : f₂.Tidy)
  (hn : (f₁.ids ++ f₂.ids).Nodup)

include h h₁ hn in
theorem right : Placed g finish f₂ x := by
  have hs : f₂.nodes ⊆ (f₁.followedBy f₂).nodes := List.subset_append_right _ _
  exact h.part hs (h.toWired.right hn h₁.toClosed) (h.here_next (List.map_subset _ hs))

include h h₁ h₂ hn in
theorem left : Placed g finish f₁ f₂.entry := by
  have hs : f₁.nodes ⊆ (f₁.followedBy f₂).nodes := List.subset_append_left _ _
  refine h.part hs (h.toWired.left hn h₂.toClosed) ?_
  have hr := h.right h₁ hn
  refine (hr.way_next h₂ h₂.entry).mono (List.cons_subset.mpr ⟨?_, fun id hi => ?_⟩)
  · exact (h.here_next (List.map_subset _ hs)).source_mem
  · rw [List.mem_filter, decide_eq_true_eq]
    exact ⟨hr.ids hi, fun hm => (List.nodup_append.mp hn).2.2 id hm id hi rfl⟩

end FollowedBy

section Split

variable {fork join : Node} {fs : List Subgraph} (h : Placed g finish (sideBySide fork join fs) x)
  (hf : ∀ f ∈ fs, f.Closed) (hn : (sideBySide fork join fs).ids.Nodup)

include h hf hn in
theorem branch (hm : f ∈ fs) : Placed g finish f join.id := by
  refine h.part (nodes_subset_sideBySide hm) (h.toWired.branch hf hn hm) ?_
  have hj : join.id ∈ g.ids.filter (· ∉ f.ids) := by
    rw [List.mem_filter, decide_eq_true_eq]
    exact ⟨h.ids (by simp), ((nodup_sideBySide hn).2.2 f hm).2⟩
  refine .step hj ?_ (h.here_next (List.map_subset _ (nodes_subset_sideBySide hm)))
  rw [successors, h.outgoing_join hf hn]
  exact List.mem_singleton_self x

end Split

section Select

variable {n : Node} {cs : List (Option String × Subgraph)} {c : Option String × Subgraph}
  (h : Placed g finish (select n cs) x) (hf : ∀ c ∈ cs, c.2.Closed) (hn : (select n cs).ids.Nodup)

include h hf hn in
theorem clause (hc : c ∈ cs) : Placed g finish c.2 x :=
  h.part (nodes_subset_select hc) (h.toWired.clause hf hn hc)
    (h.here_next (List.map_subset _ (nodes_subset_select hc)))

end Select

end Placed

end TaskFlow
