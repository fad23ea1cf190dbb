import TaskFlow.Proofs.Graph.Search
import TaskFlow.Proofs.Layout.Blocks

namespace TaskFlow

def after (ls : List Link) (id : String) : List String :=
  (ls.filter (·.source == id)).map (·.target)

theorem mem_after {ls : List Link} {x y : String} :
    y ∈ after ls x ↔ ∃ l ∈ ls, l.source = x ∧ l.target = y := by
  simp [after, and_assoc]

theorem eq_of_mem_of_nodup {α β : Type} {f : α → List β} {xs : List α} {x y : α} {z : β}
    (hn : (xs.flatMap f).Nodup) (hx : x ∈ xs) (hy : y ∈ xs) (hz : z ∈ f x) (hz' : z ∈ f y) :
    x = y := by
  have ⟨pre, post, he⟩ := List.append_of_mem hx
  subst he
  rw [List.flatMap_append, List.flatMap_cons, List.nodup_append, List.nodup_append] at hn
  obtain ⟨_, ⟨_, _, hpost⟩, hpre⟩ := hn
  rw [List.mem_append, List.mem_cons] at hy
  obtain hy | rfl | hy := hy
  case inl =>
    exact absurd rfl (hpre z (List.mem_flatMap.mpr ⟨y, hy, hz'⟩) z (List.mem_append_left _ hz))
  case inr.inl => rfl
  case inr.inr => exact absurd rfl (hpost z hz z (List.mem_flatMap.mpr ⟨y, hy, hz'⟩))

namespace Subgraph

variable {f g h : Subgraph} {fs : List Subgraph} {n fork join : Node} {x y : String}
  {cs : List (Option String × Subgraph)}

def Inside (f : Subgraph) : String → String → Prop :=
  Way (after f.links) f.ids

-- Whether the entry, the exits and the ends of the links of a subgraph are its own nodes.
structure Closed (f : Subgraph) : Prop where
  entry : f.entry ∈ f.ids
  exits : ∀ e ∈ f.exits, e ∈ f.ids
  ends : ∀ l ∈ f.links, l.source ∈ f.ids ∧ l.target ∈ f.ids

-- Whether control that enters a subgraph at its entry can come to each of its nodes, and from there
-- to an exit, behind which no link of the subgraph leads on.
structure Tidy (f : Subgraph) : Prop extends Closed f where
  nodup : f.ids.Nodup
  exits_nodup : f.exits.Nodup
  leave : ∀ l ∈ f.links, l.source ∉ f.exits
  reached : ∀ id ∈ f.ids, f.Inside f.entry id
  leads : ∀ id ∈ f.ids, ∃ e ∈ f.exits, f.Inside id e

theorem Inside.widen (hw : f.Inside x y) (hl : f.links ⊆ g.links) (hi : f.ids ⊆ g.ids) :
    g.Inside x y := by
  refine (Way.mono hw hi).mono_next fun x _ y hy => ?_
  have ⟨l, hm, hl'⟩ := mem_after.mp hy
  exact mem_after.mpr ⟨l, hl hm, hl'⟩

theorem Inside.link {l : Link} (hl : l ∈ g.links) (hs : l.source ∈ g.ids) (ht : l.target ∈ g.ids) :
    g.Inside l.source l.target :=
  .step hs (mem_after.mpr ⟨l, hl, rfl, rfl⟩) (.here ht)

theorem Inside.trans {z : String} (h : f.Inside x y) (h' : f.Inside y z) : f.Inside x z :=
  Way.trans h h'

section Parts

@[simp]
theorem ids_ofNode : (ofNode n).ids = [n.id] :=
  rfl

@[simp]
theorem ids_followedBy : (f.followedBy g).ids = f.ids ++ g.ids := by
  simp [ids, followedBy]

@[simp]
theorem ids_sideBySide :
    (sideBySide fork join fs).ids = fork.id :: fs.flatMap ids ++ [join.id] := by
  rw [ids, sideBySide, List.map_append, List.map_cons, List.map_flatMap]
  rfl

@[simp]
theorem ids_select : (select n cs).ids = n.id :: cs.flatMap (·.2.ids) := by
  rw [ids, select, List.map_cons, List.map_flatMap]
  rfl

theorem mem_exitsTo {l : Link} {target : String} :
    l ∈ f.exitsTo target ↔ ∃ e ∈ f.exits, { source := e, target } = l := by
  simp [exitsTo]

end Parts

section Closed

theorem closed_ofNode : (ofNode n).Closed where
  entry := List.mem_singleton_self _
  exits _ he := he
  ends := List.forall_mem_nil _

theorem Closed.followedBy (hf : f.Closed) (hg : g.Closed) : (f.followedBy g).Closed := by
  have hfi : f.ids ⊆ (f.followedBy g).ids := ids_followedBy ▸ List.subset_append_left _ _
  have hgi : g.ids ⊆ (f.followedBy g).ids := ids_followedBy ▸ List.subset_append_right _ _
  refine ⟨hfi hf.entry, fun e he => hgi (hg.exits e he), ?_⟩
  refine List.forall_mem_append.mpr ⟨List.forall_mem_append.mpr ⟨?_, ?_⟩, ?_⟩
  · exact fun l hl => ⟨hfi (hf.ends l hl).1, hfi (hf.ends l hl).2⟩
  · exact fun l hl => ⟨hgi (hg.ends l hl).1, hgi (hg.ends l hl).2⟩
  · exact List.forall_mem_map.mpr fun e he => ⟨hfi (hf.exits e he), hgi hg.entry⟩

theorem ids_subset_sideBySide (hf : f ∈ fs) : f.ids ⊆ (sideBySide fork join fs).ids := by
  intro id hid
  simp only [ids_sideBySide, List.cons_append, List.mem_cons, List.mem_append, List.mem_flatMap]
  exact .inr (.inl ⟨f, hf, hid⟩)

theorem closed_sideBySide (h : ∀ f ∈ fs, f.Closed) : (sideBySide fork join fs).Closed := by
  have hfork : fork.id ∈ (sideBySide fork join fs).ids := by simp
  have hjoin : join.id ∈ (sideBySide fork join fs).ids := by simp
  have hi {f} (hf : f ∈ fs) {id} (hid : id ∈ f.ids) : id ∈ (sideBySide fork join fs).ids :=
    ids_subset_sideBySide hf hid
  refine ⟨hfork, List.forall_mem_singleton.mpr hjoin, ?_⟩
  refine List.forall_mem_append.mpr ⟨List.forall_mem_flatMap.mpr fun f hf l hm => ?_,
    List.forall_mem_flatMap.mpr fun f hf => List.forall_mem_cons.mpr ⟨?_, ?_⟩⟩
  · exact ⟨hi hf ((h f hf).ends l hm).1, hi hf ((h f hf).ends l hm).2⟩
  · exact ⟨hfork, hi hf (h f hf).entry⟩
  · exact List.forall_mem_map.mpr fun e he => ⟨hi hf ((h f hf).exits e he), hjoin⟩

theorem ids_subset_select {c : Option String × Subgraph} (hc : c ∈ cs) :
    c.2.ids ⊆ (select n cs).ids := by
  intro id hid
  rw [ids_select, List.mem_cons, List.mem_flatMap]
  exact .inr ⟨c, hc, hid⟩

theorem closed_select (h : ∀ c ∈ cs, c.2.Closed) : (select n cs).Closed := by
  have hnode : n.id ∈ (select n cs).ids := by simp
  have hi {c} (hc : c ∈ cs) {id} (hid : id ∈ c.2.ids) : id ∈ (select n cs).ids :=
    ids_subset_select hc hid
  refine ⟨hnode, List.forall_mem_flatMap.mpr fun c hc e he => hi hc ((h c hc).exits e he), ?_⟩
  refine List.forall_mem_flatMap.mpr fun c hc => List.forall_mem_append.mpr ⟨fun l hm => ?_, ?_⟩
  · exact ⟨hi hc ((h c hc).ends l hm).1, hi hc ((h c hc).ends l hm).2⟩
  · exact List.forall_mem_singleton.mpr ⟨hnode, hi hc (h c hc).entry⟩

end Closed

-- What holds of each step, and of two stretches if it holds of both, holds of a whole sequence.
theorem chained_induct {P : List Definition → Subgraph → Prop}
    (hp : ∀ {ds es f g}, (f.ids ++ g.ids).Nodup → P ds f → P es g → P (ds ++ es) (f.followedBy g))
    {bs : List (Definition × Subgraph)} (hne : bs ≠ []) (hn : (bs.flatMap (·.2.ids)).Nodup)
    (h : ∀ b ∈ bs, P [b.1] b.2) : P (bs.map (·.1)) (chained (bs.map (·.2))) := by
  have foldl {ds : List Definition} {f : Subgraph} {bs : List (Definition × Subgraph)}
      (hn : (f.ids ++ bs.flatMap (·.2.ids)).Nodup) (hd : P ds f) (h : ∀ b ∈ bs, P [b.1] b.2) :
      P (ds ++ bs.map (·.1)) ((bs.map (·.2)).foldl Subgraph.followedBy f) := by
    induction bs generalizing ds f
    case nil => simpa using hd
    case cons b bs hi =>
      rw [List.forall_mem_cons] at h
      rw [List.flatMap_cons, ← List.append_assoc] at hn
      have hb := (List.nodup_append.mp hn).1
      have := hi (by rwa [ids_followedBy]) (hp hb hd h.1) h.2
      rwa [List.append_assoc] at this
  cases bs
  case nil => contradiction
  case cons b bs =>
    rw [List.forall_mem_cons] at h
    exact foldl hn h.1 h.2

section Tidy

theorem tidy_ofNode : (ofNode n).Tidy where
  toClosed := closed_ofNode
  nodup := List.nodup_singleton _
  exits_nodup := List.nodup_singleton _
  leave := List.forall_mem_nil _
  reached := List.forall_mem_singleton.mpr (.here (List.mem_singleton_self _))
  leads := List.forall_mem_singleton.mpr
    ⟨n.id, List.mem_singleton_self _, .here (List.mem_singleton_self _)⟩

theorem Tidy.followedBy (hf : f.Tidy) (hg : g.Tidy) (hn : (f.ids ++ g.ids).Nodup) :
    (f.followedBy g).Tidy := by
  have ⟨_, _, hd⟩ := List.nodup_append.mp hn
  have hfi : f.ids ⊆ (f.followedBy g).ids := ids_followedBy ▸ List.subset_append_left _ _
  have hgi : g.ids ⊆ (f.followedBy g).ids := ids_followedBy ▸ List.subset_append_right _ _
  have hfl : f.links ⊆ (f.followedBy g).links := fun l hl =>
    List.mem_append_left _ (List.mem_append_left _ hl)
  have hgl : g.links ⊆ (f.followedBy g).links := fun l hl =>
    List.mem_append_left _ (List.mem_append_right _ hl)
  -- The two subgraphs are tied together by the links from the exits of the first one.
  have hlink {e : String} (he : e ∈ f.exits) : (f.followedBy g).Inside e g.entry :=
    .link (l := { source := e, target := g.entry })
      (List.mem_append_right _ (mem_exitsTo.mpr ⟨e, he, rfl⟩)) (hfi (hf.exits e he)) (hgi hg.entry)
  refine ⟨hf.toClosed.followedBy hg.toClosed, ids_followedBy ▸ hn, hg.exits_nodup,
    ?leave, ?reached, ?leads⟩
  case leave =>
    refine List.forall_mem_append.mpr ⟨List.forall_mem_append.mpr ⟨?_, hg.leave⟩, ?_⟩
    · exact fun l hl he => hd _ (hf.ends l hl).1 _ (hg.exits _ he) rfl
    · exact List.forall_mem_map.mpr fun e he he' => hd _ (hf.exits e he) _ (hg.exits e he') rfl
  case reached =>
    rw [ids_followedBy, List.forall_mem_append]
    refine ⟨fun id hi => (hf.reached id hi).widen hfl hfi, fun id hi => ?_⟩
    have ⟨e, he, hw⟩ := hf.leads f.entry hf.entry
    exact (hw.widen hfl hfi).trans ((hlink he).trans ((hg.reached id hi).widen hgl hgi))
  case leads =>
    rw [ids_followedBy, List.forall_mem_append]
    constructor
    · intro id hi
      have ⟨e, he, hw⟩ := hf.leads id hi
      have ⟨e', he', hw'⟩ := hg.leads g.entry hg.entry
      exact ⟨e', he', (hw.widen hfl hfi).trans ((hlink he).trans (hw'.widen hgl hgi))⟩
    · intro id hi
      have ⟨e, he, hw⟩ := hg.leads id hi
      exact ⟨e, he, hw.widen hgl hgi⟩

-- All ways into the branches begin at the fork, and all ways out of them lead to the join.
theorem tidy_sideBySide (hne : fs ≠ []) (h : ∀ f ∈ fs, f.Tidy)
    (hn : (sideBySide fork join fs).ids.Nodup) : (sideBySide fork join fs).Tidy := by
  have hl f (hf : f ∈ fs) : f.links ⊆ (sideBySide fork join fs).links := fun l hl =>
    List.mem_append_left _ (List.mem_flatMap.mpr ⟨f, hf, hl⟩)
  have hi f (hf : f ∈ fs) : f.ids ⊆ (sideBySide fork join fs).ids := ids_subset_sideBySide hf
  have hfork : fork.id ∈ (sideBySide fork join fs).ids := by simp
  have hjoin : join.id ∈ (sideBySide fork join fs).ids := by simp
  have henter f (hf : f ∈ fs) : (sideBySide fork join fs).Inside fork.id f.entry := by
    refine .link (l := { source := fork.id, target := f.entry }) ?_ hfork (hi f hf (h f hf).entry)
    exact List.mem_append_right _ (List.mem_flatMap.mpr ⟨f, hf, List.mem_cons_self⟩)
  have hleave f (hf : f ∈ fs) e (he : e ∈ f.exits) : (sideBySide fork join fs).Inside e join.id := by
    refine .link (l := { source := e, target := join.id }) ?_ (hi f hf ((h f hf).exits e he)) hjoin
    exact List.mem_append_right _ (List.mem_flatMap.mpr
      ⟨f, hf, List.mem_cons_of_mem _ (mem_exitsTo.mpr ⟨e, he, rfl⟩)⟩)
  have hj : join.id ≠ fork.id ∧ ∀ f ∈ fs, join.id ∉ f.ids := by
    rw [ids_sideBySide, List.nodup_append] at hn
    refine ⟨fun he => hn.2.2 _ List.mem_cons_self _ List.mem_cons_self he.symm, fun f hf hm => ?_⟩
    refine hn.2.2 _ (List.mem_cons_of_mem _ (List.mem_flatMap.mpr ⟨f, hf, hm⟩)) _ ?_ rfl
    exact List.mem_cons_self
  have hthrough f (hf : f ∈ fs) id (hid : id ∈ f.ids) :
      (sideBySide fork join fs).Inside id join.id := by
    have ⟨e, he, hw⟩ := (h f hf).leads id hid
    exact (hw.widen (hl f hf) (hi f hf)).trans (hleave f hf e he)
  have ⟨f₀, hf₀⟩ := List.exists_mem_of_ne_nil fs hne
  have hacross : (sideBySide fork join fs).Inside fork.id join.id :=
    (henter f₀ hf₀).trans (hthrough f₀ hf₀ _ (h f₀ hf₀).entry)
  refine ⟨closed_sideBySide fun f hf => (h f hf).toClosed, hn, List.nodup_singleton _,
    ?leave, ?reached, ?leads⟩
  case leave =>
    refine List.forall_mem_append.mpr ⟨List.forall_mem_flatMap.mpr fun f hf l hm he => ?_,
      List.forall_mem_flatMap.mpr fun f hf => List.forall_mem_cons.mpr ⟨?_, ?_⟩⟩
    · exact hj.2 f hf (List.mem_singleton.mp he ▸ ((h f hf).ends l hm).1)
    · exact fun he => hj.1 (List.mem_singleton.mp he).symm
    · refine List.forall_mem_map.mpr fun e he he' => hj.2 f hf ?_
      exact List.mem_singleton.mp he' ▸ (h f hf).exits e he
  case reached =>
    rw [ids_sideBySide, List.forall_mem_append, List.forall_mem_cons, List.forall_mem_flatMap]
    refine ⟨⟨.here hfork, fun f hf id hid => ?_⟩, List.forall_mem_singleton.mpr hacross⟩
    exact (henter f hf).trans (((h f hf).reached id hid).widen (hl f hf) (hi f hf))
  case leads =>
    have hx {id} (hw : (sideBySide fork join fs).Inside id join.id) :
        ∃ e ∈ [join.id], (sideBySide fork join fs).Inside id e := ⟨_, List.mem_singleton_self _, hw⟩
    rw [ids_sideBySide, List.forall_mem_append, List.forall_mem_cons, List.forall_mem_flatMap]
    exact ⟨⟨hx hacross, fun f hf id hid => hx (hthrough f hf id hid)⟩,
      List.forall_mem_singleton.mpr (hx (.here hjoin))⟩

theorem tidy_select (hne : cs ≠ []) (h : ∀ c ∈ cs, c.2.Tidy) (hn : (select n cs).ids.Nodup) :
    (select n cs).Tidy := by
  have hi c (hc : c ∈ cs) : c.2.ids ⊆ (select n cs).ids := ids_subset_select hc
  have hl c (hc : c ∈ cs) : c.2.links ⊆ (select n cs).links := fun l hl =>
    List.mem_flatMap.mpr ⟨c, hc, List.mem_append_left _ hl⟩
  have hnode : n.id ∈ (select n cs).ids := by simp
  have henter c (hc : c ∈ cs) : (select n cs).Inside n.id c.2.entry := by
    refine .link (l := { source := n.id, target := c.2.entry, condition := c.1 }) ?_ hnode
      (hi c hc (h c hc).entry)
    exact List.mem_flatMap.mpr ⟨c, hc, List.mem_append_right _ (List.mem_singleton_self _)⟩
  have hthrough c (hc : c ∈ cs) id (hid : id ∈ c.2.ids) :
      ∃ e ∈ (select n cs).exits, (select n cs).Inside id e := by
    have ⟨e, he, hw⟩ := (h c hc).leads id hid
    exact ⟨e, List.mem_flatMap.mpr ⟨c, hc, he⟩, hw.widen (hl c hc) (hi c hc)⟩
  refine ⟨closed_select fun c hc => (h c hc).toClosed, hn, ?exits_nodup, ?leave, ?reached, ?leads⟩
  all_goals rw [ids_select, List.nodup_cons, List.nodup_flatMap] at hn
  case exits_nodup =>
    refine List.nodup_flatMap.mpr ⟨fun c hc => (h c hc).exits_nodup, ?_⟩
    refine hn.2.2.imp_of_mem fun hc hc' hd => ?_
    exact fun e he he' => hd ((h _ hc).exits e he) ((h _ hc').exits e he')
  case leave =>
    -- No two clauses share a node, so a link of one of them does not begin at an exit of another.
    have hu {c c'} (hc : c ∈ cs) (hc' : c' ∈ cs) {id} (hid : id ∈ c.2.ids) (hid' : id ∈ c'.2.ids) :
        c = c' := by
      exact eq_of_mem_of_nodup (List.nodup_flatMap.mpr hn.2) hc hc' hid hid'
    refine List.forall_mem_flatMap.mpr fun c hc => List.forall_mem_append.mpr ⟨fun l hm he => ?_, ?_⟩
    · have ⟨c', hc', he⟩ := List.mem_flatMap.mp he
      cases hu hc hc' ((h c hc).ends l hm).1 ((h c' hc').exits _ he)
      exact (h c hc).leave l hm he
    · refine List.forall_mem_singleton.mpr fun he => hn.1 ?_
      have ⟨c', hc', he⟩ := List.mem_flatMap.mp he
      exact List.mem_flatMap.mpr ⟨c', hc', (h c' hc').exits _ he⟩
  case reached =>
    rw [ids_select, List.forall_mem_cons, List.forall_mem_flatMap]
    refine ⟨.here hnode, fun c hc id hid => ?_⟩
    exact (henter c hc).trans (((h c hc).reached id hid).widen (hl c hc) (hi c hc))
  case leads =>
    rw [ids_select, List.forall_mem_cons, List.forall_mem_flatMap]
    have ⟨c₀, hc₀⟩ := List.exists_mem_of_ne_nil cs hne
    have ⟨e, he, hw⟩ := hthrough c₀ hc₀ _ (h c₀ hc₀).entry
    exact ⟨⟨e, he, (henter c₀ hc₀).trans hw⟩, hthrough⟩

end Tidy

end Subgraph

open Subgraph

namespace Block

variable {d : Definition} {f fork join : Subgraph}

section Ids

variable {bs : List (Definition × Subgraph)} {cs : List (Option String × Definition × Subgraph)}
  {n fork join : Node}

-- The parts of a subgraph have ids of their own.
theorem nodup_chained (hn : (chained (bs.map (·.2))).ids.Nodup) : (bs.flatMap (·.2.ids)).Nodup := by
  rw [Subgraph.ids, nodes_chained, List.map_flatMap, List.flatMap_map] at hn
  exact hn

theorem nodup_branches (hn : (sideBySide fork join (bs.map (·.2))).ids.Nodup) :
    (bs.flatMap (·.2.ids)).Nodup := by
  rw [ids_sideBySide, List.cons_append, List.nodup_cons, List.nodup_append, List.flatMap_map] at hn
  exact hn.2.1

theorem nodup_clauses (hn : (select n (cs.map fun c => (c.1, c.2.2))).ids.Nodup) :
    (cs.flatMap (·.2.2.ids)).Nodup := by
  rw [ids_select, List.nodup_cons, List.flatMap_map] at hn
  exact hn.2

end Ids

theorem closed (h : Block d f) (hn : f.ids.Nodup) : f.Closed := by
  induction h
  case task => exact closed_ofNode
  case sequence hne _ hi =>
    have hn := nodup_chained hn
    refine chained_induct (P := fun _ f => f.Closed) (fun _ hf hg => hf.followedBy hg) hne hn ?_
    exact fun b hb => hi b hb ((List.nodup_flatMap.mp hn).1 b hb)
  case split hi =>
    have hn := (List.nodup_flatMap.mp (nodup_branches hn)).1
    exact closed_sideBySide (List.forall_mem_map.mpr fun b hb => hi b hb (hn b hb))
  case transition hi =>
    have hn := (List.nodup_flatMap.mp (nodup_clauses hn)).1
    exact closed_select (List.forall_mem_map.mpr fun c hc => hi c hc (hn c hc))

theorem tidy (h : Block d f) (hd : d.Normal) (hn : f.ids.Nodup) : f.Tidy := by
  induction h
  case task => exact tidy_ofNode
  case sequence hne _ hi =>
    have hn := nodup_chained hn
    have ⟨_, _, hd⟩ := Definition.normal_sequence.mp hd
    refine chained_induct (P := fun _ f => f.Tidy) (fun hn hf hg => hf.followedBy hg hn) hne hn ?_
    exact fun b hb => hi b hb (hd _ (List.mem_map_of_mem hb)) ((List.nodup_flatMap.mp hn).1 b hb)
  case split hi =>
    have ⟨hne, hd⟩ := Definition.normal_split.mp hd
    have hb := (List.nodup_flatMap.mp (nodup_branches hn)).1
    refine tidy_sideBySide (by simpa using hne) (List.forall_mem_map.mpr fun b hm => ?_) hn
    exact hi b hm (hd _ (List.mem_map_of_mem hm)) (hb b hm)
  case transition cs _ _ hi =>
    have ⟨hne, _, hd⟩ := Definition.normal_transition.mp hd
    have hb := (List.nodup_flatMap.mp (nodup_clauses hn)).1
    refine tidy_select (by simpa using hne) (List.forall_mem_map.mpr fun c hc => ?_) hn
    exact hi c hc (List.forall_mem_map.mp hd c hc) (hb c hc)

section Parts

variable {bs : List (Definition × Subgraph)} {cs : List (Option String × Definition × Subgraph)}
  {n fork join : Node}

theorem closed_branches (h : ∀ b ∈ bs, Block b.1 b.2)
    (hn : (sideBySide fork join (bs.map (·.2))).ids.Nodup) : ∀ f ∈ bs.map (·.2), f.Closed := by
  have hnb := (List.nodup_flatMap.mp (nodup_branches hn)).1
  exact List.forall_mem_map.mpr fun b hm => (h b hm).closed (hnb b hm)

theorem closed_clauses (h : ∀ c ∈ cs, Block c.2.1 c.2.2)
    (hn : (select n (cs.map fun c => (c.1, c.2.2))).ids.Nodup) :
    ∀ c ∈ cs.map (fun c => (c.1, c.2.2)), c.2.Closed := by
  have hnb := (List.nodup_flatMap.mp (nodup_clauses hn)).1
  exact List.forall_mem_map.mpr fun c hm => (h c hm).closed (hnb c hm)

theorem tidy_branches (h : ∀ b ∈ bs, Block b.1 b.2) (hd : ∀ b ∈ bs, b.1.Normal)
    (hn : (sideBySide fork join (bs.map (·.2))).ids.Nodup) : ∀ f ∈ bs.map (·.2), f.Tidy := by
  have hnb := (List.nodup_flatMap.mp (nodup_branches hn)).1
  exact List.forall_mem_map.mpr fun b hm => (h b hm).tidy (hd b hm) (hnb b hm)

theorem tidy_clauses (h : ∀ c ∈ cs, Block c.2.1 c.2.2) (hd : ∀ c ∈ cs, c.2.1.Normal)
    (hn : (select n (cs.map fun c => (c.1, c.2.2))).ids.Nodup) :
    ∀ c ∈ cs.map (fun c => (c.1, c.2.2)), c.2.Tidy := by
  have hnb := (List.nodup_flatMap.mp (nodup_clauses hn)).1
  exact List.forall_mem_map.mpr fun c hm => (h c hm).tidy (hd c hm) (hnb c hm)

end Parts

end Block

end TaskFlow
