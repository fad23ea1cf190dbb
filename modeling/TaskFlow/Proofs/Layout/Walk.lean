import TaskFlow.Proofs.Definition.Canonical
import TaskFlow.Proofs.Layout.Spine

namespace TaskFlow

open TaskFlow.Graph Subgraph Definition

variable {g : Graph} {finish x y : String} {limit : Int} {d : Definition} {ds es : List Definition}
  {f f' : Subgraph} {p : Position} {left : List Node} {n fork join : Node} {r : Region}
  {fans : List FanOut} {res : Definition × List Node}

namespace Graph.Region

def addAll (r : Region) (ds : List Definition) : Region :=
  ds.foldl add r

@[simp]
theorem addAll_nil : r.addAll [] = r :=
  rfl

@[simp]
theorem addAll_cons : r.addAll (d :: ds) = (r.add d).addAll ds :=
  rfl

theorem addAll_append : r.addAll (ds ++ es) = (r.addAll ds).addAll es :=
  List.foldl_append

@[simp]
theorem stop_addAll : (r.addAll ds).stop = r.stop := by
  induction ds generalizing r
  case nil => rfl
  case cons hi => exact hi

theorem leads_addAll (h : ds ≠ []) : (r.addAll ds).leads = [] := by
  induction ds generalizing r
  case nil => contradiction
  case cons d ds hi =>
    cases ds
    case nil => rfl
    case cons => exact hi (List.cons_ne_nil _ _)

-- Where no lead waits, the parts are added as they are.
theorem addAll_of_leads (h : r.leads = []) :
    r.addAll ds = { stop := r.stop, parts := ds.reverse ++ r.parts } := by
  induction ds generalizing r
  case nil =>
    obtain ⟨stop, parts, leads⟩ := r
    cases h
    rfl
  case cons d ds hi =>
    rw [addAll_cons, hi rfl]
    simp [add, h]

theorem arrive_of_task (h : n.type = .task) : r.arrive n = r.add (.task n.task) := by
  rw [arrive, if_pos h]

theorem arrive_of_ne (h : n.type ≠ .task) : r.arrive n = r := by
  rw [arrive, if_neg h]

end Graph.Region

section Walks

-- Whether the walk is to go through a subgraph: it is at the entry, and the nodes are left.
structure Ready (g : Graph) (limit : Int) (f : Subgraph) (p : Position) (left : List Node) : Prop where
  here : p.here = f.entry
  known : left ⊆ g.nodes
  nodes : f.nodes ⊆ left
  stop : p.region.stop ∉ f.ids
  fans : (p.fans.length : Int) ≤ 2 * limit

def Graph.Position.behind (p : Position) (d : Definition) (x : String) : Position :=
  ⟨p.fans, p.region.addAll d.parts, x⟩

-- Whether the walk goes through a subgraph, if it stays within the limit, and finds the parts of a
-- definition.
def Walks (g : Graph) (finish : String) (limit : Int) (d : Definition) (f : Subgraph) (x : String) :
    Prop :=
  ∀ ⦃p left res⦄, Ready g limit f p left →
    (walk (g.terrain finish limit) p left = .ok res ↔
      Walkable limit p.fans.length p.region.leads.length d ∧
        walk (g.terrain finish limit) (p.behind d x) (left.diff f.nodes) = .ok res)

theorem Ready.walk_eq (h : Ready g limit f p left) (hg : g.ids.Nodup) (hn : n ∈ f.nodes)
    (he : n.id = f.entry) (ht : n.type ≠ .finish) :
    walk (g.terrain finish limit) p left = visit (g.terrain finish limit) p n >>= fun p' =>
      walk (g.terrain finish limit) p' (left.erase n) := by
  have hh : p.here = n.id := h.here.trans he.symm
  refine walk_of_visit (fun hs => h.stop ?_) (hh ▸ find?_of_nodup hg h.known (h.nodes hn)) ht
  exact hs ▸ hh ▸ List.mem_map_of_mem hn

theorem mem_diff_of_nodup {fs fs' : List Node} (hn : ((fs ++ fs').map (·.id)).Nodup)
    (hl : fs' ⊆ left) : fs' ⊆ left.diff fs := fun m hm => by
  rw [List.map_append] at hn
  refine List.mem_diff_of_mem (hl hm) fun hm' => ?_
  exact (List.nodup_append.mp hn).2.2 _ (List.mem_map_of_mem hm') _ (List.mem_map_of_mem hm) rfl

-- What is left when the first node of a subgraph was visited.
theorem Ready.rest {fs : List Node} (h : Ready g limit f p left) (hn : f.ids.Nodup)
    (hf : f.nodes = n :: fs) : fs ⊆ left.erase n ∧ left.erase n ⊆ g.nodes := by
  rw [Subgraph.ids, hf] at hn
  have hl := h.nodes
  rw [hf] at hl
  have : fs ⊆ left.diff [n] := mem_diff_of_nodup hn (List.cons_subset.mp hl).2
  exact ⟨by simpa using this, fun m hm => h.known (List.mem_of_mem_erase hm)⟩

theorem walks_ofNode {t : TaskMention} (hg : g.ids.Nodup) (ht : n.type = .task)
    (hx : n.task = t.bare) (hp : Placed g finish (ofNode n) x) :
    Walks g finish limit (.task t) (ofNode n) x := by
  intro p left res h
  rw [h.walk_eq hg List.mem_cons_self rfl (by simp [ht]),
    visit_of_pass hp.outgoing_node rfl (by simp [ht]), walkable_task, and_iff_right h.fans,
    Region.arrive_of_task ht, hx, Position.behind, parts_task]
  simp [bind, Except.bind, ofNode]

section Sequence

theorem walks_single (h : Walks g finish limit d f x) : Walks g finish limit (.sequence [d]) f x := by
  intro p left res hr
  rw [h hr, walkable_singleton]
  simp [Position.behind]

theorem Walks.followedBy (hn : (f.ids ++ f'.ids).Nodup) (hds : ds ≠ []) (hes : es ≠ [])
    (hpt : (Definition.sequence ds).parts ≠ []) (h : Walks g finish limit (.sequence ds) f f'.entry)
    (h' : Walks g finish limit (.sequence es) f' x) :
    Walks g finish limit (.sequence (ds ++ es)) (f.followedBy f') x := by
  intro p left res hr
  have ⟨hnf, hnf'⟩ := List.append_subset.mp hr.nodes
  have hn' : ((f.nodes ++ f'.nodes).map (·.id)).Nodup := by
    rw [List.map_append]
    exact hn
  have hstop := hr.stop
  rw [ids_followedBy, List.mem_append, not_or] at hstop
  have hready : Ready g limit f p left := ⟨hr.here, hr.known, hnf, hstop.1, hr.fans⟩
  -- Behind the first subgraph the nodes of the second one are left, and no task waits any more.
  have hready' : Ready g limit f' (p.behind (.sequence ds) f'.entry) (left.diff f.nodes) := by
    refine ⟨rfl, fun m hm => hr.known (List.diff_subset _ _ hm), mem_diff_of_nodup hn' hnf', ?_, hr.fans⟩
    exact (Region.stop_addAll ..).symm ▸ hstop.2
  have hleads : (p.behind (.sequence ds) f'.entry).region.leads = [] := Region.leads_addAll hpt
  have hpos : (p.behind (.sequence ds) f'.entry).behind (.sequence es) x
      = p.behind (.sequence (ds ++ es)) x := by
    simp [Position.behind, Region.addAll_append]
  rw [h hready, h' hready', walkable_append hds hes, hpos, hleads, and_assoc]
  simp only [Subgraph.followedBy, List.diff_append]
  rfl

end Sequence

section Branches

variable {fan : FanOut} {bs : List (Option String × Definition × Subgraph)}

-- What the walk relies on in a branch that ends at a node.
structure Branch (g : Graph) (finish : String) (limit : Int) (y : String) (d : Definition)
    (f : Subgraph) : Prop where
  walks : Walks g finish limit d f y
  entry : f.entry ∈ f.ids
  apart : y ∉ f.ids

def Graph.FanOut.finished (fan : FanOut) (cs : List Clause) : FanOut :=
  { fan with done := cs.reverse ++ fan.done, todo := [] }

theorem definition_finished_close {c : Option String} {todo : List (Option String × String)}
    {cs : List Clause} : (((fan.begin c todo).close d).finished cs).definition
      = (fan.finished ((c, d) :: cs)).definition := by
  simp [FanOut.definition, FanOut.finished, FanOut.close, FanOut.begin]

-- A branch is walked to its end, where the next one begins.
theorem Branch.walk_eq_ok (hb : Branch g finish limit y d f) (hl : left ⊆ g.nodes)
    (hs : f.nodes ⊆ left) (hf : (fans.length + 1 : Int) ≤ 2 * limit) :
    walk (g.terrain finish limit) ⟨fan :: fans, { stop := y }, f.entry⟩ left = .ok res ↔
      Walkable limit (fans.length + 1) 0 d ∧
        (next (g.terrain finish limit) (fan.close d.canonical) fans >>= fun p =>
          walk (g.terrain finish limit) p (left.diff f.nodes)) = .ok res := by
  have hr : Ready g limit f ⟨fan :: fans, { stop := y }, f.entry⟩ left :=
    ⟨rfl, hl, hs, hb.apart, by simpa using hf⟩
  have hp : (Region.addAll { stop := y } d.parts).definition = d.canonical := by
    rw [Region.addAll_of_leads rfl]
    simp [Region.definition, canonical]
  have hleads : (Region.addAll { stop := y } d.parts).leads = [] := by
    rw [Region.addAll_of_leads rfl]
  rw [hb.walks hr, Position.behind, walk_of_close (by simp) rfl hleads, hp]
  rfl

-- By induction on the branches that are still to come. Those before them are done in the fan-out.
theorem walk_branches (hd : ∀ b ∈ bs, Branch g finish limit fan.join b.2.1 b.2.2)
    (ht : fan.todo = bs.map fun b => (b.1, b.2.2.entry)) (hl : left ⊆ g.nodes)
    (hn : (bs.flatMap (·.2.2.ids)).Nodup) (hs : bs.flatMap (·.2.2.nodes) ⊆ left) :
    (next (g.terrain finish limit) fan fans >>= fun p => walk (g.terrain finish limit) p left)
        = .ok res ↔
      (∀ b ∈ bs, Walkable limit (fans.length + 1) 0 b.2.1) ∧
        walk (g.terrain finish limit)
          ⟨fans, fan.outer.add (fan.finished (bs.map fun b => (b.1, b.2.1.canonical))).definition,
            fan.join⟩
          (left.diff (bs.flatMap (·.2.2.nodes))) = .ok res := by
  induction bs generalizing fan left
  case nil =>
    rw [next, ht]
    simp [FanOut.finished, FanOut.definition, bind, Except.bind]
  case cons b bs hi =>
    obtain ⟨c, d, f⟩ := b
    rw [List.forall_mem_cons] at hd ⊢
    obtain ⟨hb, hd⟩ := hd
    rw [List.flatMap_cons] at hn hs
    obtain ⟨hsf, hsb⟩ := List.append_subset.mp hs
    have hne : f.entry ≠ fan.join := fun he => hb.apart (he ▸ hb.entry)
    rw [next, ht]
    simp only [List.map_cons, if_neg hne]
    split
    case isTrue hlim =>
      -- The walk refuses to go into a branch that is in too many others.
      have hlim : 2 * limit < (fans.length : Int) + 1 := hlim
      have : ¬ Walkable limit (fans.length + 1) 0 d := fun hw => by
        have := hw.regions
        omega
      simp [this, bind, Except.bind]
    case isFalse hlim =>
      have hf : (fans.length + 1 : Int) ≤ 2 * limit := by
        have : ¬ 2 * limit < (fans.length : Int) + 1 := hlim
        omega
      have hn' : ((f.nodes ++ bs.flatMap (·.2.2.nodes)).map (·.id)).Nodup := by
        rw [List.map_append, List.map_flatMap]
        exact hn
      have hsb := mem_diff_of_nodup hn' hsb
      have hld : left.diff f.nodes ⊆ g.nodes := fun m hm => hl (List.diff_subset _ _ hm)
      let fan' := (fan.begin c (bs.map fun b => (b.1, b.2.2.entry))).close d.canonical
      have hd : ∀ b ∈ bs, Branch g finish limit fan'.join b.2.1 b.2.2 := hd
      have hi := hi hd rfl hld (List.nodup_append.mp hn).2.1 hsb
      refine ((hb.walk_eq_ok hl hsf hf).trans (and_congr_right fun _ => hi)).trans ?_
      rw [definition_finished_close, List.flatMap_cons, List.diff_append, and_assoc]
      rfl

end Branches

section Split

variable {bs : List (Definition × Subgraph)}

-- The branches of a fork, which have no conditions.
theorem walk_fork (hout : g.outgoing fork.id = bs.map fun b => { source := fork.id, target := b.2.entry })
    (hend : (g.terrain finish limit).branchesEnd fork = y) (hfork : fork.type = .fork) (hne : bs ≠ [])
    (hb : ∀ b ∈ bs, Branch g finish limit y b.1 b.2) (hl : left ⊆ g.nodes)
    (hn : (bs.flatMap (·.2.ids)).Nodup) (hs : bs.flatMap (·.2.nodes) ⊆ left) :
    (visit (g.terrain finish limit) p fork >>= fun p => walk (g.terrain finish limit) p left)
        = .ok res ↔
      Walkable limit p.fans.length p.region.leads.length (.split (bs.map (·.1))) ∧
        walk (g.terrain finish limit) (p.behind (.split (bs.map (·.1))) y)
          (left.diff (bs.flatMap (·.2.nodes))) = .ok res := by
  have hplain : ∀ l ∈ (g.terrain finish limit).graph.outgoing fork.id, l.condition = none := by
    rw [terrain, hout]
    exact List.forall_mem_map.mpr fun _ _ => rfl
  rw [visit_of_split hplain (.inl hfork)]
  let fan := parallel (g.terrain finish limit) p fork
  let bs' : List (Option String × Definition × Subgraph) := bs.map fun b => (none, b)
  have htodo : fan.todo = bs'.map fun b => (b.1, b.2.2.entry) := by
    simp [fan, parallel, terrain, hout, bs']
  have hn : (bs'.flatMap (·.2.2.ids)).Nodup := by simpa [bs', List.flatMap_map] using hn
  have hs : bs'.flatMap (·.2.2.nodes) ⊆ left := by simpa [bs', List.flatMap_map] using hs
  have hjoin : fan.join = y := hend
  have hb : ∀ b ∈ bs', Branch g finish limit fan.join b.2.1 b.2.2 :=
    List.forall_mem_map.mpr (hjoin ▸ hb)
  refine (walk_branches hb htodo hl hn hs).trans (and_congr ?_ ?_)
  · rw [walkable_split (by simpa using hne), List.forall_mem_map, List.forall_mem_map]
  · have hadd : fan.outer.add (fan.finished (bs'.map fun b => (b.1, b.2.1.canonical))).definition
        = p.region.addAll (Definition.split (bs.map (·.1))).parts := by
      simp [fan, parallel, bs', Region.arrive_of_ne, hfork, FanOut.definition, FanOut.finished,
        Function.comp_def]
    have hflat : bs'.flatMap (·.2.2.nodes) = bs.flatMap (·.2.nodes) := by
      simp [bs', List.flatMap_map]
    rw [hadd, hflat, hjoin]
    rfl

theorem walk_join (hg : g.ids.Nodup) (hout : g.outgoing join.id = [{ source := join.id, target := x }])
    (hjoin : join.type = .join) (hh : p.here = join.id) (hs : p.region.stop ≠ join.id)
    (hl : left ⊆ g.nodes) (hm : join ∈ left) :
    walk (g.terrain finish limit) p left
      = walk (g.terrain finish limit) { p with here := x } (left.erase join) := by
  rw [walk_of_visit (hh ▸ Ne.symm hs) (hh ▸ find?_of_nodup hg hl hm) (by simp [hjoin]),
    visit_of_pass hout rfl (by simp [hjoin]), Region.arrive_of_ne (by simp [hjoin])]
  rfl

theorem walks_sideBySide (hg : g.ids.Nodup) (hfork : fork.type = .fork) (hjoin : join.type = .join)
    (hne : bs ≠ []) (ht : ∀ f ∈ bs.map (·.2), f.Tidy)
    (hn : (sideBySide fork join (bs.map (·.2))).ids.Nodup)
    (hp : Placed g finish (sideBySide fork join (bs.map (·.2))) x)
    (hs : ∀ f ∈ bs.map (·.2), ∃ ids, HasSpine g finish f join.id ids)
    (hw : ∀ b ∈ bs, Walks g finish limit b.1 b.2 join.id) :
    Walks g finish limit (.split (bs.map (·.1))) (sideBySide fork join (bs.map (·.2))) x := by
  intro p left res hr
  have hnodes : (sideBySide fork join (bs.map (·.2))).nodes
      = [fork] ++ bs.flatMap (·.2.nodes) ++ [join] := by
    simp [sideBySide, List.flatMap_map]
  have hc : ∀ f ∈ bs.map (·.2), f.Closed := fun f hf => (ht f hf).toClosed
  have hfm : fork ∈ (sideBySide fork join (bs.map (·.2))).nodes := by simp [hnodes]
  have hjm : join.id ∈ (sideBySide fork join (bs.map (·.2))).ids := by simp
  have hbranch : ∀ b ∈ bs, Branch g finish limit join.id b.1 b.2 := by
    intro b hm
    have hbm := List.mem_map_of_mem (f := (·.2)) hm
    exact ⟨hw b hm, (ht _ hbm).entry, ((nodup_sideBySide hn).2.2 _ hbm).2⟩
  -- First the fork is visited, then the branches, then the join.
  obtain ⟨hleft, hknown⟩ := hr.rest hn hnodes
  have hnd := hn
  rw [Subgraph.ids, hnodes, List.append_assoc, List.singleton_append, List.map_cons,
    List.nodup_cons] at hnd
  have hnd := hnd.2
  have hlast : join ∈ (left.erase fork).diff (bs.flatMap (·.2.nodes)) :=
    mem_diff_of_nodup hnd (List.append_subset.mp hleft).2 (List.mem_singleton_self join)
  have hout := hp.outgoing_fork hc hn
  rw [List.map_map] at hout
  rw [hr.walk_eq hg hfm rfl (by simp [hfork]), walk_fork hout
    (branchesEnd_sideBySide hg (by simpa using hne) ht hfork hjoin hn hp hs) hfork hne hbranch hknown
    (Block.nodup_branches hn) (List.append_subset.mp hleft).1]
  refine and_congr_right fun _ => ?_
  rw [walk_join hg (hp.outgoing_join hc hn) hjoin rfl
    ?stop (fun m hm => hknown (List.diff_subset _ _ hm)) hlast, hnodes]
  case stop =>
    rw [Position.behind, Region.stop_addAll]
    exact fun he => hr.stop (he ▸ hjm)
  simp [Position.behind]

end Split

section Select

variable {t : TaskMention} {c : Option String × Definition × Subgraph}
  {cs : List (Option String × Definition × Subgraph)}

-- A task with an only clause waits for the first part of what follows it.
theorem walks_select_only {pattern : String} (hc : c.1 = some pattern) (hg : g.ids.Nodup)
    (htask : n.type = .task) (hx : n.task = t.bare) (ht : c.2.2.Tidy) (hparts : c.2.1.parts ≠ [])
    (hn : (select n [(c.1, c.2.2)]).ids.Nodup) (hp : Placed g finish (select n [(c.1, c.2.2)]) x)
    (hw : Walks g finish limit c.2.1 c.2.2 x) :
    Walks g finish limit (.transition t [(c.1, c.2.1)]) (select n [(c.1, c.2.2)]) x := by
  intro p left res hr
  have hnodes : (select n [(c.1, c.2.2)]).nodes = n :: c.2.2.nodes := by simp [select]
  obtain ⟨hleft, hknown⟩ := hr.rest hn hnodes
  have hstop : p.region.stop ∉ c.2.2.ids := by
    have := hr.stop
    rw [ids_select] at this
    simpa using (List.not_mem_of_not_mem_cons this)
  have hout : (g.terrain finish limit).graph.outgoing n.id = [clauseLink n (c.1, c.2.2)] :=
    hp.outgoing_source (List.forall_mem_singleton.mpr ht.toClosed) hn
  have hready : Ready g limit c.2.2 (p.lead n pattern c.2.2.entry) (left.erase n) :=
    ⟨rfl, hknown, hleft, hstop, hr.fans⟩
  have hbehind : (p.lead n pattern c.2.2.entry).behind c.2.1 x
      = p.behind (.transition t [(c.1, c.2.1)]) x := by
    rw [Position.behind, Position.behind, parts_only_clause]
    cases hd : c.2.1.parts
    case nil => contradiction
    case cons => simp [under, Position.lead, Region.add, hx, hc]
  rw [hr.walk_eq hg (by simp [hnodes]) rfl (by simp [htask]), visit_of_lead hout hc, walkable_only_clause]
  have hlead {p'} : lead (g.terrain finish limit) p n pattern c.2.2.entry = .ok p' ↔
      (p.region.leads.length : Int) ≤ limit ∧ p' = p.lead n pattern c.2.2.entry :=
    lead_eq_ok.trans (and_iff_right fun he => hstop (he ▸ ht.entry))
  by_cases hl : (p.region.leads.length : Int) ≤ limit
  case pos =>
    rw [clauseLink, hlead.mpr ⟨hl, rfl⟩, and_iff_right hl]
    refine (hw hready).trans ?_
    rw [hbehind, hnodes, List.diff_cons]
    rfl
  case neg =>
    -- Too many tasks wait already.
    refine iff_of_false ?_ fun h => hl h.1.1
    cases he : lead (g.terrain finish limit) p n pattern (clauseLink n (c.1, c.2.2)).target
    case error => rintro ⟨⟩
    case ok => exact absurd (hlead.mp he).1 hl

-- Where the wildcard stands last, clauses are in the order of their links.
theorem orderedClauses_of_selective {ls : List Link}
    (h : some wildcard ∉ (ls.map (·.condition)).dropLast) :
    orderedClauses ls = ls.map fun l => (l.condition, l.target) := by
  obtain rfl | ⟨ls, l, rfl⟩ := List.eq_nil_or_concat ls
  case inl => rfl
  case inr =>
    rw [List.concat_eq_append, List.map_append, List.map_singleton, List.dropLast_concat] at h
    have hm : ∀ l ∈ ls, l.condition ≠ some wildcard := fun l hl he =>
      h (List.mem_map.mpr ⟨l, hl, he⟩)
    have hs : ls.filter (·.condition != some wildcard) = ls := by
      rw [List.filter_eq_self]
      simpa using hm
    have hw : ls.filter (·.condition == some wildcard) = [] := by
      rw [List.filter_eq_nil_iff]
      simpa using hm
    rw [orderedClauses, List.concat_eq_append, List.filter_append, List.filter_append, hs, hw]
    by_cases hl : l.condition = some wildcard
    all_goals simp [hl]

-- The clauses of a task become branches that end at its immediate post-dominator.
theorem walks_select (hg : g.ids.Nodup) (htask : n.type = .task) (hx : n.task = t.bare)
    (hl : 2 ≤ cs.length) (hsome : ∀ c ∈ cs, c.1.isSome) (hsel : Selective (cs.map (·.1)))
    (ht : ∀ c ∈ cs.map (fun c => (c.1, c.2.2)), c.2.Tidy)
    (hn : (select n (cs.map fun c => (c.1, c.2.2))).ids.Nodup)
    (hp : Placed g finish (select n (cs.map fun c => (c.1, c.2.2))) x)
    (hw : ∀ c ∈ cs, Walks g finish limit c.2.1 c.2.2 x) :
    Walks g finish limit (.transition t (cs.map fun c => (c.1, c.2.1)))
      (select n (cs.map fun c => (c.1, c.2.2))) x := by
  intro p left res hr
  have hnodes : (select n (cs.map fun c => (c.1, c.2.2))).nodes = n :: cs.flatMap (·.2.2.nodes) := by
    simp [select, List.flatMap_map]
  have hnm : n ∈ (select n (cs.map fun c => (c.1, c.2.2))).nodes := by simp [hnodes]
  obtain ⟨hleft, hknown⟩ := hr.rest hn hnodes
  have hlen : (cs.map fun c => (c.1, c.2.2)).length = cs.length := List.length_map ..
  have hc : ∀ c ∈ cs.map (fun c => (c.1, c.2.2)), c.2.Closed := fun c hc => (ht c hc).toClosed
  have hout : (g.terrain finish limit).graph.outgoing n.id
      = (cs.map fun c => (c.1, c.2.2)).map (clauseLink n) := hp.outgoing_source hc hn
  let fan := selection (g.terrain finish limit) p n
  have hjoin : fan.join = x := by
    obtain ⟨_, hi, hf⟩ := hp.mem_nodes hnm
    have he : fan.join = ((g.postDominators finish).lookup n.id).getD finish := rfl
    rw [he, lookup_postDominators hi hf, Option.getD_some,
      immediatePostDominator_select hg (hlen ▸ hl) ht hn hp]
  have htodo : fan.todo = cs.map fun c => (c.1, c.2.2.entry) := by
    have hc : ((g.terrain finish limit).graph.outgoing n.id).map (·.condition) = cs.map (·.1) := by
      simp [hout, clauseLink, Function.comp_def]
    have he : fan.todo = orderedClauses ((g.terrain finish limit).graph.outgoing n.id) := rfl
    rw [he, orderedClauses_of_selective (hc ▸ hsel.wildcard_last), hout]
    simp [clauseLink]
  have hbranch : ∀ c ∈ cs, Branch g finish limit fan.join c.2.1 c.2.2 := by
    intro c hm
    have hcm := List.mem_map_of_mem (f := fun c => (c.1, c.2.2)) hm
    exact hjoin ▸ ⟨hw c hm, (ht _ hcm).entry, (hp.clause hc hn hcm).next_mem.2⟩
  have hsome : ((g.terrain finish limit).graph.outgoing n.id).any (·.hasCondition) := by
    obtain ⟨c, hc⟩ := List.exists_mem_of_length_pos (Nat.lt_of_lt_of_le Nat.two_pos hl)
    rw [hout, List.any_eq_true]
    exact ⟨_, List.mem_map_of_mem (List.mem_map_of_mem hc), hsome c hc⟩
  rw [hr.walk_eq hg hnm rfl (by simp [htask]), visit_of_select hsome (by simp [hout]; omega)]
  refine (walk_branches hbranch htodo hknown (Block.nodup_clauses hn) hleft).trans (and_congr ?_ ?_)
  · rw [walkable_clauses (by simpa using hl), List.forall_mem_map]
  · have hadd : fan.outer.add (fan.finished (cs.map fun c => (c.1, c.2.1.canonical))).definition
        = p.region.addAll (Definition.transition t (cs.map fun c => (c.1, c.2.1))).parts := by
      rw [parts_clauses (by simp; omega)]
      simp [fan, selection, FanOut.definition, FanOut.finished, hx, Function.comp_def]
    rw [hadd, hjoin, hnodes, List.diff_cons]
    rfl

end Select

-- By induction on the subgraph, in which a sequence is put together from left to right.
theorem Block.walks (hg : g.ids.Nodup) (h : Block d f) (hd : d.Normal)
    (hw : d.Throughout TaskMention.Named Selective) (hn : f.ids.Nodup) (hp : Placed g finish f x) :
    Walks g finish limit d f x := by
  induction h generalizing x
  case task ht => exact walks_ofNode hg (Node.type_eq_task ht) (Node.task_eq_bare ht (by simpa using hw)) hp
  case sequence bs hne hb hi =>
    have hn := nodup_chained hn
    have ⟨_, _, hd⟩ := normal_sequence.mp hd
    have hw := throughout_sequence.mp hw
    let P := fun (ds : List Definition) (f : Subgraph) =>
      ds ≠ [] ∧ (Definition.sequence ds).parts ≠ [] ∧ f.Tidy ∧
        ∀ x, Placed g finish f x → Walks g finish limit (.sequence ds) f x
    refine (chained_induct (P := P) ?_ hne hn fun b hm => ?_).2.2.2 x hp
    · intro ds es f f' hn ⟨hds, hpt, hf, h⟩ ⟨hes, _, hf', h'⟩
      refine ⟨by simp [hds], by simp_all, hf.followedBy hf' hn, fun x hp => ?_⟩
      exact Walks.followedBy hn hds hes hpt (h _ (hp.left hf hf' hn)) (h' _ (hp.right hf hn))
    · have hm' := List.mem_map_of_mem (f := (·.1)) hm
      have hnb := (List.nodup_flatMap.mp hn).1 b hm
      refine ⟨by simp, by simpa using (hd _ hm').parts_ne_nil, (hb b hm).tidy (hd _ hm') hnb, fun x hp => ?_⟩
      exact walks_single (hi b hm (hd _ hm') (hw _ hm') hnb hp)
  case split bs hfork hjoin hb hi =>
    have ⟨hne, hd⟩ := normal_split.mp hd
    have hw := throughout_split.mp hw
    rw [List.forall_mem_map] at hd hw
    have hnb := (List.nodup_flatMap.mp (nodup_branches hn)).1
    have ht := tidy_branches hb hd hn
    have hbp b (hm : b ∈ bs) : Placed g finish b.2 _ :=
      hp.branch (fun f hf => (ht f hf).toClosed) hn (List.mem_map_of_mem hm)
    refine walks_sideBySide hg (congrArg Attributes.type hfork) (congrArg Attributes.type hjoin)
      (by simpa using hne) ht hn hp ?_ fun b hm => hi b hm (hd b hm) (hw b hm) (hnb b hm) (hbp b hm)
    exact List.forall_mem_map.mpr fun b hm => (hb b hm).hasSpine hg (hd b hm) (hnb b hm) (hbp b hm)
  case transition t n cs htask hb hi =>
    have ⟨hne, hsome, hd⟩ := normal_transition.mp hd
    have ⟨hnamed, hsel, hw⟩ := throughout_transition.mp hw
    rw [List.forall_mem_map] at hsome hd hw
    have hnb := (List.nodup_flatMap.mp (nodup_clauses hn)).1
    have ht := tidy_clauses hb hd hn
    have hwalks c (hm : c ∈ cs) : Walks g finish limit c.2.1 c.2.2 x := by
      refine hi c hm (hd c hm) (hw c hm) (hnb c hm) ?_
      exact hp.clause (fun c hc => (ht c hc).toClosed) hn
        (List.mem_map_of_mem (f := fun c => (c.1, c.2.2)) hm)
    have hx := Node.task_eq_bare htask hnamed
    -- An only clause makes the task wait, and several clauses open a region.
    by_cases hl : cs.length = 1
    case pos =>
      have ⟨c, hc⟩ := List.length_eq_one_iff.mp hl
      subst hc
      have ⟨pattern, hc⟩ := Option.isSome_iff_exists.mp (hsome c List.mem_cons_self)
      exact walks_select_only hc hg (Node.type_eq_task htask) hx (ht _ List.mem_cons_self)
        (hd c List.mem_cons_self).parts_ne_nil hn hp (hwalks c List.mem_cons_self)
    case neg =>
      refine walks_select hg (Node.type_eq_task htask) hx (two_le_length (by simpa using hne) hl) hsome
        ?_ ht hn hp hwalks
      simpa [Function.comp_def] using hsel

end Walks

end TaskFlow
