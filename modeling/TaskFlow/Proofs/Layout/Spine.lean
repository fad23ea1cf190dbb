import TaskFlow.Proofs.Graph.Dominance
import TaskFlow.Proofs.Layout.Places
import TaskFlow.Proofs.Walk.Run

namespace TaskFlow

open TaskFlow.Graph Subgraph

variable {g : Graph} {finish x y id : String} {f : Subgraph} {fs : List Subgraph} {ids : List String}
  {n fork join : Node} {limit : Int}

-- Every way from one of the branches to the end leads over `y`, and no other node is on the ways
-- from all of them.
theorem immediatePostDominator_of_fan (hg : g.ids.Nodup) (hs : g.successors id = fs.map (·.entry))
    (hl : 2 ≤ fs.length) (ht : ∀ f ∈ fs, f.Tidy) (hp : ∀ f ∈ fs, Placed g finish f y)
    (hn : (fs.flatMap (·.ids)).Nodup) (hid : id ∈ g.ids) (hf : id ≠ finish) (hy : y ≠ id)
    (hout : ∀ f ∈ fs, id ∉ f.ids) : g.immediatePostDominator finish id = y := by
  obtain ⟨f₁, f₂, rest, rfl⟩ : ∃ f₁ f₂ rest, fs = f₁ :: f₂ :: rest := by
    match fs, hl with
    | f₁ :: f₂ :: rest, _ => exact ⟨f₁, f₂, rest, rfl⟩
  let S := fun z => ∃ f ∈ f₁ :: f₂ :: rest, z ∈ f.ids
  have hentry s (hm : s ∈ (f₁ :: f₂ :: rest).map (·.entry)) :
      ∃ f ∈ f₁ :: f₂ :: rest, f.entry = s := List.mem_map.mp hm
  have hway f (hm : f ∈ f₁ :: f₂ :: rest) : Way g.successors (y :: f.ids) f.entry y :=
    (hp f hm).way_next (ht f hm) (ht f hm).entry
  refine immediatePostDominator_eq (S := S) hg hs ?start ?closed ?outside hf ?meet hy ?avoid
  case start =>
    intro s hm
    have ⟨f, hf, he⟩ := hentry s hm
    exact .inl ⟨f, hf, he ▸ (ht f hf).entry⟩
  case closed =>
    intro z ⟨f, hm, hz⟩ w hw
    exact ((hp f hm).successors_mem (ht f hm).toClosed hz hw).imp_left fun hw => ⟨f, hm, hw⟩
  case outside => exact fun ⟨f, hm, hz⟩ => (hp f hm).finish_mem.2 hz
  case meet =>
    intro s hm
    have ⟨f, hf, he⟩ := hentry s hm
    rw [← he]
    exact (hway f hf).mono (List.cons_subset.mpr ⟨(hp f hf).next_mem.1, (hp f hf).ids⟩)
  case avoid =>
    intro via ⟨f, hm, hv⟩
    -- Two branches have no node in common, so one of the first two avoids the given one.
    obtain ⟨f', hm', hv'⟩ : ∃ f' ∈ f₁ :: f₂ :: rest, via ∉ f'.ids := by
      by_cases h₁ : via ∈ f₁.ids
      case neg => exact ⟨f₁, List.mem_cons_self, h₁⟩
      case pos =>
        refine ⟨f₂, List.mem_cons_of_mem _ List.mem_cons_self, fun h₂ => ?_⟩
        rw [List.flatMap_cons, List.nodup_append] at hn
        refine hn.2.2 via h₁ via (List.mem_flatMap.mpr ⟨f₂, List.mem_cons_self, h₂⟩) rfl
    have hne {z} (hz : z ∈ g.ids) (hv : z ≠ via) : z ∈ g.ids.erase via :=
      (List.mem_erase_of_ne hv).mpr hz
    have hfirst : Way g.successors (g.ids.erase via) f'.entry y := by
      refine (hway f' hm').mono (List.cons_subset.mpr ⟨hne (hp f hm).next_mem.1 ?_, fun z hz => ?_⟩)
      · exact fun he => (hp f hm).next_mem.2 (he ▸ hv)
      · exact hne ((hp f' hm').ids hz) fun he => hv' (he ▸ hz)
    have hrest : Way g.successors (g.ids.erase via) y finish := by
      refine (hp f hm).onwards.mono fun z hz => ?_
      rw [List.mem_filter, decide_eq_true_eq] at hz
      exact hne hz.1 fun he => hz.2 (he ▸ hv)
    refine .step (hne hid fun he => hout f hm (he ▸ hv)) ?_ (hfirst.trans hrest)
    rw [hs]
    exact List.mem_map_of_mem hm'

-- Nodes each of which is the immediate post-dominator of the one before.
inductive Spine (g : Graph) (finish : String) : String → List String → String → Prop
  | nil {x : String} : Spine g finish x [] x
  | cons {id y x : String} {ids : List String} : id ∈ g.ids → id ≠ finish → g.immediatePostDominator finish id = y →
    Spine g finish y ids x → Spine g finish id (id :: ids) x

theorem Spine.append {ids' : List String} (h : Spine g finish id ids x)
    (h' : Spine g finish x ids' y) : Spine g finish id (ids ++ ids') y := by
  induction h
  case nil => exact h'
  case cons hid hf he _ hi => exact .cons hid hf he (hi h')

-- Whether the forks and joins among nodes match each other.
def Balanced (g : Graph) (ids : List String) : Prop :=
  ∀ depth rest, matchingJoin? g.type? depth (ids ++ rest) = matchingJoin? g.type? depth rest

-- Whether the nodes through which all ways through a subgraph go have matching forks and joins.
structure HasSpine (g : Graph) (finish : String) (f : Subgraph) (x : String) (ids : List String) :
    Prop where
  spine : Spine g finish f.entry ids x
  sublist : ids.Sublist f.ids
  balanced : Balanced g ids

theorem Graph.type?_eq (hg : g.ids.Nodup) (hn : n ∈ g.nodes) : g.type? n.id = some n.type := by
  rw [type?, node?, find?_of_nodup hg (List.Subset.refl _) hn]
  rfl

section MatchingJoin

variable {depth : Nat}

theorem matchingJoin?_of_fork {type : String → Option NodeType} (h : type id = some .fork) :
    matchingJoin? type depth (id :: ids) = matchingJoin? type (depth + 1) ids := by
  simp [matchingJoin?, h]

theorem matchingJoin?_of_join {type : String → Option NodeType} (h : type id = some .join) :
    matchingJoin? type (depth + 1) (id :: ids) = matchingJoin? type depth ids := by
  simp [matchingJoin?, h]

theorem matchingJoin?_of_task {type : String → Option NodeType} (h : type id = some .task) :
    matchingJoin? type depth (id :: ids) = matchingJoin? type depth ids := by
  simp [matchingJoin?, h]

end MatchingJoin

theorem balanced_task (hg : g.ids.Nodup) (hn : n ∈ g.nodes) (ht : n.type = .task) :
    Balanced g [n.id] := by
  intro depth rest
  rw [List.singleton_append, matchingJoin?_of_task]
  rw [type?_eq hg hn, ht]

theorem Balanced.append {ids' : List String} (h : Balanced g ids) (h' : Balanced g ids') :
    Balanced g (ids ++ ids') := fun depth rest => by
  rw [List.append_assoc, h, h']

theorem Balanced.between (hg : g.ids.Nodup) (hfork : fork ∈ g.nodes) (hf : fork.type = .fork)
    (hjoin : join ∈ g.nodes) (hj : join.type = .join) (h : Balanced g ids) :
    Balanced g (fork.id :: ids ++ [join.id]) := by
  intro depth rest
  rw [List.cons_append, List.cons_append, matchingJoin?_of_fork (hf ▸ type?_eq hg hfork),
    List.append_assoc, h, List.singleton_append, matchingJoin?_of_join (hj ▸ type?_eq hg hjoin)]

theorem matchingJoin?_join (hg : g.ids.Nodup) (hjoin : join ∈ g.nodes) (hj : join.type = .join)
    (h : Balanced g ids) {rest : List String} :
    matchingJoin? g.type? 0 (ids ++ join.id :: rest) = some join.id := by
  have ht : g.type? join.id = some .join := hj ▸ type?_eq hg hjoin
  rw [h]
  simp [matchingJoin?, ht]

-- The chain of post-dominators goes along a spine.
theorem chain_eq_append {left : List String} (h : Spine g finish y ids x)
    (hy : (g.postDominators finish).lookup id = some y) (hn : (ids ++ [x]).Nodup)
    (hl : ids ++ [x] ⊆ left) :
    ∃ rest, chain (g.postDominators finish) left id = ids ++ x :: rest := by
  induction h generalizing id left
  case nil x =>
    rw [chain, hy]
    exact ⟨_, if_pos (hl (by simp))⟩
  case cons y z x ids hyg hyf he _ hi =>
    rw [List.cons_append, List.nodup_cons] at hn
    have hl' : ids ++ [x] ⊆ left.erase y := by
      intro z hz
      refine (List.mem_erase_of_ne ?_).mpr (hl (List.mem_cons_of_mem y hz))
      rintro rfl
      exact hn.1 hz
    have ⟨rest, hrest⟩ := hi (he ▸ lookup_postDominators hyg hyf) hn.2 hl'
    refine ⟨rest, ?_⟩
    rw [chain, hy]
    simp only
    rw [if_pos (hl List.mem_cons_self), hrest]
    rfl

theorem branchesEnd_eq (hg : g.ids.Nodup) (hfork : fork ∈ g.nodes) (hf : fork.type = .fork)
    (hne : fork.id ≠ finish) (hjoin : join ∈ g.nodes) (hj : join.type = .join)
    (h : Spine g finish (g.immediatePostDominator finish fork.id) ids join.id)
    (hn : (ids ++ [join.id]).Nodup) (hs : ids ⊆ g.ids) (hb : Balanced g ids) :
    (g.terrain finish limit).branchesEnd fork = join.id := by
  have hs : ids ++ [join.id] ⊆ g.ids := List.append_subset.mpr
    ⟨hs, List.cons_subset.mpr ⟨List.mem_map_of_mem hjoin, List.nil_subset _⟩⟩
  have ⟨rest, hc⟩ := chain_eq_append h
    (lookup_postDominators (List.mem_map_of_mem hfork) hne) hn hs
  have hm : matchingJoin? g.type? 0 (chain (g.postDominators finish) g.ids fork.id)
      = some join.id := by
    rw [hc]
    exact matchingJoin?_join hg hjoin hj hb
  simp only [Terrain.branchesEnd, hf, if_true, terrain, hm, Option.getD_some]

section Blocks

variable {d : Definition}

theorem Placed.mem_nodes (hp : Placed g finish f x) (hn : n ∈ f.nodes) :
    n ∈ g.nodes ∧ n.id ∈ g.ids ∧ n.id ≠ finish := by
  refine ⟨hp.nodes hn, hp.ids (List.mem_map_of_mem hn), ?_⟩
  rintro rfl
  exact hp.finish_mem.2 (List.mem_map_of_mem hn)

theorem hasSpine_ofNode (hg : g.ids.Nodup) (ht : n.type = .task)
    (hp : Placed g finish (ofNode n) x) : HasSpine g finish (ofNode n) x [n.id] := by
  have ⟨hn, hi, hf⟩ := hp.mem_nodes (n := n) List.mem_cons_self
  have hs : g.successors n.id = [x] := by
    rw [successors, hp.outgoing_node]
    rfl
  have hx : x ≠ n.id := fun he => hp.next_mem.2 (by simp [he])
  have he := immediatePostDominator_of_single hg hs hp.next_mem.1 hx hf
  exact ⟨.cons hi hf he .nil, List.Sublist.refl _, balanced_task hg hn ht⟩

theorem HasSpine.followedBy {f' : Subgraph} {ids' : List String} (h : HasSpine g finish f f'.entry ids)
    (h' : HasSpine g finish f' x ids') : HasSpine g finish (f.followedBy f') x (ids ++ ids') where
  spine := h.spine.append h'.spine
  sublist := by
    rw [ids_followedBy]
    exact h.sublist.append h'.sublist
  balanced := h.balanced.append h'.balanced

-- Behind a fork one comes to its join, directly or by way of its only branch.
theorem exists_spine_sideBySide (hg : g.ids.Nodup) (hne : fs ≠ []) (ht : ∀ f ∈ fs, f.Tidy)
    (hn : (sideBySide fork join fs).ids.Nodup) (hp : Placed g finish (sideBySide fork join fs) x)
    (hs : ∀ f ∈ fs, ∃ ids, HasSpine g finish f join.id ids) :
    ∃ ids, Spine g finish (g.immediatePostDominator finish fork.id) ids join.id ∧
      ids.Sublist (fs.flatMap (·.ids)) ∧ Balanced g ids := by
  obtain ⟨hb, hfj, hids⟩ := nodup_sideBySide hn
  obtain ⟨_, hi, hf⟩ := hp.mem_nodes (n := fork) (by simp [sideBySide])
  have hc : ∀ f ∈ fs, f.Closed := fun f hf => (ht f hf).toClosed
  have hsucc : g.successors fork.id = fs.map (·.entry) := by
    rw [successors, hp.outgoing_fork hc hn, List.map_map]
    rfl
  by_cases hl : fs.length = 1
  case pos =>
    obtain ⟨f, hfs⟩ := List.length_eq_one_iff.mp hl
    subst hfs
    obtain ⟨path, h⟩ := hs f List.mem_cons_self
    have he : g.immediatePostDominator finish fork.id = f.entry := by
      have hm := (ht f List.mem_cons_self).entry
      refine immediatePostDominator_of_single hg hsucc ?_ ?_ hf
      · exact (hp.branch hc hn List.mem_cons_self).ids hm
      · exact fun he => (hids f List.mem_cons_self).1 (he ▸ hm)
    exact ⟨path, he ▸ h.spine, by simpa using h.sublist, h.balanced⟩
  case neg =>
    have he := immediatePostDominator_of_fan hg hsucc (two_le_length hne hl) ht
      (fun f hm => hp.branch hc hn hm) hb hi hf (Ne.symm hfj) fun f hm => (hids f hm).1
    exact ⟨[], he ▸ .nil, List.nil_sublist _, fun _ _ => rfl⟩

theorem hasSpine_sideBySide (hg : g.ids.Nodup) (hne : fs ≠ []) (ht : ∀ f ∈ fs, f.Tidy)
    (hfork : fork.type = .fork) (hjoin : join.type = .join)
    (hn : (sideBySide fork join fs).ids.Nodup) (hp : Placed g finish (sideBySide fork join fs) x)
    (hs : ∀ f ∈ fs, ∃ ids, HasSpine g finish f join.id ids) :
    ∃ ids, HasSpine g finish (sideBySide fork join fs) x ids := by
  have ⟨path, h, hsub, hbal⟩ := exists_spine_sideBySide hg hne ht hn hp hs
  have ⟨hfg, hfi, hff⟩ := hp.mem_nodes (n := fork) (by simp [sideBySide])
  have ⟨hjg, hji, hjf⟩ := hp.mem_nodes (n := join) (by simp [sideBySide])
  have hjs : g.successors join.id = [x] := by
    rw [successors, hp.outgoing_join (fun f hf => (ht f hf).toClosed) hn]
    rfl
  have hj := immediatePostDominator_of_single hg hjs hp.next_mem.1
    (fun he => hp.next_mem.2 (by simp [he])) hjf
  refine ⟨fork.id :: path ++ [join.id], .cons hfi hff rfl (h.append (.cons hji hjf hj .nil)), ?_,
    hbal.between hg hfg hfork hjg hjoin⟩
  rw [ids_sideBySide]
  exact (hsub.cons_cons fork.id).append (List.Sublist.refl _)

theorem branchesEnd_sideBySide (hg : g.ids.Nodup) (hne : fs ≠ []) (ht : ∀ f ∈ fs, f.Tidy)
    (hfork : fork.type = .fork) (hjoin : join.type = .join)
    (hn : (sideBySide fork join fs).ids.Nodup) (hp : Placed g finish (sideBySide fork join fs) x)
    (hs : ∀ f ∈ fs, ∃ ids, HasSpine g finish f join.id ids) :
    (g.terrain finish limit).branchesEnd fork = join.id := by
  have ⟨path, h, hsub, hbal⟩ := exists_spine_sideBySide hg hne ht hn hp hs
  have ⟨hfg, _, hff⟩ := hp.mem_nodes (n := fork) (by simp [sideBySide])
  have ⟨hjg, _, _⟩ := hp.mem_nodes (n := join) (by simp [sideBySide])
  rw [ids_sideBySide, List.cons_append, List.nodup_cons] at hn
  have hsub := hsub.append (List.Sublist.refl [join.id])
  refine branchesEnd_eq hg hfg hfork hff hjg hjoin h (hn.2.sublist hsub) (fun id hi => ?_) hbal
  refine hp.ids ?_
  rw [ids_sideBySide, List.cons_append]
  exact List.mem_cons_of_mem _ (hsub.subset (List.mem_append_left _ hi))

-- The branches of a task with several clauses end where control goes on behind it.
theorem immediatePostDominator_select {cs : List (Option String × Subgraph)} (hg : g.ids.Nodup)
    (hl : 2 ≤ cs.length) (ht : ∀ c ∈ cs, c.2.Tidy) (hn : (select n cs).ids.Nodup)
    (hp : Placed g finish (select n cs) x) : g.immediatePostDominator finish n.id = x := by
  have ⟨_, hi, hf⟩ := hp.mem_nodes (n := n) (by simp [select])
  have hclosed : ∀ c ∈ cs, c.2.Closed := fun c hc => (ht c hc).toClosed
  have hsucc : g.successors n.id = (cs.map (·.2)).map (·.entry) := by
    rw [successors, hp.outgoing_source hclosed hn, List.map_map, List.map_map]
    rfl
  have hx : x ≠ n.id := fun he => hp.next_mem.2 (by simp [he])
  have hc c (hc : c ∈ cs) : Placed g finish c.2 x := hp.clause hclosed hn hc
  rw [ids_select, List.nodup_cons] at hn
  refine immediatePostDominator_of_fan hg hsucc (by simpa using hl) (List.forall_mem_map.mpr ht)
    (List.forall_mem_map.mpr hc) (by simpa [List.flatMap_map] using hn.2) hi hf hx ?_
  exact List.forall_mem_map.mpr fun c hc hm => hn.1 (List.mem_flatMap.mpr ⟨c, hc, hm⟩)

theorem hasSpine_select {cs : List (Option String × Subgraph)} (hg : g.ids.Nodup) (hne : cs ≠ [])
    (ht : ∀ c ∈ cs, c.2.Tidy) (htask : n.type = .task) (hn : (select n cs).ids.Nodup)
    (hp : Placed g finish (select n cs) x) (hs : ∀ c ∈ cs, ∃ ids, HasSpine g finish c.2 x ids) :
    ∃ ids, HasSpine g finish (select n cs) x ids := by
  obtain ⟨hng, hi, hf⟩ := hp.mem_nodes (n := n) (by simp [select])
  have hbal := balanced_task hg hng htask
  -- Several clauses come together only behind the subgraph, and an only clause is on every way.
  by_cases hl : cs.length = 1
  case neg =>
    have he := immediatePostDominator_select hg (two_le_length hne hl) ht hn hp
    exact ⟨[n.id], .cons hi hf he .nil, by simp, hbal⟩
  case pos =>
    obtain ⟨c, hcs⟩ := List.length_eq_one_iff.mp hl
    subst hcs
    obtain ⟨path, h⟩ := hs c List.mem_cons_self
    have hm := (ht c List.mem_cons_self).entry
    have hc : ∀ b ∈ [c], b.2.Closed := List.forall_mem_singleton.mpr (ht c List.mem_cons_self).toClosed
    have hsucc : g.successors n.id = [c.2.entry] := by
      rw [successors, hp.outgoing_source hc hn]
      rfl
    have he : g.immediatePostDominator finish n.id = c.2.entry := by
      refine immediatePostDominator_of_single hg hsucc ?_ (fun he => ?_) hf
      · exact (hp.clause hc hn List.mem_cons_self).ids hm
      · rw [ids_select, List.nodup_cons] at hn
        exact hn.1 (by simpa [he] using hm)
    exact ⟨n.id :: path, .cons hi hf he h.spine, by simpa using h.sublist, hbal.append h.balanced⟩

-- By induction on the subgraph: the spines of the steps are joined, and a split or a selection puts
-- its own nodes around the spine of its only branch, or in the place of several branches.
theorem Block.hasSpine (hg : g.ids.Nodup) (h : Block d f) (hd : d.Normal) (hn : f.ids.Nodup)
    (hp : Placed g finish f x) : ∃ ids, HasSpine g finish f x ids := by
  induction h generalizing x
  case task ht => exact ⟨_, hasSpine_ofNode hg (Node.type_eq_task ht) hp⟩
  case sequence bs hne hb hi =>
    have hn := nodup_chained hn
    have ⟨_, _, hd⟩ := Definition.normal_sequence.mp hd
    let P := fun (_ : List Definition) (f : Subgraph) =>
      f.Tidy ∧ ∀ x, Placed g finish f x → ∃ ids, HasSpine g finish f x ids
    refine (chained_induct (P := P) ?_ hne hn fun b hm => ⟨?_, fun x hp => ?_⟩).2 x hp
    · intro _ _ f f' hn ⟨hf, h⟩ ⟨hf', h'⟩
      refine ⟨hf.followedBy hf' hn, fun x hp => ?_⟩
      have ⟨path, hs⟩ := h _ (hp.left hf hf' hn)
      have ⟨path', hs'⟩ := h' _ (hp.right hf hn)
      exact ⟨_, hs.followedBy hs'⟩
    · exact (hb b hm).tidy (hd _ (List.mem_map_of_mem hm)) ((List.nodup_flatMap.mp hn).1 b hm)
    · exact hi b hm (hd _ (List.mem_map_of_mem hm)) ((List.nodup_flatMap.mp hn).1 b hm) hp
  case split bs hfork hjoin hb hi =>
    have ⟨hne, hd⟩ := Definition.normal_split.mp hd
    rw [List.forall_mem_map] at hd
    have hnb := (List.nodup_flatMap.mp (nodup_branches hn)).1
    have ht := tidy_branches hb hd hn
    refine hasSpine_sideBySide hg (by simpa using hne) ht
      (congrArg Attributes.type hfork) (congrArg Attributes.type hjoin) hn hp ?_
    refine List.forall_mem_map.mpr fun b hm => hi b hm (hd b hm) (hnb b hm) ?_
    exact hp.branch (fun f hf => (ht f hf).toClosed) hn (List.mem_map_of_mem hm)
  case transition cs htask hb hi =>
    have ⟨hne, _, hd⟩ := Definition.normal_transition.mp hd
    rw [List.forall_mem_map] at hd
    have hnb := (List.nodup_flatMap.mp (nodup_clauses hn)).1
    have ht := tidy_clauses hb hd hn
    refine hasSpine_select hg (by simpa using hne) ht (Node.type_eq_task htask) hn hp ?_
    refine List.forall_mem_map.mpr fun c hm => hi c hm (hd c hm) (hnb c hm) ?_
    exact hp.clause (fun c hc => (ht c hc).toClosed) hn
      (List.mem_map_of_mem (f := fun c => (c.1, c.2.2)) hm)

end Blocks

end TaskFlow
