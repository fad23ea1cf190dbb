import TaskFlow.Proofs.Graph.Dominance

namespace TaskFlow.Graph

variable {g : Graph} {finish id x y z : String}

-- Whether every way from a node to the end passes another one.
def PostDominates (g : Graph) (finish via id : String) : Prop :=
  ¬ Way g.successors (g.ids.erase via) id finish

-- Whether a node is the nearest of those that every way from `id` to the end passes behind `id`.
structure IsImmediate (g : Graph) (finish id x : String) : Prop where
  mem : x ∈ g.ids
  ne : x ≠ id
  dominates : g.PostDominates finish x id
  nearest : ∀ y ≠ id, g.PostDominates finish y id → g.PostDominates finish y x

-- Whether each node can come to the end, and nowhere else than to nodes.
structure Led (g : Graph) (finish : String) : Prop where
  nodup : g.ids.Nodup
  next : ∀ id, ∀ y ∈ g.successors id, y ∈ g.ids
  way : ∀ id ∈ g.ids, Way g.successors g.ids id finish

theorem erase_erase_subset {ids : List String} : (ids.erase x).erase y ⊆ ids.erase y := by
  rw [List.erase_comm]
  exact List.erase_subset

namespace Led

variable (h : g.Led finish)

include h

theorem mem_of_postDominates (hi : id ∈ g.ids) (hd : g.PostDominates finish x id) : x ∈ g.ids := by
  by_contra hx
  rw [PostDominates, List.erase_of_not_mem hx] at hd
  exact hd (h.way id hi)

theorem postDominates_finish : g.PostDominates finish finish id := fun hw =>
  h.nodup.not_mem_erase hw.target_mem

theorem trans (hi : x ∈ g.ids) (hy : g.PostDominates finish y x) (hz : g.PostDominates finish z y) :
    g.PostDominates finish z x := by
  intro hw
  have hm := h.mem_of_postDominates hi hy
  by_cases he : y = z
  case pos => exact hy (he ▸ hw)
  case neg =>
    have hm : y ∈ g.ids.erase z := (List.mem_erase_of_ne he).mpr hm
    have hf : finish ≠ y := by
      rintro rfl
      exact hz (.here hm)
    obtain hw | ⟨s, hs, hw⟩ := hw.avoid hf
    case inl => exact hy (hw.mono erase_erase_subset)
    case inr => exact hz (.step hm hs (hw.mono List.erase_subset))

-- The last time that a way leaves one of two such nodes, it cannot pass the other one any more.
theorem antisymm (hi : x ∈ g.ids) (hy : g.PostDominates finish y x)
    (hx : g.PostDominates finish x y) : x = y := by
  by_contra hne
  have hxm : x ∈ g.ids.erase y := (List.mem_erase_of_ne hne).mpr hi
  have hym : y ∈ g.ids.erase x :=
    (List.mem_erase_of_ne (Ne.symm hne)).mpr (h.mem_of_postDominates hi hy)
  have hfx : finish ≠ x := by
    rintro rfl
    exact hy (.here hxm)
  have hfy : finish ≠ y := by
    rintro rfl
    exact hx (.here hym)
  obtain hw | ⟨s, hs, hw⟩ := (h.way x hi).avoid hfx
  case inl => exact h.nodup.not_mem_erase hw.source_mem
  case inr =>
    obtain hw | ⟨t, ht, hw⟩ := hw.avoid hfy
    case inl => exact hy (.step hxm hs (hw.mono erase_erase_subset))
    case inr => exact hx (.step hym ht (hw.mono List.erase_subset))

theorem eq_of_isImmediate (hx : g.IsImmediate finish id x)
    (hy : g.IsImmediate finish id y) : x = y :=
  h.antisymm hx.mem (hx.nearest y hy.ne hy.dominates) (hy.nearest x hx.ne hx.dominates)

-- All ways that leave a node pass what every way from it to the end passes.
theorem mem_reachableFrom (hi : id ∈ g.ids) (hne : y ≠ id) (hd : g.PostDominates finish y id)
    (hx : x ∈ g.successors id) : y ∈ g.reachableFrom x := by
  obtain hw | hw := (h.way x (h.next id x hx)).passes_or_avoids y
  case inl => exact mem_explore_of_way (List.mem_singleton_self x) hw
  case inr => exact absurd (.step ((List.mem_erase_of_ne (Ne.symm hne)).mpr hi) hx hw) hd

-- The immediate post-dominator that is computed is the nearest of the nodes that every way to the
-- end passes.
theorem isImmediate (hi : id ∈ g.ids) (hf : id ≠ finish) :
    g.IsImmediate finish id (g.immediatePostDominator finish id) := by
  obtain ⟨e, es, hsucc⟩ : ∃ e es, g.successors id = e :: es := by
    have hw := h.way id hi
    cases hw
    case here => contradiction
    case step hs _ => exact List.exists_cons_of_ne_nil (List.ne_nil_of_mem hs)
  let q : String → Bool := fun via =>
    decide ((via != id && (es.map g.reachableFrom).all (·.contains via)) ∧ g.passes finish id via)
  have hfind : g.immediatePostDominator finish id = ((g.reachableFrom e).find? q).getD finish := by
    rw [immediatePostDominator, meetingPoints, hsucc, List.map_cons, List.find?_filter]
  have hq {y} (hne : y ≠ id) (hd : g.PostDominates finish y id) : y ∈ g.reachableFrom e ∧ q y := by
    have hm {s} (hs : s ∈ e :: es) : y ∈ g.reachableFrom s :=
      h.mem_reachableFrom hi hne hd (hsucc ▸ hs)
    refine ⟨hm List.mem_cons_self, ?_⟩
    simp only [q, decide_eq_true_eq, Bool.and_eq_true, List.all_map, List.all_eq_true]
    refine ⟨⟨bne_iff_ne.mpr hne, fun s hs => ?_⟩, passes_iff.mpr hd⟩
    exact List.contains_iff_mem.mpr (hm (List.mem_cons_of_mem e hs))
  obtain ⟨x, hx⟩ : ∃ x, (g.reachableFrom e).find? q = some x := by
    obtain ⟨hm, hp⟩ := hq (Ne.symm hf) h.postDominates_finish
    exact Option.isSome_iff_exists.mp (List.find?_isSome.mpr ⟨finish, hm, hp⟩)
  rw [hfind, hx, Option.getD_some]
  obtain ⟨hqx, pre, post, he, hpre⟩ := List.find?_eq_some_iff_append.mp hx
  have hqx : x ≠ id ∧ g.PostDominates finish x id := by
    simp only [q, decide_eq_true_eq, Bool.and_eq_true, bne_iff_ne, passes_iff] at hqx
    exact ⟨hqx.1.1, hqx.2⟩
  refine ⟨h.mem_of_postDominates hi hqx.2, hqx.1, hqx.2, fun y hne hd hw => ?_⟩
  -- The search comes to the nearest of these nodes before it comes to any other one.
  have hpre : ∀ z ∈ pre ++ [x], z ∈ g.ids.erase y := by
    refine List.forall_mem_append.mpr ⟨fun z hz => ?_, List.forall_mem_singleton.mpr hw.source_mem⟩
    have hm : z ∈ g.reachableFrom e := he ▸ List.mem_append_left _ hz
    refine (List.mem_erase_of_ne fun hzy => ?_).mpr (mem_left_of_mem_explore hm)
    simpa [hzy, (hq hne hd).2] using hpre z hz
  obtain ⟨w, hw', hx⟩ := way_of_explore_eq_append he
  rw [List.mem_singleton] at hw'
  refine hd (.step ((List.mem_erase_of_ne (Ne.symm hne)).mpr hi) ?_ ((hx.mono hpre).trans hw))
  simp [hw', hsucc]

end Led

theorem chain_subset (joins : List (String × String)) (left : List String) (id : String) :
    chain joins left id ⊆ left := by
  induction left, id using chain.induct joins
  case case1 h => simp [chain, h]
  case case2 left id join hj hm hi =>
    rw [chain, hj]
    simp only [if_pos hm]
    exact List.cons_subset.mpr ⟨hm, List.Subset.trans hi List.erase_subset⟩
  case case3 hj hm =>
    rw [chain, hj]
    simp [hm]

theorem mem_of_matchingJoin? {type : String → Option NodeType} {depth : Nat} {ids : List String}
    (h : matchingJoin? type depth ids = some x) : x ∈ ids := by
  fun_induction matchingJoin? type depth ids <;> grind

-- Whether one comes to given nodes, one after the other, by going on from a node to the one that it
-- is paired with, as long as it is paired with any.
inductive Pursues (joins : List (String × String)) : String → List String → Prop
  | done {id : String} : joins.lookup id = none → Pursues joins id []
  | on {id x : String} {xs : List String} : joins.lookup id = some x → Pursues joins x xs → Pursues joins id (x :: xs)

theorem Pursues.eq {joins : List (String × String)} {xs ys : List String}
    (h : Pursues joins id xs) (h' : Pursues joins id ys) : xs = ys := by
  induction h generalizing ys
  case done hn =>
    cases h'
    case done => rfl
    case on hs => cases hn.symm.trans hs
  case on hs _ hi =>
    cases h'
    case done hn => cases hn.symm.trans hs
    case on h' hs' =>
      cases hs.symm.trans hs'
      rw [hi h']

namespace Led

variable (h : g.Led finish)

include h

omit h in
theorem lookup_postDominators_finish : (g.postDominators finish).lookup finish = none := by
  rw [postDominators, lookup_map_self]
  simp

-- Fewer and fewer nodes are passed by every way to the end, so the chain is not cut short.
theorem pursues_chain {id : String} {left : List String} (hi : id ∈ g.ids)
    (hl : ∀ y ≠ id, g.PostDominates finish y id → y ∈ left) :
    Pursues (g.postDominators finish) id (chain (g.postDominators finish) left id) := by
  rw [chain]
  by_cases hf : id = finish
  case pos =>
    have hnone : (g.postDominators finish).lookup id = none := hf ▸ lookup_postDominators_finish
    rw [hnone]
    exact .done hnone
  case neg =>
    have hs := lookup_postDominators hi hf
    have hx := h.isImmediate hi hf
    have hm := hl _ hx.ne hx.dominates
    rw [hs]
    simp only [if_pos hm]
    refine .on hs (pursues_chain hx.mem fun y hne hd => ?_)
    refine (List.mem_erase_of_ne hne).mpr (hl y ?_ (h.trans hi hx.dominates hd))
    rintro rfl
    exact hne (h.antisymm hi hx.dominates hd)
termination_by left.length
decreasing_by
  rw [List.length_erase_of_mem hm]
  exact Nat.sub_lt (List.length_pos_of_mem hm) Nat.one_pos

end Led

end TaskFlow.Graph
