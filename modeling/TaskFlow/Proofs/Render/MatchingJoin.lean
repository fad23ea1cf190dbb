import TaskFlow.Proofs.Render.Safety

namespace TaskFlow.Graph

-- Whether nodes are those that one comes to, one after the other, by going on from a node to its
-- immediate post-dominator, up to the end.
inductive Behind (g : Graph) (finish : String) : String → List String → Prop
  | finish : Behind g finish finish []
  | next {id x xs} :
    g.IsImmediate finish id x → Behind g finish x xs → Behind g finish id (x :: xs)

-- Whether the joins among nodes, read in order, never outnumber the forks by more than `depth`, so
-- that none of them matches a fork which lies `depth` forks further out.
def Unmatched (type : String → Option NodeType) (depth : Nat) (ids : List String) : Prop :=
  ∀ ids', ids' <+: ids →
    ids'.countP (type · = some .join) ≤ ids'.countP (type · = some .fork) + depth

variable {g : Graph} {start finish n : Node} {id x last : String}
  {ids xs : List String}

section Unmatched

variable {type : String → Option NodeType} {depth : Nat}

theorem unmatched_cons : Unmatched type depth (id :: ids) ↔
    ∀ ids', ids' <+: ids → (id :: ids').countP (type · = some .join)
      ≤ (id :: ids').countP (type · = some .fork) + depth := by
  simp only [Unmatched, List.prefix_cons_iff]
  constructor
  case mp => exact fun h ids' hp => h _ (.inr ⟨ids', rfl, hp⟩)
  case mpr =>
    rintro h _ (rfl | ⟨ids', rfl, hp⟩)
    case inl => simp
    case inr => exact h ids' hp

theorem unmatched_fork (h : type id = some .fork) :
    Unmatched type depth (id :: ids) ↔ Unmatched type (depth + 1) ids := by
  rw [unmatched_cons]
  simp [Unmatched, h, Nat.add_assoc, Nat.add_comm 1]

theorem not_unmatched_join (h : type id = some .join) : ¬ Unmatched type 0 (id :: ids) := by
  intro hu
  simpa [h] using hu [id] (by simp)

theorem unmatched_join (h : type id = some .join) :
    Unmatched type (depth + 1) (id :: ids) ↔ Unmatched type depth ids := by
  rw [unmatched_cons]
  simp [Unmatched, h, ← Nat.add_assoc]

theorem unmatched_other (hf : type id ≠ some .fork) (hj : type id ≠ some .join) :
    Unmatched type depth (id :: ids) ↔ Unmatched type depth ids := by
  rw [unmatched_cons]
  simp [Unmatched, hf, hj]

theorem Unmatched.of_append (h : Unmatched type depth (ids ++ xs)) : Unmatched type depth ids :=
  fun ids' hp => h ids' (hp.trans (List.prefix_append ids xs))

theorem matchingJoin?_eq_none :
    matchingJoin? type depth ids = none ↔ Unmatched type depth ids := by
  fun_induction matchingJoin? type depth ids
  case case1 => simp [Unmatched]
  case case2 h hi => rw [hi, unmatched_fork h]
  case case3 h => simpa using not_unmatched_join h
  case case4 h _ hi => rw [hi, unmatched_join h]
  case case5 hf hj hi => rw [hi, unmatched_other hf hj]

-- The join that matches a fork is the first one by which the joins outnumber the forks.
theorem exists_of_matchingJoin? (h : matchingJoin? type depth ids = some x) :
    type x = some .join ∧ ∃ ys zs, ids = ys ++ x :: zs ∧
      Unmatched type depth ys ∧ ¬ Unmatched type depth (ys ++ [x]) := by
  fun_induction matchingJoin? type depth ids
  case case1 => cases h
  case case2 ht hi =>
    obtain ⟨hx, ys, zs, rfl, hu, hn⟩ := hi h
    exact ⟨hx, _ :: ys, zs, rfl, (unmatched_fork ht).mpr hu, mt (unmatched_fork ht).mp hn⟩
  case case3 ht =>
    cases h
    exact ⟨ht, [], _, rfl, by simp [Unmatched], not_unmatched_join ht⟩
  case case4 ht _ hi =>
    obtain ⟨hx, ys, zs, rfl, hu, hn⟩ := hi h
    exact ⟨hx, _ :: ys, zs, rfl, (unmatched_join ht).mpr hu, mt (unmatched_join ht).mp hn⟩
  case case5 hf hj hi =>
    obtain ⟨hx, ys, zs, rfl, hu, hn⟩ := hi h
    exact ⟨hx, _ :: ys, zs, rfl, (unmatched_other hf hj).mpr hu,
      mt (unmatched_other hf hj).mp hn⟩

-- Whether a join further down matches a fork behind which `x` comes first and `xs` after it.
def MatchedBy (type : String → Option NodeType) (x : String) (xs : List String) (join : String) :
    Prop :=
  ∃ ys zs, xs = ys ++ join :: zs ∧ type join = some .join ∧ Unmatched type 0 (x :: ys) ∧
    ¬ Unmatched type 0 (x :: ys ++ [join])

theorem matchingJoin?_cases (type : String → Option NodeType) (hx : x ∉ xs) :
    (matchingJoin? type 0 (x :: xs)).getD x = x ∧
        (type x = some .join ∨ Unmatched type 0 (x :: xs)) ∨
      ∃ join, (matchingJoin? type 0 (x :: xs)).getD x = join ∧ join ≠ x ∧
        ¬ (type x = some .join ∨ Unmatched type 0 (x :: xs)) ∧ MatchedBy type x xs join := by
  cases hj : matchingJoin? type 0 (x :: xs)
  case none => exact .inl ⟨rfl, .inr (matchingJoin?_eq_none.mp hj)⟩
  case some join =>
    obtain ⟨htype, ys, zs, he, hu, hn⟩ := exists_of_matchingJoin? hj
    -- The join that is found is the first node itself, or stands behind it.
    obtain _ | ⟨y, ys⟩ := ys
    case nil =>
      cases he
      exact .inl ⟨rfl, .inl htype⟩
    case cons =>
      rw [List.cons_append, List.cons_eq_cons] at he
      obtain ⟨rfl, rfl⟩ := he
      refine .inr ⟨join, rfl, fun h => hx (by simp [h]), ?_, ys, zs, rfl, htype, hu, hn⟩
      rintro (h | h)
      case inl => exact not_unmatched_join h hu
      case inr =>
        rw [List.append_cons] at h
        exact hn (.of_append h)

end Unmatched

theorem Behind.isImmediate (h : g.Behind last id (x :: xs)) : g.IsImmediate last id x := by
  cases h
  assumption

theorem Led.behind_of_pursues (h : g.Led last) (hi : id ∈ g.ids)
    (hp : Pursues (g.postDominators last) id xs) : g.Behind last id xs := by
  induction hp
  case done id hn =>
    obtain rfl : id = last := by
      by_contra hne
      cases hn.symm.trans (lookup_postDominators hi hne)
    exact .finish
  case on id x xs hx _ hn =>
    have hne : id ≠ last := by
      rintro rfl
      cases hx.symm.trans lookup_postDominators_finish
    cases hx.symm.trans (lookup_postDominators hi hne)
    have him := h.isImmediate hi hne
    exact .next him (hn him.mem)

namespace Sound

variable (hs : g.Sound start finish)

include hs

-- What lies behind the immediate post-dominator is not met twice.
theorem exists_chain_eq (hi : id ∈ g.ids) (hne : id ≠ finish.id) : ∃ x xs,
    (g.postDominators finish.id).lookup id = some x ∧
      chain (g.postDominators finish.id) g.ids id = x :: xs ∧
      g.Behind finish.id id (x :: xs) ∧ x ∉ xs := by
  have hl := lookup_postDominators hi hne
  have hm := (hs.led.isImmediate hi hne).mem
  have hp := hs.led.pursues_chain hi fun y _ hd => hs.led.mem_of_postDominates hi hd
  have hb := hs.led.behind_of_pursues hi hp
  rw [chain, hl] at hb ⊢
  simp only [if_pos hm] at hb ⊢
  exact ⟨_, _, rfl, rfl, hb, fun hx => hs.ids.not_mem_erase (chain_subset _ _ _ hx)⟩

-- The branches that leave a node end at its immediate post-dominator, unless the node is a fork and
-- a join further down matches it.
theorem branchesEnd_eq_iff (limit : Int) (hn : n ∈ g.nodes) (hne : n.id ≠ finish.id) : ∃ x xs,
    g.Behind finish.id n.id (x :: xs) ∧
      ((g.terrain finish.id limit).branchesEnd n = x ↔
        n.type ≠ .fork ∨ g.type? x = some .join ∨ Unmatched g.type? 0 (x :: xs)) ∧
      ((g.terrain finish.id limit).branchesEnd n ≠ x →
        MatchedBy g.type? x xs ((g.terrain finish.id limit).branchesEnd n)) := by
  obtain ⟨x, xs, hl, hc, hb, hx⟩ := hs.exists_chain_eq (List.mem_map_of_mem hn) hne
  refine ⟨x, xs, hb, ?_⟩
  have he : (g.terrain finish.id limit).branchesEnd n =
      if n.type = .fork then (matchingJoin? g.type? 0 (x :: xs)).getD x else x := by
    rw [Terrain.branchesEnd, Terrain.postDominator, terrain, hl, hc]
    rfl
  rw [he]
  -- Only for a fork is a join looked for among the nodes behind it.
  by_cases ht : n.type = .fork
  case neg => simp [ht]
  case pos =>
    rw [if_pos ht]
    obtain ⟨he, hu⟩ | ⟨join, he, hne, hu, hm⟩ := matchingJoin?_cases g.type? hx
    case inl => exact ⟨iff_of_true he (.inr hu), fun hne => absurd he hne⟩
    case inr =>
      rw [he]
      exact ⟨iff_of_false hne (not_or.mpr ⟨not_not.mpr ht, hu⟩), fun _ => hm⟩

end Sound

-- A fork whose branches come together at a task, with a join behind it.
def distantJoin : Graph where
  nodes := [⟨"S", .start, none, []⟩, ⟨"E", .finish, none, []⟩, ⟨"f", .fork, none, []⟩,
    ⟨"a", .task, some "a", []⟩, ⟨"b", .task, some "b", []⟩, ⟨"t", .task, some "t", []⟩,
    ⟨"j", .join, none, []⟩]
  links := [⟨"S", "f", none⟩, ⟨"f", "a", none⟩, ⟨"f", "b", none⟩, ⟨"a", "t", none⟩,
    ⟨"b", "t", none⟩, ⟨"t", "j", none⟩, ⟨"j", "E", none⟩]

theorem sound_distantJoin :
    distantJoin.Sound ⟨"S", .start, none, []⟩ ⟨"E", .finish, none, []⟩ where
  ids := by decide
  nodesWith_start := rfl
  nodesWith_finish := rfl
  ends := by decide
  incoming := rfl
  outgoing := rfl
  nameable := by
    have hn : ∀ s ∈ ["a", "b", "t"], isName s := by
      simp [isName, Lexeme.nameRun, Lexeme.isNameChar, isWord_of_lt]
    have hw : distantJoin.nodesWith .task = ["a", "b", "t"].map fun s => ⟨s, .task, some s, []⟩ :=
      rfl
    rw [hw, List.forall_mem_map]
    exact fun s hs => ⟨hn s hs, by simp [Node.label]⟩
  labels := by decide
  tasks := by decide
  links := by decide
  linksFit n hn := .plain (by revert n; decide)
  reachable := by
    have : distantJoin.reachableFrom "S" = ["S", "f", "a", "t", "j", "E", "b"] := by cbv
    rw [this]
    decide
  leading := by
    have : distantJoin.leadingTo "E" = ["E", "j", "t", "a", "f", "S", "b"] := by cbv
    rw [this]
    decide

theorem render_distantJoin : distantJoin.render 1 = .error ⟨.revisited, some "t"⟩ := by
  have hw : walk (distantJoin.terrain "E" 1) ⟨[], { stop := "E" }, "S"⟩ distantJoin.nodes
      = .error ⟨.revisited, some "t"⟩ := by cbv
  rw [terrain] at hw
  rw [render, toDefinition, anchors_eq_ok.mpr sound_distantJoin]
  simp only [bind, Except.bind, hw]
  rfl

theorem not_branchesEnd_distantJoin :
    distantJoin.render 1 = .error ⟨.revisited, some "t"⟩ ∧
      ∃ xs, distantJoin.Behind "E" "f" ("t" :: xs) ∧
        (distantJoin.terrain "E" 1).branchesEnd ⟨"f", .fork, none, []⟩ = "j" ∧
        ¬ Unmatched distantJoin.type? 0 ("t" :: xs) := by
  have ⟨x, xs, hb, hi, _⟩ := sound_distantJoin.branchesEnd_eq_iff 1
    (show ⟨"f", .fork, none, []⟩ ∈ _ by decide) (by decide)
  have him := sound_distantJoin.led.isImmediate (show "f" ∈ _ by decide) (by decide)
  have hp : distantJoin.immediatePostDominator "E" "f" = "t" := by cbv
  obtain rfl : x = "t" := (sound_distantJoin.led.eq_of_isImmediate hb.isImmediate him).trans hp
  have he : (distantJoin.terrain "E" 1).branchesEnd ⟨"f", .fork, none, []⟩ = "j" := by cbv
  refine ⟨render_distantJoin, xs, hb, he, fun hu => ?_⟩
  exact absurd (he.symm.trans (hi.mpr (.inr (.inr hu)))) (by decide)

end TaskFlow.Graph
