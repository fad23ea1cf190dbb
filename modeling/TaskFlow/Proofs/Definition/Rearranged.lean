import TaskFlow.Proofs.Render.Limits

namespace TaskFlow.Definition

-- Whether a definition is another one with the branches of splits and the clauses of transitions in
-- another order.
inductive Rearranged : Definition → Definition → Prop
  | task {t} : Rearranged (.task t) (.task t)
  | sequence {bs : List (Definition × Definition)} : (∀ b ∈ bs, Rearranged b.1 b.2) →
    Rearranged (.sequence (bs.map (·.1))) (.sequence (bs.map (·.2)))
  | split {bs : List (Definition × Definition)} {ds} : (∀ b ∈ bs, Rearranged b.1 b.2) →
    ds.Perm (bs.map (·.2)) → Rearranged (.split (bs.map (·.1))) (.split ds)
  | transition {t} {bs : List (Option String × Definition × Definition)} {cs} :
    (∀ b ∈ bs, Rearranged b.2.1 b.2.2) → cs.Perm (bs.map fun b => (b.1, b.2.2)) →
    some wildcard ∉ (cs.map (·.1)).dropLast →
    Rearranged (.transition t (bs.map fun b => (b.1, b.2.1))) (.transition t cs)

theorem perm_map {α β γ : Type} {k : α → β} {bs : List α} {xs : List β} (q : β → γ)
    (h : xs.Perm (bs.map k)) : (xs.map q).Perm (bs.map fun b => q (k b)) :=
  (h.map q).trans (.of_eq List.map_map)

-- Parts that are replaced and permuted contain the same, in another order.
theorem perm_flatMap {α β γ : Type} {k : α → List γ} {l r : β → α} {bs : List β} {xs : List α}
    (hp : xs.Perm (bs.map r)) (hk : ∀ b ∈ bs, (k (r b)).Perm (k (l b))) :
    (xs.flatMap k).Perm ((bs.map l).flatMap k) := by
  have hp := hp.flatMap_right k
  rw [List.flatMap_map] at hp ⊢
  exact hp.trans (List.Perm.flatMap_left _ hk)

namespace Rearranged

section Parts

variable {β : Type} {l r : β → Definition} {bs : List β} (h : ∀ b ∈ bs, (l b).Rearranged (r b))

include h

theorem ofSteps : (Definition.sequence (bs.map l)).Rearranged (.sequence (bs.map r)) := by
  have := @Rearranged.sequence (bs.map fun b => (l b, r b)) (List.forall_mem_map.mpr h)
  rwa [List.map_map, List.map_map] at this

theorem ofBranches {ds : List Definition} (hp : ds.Perm (bs.map r)) :
    (Definition.split (bs.map l)).Rearranged (.split ds) := by
  have := @Rearranged.split (bs.map fun b => (l b, r b)) ds (List.forall_mem_map.mpr h)
    (by rwa [List.map_map])
  rwa [List.map_map] at this

theorem ofClauses {t : TaskMention} {p : β → Option String} {cs : List Clause}
    (hp : cs.Perm (bs.map fun b => (p b, r b))) (hl : some wildcard ∉ (cs.map (·.1)).dropLast) :
    (Definition.transition t (bs.map fun b => (p b, l b))).Rearranged (.transition t cs) := by
  have := @Rearranged.transition t (bs.map fun b => (p b, l b, r b)) cs
    (List.forall_mem_map.mpr h) (by rwa [List.map_map]) hl
  rwa [List.map_map] at this

end Parts

variable {d d' : Definition} (h : Rearranged d d')

include h

theorem isStep : d'.isStep = d.isStep := by
  cases h <;> rfl

-- Branches and clauses only change their places.
theorem normal (hd : d.Normal) : d'.Normal := by
  induction h
  case task => exact hd
  case sequence bs hb hi =>
    have ⟨hl, hs, hn⟩ := normal_sequence.mp hd
    rw [List.forall_mem_map] at hs hn
    refine .sequence (by simpa using hl) ?_ ?_
    · exact List.forall_mem_map.mpr fun b hm => (hb b hm).isStep.trans (hs b hm)
    · exact List.forall_mem_map.mpr fun b hm => hi b hm (hn b hm)
  case split bs ds _ hp hi =>
    have ⟨hne, hn⟩ := normal_split.mp hd
    rw [List.forall_mem_map] at hn
    refine .split (fun he => hne ?_) fun d hm => ?_
    · have := List.nil_perm.mp (he ▸ hp)
      simpa using this
    · obtain ⟨b, hb, rfl⟩ := List.mem_map.mp (hp.subset hm)
      exact hi b hb (hn b hb)
  case transition t bs cs _ hp _ hi =>
    have ⟨hne, hsome, hn⟩ := normal_transition.mp hd
    rw [List.forall_mem_map] at hsome hn
    refine .transition (fun he => hne ?_) (fun c hm => ?_) fun c hm => ?_
    · have := List.nil_perm.mp (he ▸ hp)
      simpa using this
    all_goals obtain ⟨b, hb, rfl⟩ := List.mem_map.mp (hp.subset hm)
    · exact hsome b hb
    · exact hi b hb (hn b hb)

theorem mentions_perm : d'.mentions.Perm d.mentions := by
  induction h
  case task => exact .refl _
  case sequence hi =>
    rw [mentions_sequence, mentions_sequence]
    exact perm_flatMap (.refl _) hi
  case split hp hi =>
    rw [mentions_split, mentions_split]
    exact perm_flatMap hp hi
  case transition hp _ hi =>
    rw [mentions_transition, mentions_transition]
    exact (perm_flatMap (k := (·.2.mentions)) (l := fun b => (b.1, b.2.1)) hp hi).cons _

-- The clauses of a task are permuted, and where there is a wildcard it stands last again.
theorem patternLists {ps : List (Option String)} (hp : ps ∈ d'.patternLists) :
    some wildcard ∉ ps.dropLast ∧ ∃ qs ∈ d.patternLists, ps.Perm qs := by
  induction h
  case task => simp at hp
  case sequence hi =>
    simp only [patternLists_sequence, List.mem_flatMap, List.mem_map] at hp ⊢
    obtain ⟨_, ⟨b, hb, rfl⟩, hp⟩ := hp
    have ⟨hl, qs, hq, hpq⟩ := hi b hb hp
    exact ⟨hl, qs, ⟨_, ⟨b, hb, rfl⟩, hq⟩, hpq⟩
  case split hds hi =>
    simp only [patternLists_split, List.mem_flatMap, hds.mem_iff, List.mem_map] at hp ⊢
    obtain ⟨_, ⟨b, hb, rfl⟩, hp⟩ := hp
    have ⟨hl, qs, hq, hpq⟩ := hi b hb hp
    exact ⟨hl, qs, ⟨_, ⟨b, hb, rfl⟩, hq⟩, hpq⟩
  case transition hcs hlast hi =>
    simp only [patternLists_transition, List.mem_cons, List.mem_flatMap, hcs.mem_iff,
      List.mem_map] at hp ⊢
    obtain rfl | ⟨_, ⟨b, hb, rfl⟩, hp⟩ := hp
    case inl =>
      refine ⟨hlast, _, .inl rfl, ?_⟩
      have := hcs.map (·.1)
      rw [List.map_map] at this ⊢
      exact this
    case inr =>
      have ⟨hl, qs, hq, hpq⟩ := hi b hb hp
      exact ⟨hl, qs, .inr ⟨_, ⟨b, hb, rfl⟩, hq⟩, hpq⟩

theorem wellFormed (hd : d.WellFormed) : d'.WellFormed where
  normal := h.normal hd.normal
  writable.named t ht := hd.writable.named t (h.mentions_perm.subset ht)
  writable.quotable ps hp := by
    have ⟨_, qs, hq, hpq⟩ := h.patternLists hp
    exact fun p hm => hd.writable.quotable qs hq p (hpq.subset hm)
  labels := (h.mentions_perm.filterMap _).nodup_iff.mpr hd.labels
  selective ps hp := by
    have ⟨hl, qs, hq, hpq⟩ := h.patternLists hp
    have hs := hd.selective qs hq
    exact ⟨fun hm => hs.nonempty (hpq.subset hm), hpq.nodup_iff.mpr hs.nodup, hl⟩

theorem dashless (hd : d.Dashless) : d'.Dashless :=
  fun t ht => hd t (h.mentions_perm.subset ht)

end Rearranged

end TaskFlow.Definition
