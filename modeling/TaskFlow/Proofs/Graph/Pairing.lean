import TaskFlow.Proofs.Graph.Isomorphism

namespace TaskFlow

variable {σ : String → String} {vs vs' : List Vertex}

section Pairing

variable {α β : Type} [DecidableEq β] {fits : α → β → Bool} {agree : α × β → α × β → Bool}

-- By induction on what is still to be paired. What is paired later agrees with all of `done`.
theorem exists_pairing {as : List α} {bs : List β} {done : List (α × β)}
    (h : canPair fits agree as bs done) : ∃ ps : List (α × β), ps.map (·.1) = as ∧
      (ps.map (·.2)).Perm bs ∧ (∀ p ∈ ps, fits p.1 p.2) ∧
      (∀ p ∈ ps, agree p p ∧ ∀ q ∈ done, agree p q) ∧ ps.Pairwise fun p q => agree q p := by
  induction as generalizing bs done
  case nil =>
    have hb : bs = [] := by simpa [canPair] using h
    exact ⟨[], rfl, hb ▸ .refl _, List.forall_mem_nil _, List.forall_mem_nil _, .nil⟩
  case cons a as hi =>
    simp only [canPair, List.any_eq_true, Bool.and_eq_true, List.all_eq_true] at h
    obtain ⟨b, hb, ⟨⟨hf, hg⟩, hd⟩, hc⟩ := h
    obtain ⟨ps, hfst, hsnd, hfits, hagree, hpair⟩ := hi hc
    refine ⟨(a, b) :: ps, by simp [hfst], ?_, List.forall_mem_cons.mpr ⟨hf, hfits⟩,
      List.forall_mem_cons.mpr ⟨⟨hg, hd⟩, fun p hp => ?_⟩, List.pairwise_cons.mpr ⟨?_, hpair⟩⟩
    · exact (hsnd.cons b).trans (List.perm_cons_erase hb).symm
    · exact ⟨(hagree p hp).1, (List.forall_mem_cons.mp (hagree p hp).2).2⟩
    · exact fun p hp => (List.forall_mem_cons.mp (hagree p hp).2).1

end Pairing

-- How often a condition occurs matters only if some condition occurs twice and another one as well.
theorem perm_of_sameBundle {xs ys : List (Option String)} (h : sameBundle xs ys)
    (hy : (∀ y ∈ ys, y = none) ∨ ys.Nodup) : xs.Perm ys := by
  simp only [sameBundle, Bool.and_eq_true, beq_iff_eq, List.all_eq_true, List.contains_iff_mem] at h
  obtain ⟨⟨hl, hxy⟩, hyx⟩ := h
  obtain hy | hy := hy
  case inl =>
    have hx : ∀ x ∈ xs, x = none := fun x hx => hy x (hxy x hx)
    rw [List.eq_replicate_of_mem hx, List.eq_replicate_of_mem hy, hl]
  case inr => exact ((hy.subperm hyx).perm_of_length_le (Nat.le_of_eq hl)).symm

namespace Graph

variable {g g' : Graph} {x y : String}

-- Whether two colourings give the same colour to vertices with the same attributes only.
def Telling (vs vs' : List Vertex) (c : Coloring × Coloring) : Prop :=
  ∃ k k', c = (painted vs k, painted vs' k') ∧
    ∀ v ∈ vs, ∀ w ∈ vs', k v = k' w → v.attributes = w.attributes

theorem colorBy_telling {α : Type} [BEq α] [LawfulBEq α] {mark mark' : Vertex → α}
    (h : ∀ v ∈ vs, ∀ w ∈ vs', mark v = mark' w → v.attributes = w.attributes) :
    Telling vs vs' (colorBy vs vs' mark mark') := by
  refine ⟨_, _, colorBy_eq, fun v hv w hw he => h v hv w hw ?_⟩
  exact (List.idxOf_inj (List.mem_append_left _ (List.mem_map_of_mem hv))).mp he

-- The first part of a signature is the colour before, so vertices that have parted stay apart.
theorem refine_telling (hn : (vs.map (·.id)).Nodup) (hn' : (vs'.map (·.id)).Nodup) (rounds : Nat) :
    Telling vs vs' (refine g g' vs vs' rounds) := by
  induction rounds
  case zero => exact colorBy_telling fun _ _ _ _ => id
  case succ rounds hi =>
    obtain ⟨k, k', he, hk⟩ := hi
    rw [refine, he]
    refine colorBy_telling fun v hv w hw hs => hk v hv w hw ?_
    have hc : colorOf (painted vs k) v.id = colorOf (painted vs' k') w.id := congrArg Prod.fst hs
    rwa [colorOf_painted hn hv, colorOf_painted hn' hw] at hc

theorem bundle_eq : g.bundle x y = ((g.outgoing x).filter (·.target = y)).map (·.condition) := by
  rw [bundle, outgoing, List.filter_filter]
  simp [Bool.and_comm, beq_eq_decide]

theorem count_bundle {c : Option String} : (g.bundle x y).count c = g.links.count ⟨x, y, c⟩ := by
  rw [bundle, List.count_eq_countP, List.countP_map, List.countP_filter, List.count_eq_countP]
  refine List.countP_congr fun l _ => ?_
  obtain ⟨s, t, d⟩ := l
  simp [and_comm, and_assoc]

-- A link is as often among the links of a graph as its condition is in the bundle it belongs to.
theorem links_perm (hg : g.Proper) (hg' : g'.Proper)
    (hi : ∀ x ∈ g.ids, ∀ y ∈ g.ids, σ x = σ y → x = y) (hp : (g.ids.map σ).Perm g'.ids)
    (hb : ∀ x ∈ g.ids, ∀ y ∈ g.ids, (g.bundle x y).Perm (g'.bundle (σ x) (σ y))) :
    (g.links.map (·.renamed σ)).Perm g'.links := by
  refine List.perm_iff_count.mpr fun l' => ?_
  by_cases hm : l'.source ∈ g'.ids ∧ l'.target ∈ g'.ids
  case pos =>
    obtain ⟨x, hx, hs⟩ := List.mem_map.mp (hp.mem_iff.mpr hm.1)
    obtain ⟨y, hy, ht⟩ := List.mem_map.mp (hp.mem_iff.mpr hm.2)
    have hl' : l' = ⟨σ x, σ y, l'.condition⟩ := by rw [hs, ht]
    -- The new ids are told apart as the old ones are, so no two links become one.
    have hl : (g.links.map (·.renamed σ)).count l' = g.links.count ⟨x, y, l'.condition⟩ := by
      rw [List.count_eq_countP, List.countP_map, List.count_eq_countP]
      refine List.countP_congr fun l hl => ?_
      have ⟨hls, hlt⟩ := hg.ends l hl
      rw [Function.comp_apply, beq_iff_eq, beq_iff_eq, hl']
      constructor
      · intro he
        have hs := hi _ hls x hx (congrArg Link.source he)
        have ht := hi _ hlt y hy (congrArg Link.target he)
        have hc : l.condition = l'.condition := congrArg (·.condition) he
        rw [← hs, ← ht, ← hc]
      · rintro rfl
        rfl
    rw [hl, ← count_bundle, (hb x hx y hy).count_eq, count_bundle, ← hl']
  case neg =>
    rw [List.count_eq_zero_of_not_mem, List.count_eq_zero_of_not_mem]
    · exact fun h => hm (hg'.ends l' h)
    · intro h
      obtain ⟨l, hl, rfl⟩ := List.mem_map.mp h
      have ⟨hls, hlt⟩ := hg.ends l hl
      exact hm ⟨hp.mem_iff.mp (List.mem_map_of_mem hls), hp.mem_iff.mp (List.mem_map_of_mem hlt)⟩

-- Whether vertices of two graphs are paired so that the paired ones agree in what matters of them
-- and in the bundles between them.
structure Paired (g g' : Graph) (ps : List (Vertex × Vertex)) : Prop where
  left : (ps.map (·.1)).Perm g.vertices
  right : (ps.map (·.2)).Perm g'.vertices
  attributes : ∀ p ∈ ps, p.1.attributes = p.2.attributes
  bundles : ∀ p ∈ ps, ∀ q ∈ ps, sameBundle (g.bundle p.1.id q.1.id) (g'.bundle p.2.id q.2.id)

namespace Proper

theorem nodup_vertices (hg : g.Proper) : (g.vertices.map (·.id)).Nodup :=
  hg.map_id_vertices ▸ hg.ids

theorem exists_paired (hg : g.Proper) (hg' : g'.Proper) (h : g.equivalent g') :
    ∃ ps, Paired g g' ps := by
  have ht : Telling _ _ (g.refine g' _ _ Graph.rounds) :=
    refine_telling hg.nodup_vertices hg'.nodup_vertices _
  obtain ⟨k, k', he, hk⟩ := ht
  rw [Graph.equivalent, he, Bool.and_eq_true] at h
  obtain ⟨ps, hfst, hsnd, hfits, hself, hpair⟩ := exists_pairing h.2
  have hleft : (ps.map (·.1)).Perm (painted g.vertices k) :=
    hfst ▸ Iso.arranged_perm hg.nodup_vertices
  have hvertices {vs k} : (painted vs k).map (·.1) = vs := by simp [painted, Function.comp_def]
  have hl := hleft.map (·.1)
  have hr := hsnd.map (·.1)
  rw [hvertices, List.map_map] at hl hr
  refine ⟨ps.map fun p => (p.1.1, p.2.1), ?_, ?_, List.forall_mem_map.mpr fun p hp => ?_, ?_⟩
  · rwa [List.map_map]
  · rwa [List.map_map]
  · obtain ⟨v, hv, hp₁⟩ := List.mem_map.mp (hleft.subset (List.mem_map_of_mem hp))
    obtain ⟨w, hw, hp₂⟩ := List.mem_map.mp (hsnd.subset (List.mem_map_of_mem hp))
    have hc : p.1.2 = p.2.2 := beq_iff_eq.mp (hfits p hp)
    rw [← hp₁, ← hp₂] at hc ⊢
    exact hk v hv w hw hc
  · refine List.forall_mem_map.mpr fun p hp => List.forall_mem_map.mpr fun q hq => ?_
    -- Each pair has been compared with those before it. Agreement is symmetric, so this is enough.
    let R := fun p q : (Vertex × Nat) × Vertex × Nat =>
      sameBundle (g.bundle p.1.1.id q.1.1.id) (g'.bundle p.2.1.id q.2.1.id) ∧
        sameBundle (g.bundle q.1.1.id p.1.1.id) (g'.bundle q.2.1.id p.2.1.id)
    have _ : Std.Symm R := ⟨fun _ _ => And.symm⟩
    have hr : ∀ p ∈ ps, R p p := fun p hp => Bool.and_eq_true_iff.mp (hself p hp).1
    have hpair : ps.Pairwise R := hpair.imp fun h => (Bool.and_eq_true_iff.mp h).symm
    exact (List.Pairwise.forall_of_forall hr hpair hp hq).1

-- The bundles of one of the graphs have to say how often each condition occurs, since the search
-- compares them as sets.
theorem exists_iso (hg : g.Proper) (hg' : g'.Proper)
    (hb : ∀ x y, (∀ c ∈ g'.bundle x y, c = none) ∨ (g'.bundle x y).Nodup) (h : g.equivalent g') :
    ∃ σ, Iso σ g g' := by
  obtain ⟨ps, hp⟩ := hg.exists_paired hg' h
  have hids := hp.left.map (·.id)
  have hids' := hp.right.map (·.id)
  rw [hg.map_id_vertices] at hids
  rw [hg'.map_id_vertices] at hids'
  have hl : ((ps.map (·.1)).map (·.id)).length = ((ps.map (·.2)).map (·.id)).length := by simp
  -- The pairs are ids and new ids, read off in the same order.
  obtain ⟨σ, hσ⟩ := exists_map_eq (hids.nodup_iff.mpr hg.ids) hl
  have hm : (g.ids.map σ).Perm g'.ids := ((hids.map σ).symm.trans (.of_eq hσ)).trans hids'
  have hi : ∀ x ∈ g.ids, ∀ y ∈ g.ids, σ x = σ y → x = y := fun x hx y hy =>
    List.inj_on_of_nodup_map (hm.nodup_iff.mpr hg'.ids) hx hy
  have hpair : ∀ p ∈ ps, σ p.1.id = p.2.id := by
    simpa using hσ
  refine ⟨σ, hi, ?_, links_perm hg hg' hi hm fun x hx y hy => ?_⟩
  · have hr : (ps.map (·.1)).map (·.renamed σ) = ps.map (·.2) := by
      rw [List.map_map]
      refine List.map_congr_left fun p hm => ?_
      rw [Function.comp_apply, Vertex.renamed, hpair p hm, hp.attributes p hm]
    rw [← hg.vertices, ← hg'.vertices]
    exact ((hp.left.map _).symm.trans (.of_eq hr)).trans hp.right
  · obtain ⟨v, hv, rfl⟩ := List.mem_map.mp (hids.mem_iff.mpr hx)
    obtain ⟨w, hw, rfl⟩ := List.mem_map.mp (hids.mem_iff.mpr hy)
    obtain ⟨p, hm, rfl⟩ := List.mem_map.mp hv
    obtain ⟨q, hq, rfl⟩ := List.mem_map.mp hw
    rw [hpair p hm, hpair q hq]
    exact perm_of_sameBundle (hp.bundles p hm q hq) (hb _ _)

end Proper

end Graph

end TaskFlow
