import TaskFlow.Proofs.Graph.Pairing
import TaskFlow.Proofs.Layout.Copies
import TaskFlow.Proofs.Layout.Rearranged
import TaskFlow.Proofs.Layout.Shape
import TaskFlow.Proofs.Render.Twins

namespace TaskFlow

open TaskFlow.Graph Subgraph Definition Lexeme

variable {σ : String → String} {g g' : Graph} {d d' a : Definition} {f f' : Subgraph}
  {ls : List Link} {start finish n : Node} {x y text : String} {limit k : Int}

namespace Graph

section Wildcards

-- The same links, those with a wildcard last.
def wildcardsLast (ls : List Link) : List Link :=
  ls.filter (·.condition != some wildcard) ++ ls.filter (·.condition == some wildcard)

theorem wildcardsLast_perm : (wildcardsLast ls).Perm ls := by
  refine List.perm_append_comm.trans ?_
  exact List.filter_append_perm (·.condition == some wildcard) ls

theorem filter_wildcardsLast {q : Link → Bool} :
    (wildcardsLast ls).filter q = wildcardsLast (ls.filter q) := by
  simp only [wildcardsLast, List.filter_append, List.filter_filter, Bool.and_comm]

theorem wildcardsLast_wildcardsLast : wildcardsLast (wildcardsLast ls) = wildcardsLast ls := by
  simp [wildcardsLast, List.filter_filter, bne]

theorem orderedClauses_eq :
    orderedClauses ls = (wildcardsLast ls).map fun l => (l.condition, l.target) :=
  rfl

theorem orderedClauses_wildcardsLast : orderedClauses (wildcardsLast ls) = orderedClauses ls := by
  rw [orderedClauses_eq, wildcardsLast_wildcardsLast, ← orderedClauses_eq]

theorem wildcard_last (h : (ls.filter (·.condition == some wildcard)).length ≤ 1) :
    some wildcard ∉ ((wildcardsLast ls).map (·.condition)).dropLast := by
  have hs : some wildcard ∉ (ls.filter (·.condition != some wildcard)).map (·.condition) := by
    simp
  rw [wildcardsLast, List.map_append]
  generalize ls.filter (·.condition == some wildcard) = ws at h
  match ws with
  | [] => exact fun hm => hs (by simpa using List.dropLast_subset _ hm)
  | [l] => rwa [List.map_singleton, List.dropLast_concat]
  | _ :: _ :: _ => simp at h

theorem Sound.wildcards (hs : g.Sound start finish) (x : String) :
    ((g.outgoing x).filter (·.condition == some wildcard)).length ≤ 1 := by
  by_cases hx : x ∈ g.ids
  case pos =>
    obtain ⟨n, hn, rfl⟩ := List.mem_map.mp hx
    rw [← List.countP_eq_length_filter]
    -- The conditions of a node are all different.
    cases hs.linksFit n hn
    case plain ho =>
      have hz : (g.outgoing n.id).countP (·.condition == some wildcard) = 0 :=
        List.countP_eq_zero.mpr fun l hl => by simp [ho l hl]
      exact hz ▸ Nat.zero_le 1
    case conditional cs _ ho _ _ hn =>
      have hc : (cs.map some).count (some wildcard) ≤ 1 :=
        List.nodup_iff_count_le_one.mp (hn.map (Option.some_injective _)) _
      rwa [← ho, List.count, List.countP_map] at hc
  case neg =>
    have ho : g.outgoing x = [] := by
      refine List.eq_nil_iff_forall_not_mem.mpr fun l hl => hx ?_
      have ⟨hl, hsource⟩ := mem_outgoing.mp hl
      exact hsource ▸ (hs.ends l hl).1
    simp [ho]

end Wildcards

theorem nodup_bundle (h : (g.successors x).Nodup) : (g.bundle x y).Nodup := by
  have hp : (g.outgoing x).Pairwise fun l l' => l.target ≠ l'.target := List.pairwise_map.mp h
  rw [bundle_eq]
  refine List.pairwise_map.mpr ((hp.filter _).imp_of_mem fun hl hl' hne => absurd ?_ hne)
  have target {l : Link} (hl : l ∈ (g.outgoing x).filter (·.target = y)) : l.target = y := by
    simpa using (List.mem_filter.mp hl).2
  exact (target hl).trans (target hl').symm

def transferred (σ : String → String) (g : Graph) (ns : List Node) : Graph :=
  ⟨ns, wildcardsLast (g.links.map (·.renamed σ))⟩

namespace Iso

variable (h : Iso σ g g')

include h

theorem length_nodes : g.nodes.length = g'.nodes.length := by
  simpa using h.nodes.length_eq

theorem outlined : Iso σ g.outlined g'.outlined where
  injective := by
    rw [ids_outlined]
    exact h.injective
  nodes := by
    let q : Vertex → Vertex := fun v => { v with attributes := v.attributes.map fun a =>
      if a.type = .task then a else a.type.nameless }
    have hq (n : Node) : n.outlined.vertex = q n.vertex := by
      by_cases ht : n.type = .task
      case pos => simp [q, Node.outlined, Node.vertex, Node.attributes, ht]
      case neg =>
        simp [q, Node.outlined, Node.vertex, Node.attributes, Node.label, NodeType.nameless, ht]
    have hp := h.nodes.map q
    simp only [List.map_map] at hp
    simp only [Graph.outlined, List.map_map]
    refine .trans (.of_eq ?_) (hp.trans (.of_eq ?_))
    · exact List.map_congr_left fun n _ => congrArg (·.renamed σ) (hq n)
    · exact List.map_congr_left fun n _ => (hq n).symm
  links := h.links

theorem outgoing_transferred_perm {ns : List Node} (x : String) :
    ((g.transferred σ ns).outgoing x).Perm (g'.outgoing x) :=
  (wildcardsLast_perm.trans h.links).filter _

theorem reordered_transferred (hs : g'.Sound start finish) :
    g'.Reordered (g.transferred σ g'.nodes) where
  nodes := List.Subset.refl _
  outgoing := h.outgoing_transferred_perm
  last x := by
    have hw := hs.wildcards x
    rw [Graph.outgoing, ← ((h.links.filter _).filter _).length_eq] at hw
    rw [Graph.outgoing, transferred, filter_wildcardsLast]
    exact wildcard_last hw

omit h in
theorem orderedClauses_transferred (h : Iso σ g g') (hg : g.Proper) {ns : List Node}
    (hx : x ∈ g.ids) : orderedClauses ((g.transferred σ ns).outgoing (σ x))
      = (orderedClauses (g.outgoing x)).map fun c => (c.1, σ c.2) := by
  have ho : (g.links.map (·.renamed σ)).filter (·.source == σ x)
      = (g.outgoing x).map (·.renamed σ) := by
    rw [List.filter_map, Graph.outgoing]
    exact congrArg _ (List.filter_congr fun l hl => (h.beq_iff (hg.ends l hl).1 hx).symm)
  rw [Graph.outgoing, transferred, filter_wildcardsLast, ho, orderedClauses_wildcardsLast,
    orderedClauses_renamed]

end Iso

end Graph

theorem Subgraph.Shuffled.whole (h : f.Shuffled f') : Iso id f.whole f'.whole := by
  refine .reordered ((h.nodes.symm.cons _).cons _) ?_
  simp only [Subgraph.whole, anchored, h.entry]
  exact h.links.symm.append ((h.exitsTo _).symm.cons _)

namespace Drawn

variable (h : Drawn d f)

include h

theorem rearranged (hr : Rearrangement g x (d, f) (d', f')) : Drawn d' f' where
  block := hr.block
  nodup := ((hr.subgraph.ids.cons _).cons _).nodup_iff.mpr h.nodup

theorem outgoing_eq (hs : f.whole.Reordered g) (hr : Rearrangement g "END" (d, f) (d', f')) :
    ∀ x ∈ f'.whole.ids, f'.whole.outgoing x = g.outgoing x := by
  have h' := h.rearranged hr
  refine List.forall_mem_cons.mpr ⟨?_, List.forall_mem_cons.mpr ⟨?_, fun x hx => ?_⟩⟩
  · have ho := hs.outgoing_eq_singleton h.outgoing_start
    exact h'.outgoing_start.trans (hr.subgraph.entry ▸ ho.symm)
  · have ho := hs.outgoing "END"
    rw [h.outgoing_finish] at ho
    exact h'.outgoing_finish.trans ho.eq_nil.symm
  · exact (h'.placed.outgoing x hx).trans (hr.wired.outgoing x hx).symm

-- Branches and clauses are put in the order in which the links of the graph leave its nodes.
theorem exists_twins (hw : d.WellFormed) (hg : g.Proper) (hi : Iso σ g f.whole) :
    ∃ d' f', d.Rearranged d' ∧ Drawn d' f' ∧ Iso σ g f'.whole ∧ Twins σ g f'.whole := by
  have hs := hi.reordered_transferred (h.sound hw)
  have hwired : Wired f.whole f "END" := h.placed.toWired
  have ⟨(d', f'), hr⟩ := h.block.exists_rearranged hs h.ids_nodup hwired
  have hi' : Iso σ g f'.whole := hi.trans hr.subgraph.whole
  refine ⟨d', f', hr.definition, h.rearranged hr, hi', hi'.outlined, fun x hx => ?_⟩
  rw [h.outgoing_eq hs hr _ (hi'.mem_ids hx), hi.orderedClauses_transferred hg hx]

end Drawn

namespace Definition

-- The canonical text is read as a definition whose graph differs in ids and order only.
theorem WellFormed.exists_reread (h : d.WellFormed) (hn : d.Dashless) (hl : 0 ≤ limit)
    (hb : bracketDepth d.canonical.text ≤ limit) (hd : Drawn d f) :
    ∃ b g τ, read d.canonical.text limit = .ok b ∧ b.toGraph = .ok g ∧ Iso τ f.whole g := by
  have hc := h.canonical
  have ⟨b, hr, hbare⟩ := (read_text_iff hc.normal hc.writable hl).mpr
    ⟨h.not_clashes hn, hb, hc.labels, hc.selective⟩
  have ⟨f', hf', hd'⟩ := h.drawn
  have ⟨g, hg, hnodes, hlinks⟩ := toGraph_canonical h.normal hf'
  have ⟨τ, hi⟩ := hd.exists_iso hd'
  exact ⟨b, g, _, hr, (toGraph_of_bare hbare).trans hg, hi.trans (.of_perm hnodes.symm hlinks.symm)⟩

-- The text comes from the rearranged definition, in whose graph the walk goes the same way.
theorem WellFormed.exists_render (h : d.WellFormed) (hn : d.Dashless) (hd : Drawn d f)
    (hg : g.Proper) (hi : Iso σ g f.whole) (hk : g.nodes.length ≤ k) :
    ∃ t b g' τ, g.render k = .ok t ∧ read t k = .ok b ∧ b.toGraph = .ok g' ∧ Iso τ g g' := by
  obtain ⟨d', f', hr, hd', hi', ht⟩ := hd.exists_twins h hg hi
  have hw := hr.wellFormed h
  have hsize : g.nodes.length = d'.size + 2 :=
    hi'.length_nodes.trans (congrArg (· + 2) hd'.block.length_nodes)
  have hl : (0 : Int) ≤ k := by omega
  have hb : bracketDepth d'.canonical.text ≤ k := by
    have := hw.bracketDepth_lt_size
    omega
  have hdef : f'.whole.toDefinition k = .ok d'.canonical :=
    (hd'.toDefinition_eq_ok_iff hw).mpr ⟨rfl, hw.walkable_of_size (by omega), hb⟩
  obtain ⟨_, ht', _⟩ := ht.symm hg
  have hrender : g.render k = .ok d'.canonical.text := by
    rw [render, ht'.toDefinition_eq hdef]
    rfl
  obtain ⟨b, g', τ, hread, hg', hτ⟩ := hw.exists_reread (hr.dashless hn) hl hb hd'
  exact ⟨_, b, g', _, hrender, hread, hg', hi'.trans hτ⟩

-- Every graph that is found to be equivalent to that of a definition has a text, and what is read
-- from it has an equivalent graph.
theorem exists_render_of_equivalent (h : read text limit = .ok a) (hn : a.Dashless) :
    ∃ g₀, a.toGraph = .ok g₀ ∧ ∀ g (k : Int), g.Proper → g.equivalent g₀ → g.nodes.length ≤ k →
      ∃ t b g', g.render k = .ok t ∧ read t k = .ok b ∧ b.toGraph = .ok g' ∧ g'.equivalent g := by
  have hw := wellFormed_of_read h
  have ⟨f, hf, hd⟩ := hw.drawn
  refine ⟨f.whole, toGraph_bare ▸ hf, fun g k hg he hk => ?_⟩
  -- A condition occurs at most once in a bundle of this graph, so no other bundle passes for it.
  have hb (x y : String) : (f.whole.bundle x y).Nodup := nodup_bundle (hd.nodup_successors x)
  have ⟨σ, hi⟩ := hg.exists_iso (hd.sound hw).proper (fun x y => .inr (hb x y)) he
  have ⟨t, b, g', τ, ht, hread, hg', hτ⟩ :=
    hw.exists_render (dashless_bare.mpr hn) hd hg hi hk
  have ⟨_, hback, _⟩ := hτ.symm hg
  exact ⟨t, b, g', ht, hread, hg', hback.equivalent (hτ.proper hg)⟩

def twoClauses : Definition :=
  .transition ⟨"a", none, 0⟩ [(some "X", .task ⟨"b", none, 0⟩), (some "*", .task ⟨"c", none, 0⟩)]

theorem wellFormed_twoClauses : twoClauses.WellFormed where
  normal := by simp [twoClauses, normal_transition, Normal.task]
  writable := by
    have hn {s : String} (hs : s ∈ ["a", "b", "c"]) : TaskMention.Named ⟨s, none, 0⟩ := by
      refine ⟨?_, nofun⟩
      revert s
      simp [isName, nameRun, isNameChar, isWord_of_lt]
    exact ⟨by simp [twoClauses, hn], by simp [twoClauses, Quotable, isQuotable]⟩
  labels := by simp [twoClauses]
  selective := by
    have : twoClauses.patternLists = [[some "X", some "*"]] := by simp [twoClauses]
    rw [this, List.forall_mem_singleton]
    exact ⟨by decide, by decide, by decide⟩

-- The graph of `twoClauses` with ids that say nothing, in which the wildcard stands first.
def wildcardFirst : Graph where
  nodes := [⟨"5", .task, some "c", []⟩, ⟨"1", .start, none, []⟩, ⟨"4", .task, some "b", []⟩,
    ⟨"2", .finish, none, []⟩, ⟨"3", .task, some "a", []⟩]
  links := [⟨"1", "3", none⟩, ⟨"3", "5", some "*"⟩, ⟨"3", "4", some "X"⟩, ⟨"5", "2", none⟩,
    ⟨"4", "2", none⟩]

theorem proper_wildcardFirst : wildcardFirst.Proper where
  ids := by decide
  ends := by decide

def speakingId (id : String) : String :=
  ([("1", "START"), ("2", "END"), ("3", "a"), ("4", "b"), ("5", "c")].lookup id).getD id

theorem iso_wildcardFirst (h : twoClauses.toGraph = .ok g) : Iso speakingId wildcardFirst g := by
  cases h
  exact ⟨by decide, by decide, by decide⟩

theorem render_wildcardFirst : ∃ a g₀, read "a -> X: b -> '*': c" 0 = .ok a ∧ a.Dashless ∧
    a.toGraph = .ok g₀ ∧ wildcardFirst.Proper ∧ wildcardFirst.equivalent g₀ ∧
    ∃ t b g', wildcardFirst.render 5 = .ok t ∧ read t 5 = .ok b ∧ b.toGraph = .ok g' ∧
      g'.equivalent wildcardFirst := by
  have hw := wellFormed_twoClauses
  have hn : twoClauses.Dashless := by simp [twoClauses, Dashless]
  have hx : twoClauses.text = "a -> X: b -> '*': c" := by
    simp [twoClauses, text, clausesText, TaskMention.text, isSimple, statusText, isName, nameRun,
      isNameChar, isWord_of_lt]
  obtain ⟨a, ha, hbare⟩ := hw.exists_read (Int.le_refl 0) (Definition.not_clashes hw.writable hn)
    (by simp [twoClauses, targetNesting, isSimple])
  have hna : a.Dashless := dashless_bare.mp (hbare ▸ dashless_bare.mpr hn)
  obtain ⟨g₀, hg, hr⟩ := exists_render_of_equivalent ha hna
  have hi := iso_wildcardFirst ((toGraph_of_bare hbare).symm.trans hg)
  have he := hi.equivalent proper_wildcardFirst
  exact ⟨a, g₀, hx ▸ ha, hna, hg, proper_wildcardFirst, he,
    hr wildcardFirst 5 proper_wildcardFirst he (by decide)⟩

end Definition

end TaskFlow
