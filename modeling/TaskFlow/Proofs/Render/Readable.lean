import TaskFlow.Proofs.Render.Recovery

namespace TaskFlow.Graph

open Lexeme

variable {g : Graph} {d : Definition} {limit : Int} {text : String}

-- Whether a branch somewhere in a graph passes to its end by nodes that have no text. What counts
-- as the end of the branches depends on where the graph ends.
def HasHollowBranch (g : Graph) : Prop :=
  ∃ finish ∈ g.nodesWith .finish, ∃ n ∈ g.nodes, HollowAt (g.terrain finish.id 0) n

theorem Recovers.not_clashes (h : g.Recovers limit d)
    (hn : ∀ n ∈ g.nodesWith .task, ∀ s ∈ n.name, s.toList.getLast? ≠ some '-') : ¬ d.Clashes := by
  refine Definition.not_clashes h.writable fun t ht => ?_
  have ht := h.mentions_perm.mem_iff.mp ht
  obtain ⟨n, hm, rfl⟩ := List.mem_map.mp ht
  cases hc : n.name
  case none => simp [Node.task, hc]
  case some s => simpa [Node.task, hc] using hn n hm s hc

theorem Recovers.normal_or_hollow (h : g.Recovers limit d) :
    d.Normal ∧ ¬ g.HasHollowBranch ∨ d.Hollow ∧ g.HasHollowBranch := by
  have hne := h.ne_nil
  obtain ⟨start, finish, left, hs, hw, hl, _⟩ := h
  have hx : g.HasHollowBranch ↔ ∃ n ∈ g.nodes, HollowAt (g.terrain finish.id limit) n := by
    simp only [HasHollowBranch, hs.nodesWith_finish, List.mem_singleton, exists_eq_left]
    rfl
  by_cases hb : g.HasHollowBranch
  case pos =>
    refine .inr ⟨(walk_hollow hs.firm (List.Subset.refl _) (hx.mp hb) hw).resolve_left ?_, hb⟩
    rintro ⟨n, hn, _, l, ho, _⟩
    have hm := walk_rest_subset hw hn
    have : n = finish := hs.eq_finish hm (hl n hn)
    have hf : (g.terrain finish.id limit).graph.outgoing n.id = [] := this ▸ hs.outgoing
    simp [hf] at ho
  case neg =>
    refine .inl ⟨(walk_normal hs.firm (List.Subset.refl _) (fun n hn hh => ?_) hw).resolve_right hne,
      hb⟩
    exact hb (hx.mpr ⟨n, hn, hh⟩)

-- A rendered text is read again just if no branch of the graph is without text.
theorem exists_read_iff_of_render (hl : 0 ≤ limit)
    (hn : ∀ n ∈ g.nodesWith .task, ∀ s ∈ n.name, s.toList.getLast? ≠ some '-')
    (h : g.render limit = .ok text) :
    (∃ a, Definition.read text limit = .ok a) ↔ ¬ g.HasHollowBranch := by
  obtain ⟨d, hd, ht⟩ : ∃ d, g.toDefinition limit = .ok d ∧ d.text = text := by
    cases hd : g.toDefinition limit <;> simp_all [render, Except.map]
  subst ht
  have hr := recovers_iff.mp hd
  have hc := hr.not_clashes hn
  obtain ⟨hx, hb⟩ | ⟨hx, hb⟩ := hr.normal_or_hollow
  case inl =>
    have hdepth : bracketDepth d.text ≤ limit := by
      obtain ⟨_, _, _, _, _, _, hdepth⟩ := hr
      exact hdepth
    obtain ⟨a, ha, _⟩ := (Definition.read_text_iff hx hr.writable hl).mpr
      ⟨hc, hdepth, hr.labels_nodup, hr.selective⟩
    exact iff_of_true ⟨a, ha⟩ hb
  case inr =>
    refine iff_of_false ?_ (not_not.mpr hb)
    rintro ⟨_, ha⟩
    exact hx.not_read hr.writable hc ha

-- A fork with a task and with a join, both of which lead to the end.
def straightBranch : Graph where
  nodes := [⟨"S", .start, none, []⟩, ⟨"E", .finish, none, []⟩, ⟨"f", .fork, none, []⟩,
    ⟨"j", .join, none, []⟩, ⟨"a", .task, some "a", []⟩]
  links := [⟨"S", "f", none⟩, ⟨"f", "j", none⟩, ⟨"f", "a", none⟩, ⟨"j", "E", none⟩, ⟨"a", "E", none⟩]

theorem sound_straightBranch :
    straightBranch.Sound ⟨"S", .start, none, []⟩ ⟨"E", .finish, none, []⟩ where
  ids := by decide
  nodesWith_start := rfl
  nodesWith_finish := rfl
  ends := by decide
  incoming := rfl
  outgoing := rfl
  nameable := by
    have hn : isName "a" := by simp [isName, nameRun, isNameChar, isWord_of_lt]
    have hw : straightBranch.nodesWith .task = [⟨"a", .task, some "a", []⟩] := rfl
    rw [hw, List.forall_mem_singleton]
    exact ⟨hn, by simp [Node.label]⟩
  labels := by decide
  tasks := by decide
  links := by decide
  linksFit n hn := .plain (by revert n; decide)
  reachable := by
    have : straightBranch.reachableFrom "S" = ["S", "f", "j", "E", "a"] := by cbv
    rw [this]
    decide
  leading := by
    have : straightBranch.leadingTo "E" = ["E", "j", "f", "S", "a"] := by cbv
    rw [this]
    decide

theorem render_straightBranch : straightBranch.render 1 = .ok "< || a>" := by
  have hw : walk (straightBranch.terrain "E" 1) ⟨[], { stop := "E" }, "S"⟩ straightBranch.nodes
      = .ok (.split [.sequence [], .task ⟨"a", none, 0⟩], [⟨"E", .finish, none, []⟩]) := by cbv
  have ht : (Definition.split [.sequence [], .task ⟨"a", none, 0⟩]).text = "< || a>" := by
    simp [Definition.text, Definition.texts, TaskMention.text]
  have hd : bracketDepth "< || a>" ≤ (1 : Int) := by
    rw [bracketDepth_le_iff (by decide)]
    simp [lexemes, scanFrom_cons, isGap, first?, isNameChar, nameRun, isWord_of_lt]
    simp [Token.scanFrom, nestsFrom_cons, opens, level, closes]
  have hr := recovers_iff.mpr (.intro _ _ _ sound_straightBranch hw (by simp) (ht ▸ hd))
  simp [render, hr, Except.map, ht]

theorem hasHollowBranch_straightBranch : straightBranch.HasHollowBranch := by
  refine ⟨_, List.mem_singleton.mpr rfl, ⟨"f", .fork, none, []⟩, by decide, .inl rfl,
    ⟨"f", "j", none⟩, by decide, ?_⟩
  have he : (straightBranch.terrain "E" 0).branchesEnd ⟨"f", .fork, none, []⟩ = "E" := by cbv
  rw [he]
  exact .on (n := ⟨"j", .join, none, []⟩) (by decide) (.inr rfl) rfl .here

theorem not_read_straightBranch : straightBranch.render 1 = .ok "< || a>" ∧
    ¬ ∃ a, Definition.read "< || a>" 1 = .ok a := by
  have hn : ∀ n ∈ straightBranch.nodesWith .task, ∀ s ∈ n.name, s.toList.getLast? ≠ some '-' := by
    decide
  have hi := exists_read_iff_of_render (by decide) hn render_straightBranch
  exact ⟨render_straightBranch, fun h => hi.mp h hasHollowBranch_straightBranch⟩

end TaskFlow.Graph
