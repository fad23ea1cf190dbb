import TaskFlow.Proofs.Layout.Anchored
import TaskFlow.Proofs.Layout.Canonical
import TaskFlow.Proofs.Reader.Image
import TaskFlow.Proofs.Render.Safety

namespace TaskFlow

open TaskFlow.Graph Subgraph Definition Lexeme

variable {g : Graph} {finish x y text : String} {p p' : IdPool} {d a e : Definition}
  {ds : List Definition} {f f' : Subgraph} {fs : List Subgraph} {i : Nat} {path : List Nat}
  {limit : Int} {t : TaskMention} {cs : List Clause}

namespace Subgraph

variable {fork join fork' join' n n' : Node} {fs' : List Subgraph}
  {bs bs' : List (Option String × Subgraph)}

theorem sideBySide_inj (h : sideBySide fork join fs = sideBySide fork' join' fs') :
    fork = fork' ∧ join = join' := by
  have ⟨hb, hj⟩ := List.append_inj' (congrArg Subgraph.nodes h) rfl
  exact ⟨(List.cons.inj hb).1, List.singleton_inj.mp hj⟩

theorem select_inj (h : select n bs = select n' bs') : n = n' :=
  (List.cons.inj (congrArg Subgraph.nodes h)).1

end Subgraph

namespace Definition

section Children

def children : Definition → List Definition
  | task _ => []
  | sequence ds => ds
  | split ds => ds
  | transition _ cs => cs.map (·.2)

-- The part of a definition that one comes to by going on from child to child.
def at? (d : Definition) : List Nat → Option Definition
  | [] => some d
  | i :: path => d.children[i]?.bind (·.at? path)

theorem Normal.children (h : d.Normal) : ∀ e ∈ d.children, e.Normal := by
  cases h
  case task => exact List.forall_mem_nil _
  case sequence h => exact h
  case split h => exact h
  case transition h => exact List.forall_mem_map.mpr h

theorem Drawable.children (h : d.Drawable) : ∀ e ∈ d.children, e.Drawable := by
  cases h
  case task => exact List.forall_mem_nil _
  case sequence h => exact h
  case split h => exact h
  case transition h => exact List.forall_mem_map.mpr h

end Children

section LayOut

-- The pool from which the children of a definition are laid out. A split has taken an id for its
-- fork by then, and a transition one for its task.
def opened (p : IdPool) : Definition → Except LayoutFault IdPool
  | task _ => .ok p
  | sequence _ => .ok p
  | split _ => (p.newNode "FORK" .fork).map (·.2)
  | transition t _ => (p.newTask t).map (·.2)

-- The subgraph of the part of a definition at the end of a path, if there is such a part, when the
-- whole is laid out from a pool.
def layOutAt (p : IdPool) (d : Definition) : List Nat → Except LayoutFault (Option Subgraph)
  | [] => do
    let (f, _) ← d.layOut p
    pure (some f)
  | i :: path =>
    match d.children[i]? with
    | none => pure none
    | some e => do
      let p ← d.opened p
      let (_, p) ← layOutBranches p (d.children.take i)
      layOutAt p e path

-- A child is laid out from the pool that the children before it leave.
theorem layOut_getElem? (h : layOutBranches p ds = .ok (fs, p')) (he : ds[i]? = some e) :
    ∃ gs q f q', layOutBranches p (ds.take i) = .ok (gs, q) ∧ layOut q e = .ok (f, q') ∧ f ∈ fs := by
  induction ds generalizing p fs i
  case nil => cases he
  case cons d ds hi =>
    obtain ⟨f, p₁, fs, hf, hs, rfl⟩ := layOutBranches_cons_eq_ok.mp h
    cases i
    case zero =>
      cases he
      exact ⟨[], p, f, p₁, rfl, hf, List.mem_cons_self⟩
    case succ i =>
      have ⟨gs, q, f', q', hg, hf', hm⟩ := hi hs he
      refine ⟨f :: gs, q, f', q', ?_, hf', List.mem_cons_of_mem f hm⟩
      exact layOutBranches_cons_eq_ok.mpr ⟨f, p₁, gs, hf, hg, rfl⟩

theorem length_layOutBranches (h : layOutBranches p ds = .ok (fs, p')) :
    fs.length = ds.length := by
  induction ds generalizing p fs
  case nil =>
    cases h
    rfl
  case cons hi =>
    obtain ⟨f, p₁, fs, _, hs, rfl⟩ := layOutBranches_cons_eq_ok.mp h
    rw [List.length_cons, List.length_cons, hi hs]

theorem tidy_of_layOutBranches (h : layOutBranches p ds = .ok (fs, p'))
    (hd : ∀ d ∈ ds, d.Drawable) (hn : ∀ d ∈ ds, d.Normal) (hf : (fs.flatMap (·.ids)).Nodup) :
    ∀ f ∈ fs, f.Tidy := by
  obtain ⟨bs, _, hb, rfl, hB, _⟩ := layOutBranches_eq_ok p fun d hm => (hd d hm).lays
  cases h.symm.trans hb
  rw [List.flatMap_map] at hf
  refine List.forall_mem_map.mpr fun b hm => (hB b hm).tidy (hn _ (List.mem_map_of_mem hm)) ?_
  exact (List.nodup_flatMap.mp hf).1 b hm

end LayOut

end Definition

-- Each step of a sequence has its own place, from which control goes on to the next step.
theorem Placed.foldl (hf : f.Tidy) (ht : ∀ f ∈ fs, f.Tidy) (hn : (f.ids ++ fs.flatMap (·.ids)).Nodup)
    (h : Placed g finish (fs.foldl followedBy f) x) :
    ∀ f' ∈ f :: fs, ∃ y, Placed g finish f' y := by
  induction fs generalizing f
  case nil => exact List.forall_mem_singleton.mpr ⟨x, h⟩
  case cons f₁ fs hi =>
    rw [List.forall_mem_cons] at ht
    rw [List.flatMap_cons, ← List.append_assoc] at hn
    have hb := (List.nodup_append.mp hn).1
    have hall := hi (hf.followedBy ht.1 hb) ht.2 (by rwa [ids_followedBy]) h
    rw [List.forall_mem_cons] at hall
    obtain ⟨⟨y, hy⟩, hrest⟩ := hall
    refine List.forall_mem_cons.mpr ⟨⟨_, hy.left hf ht.1 hb⟩, ?_⟩
    exact List.forall_mem_cons.mpr ⟨⟨y, hy.right hf hb⟩, hrest⟩

theorem Placed.step (ht : ∀ f ∈ fs, f.Tidy) (hn : (fs.flatMap (·.ids)).Nodup)
    (h : Placed g finish (chained fs) x) : ∀ f ∈ fs, ∃ y, Placed g finish f y := by
  cases fs
  case nil => exact List.forall_mem_nil _
  case cons f fs =>
    rw [List.forall_mem_cons] at ht
    exact h.foldl ht.1 ht.2 hn

-- Behind an exit of a subgraph there is only the node that control leaves the subgraph for.
theorem Wired.outgoing_exit (h : Wired g f x) (hf : f.Tidy) (he : y ∈ f.exits) :
    g.outgoing y = [{ source := y, target := x }] := by
  have hl : f.links.filter (·.source == y) = [] := by
    rw [List.filter_eq_nil_iff]
    intro l hm
    simpa using fun hy : l.source = y => hf.leave l hm (hy ▸ he)
  rw [h.outgoing y (hf.exits y he), out, List.filter_append, hl, List.nil_append, exitsTo,
    List.filter_map]
  have hy : f.exits.filter (· == y) = [y] := by
    rw [List.filter_beq, List.count_eq_one_of_mem hf.exits_nodup he]
    rfl
  exact congrArg _ hy

-- Whether a definition is laid out from a pool as a subgraph that stands in a graph, where control
-- leaves it for `x`.
structure LaidOut (g : Graph) (finish : String) (p : IdPool) (d : Definition) (f : Subgraph)
    (x : String) : Prop extends Placed g finish f x where
  layOut : ∃ p', d.layOut p = .ok (f, p')
  drawable : d.Drawable
  normal : d.Normal
  nodup : f.ids.Nodup

namespace LaidOut

variable (h : LaidOut g finish p d f x)

include h

theorem block : Block d f := by
  have ⟨p', hl⟩ := h.layOut
  have ⟨f', _, hl', hb, _⟩ := h.drawable.lays p
  cases hl.symm.trans hl'
  exact hb

theorem tidy : f.Tidy :=
  h.block.tidy h.normal h.nodup

-- The subgraphs of the children stand side by side or one behind the other, and in both cases each
-- of them has its own place.
theorem exists_parts : ∃ p₁ fs p₂, d.opened p = .ok p₁ ∧
    layOutBranches p₁ d.children = .ok (fs, p₂) ∧ (fs.flatMap (·.ids)).Nodup ∧
    ((∀ f ∈ fs, f.Tidy) → ∀ f ∈ fs, ∃ y, Placed g finish f y) := by
  obtain ⟨hp, ⟨p', hl⟩, hd, -, hn⟩ := h
  cases d
  case task => exact ⟨p, [], p, rfl, rfl, List.nodup_nil, fun _ => List.forall_mem_nil _⟩
  case sequence ds =>
    have hne : ds ≠ [] := by
      rintro rfl
      cases hd
      contradiction
    obtain ⟨fs, hs, rfl⟩ := (layOut_sequence_eq_ok hne).mp hl
    rw [Subgraph.ids, nodes_chained, List.map_flatMap] at hn
    exact ⟨p, fs, p', rfl, hs, hn, fun ht => hp.step ht hn⟩
  case split =>
    obtain ⟨fork, p₁, fs, p₂, join, hf, hs, _, rfl⟩ := layOut_split_eq_ok.mp hl
    refine ⟨p₁, fs, p₂, by rw [opened, hf]; rfl, hs, (nodup_sideBySide hn).1, fun ht f hm => ?_⟩
    exact ⟨join.id, hp.branch (fun f hm => (ht f hm).toClosed) hn hm⟩
  case transition t cs =>
    obtain ⟨n, p₁, fs, ht, hs, rfl⟩ := layOut_transition_eq_ok.mp hl
    have hz : ((cs.map (·.1)).zip fs).map (·.2) = fs :=
      List.map_snd_zip (by simpa using (length_layOutBranches hs).le)
    generalize (cs.map (·.1)).zip fs = zs at hp hn hz
    subst hz
    refine ⟨p₁, _, p', by rw [opened, ht]; rfl, hs, ?_, fun ht => ?_⟩
    · rw [ids_select] at hn
      rw [List.flatMap_map]
      exact (List.nodup_cons.mp hn).2
    · rw [List.forall_mem_map] at ht ⊢
      exact fun c hc => ⟨x, hp.clause (fun c hc => (ht c hc).toClosed) hn hc⟩

theorem child (he : d.children[i]? = some e) : ∃ p₁ fs q f' x', d.opened p = .ok p₁ ∧
    layOutBranches p₁ (d.children.take i) = .ok (fs, q) ∧ LaidOut g finish q e f' x' := by
  have ⟨p₁, fs, p₂, ho, hs, hn, hp⟩ := h.exists_parts
  have ⟨gs, q, f', q', hg, hf, hm⟩ := layOut_getElem? hs he
  have ⟨x', hx⟩ := hp (tidy_of_layOutBranches hs h.drawable.children h.normal.children hn) f' hm
  have hc : e ∈ d.children := List.mem_of_getElem? he
  exact ⟨p₁, gs, q, f', x', ho, hg, hx, ⟨q', hf⟩, h.drawable.children e hc, h.normal.children e hc,
    (List.nodup_flatMap.mp hn).1 f' hm⟩

theorem exists_layOutAt (he : d.at? path = some e) :
    ∃ q f' x', d.layOutAt p path = .ok (some f') ∧ LaidOut g finish q e f' x' := by
  induction path generalizing p d f x
  case nil =>
    cases he
    have ⟨p', hl⟩ := h.layOut
    exact ⟨p, f, x, by rw [layOutAt, hl]; rfl, h⟩
  case cons i path hi =>
    obtain ⟨d', hd', he⟩ := Option.bind_eq_some_iff.mp he
    have ⟨p₁, fs, q, f', x', ho, hs, hx⟩ := h.child hd'
    have ⟨q', f'', x'', hl, hx'⟩ := hi hx he
    refine ⟨q', f'', x'', ?_, hx'⟩
    rw [layOutAt, hd']
    simp only [ho, hs, bind, Except.bind, hl]

end LaidOut

-- Whether the renderer finds the join of a split for its fork.
structure SplitMatched (g : Graph) (finish : String) (fork join : Node) : Prop where
  fork_mem : fork ∈ g.nodes
  fork_type : fork.type = .fork
  join_mem : join ∈ g.nodes
  join_type : join.type = .join
  branchesEnd : ∀ limit, (g.terrain finish limit).branchesEnd fork = join.id

-- Whether all exits of a selection lead to a single node, and that is the immediate post-dominator
-- of its task.
structure SelectionMatched (g : Graph) (finish : String) (n : Node) (f : Subgraph) (x : String) :
    Prop where
  mem : n ∈ g.nodes
  type : n.type = .task
  exits_ne_nil : f.exits ≠ []
  exits : ∀ e ∈ f.exits, g.outgoing e = [{ source := e, target := x }]
  immediate : g.IsImmediate finish n.id x
  postDominator : ∀ limit, (g.terrain finish limit).postDominator n.id = x

theorem LaidOut.splitMatched (hg : g.ids.Nodup) (h : LaidOut g finish p (split ds) f x) :
    ∃ fork join fs, f = sideBySide fork join fs ∧ SplitMatched g finish fork join := by
  have ⟨hne, hd⟩ := normal_split.mp h.normal
  have hn := h.nodup
  have hp := h.toPlaced
  cases h.block
  case split fork join bs hf hj hb =>
    have hnb := (List.nodup_flatMap.mp (Block.nodup_branches hn)).1
    rw [List.forall_mem_map] at hd
    have ht := Block.tidy_branches hb hd hn
    have hc : ∀ f ∈ bs.map (·.2), f.Closed := fun f hm => (ht f hm).toClosed
    have hs : ∀ f ∈ bs.map (·.2), ∃ ids, HasSpine g finish f join.id ids :=
      List.forall_mem_map.mpr fun b hm =>
        (hb b hm).hasSpine hg (hd b hm) (hnb b hm) (hp.branch hc hn (List.mem_map_of_mem hm))
    have hfork : fork.type = .fork := congrArg Attributes.type hf
    have hjoin : join.type = .join := congrArg Attributes.type hj
    refine ⟨fork, join, _, rfl, hp.nodes (by simp [sideBySide]), hfork,
      hp.nodes (by simp [sideBySide]), hjoin, fun limit => ?_⟩
    exact branchesEnd_sideBySide hg (by simpa using hne) ht hfork hjoin hn hp hs

theorem LaidOut.selectionMatched (hl : g.Led finish) (h : LaidOut g finish p (transition t cs) f x)
    (hc : 2 ≤ cs.length) : ∃ n fs, f = select n fs ∧ SelectionMatched g finish n f x := by
  have hp := h.toPlaced
  have ht := h.tidy
  have hn := h.nodup
  obtain ⟨-, -, hd⟩ := normal_transition.mp h.normal
  cases h.block
  case transition n cs hb htask =>
    rw [List.forall_mem_map] at hd
    obtain ⟨hm, hi, hf⟩ := hp.mem_nodes (n := n) (by simp [select])
    have hx : g.immediatePostDominator finish n.id = x :=
      immediatePostDominator_select hl.nodup (by simpa using hc) (Block.tidy_clauses hb hd hn) hn hp
    refine ⟨n, _, rfl, hm, Node.type_eq_task htask, ?_, fun e he => hp.outgoing_exit ht he,
      hx ▸ hl.isImmediate hi hf, fun limit => ?_⟩
    · obtain ⟨e, he, _⟩ := ht.leads _ ht.entry
      exact List.ne_nil_of_mem he
    · rw [Terrain.postDominator, terrain, lookup_postDominators hi hf, hx]
      rfl

theorem Drawn.laidOut {p' : IdPool} (h : Drawn d f) (hl : d.layOut anchoredPool = .ok (f, p'))
    (hd : d.Drawable) (hn : d.Normal) : LaidOut f.whole "END" anchoredPool d f "END" :=
  ⟨h.placed, ⟨p', hl⟩, hd, hn, h.ids_nodup⟩

namespace Definition

-- In the graph of a definition that was read each split and each selection ends where its own
-- branches do.
theorem matched_of_read (h : read text limit = .ok a) : ∃ g start finish,
    a.toGraph = .ok g ∧ g.anchors = .ok (start, finish) ∧
    ∀ path e, a.at? path = some e → ∃ f, a.layOutAt anchoredPool path = .ok (some f) ∧
      (∀ ds, e = split ds → ∃ fork join fs, f = sideBySide fork join fs ∧
        SplitMatched g finish.id fork join) ∧
      ∀ t cs, e = transition t cs → 2 ≤ cs.length → ∃ n fs x, f = select n fs ∧
        SelectionMatched g finish.id n f x := by
  have hw := (wellFormed_of_read h).of_bare
  have hd := hw.normal.drawable fun t ht => isName_ne_empty (hw.writable.named t ht).name
  have ⟨f, p', hl, hf⟩ := hd.exists_layOut
  have hs := hf.sound hw
  refine ⟨f.whole, startNode, finishNode, by rw [toGraph_eq, hl]; rfl, anchors_eq_ok.mpr hs,
    fun path e he => ?_⟩
  -- The path leads to a place of its own for the part.
  have ⟨q, f', x, hl', hx⟩ := (hf.laidOut hl hd hw.normal).exists_layOutAt he
  refine ⟨f', hl', ?_, ?_⟩
  · rintro ds rfl
    exact hx.splitMatched hs.ids
  · rintro t cs rfl hc
    have ⟨n, fs, hf, hm⟩ := hx.selectionMatched hs.led hc
    exact ⟨n, fs, x, hf, hm⟩

-- A split with a single branch, which is another such split, around a task with two clauses.
def nestedForks : Definition :=
  split [split [transition { name := "a", offset := 2 }
    [(some "X", task { name := "b", offset := 10 }), (some "Y", task { name := "c", offset := 18 })]]]

def nestedSelection : Subgraph :=
  select ⟨"a", .task, some "a", []⟩ [(some "X", ofNode ⟨"b", .task, some "b", []⟩),
    (some "Y", ofNode ⟨"c", .task, some "c", []⟩)]

def nestedSplit : Subgraph :=
  sideBySide ⟨"FORK#2", .fork, none, []⟩ ⟨"JOIN", .join, none, []⟩ [nestedSelection]

theorem read_nestedForks : read "<<a -> X: b -> Y: c>>" 2 = .ok nestedForks := by
  have hs : Token.scan "<<a -> X: b -> Y: c>>" = [⟨.openAngle, 0⟩, ⟨.openAngle, 1⟩,
      ⟨.identifier "a", 2⟩, ⟨.arrow, 4⟩, ⟨.identifier "X", 7⟩, ⟨.colon, 8⟩, ⟨.identifier "b", 10⟩,
      ⟨.arrow, 12⟩, ⟨.identifier "Y", 15⟩, ⟨.colon, 16⟩, ⟨.identifier "c", 18⟩, ⟨.closeAngle, 19⟩,
      ⟨.closeAngle, 20⟩, ⟨.endOfInput, 21⟩] := by
    simp [Token.scan, scanFrom_cons, isGap, first?, isNameChar, nameRun, isWord_of_lt]
    simp only [Token.scanFrom, Lexeme.text]
    decide
  rw [read, hs]
  rfl

theorem matched_nestedForks : read "<<a -> X: b -> Y: c>>" 2 = .ok nestedForks ∧
    ∃ g start finish, nestedForks.toGraph = .ok g ∧ g.anchors = .ok (start, finish) ∧
      SplitMatched g finish.id ⟨"FORK", .fork, none, []⟩ ⟨"JOIN#2", .join, none, []⟩ ∧
      SplitMatched g finish.id ⟨"FORK#2", .fork, none, []⟩ ⟨"JOIN", .join, none, []⟩ ∧
      SelectionMatched g finish.id ⟨"a", .task, some "a", []⟩ nestedSelection "JOIN" := by
  have ⟨g, start, finish, hg, ha, hm⟩ := matched_of_read read_nestedForks
  refine ⟨read_nestedForks, g, start, finish, hg, ha, ?outer, ?inner, ?selection⟩
  case outer =>
    have hl : nestedForks.layOutAt anchoredPool [] = .ok (some
        (sideBySide ⟨"FORK", .fork, none, []⟩ ⟨"JOIN#2", .join, none, []⟩ [nestedSplit])) := by cbv
    obtain ⟨_, hf, hs, _⟩ := hm [] _ rfl
    cases hl.symm.trans hf
    obtain ⟨fork, join, fs, he, hx⟩ := hs _ rfl
    obtain ⟨rfl, rfl⟩ := sideBySide_inj he
    exact hx
  case inner =>
    have hl : nestedForks.layOutAt anchoredPool [0] = .ok (some nestedSplit) := by cbv
    obtain ⟨_, hf, hs, _⟩ := hm [0] _ rfl
    cases hl.symm.trans hf
    obtain ⟨fork, join, fs, he, hx⟩ := hs _ rfl
    obtain ⟨rfl, rfl⟩ := sideBySide_inj he
    exact hx
  case selection =>
    have hl : nestedForks.layOutAt anchoredPool [0, 0] = .ok (some nestedSelection) := by cbv
    have ho : nestedForks.toGraph.map (·.outgoing "b")
        = .ok [{ source := "b", target := "JOIN" }] := by cbv
    obtain ⟨_, hf, _, hs⟩ := hm [0, 0] _ rfl
    cases hl.symm.trans hf
    obtain ⟨n, fs, x, he, hx⟩ := hs _ _ rfl (by decide)
    obtain rfl := select_inj he
    rw [hg] at ho
    cases (Except.ok.inj ho).symm.trans (hx.exits "b" List.mem_cons_self)
    exact hx

end Definition

end TaskFlow
