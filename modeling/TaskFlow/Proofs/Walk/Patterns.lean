import TaskFlow.Proofs.Definition.Spelling
import TaskFlow.Proofs.Reader.Demands
import TaskFlow.Proofs.Walk.Mentions

namespace TaskFlow.Graph

variable {m : Terrain} {p p' : Position} {left left' rest : List Node} {d : Definition} {n : Node}
  {r : Region} {f : FanOut} {fans : List FanOut} {g : Graph} {ps : List (Option String)}

-- The conditions on the links that leave a node, in the order in which they are written.
def clausePatterns (g : Graph) (n : Node) : List (Option String) :=
  (orderedClauses (g.outgoing n.id)).map (·.1)

def ClausesOf (g : Graph) (n : Node) (ps : List (Option String)) : Prop :=
  (g.outgoing n.id).any (·.hasCondition) ∧ ps = g.clausePatterns n

def Region.patternLists (r : Region) : List (List (Option String)) :=
  r.parts.flatMap Definition.patternLists ++ r.leads.map fun l => [some l.condition]

-- The patterns of a fan-out whose clauses to come have the patterns `waiting`, and those before and
-- in its branches.
def FanOut.patternLists (f : FanOut) (waiting : List (Option String)) :
    List (List (Option String)) :=
  (if f.conditional then [f.done.reverse.map (·.1) ++ waiting] else [])
    ++ f.done.flatMap (·.2.patternLists) ++ f.outer.patternLists

-- The patterns of the clauses that do not have their targets yet, while one is being walked.
def FanOut.waiting (f : FanOut) : List (Option String) :=
  f.condition :: f.todo.map (·.1)

def Position.patternLists (p : Position) : List (List (Option String)) :=
  p.region.patternLists ++ p.fans.flatMap fun f => f.patternLists f.waiting

theorem mem_patternLists_foldl_leads {ls : List Lead} : ps ∈ (ls.foldl
    (fun part lead => .transition lead.node.task [(some lead.condition, part)]) d).patternLists ↔
      (∃ l ∈ ls, ps = [some l.condition]) ∨ ps ∈ d.patternLists := by
  induction ls generalizing d
  case nil => simp
  case cons l ls hi =>
    rw [List.foldl_cons, hi]
    simp
    grind

theorem Region.mem_patternLists_add :
    ps ∈ (r.add d).patternLists ↔ ps ∈ r.patternLists ∨ ps ∈ d.patternLists := by
  simp [Region.patternLists, add, mem_patternLists_foldl_leads]
  grind

theorem Region.mem_patternLists_definition :
    ps ∈ r.definition.patternLists ↔ ps ∈ r.parts.flatMap Definition.patternLists := by
  rw [definition, Definition.flatMap_inOrder Definition.patternLists_sequence]
  simp

theorem FanOut.mem_patternLists_definition : ps ∈ f.patternLists [] ↔
    ps ∈ f.definition.patternLists ∨ ps ∈ f.outer.patternLists := by
  cases hc : f.conditional
  all_goals
    simp [FanOut.patternLists, FanOut.definition, hc]
    grind

theorem FanOut.mem_patternLists_close : ps ∈ (f.close d).patternLists (f.todo.map (·.1)) ↔
    ps ∈ f.patternLists f.waiting ∨ ps ∈ d.patternLists := by
  have he : (f.close d).patternLists (f.todo.map (·.1))
      = (if f.conditional then [((f.condition, d) :: f.done).reverse.map (·.1) ++ f.todo.map (·.1)]
        else []) ++ ((f.condition, d) :: f.done).flatMap (·.2.patternLists) ++ f.outer.patternLists :=
    rfl
  rw [he, FanOut.patternLists, FanOut.waiting]
  cases f.conditional
  all_goals
    simp
    grind

theorem Continued.mem_patternLists (h : Continued m f fans p') : ps ∈ p'.patternLists ↔
    ps ∈ f.patternLists (f.todo.map (·.1)) ∨
      ps ∈ fans.flatMap fun f => f.patternLists f.waiting := by
  cases h
  case behind ht =>
    rw [ht, List.map_nil, FanOut.mem_patternLists_definition, Position.patternLists, List.mem_append,
      Region.mem_patternLists_add, or_comm (a := ps ∈ f.definition.patternLists)]
  case branch c target todo ht _ _ =>
    have he : (f.begin c todo).patternLists (f.begin c todo).waiting
        = f.patternLists (f.todo.map (·.1)) := by
      rw [ht]
      rfl
    simp only [Position.patternLists, List.flatMap_cons, he, List.mem_append]
    simp [Region.patternLists]

theorem Region.mem_patternLists_arrive :
    ps ∈ (r.arrive n).patternLists ↔ ps ∈ r.patternLists := by
  rw [Region.arrive]
  split
  case isTrue => simp [mem_patternLists_add]
  case isFalse => rfl

theorem clausePatterns_of_single {l : Link} {c : String} (hl : g.outgoing n.id = [l])
    (hc : l.condition = some c) : g.ClausesOf n [some c] := by
  refine ⟨by simp [hl, Link.hasCondition, hc], ?_⟩
  by_cases hw : c = wildcard
  all_goals simp [clausePatterns, hl, orderedClauses, hc, hw]

-- What a visit adds to the known patterns is those of its own node at most.
theorem Visited.mem_patternLists (h : Visited m p n p') (hp : ps ∈ p'.patternLists) :
    ps ∈ p.patternLists ∨ m.graph.ClausesOf n ps := by
  cases h
  case lead l c hl hc _ _ =>
    have hx : ps = [some c] ∨ ps ∈ p.patternLists := by
      simp [Position.lead, Position.patternLists, Region.patternLists] at hp ⊢
      grind
    obtain rfl | hx := hx
    case inl => exact .inr (clausePatterns_of_single hl hc)
    case inr => exact .inl hx
  case select hc _ h =>
    rw [h.mem_patternLists] at hp
    have he : (selection m p n).patternLists ((selection m p n).todo.map (·.1))
        = m.graph.clausePatterns n :: p.region.patternLists := rfl
    rw [he, List.mem_cons, or_assoc, ← List.mem_append] at hp
    exact hp.symm.imp_right fun hp => ⟨hc, hp⟩
  case pass =>
    rw [Position.patternLists, List.mem_append, Region.mem_patternLists_arrive] at hp
    exact .inl (List.mem_append.mpr hp)
  case split h =>
    rw [h.mem_patternLists] at hp
    have he : (parallel m p n).patternLists ((parallel m p n).todo.map (·.1))
        = (p.region.arrive n).patternLists := rfl
    rw [he, Region.mem_patternLists_arrive] at hp
    exact .inl (List.mem_append.mpr hp)

theorem Step.mem_patternLists (h : Step m p left p' left') (hp : ps ∈ p'.patternLists) :
    ps ∈ p.patternLists ∨ ∃ n ∈ left, m.graph.ClausesOf n ps := by
  cases h
  case close f fans _ hf hc =>
    have ⟨_, hc⟩ := closeRegion_cases hc
    have he : (f.close p.region.definition).todo = f.todo := rfl
    rw [hc.mem_patternLists, he, FanOut.mem_patternLists_close, Region.mem_patternLists_definition]
      at hp
    simp [Position.patternLists, Region.patternLists, hf] at hp ⊢
    grind
  case visit n _ hn _ _ hv =>
    exact ((visit_cases hv).mem_patternLists hp).imp_right fun hc => ⟨n, hn, hc⟩

theorem walk_patternLists {start stop : String} (hw : walk m ⟨[], { stop }, start⟩ left = .ok (d, rest))
    (hp : ps ∈ d.patternLists) : ∃ n ∈ left, m.graph.ClausesOf n ps := by
  let I := fun (q : Position) (ns : List Node) =>
    ns ⊆ left ∧ ∀ ps ∈ q.patternLists, ∃ n ∈ left, m.graph.ClausesOf n ps
  have hs : ∀ {q ns q' ns'}, I q ns → Step m q ns q' ns' → I q' ns' := by
    intro q ns q' ns' ⟨hl, hi⟩ hs
    refine ⟨fun n hn => hl (hs.subset hn), fun ps hp => ?_⟩
    obtain hp | ⟨n, hn, hc⟩ := hs.mem_patternLists hp
    case inl => exact hi ps hp
    case inr => exact ⟨n, hl hn, hc⟩
  have ⟨q, ⟨_, hi⟩, hf, he⟩ :=
    walk_invariant hs ⟨List.Subset.refl _, by simp [Position.patternLists, Region.patternLists]⟩ hw
  rw [he, Region.mem_patternLists_definition] at hp
  exact hi ps (List.mem_append_left _ (List.mem_append_left _ hp))

section LinksFit

variable {cs : List String}

theorem clausePatterns_eq (h : (g.outgoing n.id).map (·.condition) = cs.map some) :
    g.clausePatterns n = (cs.filter (· != wildcard) ++ cs.filter (· == wildcard)).map some := by
  have hf (q : Option String → Bool) :
      ((g.outgoing n.id).filter (q ·.condition)).map (·.condition) = (cs.map some).filter q := by
    rw [← h, List.filter_map]
    rfl
  rw [clausePatterns, orderedClauses, List.map_map, List.map_append, List.map_append]
  have h₁ := hf (· != some wildcard)
  have h₂ := hf (· == some wildcard)
  rw [List.filter_map] at h₁ h₂
  have hn : (cs.filter fun c => some c != some wildcard) = cs.filter (· != wildcard) := by
    refine List.filter_congr fun c _ => ?_
    simp [bne]
  simpa [Function.comp_def, hn] using congrArg₂ (· ++ ·) h₁ h₂

-- The wildcard stands at most once, so that it stands last.
theorem wildcard_notMem_dropLast (h : cs.Nodup) :
    wildcard ∉ (cs.filter (· != wildcard) ++ cs.filter (· == wildcard)).dropLast := by
  intro hm
  have hl : (cs.filter (· == wildcard)).length ≤ 1 := by
    rw [← List.countP_eq_length_filter]
    exact List.nodup_iff_count_le_one.mp h wildcard
  match hc : cs.filter (· == wildcard), hl with
  | [], _ =>
    rw [hc, List.append_nil] at hm
    simpa using List.dropLast_subset _ hm
  | [c], _ =>
    rw [hc, List.dropLast_concat] at hm
    simp at hm

theorem LinksFit.clausesOf (h : g.LinksFit n) (hp : g.ClausesOf n ps) :
    Selective ps ∧ (∀ p ∈ ps, Quotable p) ∧ ∀ p ∈ ps, p.isSome := by
  obtain ⟨hc, rfl⟩ := hp
  cases h
  case plain h =>
    have ⟨l, hl, hc⟩ := List.any_eq_true.mp hc
    simp [Link.hasCondition, h l hl] at hc
  case conditional cs _ he _ hw hn =>
    -- The wildcard is put last, and nothing is lost or doubled by that.
    have hm {c} : c ∈ cs.filter (· != wildcard) ++ cs.filter (· == wildcard) ↔ c ∈ cs := by
      simp
      grind
    rw [clausePatterns_eq he]
    refine ⟨⟨?nonempty, ?nodup, ?wildcard_last⟩, ?quotable, ?isSome⟩
    case nonempty =>
      rw [List.mem_map_of_injective (Option.some_injective _), hm]
      intro hc
      cases hw _ hc
    case nodup =>
      refine (List.Perm.nodup_iff ?_).mpr (hn.map (Option.some_injective _))
      refine List.Perm.map _ (List.perm_append_comm.trans ?_)
      exact List.filter_append_perm (· == wildcard) cs
    case wildcard_last =>
      rw [← List.map_dropLast, List.mem_map_of_injective (Option.some_injective _)]
      exact wildcard_notMem_dropLast hn
    case quotable =>
      rw [List.forall_mem_map]
      intro c hc
      have := hw c (hm.mp hc)
      rw [isWritable, Bool.and_eq_true] at this
      exact this.2
    case isSome => exact List.forall_mem_map.mpr fun _ _ => rfl

end LinksFit

end TaskFlow.Graph
