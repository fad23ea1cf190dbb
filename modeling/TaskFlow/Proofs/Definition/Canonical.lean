import TaskFlow.Proofs.Definition.Depth

namespace TaskFlow.Definition

variable {d : Definition} {ds : List Definition} {t : TaskMention} {p : Option String} {c : Clause}
  {cs : List Clause}

-- Makes the first of several steps the target of an only clause.
def under (t : TaskMention) (p : Option String) : List Definition → List Definition
  | [] => []
  | d :: ds => transition t [(p, d)] :: ds

def parts : Definition → List Definition :=
  fold (fun t => [task t.bare]) List.flatten (fun bs => [split (bs.map inOrder)]) fun t cs =>
    match cs with
    | [(c, ds)] => under t.bare c.1 ds
    | cs => [transition t.bare (cs.map fun (c, ds) => (c.1, inOrder ds))]

-- The canonical form of a definition: the target of an only clause is a single step, since what
-- comes behind that step comes behind the transition just as well.
def canonical (d : Definition) : Definition :=
  inOrder d.parts

section Equations

@[simp]
theorem parts_task : (task t).parts = [task t.bare] := by
  simp [parts]

@[simp]
theorem parts_sequence : (sequence ds).parts = ds.flatMap parts := by
  simp [parts, List.flatMap_def]

@[simp]
theorem parts_split : (split ds).parts = [split (ds.map canonical)] := by
  simp [parts, canonical, Function.comp_def]

@[simp]
theorem parts_only_clause : (transition t [c]).parts = under t.bare c.1 c.2.parts := by
  simp [parts]

theorem parts_clauses (h : cs.length ≠ 1) :
    (transition t cs).parts = [transition t.bare (cs.map fun c => (c.1, c.2.canonical))] := by
  match cs with
  | [] => simp [parts]
  | [_] => simp at h
  | _ :: _ :: _ => simp [parts, canonical, Function.comp_def]

end Equations

-- What a part of a definition is: a task or a split, a transition to the first part of its only
-- target, another part of this target, or a transition to the canonical forms of its targets.
theorem parts_induct {P : Definition → Definition → Prop}
    (task : ∀ t, P (task t) (task t.bare))
    (sequence : ∀ ds, ∀ d ∈ ds, ∀ p ∈ d.parts, P d p → P (sequence ds) p)
    (split : ∀ ds, (∀ d ∈ ds, ∀ p ∈ d.parts, P d p) → P (split ds) (split (ds.map canonical)))
    (only : ∀ t c, ∀ p ∈ c.2.parts, P c.2 p → P (transition t [c]) (transition t.bare [(c.1, p)]))
    (behind : ∀ t c, ∀ p ∈ c.2.parts, P c.2 p → P (transition t [c]) p)
    (clauses : ∀ t cs, cs.length ≠ 1 → (∀ c ∈ cs, ∀ p ∈ c.2.parts, P c.2 p) →
      P (transition t cs) (transition t.bare (cs.map fun c => (c.1, c.2.canonical))))
    (d : Definition) : ∀ p ∈ d.parts, P d p := by
  induction d using induct_of_clauses
  case task t =>
    rw [parts_task]
    exact List.forall_mem_singleton.mpr (task t)
  case sequence ds hi =>
    rw [parts_sequence, List.forall_mem_flatMap]
    exact fun d hd p hp => sequence ds d hd p hp (hi d hd p hp)
  case split ds hi =>
    rw [parts_split]
    exact List.forall_mem_singleton.mpr (split ds hi)
  case only t c hi =>
    rw [parts_only_clause]
    cases hp : c.2.parts
    case nil => exact List.forall_mem_nil _
    case cons p ps =>
      rw [hp, List.forall_mem_cons] at hi
      refine List.forall_mem_cons.mpr ⟨only t c p (by simp [hp]) hi.1, fun q hq => ?_⟩
      exact behind t c q (by simp [hp, hq]) (hi.2 q hq)
  case clauses t cs hl hi =>
    rw [parts_clauses hl]
    exact List.forall_mem_singleton.mpr (clauses t cs hl hi)

theorem isStep_parts : ∀ p ∈ d.parts, p.isStep := by
  apply parts_induct (P := fun _ p => p.isStep)
  case sequence => exact fun _ _ _ _ _ hi => hi
  case behind => exact fun _ _ _ _ hi => hi
  all_goals
    intros
    rfl

theorem Normal.parts_ne_nil (h : d.Normal) : d.parts ≠ [] := by
  induction d, h using Normal.induct_of_clauses
  case sequence ds hl hs hn hi =>
    have ⟨d, hd⟩ := List.exists_mem_of_length_pos (Nat.lt_of_lt_of_le Nat.zero_lt_two hl)
    rw [parts_sequence, ne_eq, List.flatMap_eq_nil_iff]
    exact fun h => hi d hd (h d hd)
  case only t c h hn hi =>
    rw [parts_only_clause]
    cases hp : c.2.parts
    case nil => contradiction
    case cons => exact List.cons_ne_nil _ _
  case clauses hl _ => simp [parts_clauses hl]
  all_goals simp

theorem Normal.parts (h : d.Normal) : ∀ p ∈ d.parts, p.Normal := by
  suffices ∀ p ∈ d.parts, d.Normal → p.Normal from fun p hp => this p hp h
  apply parts_induct (P := fun d p => d.Normal → p.Normal)
  case task => exact fun t _ => .task t.bare
  case sequence => exact fun ds d hd p _ hi h => hi ((normal_sequence.mp h).2.2 d hd)
  case split =>
    intro ds hi h
    have ⟨hl, hn⟩ := normal_split.mp h
    refine .split (by simpa using hl) (List.forall_mem_map.mpr fun d hd => ?_)
    exact .inOrder (fun p hp => hi d hd p hp (hn d hd)) (hn d hd).parts_ne_nil
  case only =>
    intro t c p _ hi h
    have ⟨_, hs, hn⟩ := normal_transition.mp h
    refine .transition (List.cons_ne_nil _ _) ?_ ?_
    · exact List.forall_mem_singleton.mpr (hs c List.mem_cons_self)
    · exact List.forall_mem_singleton.mpr (hi (hn c List.mem_cons_self))
  case behind => exact fun t c p _ hi h => hi ((normal_transition.mp h).2.2 c List.mem_cons_self)
  case clauses =>
    intro t cs _ hi h
    have ⟨hl, hs, hn⟩ := normal_transition.mp h
    refine .transition (by simpa using hl) (List.forall_mem_map.mpr hs)
      (List.forall_mem_map.mpr fun c hc => ?_)
    exact .inOrder (fun p hp => hi c hc p hp (hn c hc)) (hn c hc).parts_ne_nil

theorem Normal.canonical (h : d.Normal) : d.canonical.Normal :=
  .inOrder h.parts h.parts_ne_nil

theorem mentions_inOrder : (inOrder ds).mentions = ds.flatMap mentions :=
  flatMap_inOrder mentions_sequence

-- The canonical form mentions the same tasks in the same order.
theorem Normal.mentions_parts (h : d.Normal) :
    d.parts.flatMap mentions = d.mentions.map TaskMention.bare := by
  induction d, h using Normal.induct_of_clauses
  case task => simp
  case sequence ds _ _ _ hi =>
    rw [parts_sequence, List.flatMap_assoc, mentions_sequence, List.map_flatMap]
    exact List.flatMap_congr hi
  case split ds _ _ hi =>
    rw [parts_split, List.flatMap_singleton, mentions_split, mentions_split, List.flatMap_map,
      List.map_flatMap]
    exact List.flatMap_congr fun d hd => mentions_inOrder.trans (hi d hd)
  case only t c _ hn hi =>
    cases hp : c.2.parts
    case nil => exact absurd hp hn.parts_ne_nil
    case cons p ps =>
      rw [hp, List.flatMap_cons] at hi
      simp [hp, under, hi]
  case clauses t cs _ _ hl hi =>
    have hc : ∀ c ∈ cs, c.2.canonical.mentions = c.2.mentions.map TaskMention.bare :=
      fun c hc => mentions_inOrder.trans (hi c hc)
    rw [parts_clauses hl, List.flatMap_singleton, mentions_transition, mentions_transition,
      List.flatMap_map, List.map_cons, List.map_flatMap, List.flatMap_congr hc]

theorem Normal.mentions_canonical (h : d.Normal) :
    d.canonical.mentions = d.mentions.map TaskMention.bare :=
  mentions_inOrder.trans h.mentions_parts

theorem parts_inOrder : (inOrder ds).parts = ds.flatMap parts :=
  flatMap_inOrder fun _ => parts_sequence

theorem canonical_of_parts (h : ∀ p ∈ d.parts, p.parts = [p]) :
    d.canonical.canonical = d.canonical := by
  rw [canonical, canonical, parts_inOrder, List.flatMap_congr h, List.flatMap_singleton']

-- The steps of a canonical form are in canonical form themselves.
theorem parts_parts : ∀ p ∈ d.parts, p.parts = [p] := by
  apply parts_induct (P := fun _ p => p.parts = [p])
  case task => exact fun t => parts_task
  case sequence => exact fun _ _ _ _ _ hi => hi
  case split =>
    intro ds hi
    rw [parts_split, List.map_map]
    exact congrArg (fun ds => [split ds])
      (List.map_congr_left fun d hd => canonical_of_parts (hi d hd))
  case only =>
    intro t c p _ hi
    rw [parts_only_clause, hi]
    rfl
  case behind => exact fun _ _ _ _ hi => hi
  case clauses =>
    intro t cs hl hi
    rw [parts_clauses (by simpa using hl), List.map_map]
    exact congrArg (fun cs => [transition t.bare cs])
      (List.map_congr_left fun c hc => congrArg (c.1, ·) (canonical_of_parts (hi c hc)))

theorem canonical_canonical : d.canonical.canonical = d.canonical :=
  canonical_of_parts parts_parts

section Nesting

-- The canonical form of what needs no parentheses needs none either.
theorem parts_of_isSimple (h : d.isSimple) : ∃ p, d.parts = [p] ∧ p.isSimple := by
  cases d <;> cases h
  case task => exact ⟨_, parts_task, rfl⟩
  case split => exact ⟨_, parts_split, rfl⟩

theorem targetNesting_le_of_parts {p : Definition} (hp : p ∈ d.parts) (h : p.nesting ≤ d.nesting) :
    p.targetNesting ≤ d.targetNesting := by
  cases hs : d.isSimple
  case true =>
    have ⟨q, hq, hqs⟩ := parts_of_isSimple hs
    rw [hq, List.mem_singleton] at hp
    rw [targetNesting, targetNesting, if_pos hs, hp, if_pos hqs, ← hp]
    exact h
  case false =>
    have := @targetNesting_le p
    simp only [targetNesting, hs] at this ⊢
    simp
    omega

theorem targetNesting_canonical_le (h : ∀ p ∈ d.parts, p.nesting ≤ d.nesting) :
    d.canonical.targetNesting ≤ d.targetNesting := by
  cases hs : d.isSimple
  case true =>
    have ⟨q, hq, hqs⟩ := parts_of_isSimple hs
    have hc : d.canonical = q := by rw [canonical, hq, inOrder]
    exact hc ▸ targetNesting_le_of_parts (hq ▸ List.mem_cons_self) (h q (hq ▸ List.mem_cons_self))
  case false =>
    have h₁ := nesting_inOrder_le h
    have h₂ := @targetNesting_le d.canonical
    rw [canonical] at *
    rw [targetNesting.eq_1 d, hs]
    simp
    omega

theorem nesting_parts_le : ∀ p ∈ d.parts, p.nesting ≤ d.nesting := by
  apply parts_induct (P := fun d p => p.nesting ≤ d.nesting)
  case task => simp
  case sequence =>
    intro ds d hd p _ hi
    rw [nesting_sequence]
    exact Nat.le_trans hi (le_foldr_max (List.mem_map_of_mem hd))
  case split =>
    intro ds hi
    rw [nesting_split, nesting_split, List.map_map]
    refine Nat.add_le_add_left (foldr_max_le_iff.mpr (List.forall_mem_map.mpr fun d hd => ?_)) 1
    exact Nat.le_trans (nesting_inOrder_le (hi d hd)) (le_foldr_max (List.mem_map_of_mem hd))
  case only =>
    intro t c p hp hi
    simpa using targetNesting_le_of_parts hp hi
  case behind =>
    intro t c p _ hi
    simpa using Nat.le_trans hi nesting_le_targetNesting
  case clauses =>
    intro t cs _ hi
    rw [nesting_transition, nesting_transition, List.map_map]
    refine foldr_max_le_iff.mpr (List.forall_mem_map.mpr fun c hc => ?_)
    refine Nat.le_trans (targetNesting_canonical_le (hi c hc)) (le_foldr_max ?_)
    exact List.mem_map.mpr ⟨c, hc, rfl⟩

end Nesting

section Throughout

variable {Q : TaskMention → Prop} {R : List (Option String) → Prop}

-- The canonical form has its tasks and its patterns from the definition.
theorem throughout_parts (h : d.Throughout (fun t => Q t.bare) R) :
    ∀ p ∈ d.parts, p.Throughout Q R := by
  suffices ∀ p ∈ d.parts, d.Throughout (fun t => Q t.bare) R → p.Throughout Q R from
    fun p hp => this p hp h
  apply parts_induct (P := fun d p => d.Throughout (fun t => Q t.bare) R → p.Throughout Q R)
  case task => simp
  case sequence => exact fun ds d hd p _ hi h => hi (throughout_sequence.mp h d hd)
  case split =>
    intro ds hi h
    rw [throughout_split, List.forall_mem_map]
    exact fun d hd =>
      throughout_inOrder.mpr fun p hp => hi d hd p hp (throughout_split.mp h d hd)
  case only =>
    intro t c p _ hi h
    have ⟨hq, hr, hcs⟩ := throughout_transition.mp h
    refine throughout_transition.mpr ⟨hq, hr, ?_⟩
    exact List.forall_mem_singleton.mpr (hi (hcs c List.mem_cons_self))
  case behind =>
    intro t c p _ hi h
    exact hi ((throughout_transition.mp h).2.2 c List.mem_cons_self)
  case clauses =>
    intro t cs _ hi h
    have ⟨hq, hr, hcs⟩ := throughout_transition.mp h
    rw [throughout_transition, List.map_map, List.forall_mem_map]
    exact ⟨hq, hr, fun c hc => throughout_inOrder.mpr fun p hp => hi c hc p hp (hcs c hc)⟩

theorem throughout_canonical (h : d.Throughout (fun t => Q t.bare) R) :
    d.canonical.Throughout Q R :=
  throughout_inOrder.mpr (throughout_parts h)

end Throughout

-- Parts carry no offsets, so those of the definition make no difference.
@[simp]
theorem parts_bare : d.bare.parts = d.parts := by
  induction d using induct_of_clauses
  case task t => simp [TaskMention.bare]
  case sequence ds hi =>
    rw [bare_sequence, parts_sequence, parts_sequence, List.flatMap_map]
    exact List.flatMap_congr hi
  case split ds hi =>
    rw [bare_split, parts_split, parts_split, List.map_map]
    have hc : ∀ d ∈ ds, (canonical ∘ bare) d = canonical d := fun d hd => by
      rw [Function.comp_apply, canonical, hi d hd, canonical]
    rw [List.map_congr_left hc]
  case only t c hi =>
    have ht : t.bare.bare = t.bare := rfl
    simp [hi, ht]
  case clauses t cs hl hi =>
    have hc : ∀ c ∈ cs, (c.1, c.2.bare.canonical) = (c.1, c.2.canonical) := fun c hc => by
      rw [canonical, hi c hc, canonical]
    rw [bare_transition, parts_clauses (by simpa using hl), parts_clauses hl, List.map_map,
      ← List.map_congr_left hc]
    rfl

theorem canonical_bare : d.bare.canonical = d.canonical := by
  rw [canonical, parts_bare, canonical]

theorem regionDepth_bare : d.bare.regionDepth = d.regionDepth := by
  induction d using induct_of_clauses
  case task => simp
  case sequence ds hi =>
    have hc : ∀ d ∈ ds, (regionDepth ∘ bare) d = d.regionDepth := hi
    rw [bare_sequence, regionDepth_sequence, regionDepth_sequence, List.map_map,
      List.map_congr_left hc]
  case split ds hi =>
    have hc : ∀ d ∈ ds, (regionDepth ∘ bare) d = d.regionDepth := hi
    rw [bare_split, regionDepth_split, regionDepth_split, List.map_map, List.map_congr_left hc]
  case only hi => simpa using hi
  case clauses t cs hl hi =>
    rw [bare_transition, regionDepth_clauses (by simpa using hl), regionDepth_clauses hl,
      List.map_map]
    exact congrArg (fun ns : List Nat => 1 + ns.foldr max 0) (List.map_congr_left hi)

end TaskFlow.Definition
