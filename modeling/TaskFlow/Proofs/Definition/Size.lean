import TaskFlow.Proofs.Definition.Canonical

namespace TaskFlow.Definition

variable {d : Definition} {ds : List Definition} {t : TaskMention} {c : Clause} {cs : List Clause}

-- The number of nodes that a definition is laid out with.
def size : Definition → Nat :=
  fold (fun _ => 1) List.sum (fun ns => 2 + ns.sum) fun _ cs => 1 + (cs.map (·.2)).sum

def openings : Definition → Nat :=
  fold (fun _ => 0) List.sum (fun ns => 1 + ns.sum) fun _ cs =>
    (cs.map fun (c, n) => if c.2.isSimple then n else 1 + n).sum

def targetOpenings (d : Definition) : Nat :=
  if d.isSimple then d.openings else 1 + d.openings

section Equations

@[simp]
theorem size_task : (task t).size = 1 := by
  simp [size]

@[simp]
theorem size_sequence : (sequence ds).size = (ds.map size).sum := by
  simp [size]

@[simp]
theorem size_split : (split ds).size = 2 + (ds.map size).sum := by
  simp [size]

@[simp]
theorem size_transition : (transition t cs).size = 1 + (cs.map (·.2.size)).sum := by
  simp [size, Function.comp_def]

@[simp]
theorem openings_task : (task t).openings = 0 := by
  simp [openings]

@[simp]
theorem openings_sequence : (sequence ds).openings = (ds.map openings).sum := by
  simp [openings]

@[simp]
theorem openings_split : (split ds).openings = 1 + (ds.map openings).sum := by
  simp [openings]

@[simp]
theorem openings_transition :
    (transition t cs).openings = (cs.map (·.2.targetOpenings)).sum := by
  simp [openings, targetOpenings, Function.comp_def]

end Equations

theorem sum_map_flatMap {α : Type} {f : α → List Definition} {g : Definition → Nat} {xs : List α} :
    ((xs.flatMap f).map g).sum = (xs.map fun x => ((f x).map g).sum).sum := by
  induction xs
  case nil => rfl
  case cons hi => simp [hi]

theorem size_inOrder : (inOrder ds).size = (ds.map size).sum := by
  have hs (d : Definition) : (d.steps.map size).sum = d.size := by
    cases d <;> simp [steps]
  unfold inOrder
  split
  case h_1 => simp
  case h_2 => rw [size_sequence, sum_map_flatMap, funext hs]

section Bounds

theorem foldr_max_lt {ns : List Nat} {k : Nat} (hk : 0 < k) (h : ∀ n ∈ ns, n < k) :
    ns.foldr max 0 < k := by
  have := foldr_max_le_iff.mpr fun n hn => Nat.le_sub_one_of_lt (h n hn)
  omega

theorem size_le_sum (hd : d ∈ ds) : d.size ≤ (ds.map size).sum :=
  List.le_sum_of_mem (List.mem_map_of_mem hd)

theorem target_size_le_sum (hc : c ∈ cs) : c.2.size ≤ (cs.map (·.2.size)).sum :=
  List.le_sum_of_mem (List.mem_map.mpr ⟨c, hc, rfl⟩)

namespace Normal

-- A region is opened by a fork or by a task with several clauses, which are nodes themselves.
theorem regionDepth_lt_size (h : d.Normal) : d.regionDepth < d.size := by
  induction d, h using Normal.induct_of_clauses
  case task => simp
  case sequence ds hl _ _ hi =>
    have ⟨d, hd⟩ := List.exists_mem_of_length_pos (Nat.lt_of_lt_of_le Nat.two_pos hl)
    have := hi d hd
    have := size_le_sum hd
    rw [regionDepth_sequence, size_sequence]
    refine foldr_max_lt (by omega) (List.forall_mem_map.mpr fun d hd => ?_)
    exact Nat.lt_of_lt_of_le (hi d hd) (size_le_sum hd)
  case split ds _ _ hi =>
    have : (ds.map regionDepth).foldr max 0 ≤ (ds.map size).sum := by
      refine foldr_max_le_iff.mpr (List.forall_mem_map.mpr fun d hd => ?_)
      exact Nat.le_of_lt (Nat.lt_of_lt_of_le (hi d hd) (size_le_sum hd))
    rw [regionDepth_split, size_split]
    omega
  case only hi =>
    simp
    omega
  case clauses t cs h _ hl hi =>
    have ⟨c, hc⟩ := List.exists_mem_of_ne_nil cs (normal_transition.mp h).1
    have := hi c hc
    have := target_size_le_sum hc
    have : (cs.map fun c : Clause => c.2.regionDepth).foldr max 0
        < (cs.map fun c : Clause => c.2.size).sum := by
      refine foldr_max_lt (by omega) (List.forall_mem_map.mpr fun c hc => ?_)
      exact Nat.lt_of_lt_of_le (hi c hc) (target_size_le_sum hc)
    rw [regionDepth_clauses hl, size_transition]
    omega

-- Each task that waits is a node.
theorem leadsFit_of_size {limit : Int} {n : Nat} (h : d.Normal) (hl : (n + d.size : Nat) ≤ limit) :
    LeadsFit limit n d := by
  induction d, h using Normal.induct_of_clauses generalizing n
  case task => exact .task
  case sequence ds hn _ _ hi =>
    match ds with
    | [] => cases hn
    | d :: ds =>
      rw [size_sequence] at hl
      have := @size_le_sum d (d :: ds) List.mem_cons_self
      refine .sequence (hi d List.mem_cons_self (by omega)) fun e he => ?_
      have he := List.mem_cons_of_mem d he
      have := size_le_sum he
      exact hi e he (by omega)
  case split ds _ _ hi =>
    rw [size_split] at hl
    refine .split fun d hd => hi d hd ?_
    have := size_le_sum hd
    omega
  case only hi =>
    rw [size_transition, List.map_singleton, List.sum_singleton] at hl
    exact .only (by omega) (hi (by omega))
  case clauses hc hi =>
    rw [size_transition] at hl
    refine .select hc fun c hc => hi c hc ?_
    have := target_size_le_sum hc
    omega

theorem openings_lt_size (h : d.Normal) : d.openings < d.size := by
  induction h
  case task => simp
  case sequence ds hl _ _ hi =>
    rw [openings_sequence, size_sequence]
    refine List.sum_lt_sum_of_ne_nil ?_ _ _ hi
    rintro rfl
    cases hl
  case split ds hn _ hi =>
    have := List.sum_lt_sum_of_ne_nil hn openings size hi
    rw [openings_split, size_split]
    omega
  case transition t cs hn _ _ hi =>
    have : (cs.map fun c : Clause => c.2.targetOpenings).sum
        ≤ (cs.map fun c : Clause => c.2.size).sum := by
      refine List.sum_le_sum fun c hc => ?_
      have := hi c hc
      rw [targetOpenings]
      split <;> omega
    rw [openings_transition, size_transition]
    omega

-- Control passes the same nodes in the canonical form.
theorem size_parts (h : d.Normal) : (d.parts.map size).sum = d.size := by
  induction d, h using Normal.induct_of_clauses
  case task => simp
  case sequence ds _ _ _ hi =>
    rw [parts_sequence, sum_map_flatMap, List.map_congr_left hi, size_sequence]
  case split ds _ _ hi =>
    have hc : ∀ d ∈ ds, (size ∘ Definition.canonical) d = d.size := fun d hd => size_inOrder.trans (hi d hd)
    rw [parts_split, List.map_singleton, List.sum_singleton, size_split, List.map_map,
      List.map_congr_left hc, size_split]
  case only t c _ hn hi =>
    cases hp : c.2.parts
    case nil => exact absurd hp hn.parts_ne_nil
    case cons p ps =>
      rw [hp] at hi
      simp [hp, under, ← hi, Nat.add_assoc]
  case clauses t cs _ _ hl hi =>
    have hc : ∀ c ∈ cs, c.2.canonical.size = c.2.size := fun c hc => size_inOrder.trans (hi c hc)
    rw [parts_clauses hl, List.map_singleton, List.sum_singleton, size_transition, List.map_map,
      size_transition, ← List.map_congr_left hc]
    rfl

theorem size_canonical (h : d.Normal) : d.canonical.size = d.size :=
  size_inOrder.trans h.size_parts

end Normal

end Bounds

end TaskFlow.Definition
