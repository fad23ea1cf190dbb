import TaskFlow.Proofs.Definition.Normal
import TaskFlow.Proofs.Reader.Demands

namespace TaskFlow.Definition

open Lexeme

variable {d : Definition} {ds : List Definition} {t : TaskMention} {p : Option String} {c : Clause}
  {cs : List Clause}

-- The brackets of the text that one is in at a time.
def nesting : Definition → Nat :=
  fold (fun _ => 0) (·.foldr max 0) (fun ns => 1 + ns.foldr max 0) fun _ cs =>
    (cs.map fun (c, n) => if c.2.isSimple then n else 1 + n).foldr max 0

def targetNesting (d : Definition) : Nat :=
  if d.isSimple then d.nesting else 1 + d.nesting

@[simp]
theorem nesting_task : (task t).nesting = 0 := by
  simp [nesting]

@[simp]
theorem nesting_sequence : (sequence ds).nesting = (ds.map nesting).foldr max 0 := by
  simp [nesting]

@[simp]
theorem nesting_split : (split ds).nesting = 1 + (ds.map nesting).foldr max 0 := by
  simp [nesting]

@[simp]
theorem nesting_transition :
    (transition t cs).nesting = (cs.map (·.2.targetNesting)).foldr max 0 := by
  simp [nesting, targetNesting, Function.comp_def]

theorem foldr_max_le_iff {ns : List Nat} {k : Nat} : ns.foldr max 0 ≤ k ↔ ∀ n ∈ ns, n ≤ k := by
  induction ns
  case nil => simp
  case cons n ns hi => simp [hi]

theorem le_foldr_max {ns : List Nat} {n : Nat} (h : n ∈ ns) : n ≤ ns.foldr max 0 :=
  foldr_max_le_iff.mp (Nat.le_refl _) n h

theorem foldr_max_append {ns ns' : List Nat} :
    (ns ++ ns').foldr max 0 = max (ns.foldr max 0) (ns'.foldr max 0) := by
  induction ns
  case nil => simp
  case cons n ns hi =>
    rw [List.cons_append, List.foldr_cons, hi, List.foldr_cons, Nat.max_assoc]

theorem nesting_inOrder_le {k : Nat} (h : ∀ d ∈ ds, d.nesting ≤ k) : (inOrder ds).nesting ≤ k := by
  unfold inOrder
  split
  case h_1 => simpa using h
  case h_2 =>
    rw [nesting_sequence, foldr_max_le_iff, List.forall_mem_map]
    intro s hs
    have ⟨d, hd, hs⟩ := List.mem_flatMap.mp hs
    refine Nat.le_trans ?_ (h d hd)
    cases d
    case sequence ss =>
      rw [nesting_sequence]
      exact le_foldr_max (List.mem_map_of_mem hs)
    all_goals
      cases List.mem_singleton.mp hs
      exact Nat.le_refl _

theorem nesting_le_targetNesting : d.nesting ≤ d.targetNesting := by
  rw [targetNesting]
  split <;> omega

theorem targetNesting_le : d.targetNesting ≤ 1 + d.nesting := by
  rw [targetNesting]
  split <;> omega

-- How many branches one is in at a time. The target of an only clause is no branch.
def regionDepth : Definition → Nat :=
  fold (fun _ => 0) (·.foldr max 0) (fun ns => 1 + ns.foldr max 0) fun _ cs =>
    match cs with
    | [(_, n)] => n
    | cs => 1 + (cs.map (·.2)).foldr max 0

@[simp]
theorem regionDepth_task : (task t).regionDepth = 0 := by
  simp [regionDepth]

@[simp]
theorem regionDepth_sequence : (sequence ds).regionDepth = (ds.map regionDepth).foldr max 0 := by
  simp [regionDepth]

@[simp]
theorem regionDepth_split : (split ds).regionDepth = 1 + (ds.map regionDepth).foldr max 0 := by
  simp [regionDepth]

@[simp]
theorem regionDepth_only_clause : (transition t [c]).regionDepth = c.2.regionDepth := by
  simp [regionDepth]

theorem regionDepth_clauses (h : cs.length ≠ 1) :
    (transition t cs).regionDepth = 1 + (cs.map (·.2.regionDepth)).foldr max 0 := by
  match cs with
  | [] => simp [regionDepth]
  | [_] => simp at h
  | _ :: _ :: _ => simp [regionDepth, Function.comp_def]

-- Whether no more than `limit` tasks wait in front of a task with an only clause, when `n` tasks
-- wait in front of the definition.
inductive LeadsFit (limit : Int) : Nat → Definition → Prop
  | task {n : Nat} {t} : LeadsFit limit n (.task t)
  | sequence {n : Nat} {d ds} : LeadsFit limit n d → (∀ d ∈ ds, LeadsFit limit 0 d) →
    LeadsFit limit n (.sequence (d :: ds))
  | split {n : Nat} {ds} : (∀ d ∈ ds, LeadsFit limit 0 d) → LeadsFit limit n (.split ds)
  | only {n : Nat} {t c} : (n : Int) ≤ limit → LeadsFit limit (n + 1) c.2 →
    LeadsFit limit n (.transition t [c])
  | select {n : Nat} {t cs} : cs.length ≠ 1 → (∀ c ∈ cs, LeadsFit limit 0 c.2) →
    LeadsFit limit n (.transition t cs)

section LeadsFit

variable {limit : Int} {n n' : Nat}

theorem LeadsFit.mono (h : LeadsFit limit n d) (hn : n' ≤ n) : LeadsFit limit n' d := by
  induction h generalizing n'
  case task => exact .task
  case sequence hs hi _ => exact .sequence (hi hn) hs
  case split hs _ => exact .split hs
  case only hl _ hi => exact .only (by omega) (hi (Nat.add_le_add_right hn 1))
  case select hl hs _ => exact .select hl hs

theorem leadsFit_cons : LeadsFit limit n (.sequence (d :: ds)) ↔
    LeadsFit limit n d ∧ ∀ d ∈ ds, LeadsFit limit 0 d := by
  refine ⟨fun h => ?_, fun ⟨h, hs⟩ => .sequence h hs⟩
  cases h
  exact ⟨‹_›, ‹_›⟩

theorem leadsFit_split : LeadsFit limit n (.split ds) ↔ ∀ d ∈ ds, LeadsFit limit 0 d := by
  refine ⟨fun h => ?_, .split⟩
  cases h
  assumption

theorem leadsFit_only_clause : LeadsFit limit n (.transition t [c]) ↔
    (n : Int) ≤ limit ∧ LeadsFit limit (n + 1) c.2 := by
  refine ⟨fun h => ?_, fun ⟨hl, h⟩ => .only hl h⟩
  cases h
  case only hl h => exact ⟨hl, h⟩
  case select hl _ => exact absurd rfl hl

theorem leadsFit_clauses (hl : cs.length ≠ 1) : LeadsFit limit n (.transition t cs) ↔
    ∀ c ∈ cs, LeadsFit limit 0 c.2 := by
  refine ⟨fun h => ?_, .select hl⟩
  cases h
  case only => contradiction
  case select h => exact h

theorem LeadsFit.steps (h : LeadsFit limit n d) (hd : d ≠ .sequence []) :
    ∃ s ss, d.steps = s :: ss ∧ LeadsFit limit n s ∧ ∀ s ∈ ss, LeadsFit limit 0 s := by
  cases h
  case sequence s ss hs h => exact ⟨s, ss, rfl, h, hs⟩
  case task => exact ⟨_, [], rfl, .task, List.forall_mem_nil _⟩
  case split hs => exact ⟨_, [], rfl, .split hs, List.forall_mem_nil _⟩
  case only hl h => exact ⟨_, [], rfl, .only hl h, List.forall_mem_nil _⟩
  case select hl hs => exact ⟨_, [], rfl, .select hl hs, List.forall_mem_nil _⟩

theorem LeadsFit.inOrder (hn : ds ≠ []) (hd : ∀ d ∈ ds, d.Normal)
    (h : ∀ d ∈ ds, LeadsFit limit n d) : LeadsFit limit n (inOrder ds) := by
  match ds with
  | [] => contradiction
  | [d] => exact h d List.mem_cons_self
  | d :: d' :: ds =>
    have hne : ∀ e ∈ d :: d' :: ds, e ≠ .sequence [] := by
      rintro _ he rfl
      exact (hd _ he).steps.1 rfl
    obtain ⟨s, ss, he, hs, hss⟩ := (h d List.mem_cons_self).steps (hne d List.mem_cons_self)
    have hf : Definition.inOrder (d :: d' :: ds)
        = .sequence (s :: (ss ++ (d' :: ds).flatMap Definition.steps)) := by
      rw [Definition.inOrder, List.flatMap_cons, he]
      · rfl
      · simp
    -- Only the very first step has the tasks that wait in front of it; behind it none waits.
    rw [hf]
    refine .sequence hs (List.forall_mem_append.mpr ⟨hss, fun x hx => ?_⟩)
    obtain ⟨e, hm, hx⟩ := List.mem_flatMap.mp hx
    have hm := List.mem_cons_of_mem d hm
    obtain ⟨s', ss', he', hs', hss'⟩ := (h e hm).steps (hne e hm)
    rw [he'] at hx
    obtain rfl | hx := List.mem_cons.mp hx
    case inl => exact hs'.mono (Nat.zero_le n)
    case inr => exact hss' x hx

end LeadsFit

-- Whether a walk through the graph of a definition stays within the limit, when `fans` branches are
-- being walked and `leads` tasks wait already.
structure Walkable (limit : Int) (fans leads : Nat) (d : Definition) : Prop where
  regions : (fans + d.regionDepth : Int) ≤ 2 * limit
  leads : LeadsFit limit leads d

section Walkable

variable {limit : Int} {n k : Nat} {es : List Definition}

theorem walkable_iff : Walkable limit n k d ↔
    (n + d.regionDepth : Int) ≤ 2 * limit ∧ LeadsFit limit k d :=
  ⟨fun ⟨h, h'⟩ => ⟨h, h'⟩, fun ⟨h, h'⟩ => ⟨h, h'⟩⟩

theorem walkable_task : Walkable limit n k (.task t) ↔ (n : Int) ≤ 2 * limit := by
  simp [walkable_iff, LeadsFit.task]

theorem walkable_singleton : Walkable limit n k (.sequence [d]) ↔ Walkable limit n k d := by
  simp [walkable_iff, leadsFit_cons]

theorem walkable_append (hd : ds ≠ []) (he : es ≠ []) : Walkable limit n k (.sequence (ds ++ es)) ↔
    Walkable limit n k (.sequence ds) ∧ Walkable limit n 0 (.sequence es) := by
  have ⟨d, ds, hds⟩ := List.exists_cons_of_ne_nil hd
  have ⟨e, es, hes⟩ := List.exists_cons_of_ne_nil he
  subst hds hes
  have hr : (Definition.sequence (d :: ds ++ e :: es)).regionDepth
      = max (Definition.sequence (d :: ds)).regionDepth (Definition.sequence (e :: es)).regionDepth := by
    simp only [regionDepth_sequence, List.map_append]
    exact foldr_max_append
  have hl : LeadsFit limit k (.sequence (d :: ds ++ e :: es)) ↔
      LeadsFit limit k (.sequence (d :: ds)) ∧ LeadsFit limit 0 (.sequence (e :: es)) := by
    rw [List.cons_append, leadsFit_cons, leadsFit_cons, leadsFit_cons, List.forall_mem_append,
      List.forall_mem_cons, and_assoc]
  have hm : (n + (max (Definition.sequence (d :: ds)).regionDepth
        (Definition.sequence (e :: es)).regionDepth : Nat) : Int) ≤ 2 * limit ↔
      (n + (Definition.sequence (d :: ds)).regionDepth : Int) ≤ 2 * limit ∧
        (n + (Definition.sequence (e :: es)).regionDepth : Int) ≤ 2 * limit := by
    omega
  rw [walkable_iff, walkable_iff, walkable_iff, hr, hl, hm, and_and_and_comm]

-- A level around several definitions is as deep as each of them needs.
theorem level_le_iff {ns : List Nat} (hn : ns ≠ []) :
    (n + (1 + ns.foldr max 0 : Nat) : Int) ≤ limit ↔ ∀ m ∈ ns, ((n + 1 : Nat) + m : Int) ≤ limit := by
  constructor
  case mp =>
    intro h m hm
    have := le_foldr_max hm
    omega
  case mpr =>
    intro h
    have ⟨m, hm⟩ := List.exists_mem_of_ne_nil ns hn
    have hb : ns.foldr max 0 ≤ (limit - n - 1).toNat := foldr_max_le_iff.mpr fun m hm => by
      have := h m hm
      omega
    have := h m hm
    omega

theorem walkable_split (hn : ds ≠ []) :
    Walkable limit n k (.split ds) ↔ ∀ d ∈ ds, Walkable limit (n + 1) 0 d := by
  rw [walkable_iff, regionDepth_split, level_le_iff (by simpa using hn), List.forall_mem_map,
    leadsFit_split]
  simp only [walkable_iff, forall_and]

theorem walkable_only_clause : Walkable limit n k (.transition t [c]) ↔
    (k : Int) ≤ limit ∧ Walkable limit n (k + 1) c.2 := by
  rw [walkable_iff, walkable_iff, regionDepth_only_clause, leadsFit_only_clause, and_left_comm]

theorem walkable_clauses (hl : 2 ≤ cs.length) :
    Walkable limit n k (.transition t cs) ↔ ∀ c ∈ cs, Walkable limit (n + 1) 0 c.2 := by
  have hn : cs ≠ [] := by
    rintro rfl
    cases hl
  have hl : cs.length ≠ 1 := by omega
  rw [walkable_iff, regionDepth_clauses hl, level_le_iff (by simpa using hn), List.forall_mem_map,
    leadsFit_clauses hl]
  simp only [walkable_iff, forall_and]

end Walkable

end TaskFlow.Definition

namespace TaskFlow

open Lexeme Definition

variable {limit n : Int} {ls : List Lexeme} {d : Definition}

theorem nestsFrom_flatMap {α : Type} {f : α → List Lexeme} {xs : List α}
    (h : ∀ x ∈ xs, level (f x) = 0) :
    NestsFrom limit n (xs.flatMap f) ↔ ∀ x ∈ xs, NestsFrom limit n (f x) := by
  induction xs
  case nil => simp
  case cons x xs hi =>
    rw [List.forall_mem_cons] at h
    rw [List.flatMap_cons, nestsFrom_append, h.1, Int.add_zero, hi h.2, List.forall_mem_cons]

theorem nestsFrom_intercalate {sep : Lexeme} {ps : List (List Lexeme)} (ho : sep.opens = false)
    (hs : level [sep] = 0) (h : ∀ p ∈ ps, level p = 0) :
    NestsFrom limit n ([sep].intercalate ps) ↔ ∀ p ∈ ps, NestsFrom limit n p := by
  induction ps
  case nil => simp
  case cons p ps hi =>
    rw [List.forall_mem_cons] at h
    cases ps
    case nil => simp
    case cons =>
      have hp : NestsFrom limit n [sep] := by simp [nestsFrom_cons, ho]
      rw [List.intercalate_cons_cons, List.append_assoc, nestsFrom_append, nestsFrom_append, h.1, hs,
        Int.add_zero, Int.add_zero, hi h.2]
      simp only [List.forall_mem_cons]
      exact and_congr_right fun _ => and_iff_right hp

theorem nestsFrom_bracketed {l l' : Lexeme} (ho : l.opens) (hl : level [l] = 1)
    (hc : l'.opens = false) :
    NestsFrom limit n (l :: ls ++ [l']) ↔ n + 1 ≤ limit ∧ NestsFrom limit (n + 1) ls := by
  rw [List.cons_append, nestsFrom_cons, nestsFrom_append, hl]
  simp [ho, hc, nestsFrom_cons]

theorem nestsFrom_arm {a : Arm} (h : a.status.pattern?.isSome) :
    NestsFrom limit n a.spelling ↔ NestsFrom limit n a.lexemes := by
  have ho : a.status.opens = false ∧ level [a.status] = 0 := by
    cases hs : a.status <;> simp [hs, Lexeme.pattern?] at h <;> exact ⟨rfl, rfl⟩
  rw [Arm.spelling, nestsFrom_cons, nestsFrom_cons, nestsFrom_cons, ho.1, ho.2]
  simp [opens, level, closes]

namespace Definition

theorem Normal.level_spelling (h : d.Normal) : level d.spelling = 0 :=
  h.denoted.sequence.level_eq_zero

theorem level_enclose (h : level ls = 0) : level (d.enclose ls) = 0 := by
  rw [enclose]
  split
  case isTrue => exact h
  case isFalse =>
    rw [List.cons_append, level_cons, level_append, h]
    rfl

theorem TaskMention.nestsFrom_spelling (t : TaskMention) :
    NestsFrom limit n t.spelling ∧ level t.spelling = 0 := by
  cases hl : t.label <;> simp [TaskMention.spelling, hl, nestsFrom_cons, opens, level, closes]

-- The brackets in the text of a definition are those that are counted.
theorem Normal.nestsFrom_spelling (h : d.Normal) (hd : n + d.nesting ≤ limit) :
    NestsFrom limit n d.spelling := by
  induction h generalizing n
  case task t =>
    rw [spelling_task]
    exact (TaskMention.nestsFrom_spelling t).1
  case sequence ds _ _ hn hi =>
    rw [spelling_sequence, nestsFrom_intercalate rfl rfl
      (List.forall_mem_map.mpr fun d hm => (hn d hm).level_spelling)]
    refine List.forall_mem_map.mpr fun d hm => hi d hm ?_
    have : d.nesting ≤ (Definition.sequence ds).nesting :=
      nesting_sequence ▸ le_foldr_max (List.mem_map_of_mem hm)
    omega
  case split ds _ hn hi =>
    rw [nesting_split] at hd
    rw [spelling_split, nestsFrom_bracketed rfl rfl rfl, nestsFrom_intercalate rfl rfl
      (List.forall_mem_map.mpr fun d hm => (hn d hm).level_spelling)]
    refine ⟨by omega, List.forall_mem_map.mpr fun d hm => hi d hm ?_⟩
    have : d.nesting ≤ (ds.map nesting).foldr max 0 := le_foldr_max (List.mem_map_of_mem hm)
    omega
  case transition t cs _ hp hn hi =>
    have ht : NestsFrom limit n t.spelling ∧ level t.spelling = 0 := TaskMention.nestsFrom_spelling t
    have ha (c : Clause) : [Lexeme.arrow, statusLexeme (c.1.getD ""), .colon]
        ++ c.2.enclose c.2.spelling = (arm c).spelling := rfl
    have hl : ∀ c ∈ cs, (arm c).status.pattern?.isSome :=
      fun c _ => by simp [arm, pattern?_statusLexeme]
    simp only [spelling_transition, ha]
    rw [nestsFrom_append, ht.2, Int.add_zero, nestsFrom_flatMap fun c hc => ?level]
    case level =>
      exact (Arm.level_spelling (hl c hc)).trans (level_enclose (hn c hc).level_spelling)
    refine ⟨ht.1, fun c hc => (nestsFrom_arm (hl c hc)).mpr ?_⟩
    have hm : c.2.targetNesting ≤ (Definition.transition t cs).nesting :=
      nesting_transition ▸ le_foldr_max (List.mem_map.mpr ⟨c, hc, rfl⟩)
    have hx : (arm c).lexemes = c.2.enclose c.2.spelling := rfl
    rw [hx, enclose]
    rw [targetNesting] at hm
    -- A target that is not simple stands in parentheses, which open one more level.
    split
    case isTrue hs =>
      rw [if_pos hs] at hm
      exact hi c hc (by omega)
    case isFalse hs =>
      rw [if_neg hs] at hm
      exact (nestsFrom_bracketed rfl rfl rfl).mpr ⟨by omega, hi c hc (by omega)⟩

end Definition

-- What follows for a definition when its text nests within the limit. `n` brackets are open in
-- front of it.
structure Roomy (limit : Int) (n : Nat) (d : Definition) : Prop where
  nesting : n + d.nesting ≤ limit
  leadsFit : LeadsFit limit n d

structure RoomyTarget (limit : Int) (n : Nat) (d : Definition) : Prop where
  nesting : n + d.targetNesting ≤ limit
  leadsFit : LeadsFit limit (n + 1) d

def Phrase.isTarget (p : Phrase) : Prop :=
  p ∈ Phrase.target :: Phrase.target.alternatives

section Roomy

variable {n : Nat} {ds : List Definition} {t : TaskMention} {cs : List Clause}

theorem Roomy.inOrder (hne : ds ≠ []) (hn : ∀ d ∈ ds, d.Normal) (hl : (n : Int) ≤ limit)
    (h : ∀ d ∈ ds, Roomy limit n d) : Roomy limit n (inOrder ds) := by
  refine ⟨?_, .inOrder hne hn fun d hd => (h d hd).leadsFit⟩
  have : (Definition.inOrder ds).nesting ≤ (limit - n).toNat := nesting_inOrder_le fun d hd => by
    have := (h d hd).nesting
    omega
  omega

-- A split brings brackets of its own, wherever it stands.
theorem roomy_split (hl : (n + 1 : Int) ≤ limit) (h : ∀ d ∈ ds, Roomy limit (n + 1) d) :
    Roomy limit n (.split ds) ∧ RoomyTarget limit n (.split ds) := by
  have hx : n + (Definition.split ds).nesting ≤ limit := by
    have : (ds.map nesting).foldr max 0 ≤ (limit - n - 1).toNat := by
      refine foldr_max_le_iff.mpr (List.forall_mem_map.mpr fun d hd => ?_)
      have := (h d hd).nesting
      omega
    rw [nesting_split]
    omega
  have hf {k} : LeadsFit limit k (.split ds) :=
    .split fun d hd => (h d hd).leadsFit.mono (Nat.zero_le _)
  exact ⟨⟨hx, hf⟩, hx, hf⟩

-- One more bracket is open inside of parentheses, which is the room that one more task needs.
theorem Roomy.target (h : Roomy limit (n + 1) d) : RoomyTarget limit n d where
  nesting := by
    have := h.nesting
    have := @targetNesting_le d
    omega
  leadsFit := h.leadsFit

theorem RoomyTarget.roomy (h : RoomyTarget limit n d) : Roomy limit n d where
  nesting := by
    have := h.nesting
    have := @nesting_le_targetNesting d
    omega
  leadsFit := h.leadsFit.mono (Nat.le_succ n)

theorem roomy_ofClauses (hl : (n : Int) ≤ limit) (h : ∀ c ∈ cs, RoomyTarget limit n c.2) :
    Roomy limit n (.ofClauses t cs) := by
  match cs with
  | [] => exact ⟨by simpa [ofClauses] using hl, .task⟩
  | c :: cs =>
    have hx : (Definition.transition t (c :: cs)).nesting ≤ (limit - n).toNat := by
      rw [nesting_transition, foldr_max_le_iff, List.forall_mem_map]
      intro c hc
      have := (h c hc).nesting
      omega
    have he : Definition.ofClauses t (c :: cs) = .transition t (c :: cs) := rfl
    rw [he]
    refine ⟨by omega, ?_⟩
    cases cs
    case nil => exact .only hl (h c List.mem_cons_self).leadsFit
    case cons => exact .select (by simp) fun c hc => (h c hc).leadsFit.mono (Nat.zero_le _)

end Roomy

-- By induction on the derivation. What stands in brackets is one level deeper, and a target is a
-- task or stands in brackets itself.
theorem Derives.roomy {p : Phrase} {n : Nat} (h : Derives p ls d) (hn : NestsFrom limit n ls)
    (hl : (n : Int) ≤ limit) : Roomy limit n d ∧ (p.isTarget → RoomyTarget limit n d) := by
  induction h generalizing n
  case sequence ps hne hd hi =>
    have hz : ∀ l ∈ ps.map (·.1), level l = 0 :=
      List.forall_mem_map.mpr fun q hq => (hd q hq).level_eq_zero
    rw [nestsFrom_intercalate rfl rfl hz, List.forall_mem_map] at hn
    refine ⟨.inOrder (by simpa using hne) ?_ hl ?_, fun hp => ?_⟩
    · exact List.forall_mem_map.mpr fun q hq => (hd q hq).normal
    · exact List.forall_mem_map.mpr fun q hq => (hi q hq (hn q hq) hl).1
    · simp [Phrase.isTarget, Phrase.alternatives] at hp
  case split ps hne hd hi =>
    have hz : ∀ l ∈ ps.map (·.1), level l = 0 :=
      List.forall_mem_map.mpr fun q hq => (hd q hq).level_eq_zero
    rw [nestsFrom_bracketed rfl rfl rfl, nestsFrom_intercalate rfl rfl hz, List.forall_mem_map] at hn
    have hx := roomy_split hn.1
      (List.forall_mem_map.mpr fun q hq => (hi q hq (n := n + 1) (hn.2 q hq) hn.1).1)
    exact ⟨hx.1, fun _ => hx.2⟩
  case group hi =>
    rw [nestsFrom_bracketed rfl rfl rfl] at hn
    have hx := (hi (n := n + 1) hn.2 hn.1).1.target
    exact ⟨hx.roomy, fun _ => hx⟩
  case transition t as hlt hs hd hi =>
    rw [nestsFrom_append, hlt.level_eq_zero, Int.add_zero, nestsFrom_flatMap fun a ha => ?level] at hn
    case level => exact (Arm.level_spelling (hs a ha)).trans (hd a ha).level_eq_zero
    have hi a ha := (hi a ha ((nestsFrom_arm (hs a ha)).mp (hn.2 a ha)) hl).2 List.mem_cons_self
    refine ⟨roomy_ofClauses hl (List.forall_mem_map.mpr hi), fun hp => ?_⟩
    simp [Phrase.isTarget, Phrase.alternatives] at hp
  case labeledTask t _ =>
    exact ⟨⟨by simpa using hl, .task⟩, fun _ => ⟨by simpa [targetNesting, isSimple] using hl, .task⟩⟩
  case alternative p q _ _ hm _ hi =>
    have hi := hi hn hl
    refine ⟨hi.1, fun hp => hi.2 ?_⟩
    cases p <;> simp [Phrase.isTarget, Phrase.alternatives] at hp hm ⊢
    all_goals grind

end TaskFlow
