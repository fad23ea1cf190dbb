import TaskFlow.Proofs.Layout.Ids

namespace TaskFlow.IdPool

variable {p : IdPool} {base base' id : String} {taken taken' bases bases' : List String}
  {n n' j j' : Nat}

-- Whether a search for a free id that begins with one number ends with another one.
structure Ends (base : String) (taken : List String) (n n' : Nat) : Prop where
  le : n ≤ n'
  before : ∀ m, n ≤ m → m < n' → numbered base m ∈ taken
  free : numbered base n' ∉ taken

-- The id that a plain search gives to a base: the base itself, or else the base with the least
-- number from two on that gives a free id.
inductive Scans (taken : List String) (base : String) : String → Prop
  | bare : base ∉ taken → Scans taken base base
  | counted {m} : base ∈ taken → Ends base taken 2 m → Scans taken base (numbered base m)

def hint (p : IdPool) (base : String) : Nat :=
  (p.hints.lookup base).getD 2

-- Whether no number that a search leaves out would give a free id.
def Hinted (p : IdPool) : Prop :=
  ∀ base, 2 ≤ p.hint base ∧ ∀ m, 2 ≤ m → m < p.hint base → numbered base m ∈ p.taken

section Search

theorem Ends.extend (h : Ends base taken n j) (hn : n' ≤ n)
    (hb : ∀ m, n' ≤ m → m < n → numbered base m ∈ taken) : Ends base taken n' j where
  le := hn.trans h.le
  before m hm hlt := by
    by_cases hmn : m < n
    case pos => exact hb m hm hmn
    case neg => exact h.before m (Nat.le_of_not_lt hmn) hlt
  free := h.free

theorem firstFree_ends : Ends base taken n (firstFree base taken n) := by
  refine ⟨le_firstFree, ?_, numbered_firstFree_notMem⟩
  induction taken, n using firstFree.induct base
  case case1 taken n h hi =>
    rw [firstFree, if_pos h]
    intro m hm hlt
    obtain rfl | hm := Nat.eq_or_lt_of_le hm
    case inl => exact h
    case inr => exact List.mem_of_mem_erase (hi m hm hlt)
  case case2 h =>
    rw [firstFree, if_neg h]
    intros
    omega

-- Each turn of a search meets another one of the ids that were taken.
theorem firstFree_le : firstFree base taken n ≤ n + taken.length := by
  induction taken, n using firstFree.induct base
  case case1 taken n h hi =>
    rw [firstFree, if_pos h]
    have := List.length_erase_of_mem h
    have := List.length_pos_of_mem h
    omega
  case case2 h =>
    rw [firstFree, if_neg h]
    omega

theorem Ends.congr (h : Ends base taken n j) (ht : ∀ x, x ∈ taken ↔ x ∈ taken') :
    Ends base taken' n j :=
  ⟨h.le, fun m hm hlt => (ht _).mp (h.before m hm hlt), mt (ht _).mpr h.free⟩

theorem Scans.congr (h : Scans taken base id) (ht : ∀ x, x ∈ taken ↔ x ∈ taken') :
    Scans taken' base id := by
  cases h
  case bare h => exact .bare (mt (ht _).mpr h)
  case counted h he => exact .counted ((ht _).mp h) (he.congr ht)

end Search

section Requests

theorem allocate_of_notMem (h : base ∉ p.taken) :
    p.allocate base = (base, { p with taken := base :: p.taken }) :=
  if_neg h

theorem allocate_of_mem (h : base ∈ p.taken) : p.allocate base
    = (numbered base (firstFree base p.taken (p.hint base)),
      ⟨numbered base (firstFree base p.taken (p.hint base)) :: p.taken,
        (base, firstFree base p.taken (p.hint base) + 1) :: p.hints⟩) :=
  if_pos h

-- A base that was taken has its hint behind the number it got, and no other hint changes.
theorem hint_allocate : (p.allocate base).2.hint base'
    = if base ∈ p.taken ∧ base' = base then firstFree base p.taken (p.hint base) + 1
      else p.hint base' := by
  by_cases hb : base ∈ p.taken
  case neg => simp [allocate_of_notMem hb, hb, hint]
  case pos =>
    rw [allocate_of_mem hb]
    by_cases he : base' = base
    case pos => simp [hint, hb, he]
    case neg =>
      have : (base' == base) = false := beq_eq_false_iff_ne.mpr he
      simp [hint, List.lookup_cons, he, this]

theorem hinted_empty : Hinted {} :=
  fun _ => ⟨Nat.le_refl 2, fun _ hm hlt => absurd hm (Nat.not_le_of_lt hlt)⟩

theorem Hinted.ends (h : p.Hinted) : Ends base p.taken 2 (firstFree base p.taken (p.hint base)) :=
  firstFree_ends.extend (h base).1 (h base).2

-- The numbers that a search leaves out do not count.
theorem Hinted.scans (h : p.Hinted) (base : String) : Scans p.taken base (p.allocate base).1 := by
  by_cases hb : base ∈ p.taken
  case neg =>
    rw [allocate_of_notMem hb]
    exact .bare hb
  case pos =>
    rw [allocate_of_mem hb]
    exact .counted hb h.ends

theorem Hinted.allocate (h : p.Hinted) (base : String) : (p.allocate base).2.Hinted := by
  intro base'
  rw [hint_allocate, allocate_fresh.2]
  split
  case isTrue hb =>
    obtain ⟨hb, rfl⟩ := hb
    refine ⟨h.ends.le.trans (Nat.le_succ _), fun m hm hlt => ?_⟩
    obtain rfl | hlt := Nat.eq_or_lt_of_le (Nat.le_of_lt_succ hlt)
    case inl =>
      rw [allocate_of_mem hb]
      exact List.mem_cons_self
    case inr => exact List.mem_cons_of_mem _ (h.ends.before m hm hlt)
  case isFalse => exact ⟨(h base').1, fun m hm hlt => List.mem_cons_of_mem _ ((h base').2 m hm hlt)⟩

end Requests

section Runs

def given (bases : List String) : List String :=
  (({ } : IdPool).allocateAll bases).1

def behind (bases : List String) : IdPool :=
  (({ } : IdPool).allocateAll bases).2

theorem allocateAll_append : p.allocateAll (bases ++ bases')
    = ((p.allocateAll bases).1 ++ ((p.allocateAll bases).2.allocateAll bases').1,
      ((p.allocateAll bases).2.allocateAll bases').2) := by
  induction bases generalizing p
  case nil => rfl
  case cons base bases hi => simp [allocateAll, hi]

theorem given_concat : given (bases ++ [base]) = given bases ++ [((behind bases).allocate base).1] := by
  rw [given, allocateAll_append]
  rfl

theorem behind_concat : behind (bases ++ [base]) = ((behind bases).allocate base).2 := by
  rw [behind, allocateAll_append]
  rfl

theorem length_given : (given bases).length = bases.length := by
  induction bases using List.reverseRecOn
  case nil => rfl
  case append_singleton hi => simp [given_concat, hi]

theorem taken_behind : (behind bases).taken = (given bases).reverse := by
  induction bases using List.reverseRecOn
  case nil => rfl
  case append_singleton hi =>
    rw [behind_concat, allocate_fresh.2, hi, given_concat, List.reverse_concat]

theorem hinted_behind : (behind bases).Hinted := by
  induction bases using List.reverseRecOn
  case nil => exact hinted_empty
  case append_singleton hi => exact behind_concat ▸ hi.allocate _

theorem nodup_given : (given bases).Nodup := by
  induction bases using List.reverseRecOn
  case nil => exact .nil
  case append_singleton bases base hi =>
    have hf := (@allocate_fresh (behind bases) base).1
    rw [taken_behind, List.mem_reverse] at hf
    rw [given_concat, ← List.concat_eq_append]
    exact hi.concat hf

theorem mem_taken_behind {x : String} : x ∈ (behind bases).taken ↔ x ∈ given bases := by
  rw [taken_behind, List.mem_reverse]

theorem scans_behind (bases : List String) (base : String) :
    Scans (given bases) base ((behind bases).allocate base).1 :=
  (hinted_behind.scans base).congr fun _ => mem_taken_behind

-- A request leaves what was given before alone, and what comes later behind it.
theorem exists_given_eq {i : Nat} (h : bases[i]? = some base) : ∃ later, given bases
    = given (bases.take i) ++ ((behind (bases.take i)).allocate base).1 :: later := by
  obtain ⟨hi, rfl⟩ := List.getElem?_eq_some_iff.mp h
  refine ⟨(((behind (bases.take i)).allocate bases[i]).2.allocateAll (bases.drop (i + 1))).1, ?_⟩
  conv_lhs => rw [← List.take_append_drop i bases, List.drop_eq_getElem_cons hi]
  rw [given, allocateAll_append]
  rfl

end Runs

section Marks

def nth (base : String) (j : Nat) : String :=
  if j = 1 then base else numbered base j

-- Whether a base looks like no id with a number.
def Unmarked (base : String) : Prop :=
  '#' ∉ base.toList

theorem nth_of_two_le (h : 2 ≤ j) : nth base j = numbered base j :=
  if_neg (by omega)

theorem toList_numbered : (numbered base n).toList = base.toList ++ '#' :: (toString n).toList := by
  simp [numbered]

-- The mark tells where a base ends.
theorem nth_injective (h : Unmarked base) (h' : Unmarked base') (he : nth base j = nth base' j') :
    base = base' ∧ j = j' := by
  have hcut {xs ys xs' ys' : List Char} (hx : '#' ∉ xs) (hx' : '#' ∉ xs')
      (he : xs ++ '#' :: ys = xs' ++ '#' :: ys') : xs = xs' := by
    have htake {xs ys : List Char} (hx : '#' ∉ xs) : (xs ++ '#' :: ys).takeWhile (· != '#') = xs := by
      rw [List.takeWhile_append_of_pos]
      · simp
      · exact fun c hc => bne_iff_ne.mpr fun he => hx (he ▸ hc)
    rw [← htake hx, he, htake hx']
  rw [nth, nth] at he
  split at he <;> split at he
  case isTrue.isTrue => exact ⟨he, by omega⟩
  case isTrue.isFalse =>
    refine absurd ?_ h
    rw [he, toList_numbered]
    simp
  case isFalse.isTrue =>
    refine absurd ?_ h'
    rw [← he, toList_numbered]
    simp
  case isFalse.isFalse =>
    have hl := congrArg String.toList he
    rw [toList_numbered, toList_numbered] at hl
    have hb := String.toList_inj.mp (hcut h h' hl)
    subst hb
    exact ⟨rfl, numbered_injective he⟩

-- What was given is told by how often each base was asked for, so a search ends behind that.
theorem Scans.eq_nth {k : Nat} (h : Scans taken base id)
    (hm : ∀ j, 1 ≤ j → (nth base j ∈ taken ↔ j ≤ k)) : id = nth base (k + 1) := by
  have hbase : base ∈ taken ↔ 1 ≤ k := hm 1 (Nat.le_refl 1)
  have hnum {j} (hj : 2 ≤ j) : numbered base j ∈ taken ↔ j ≤ k := by
    rw [← nth_of_two_le hj]
    exact hm j (by omega)
  cases h
  case bare h =>
    have : k = 0 := by have := mt hbase.mpr h; omega
    rw [this]
    rfl
  case counted m h he =>
    have hk := hbase.mp h
    have hfree := mt (hnum he.le).mpr he.free
    have hm : m = k + 1 := by
      by_contra hne
      have := (hnum (by omega)).mp (he.before (k + 1) (by omega) (by omega))
      omega
    rw [hm, nth_of_two_le (by omega)]

theorem nth_mem_given (h : ∀ base ∈ bases, Unmarked base) (hb : Unmarked base) (hj : 1 ≤ j) :
    nth base j ∈ given bases ↔ j ≤ bases.count base := by
  induction bases using List.reverseRecOn generalizing base j
  case nil =>
    simp [given, allocateAll]
    omega
  case append_singleton bases last hi =>
    rw [List.forall_mem_append, List.forall_mem_singleton] at h
    have hid := (scans_behind bases last).eq_nth fun j hj => hi h.1 h.2 hj
    rw [given_concat, hid, List.mem_append, List.mem_singleton, hi h.1 hb hj, List.count_append]
    -- The last id is one more for its own base, and none for any other base.
    by_cases he : base = last
    case pos =>
      subst he
      have : nth base j = nth base (bases.count base + 1) ↔ j = bases.count base + 1 :=
        ⟨fun he => (nth_injective hb hb he).2, fun he => he ▸ rfl⟩
      rw [this]
      simp
      omega
    case neg =>
      have : nth base j ≠ nth last (bases.count last + 1) := fun h' =>
        he (nth_injective hb h.2 h').1
      simp [this, Ne.symm he]

end Marks

-- A pool gives the ids that a search from two on would give, although it begins its searches
-- further on. Where no base looks like an id with a number, the number counts the nodes with that
-- base.
theorem allocateAll_scan (bases : List String) :
    (given bases).length = bases.length ∧ (given bases).Nodup ∧
      ∀ i base, bases[i]? = some base → ∃ id, (given bases)[i]? = some id ∧
        Scans ((given bases).take i) base id ∧
        (∃ n, Ends base ((given bases).take i) ((behind (bases.take i)).hint base) n ∧
          n ≤ (behind (bases.take i)).hint base + i ∧
          (base ∈ (given bases).take i → id = numbered base n)) ∧
        ((∀ base ∈ bases, Unmarked base) → id = nth base ((bases.take (i + 1)).count base)) := by
  refine ⟨length_given, nodup_given, fun i base hb => ?_⟩
  have ⟨hi, he⟩ := List.getElem?_eq_some_iff.mp hb
  obtain ⟨later, hg⟩ := exists_given_eq hb
  have hl : (given (bases.take i)).length = i := by
    rw [length_given, List.length_take]
    omega
  -- What a base is given depends on the bases before it only.
  have htake : (given bases).take i = given (bases.take i) := by
    rw [hg, List.take_left' hl]
  refine ⟨((behind (bases.take i)).allocate base).1, ?_, ?_, ?_, fun hu => ?_⟩
  · rw [hg, List.getElem?_append_right (Nat.le_of_eq hl), hl]
    simp
  · exact htake ▸ scans_behind _ _
  · refine ⟨_, htake ▸ firstFree_ends.congr fun _ => mem_taken_behind, ?_, fun hm => ?_⟩
    · have := @firstFree_le base (behind (bases.take i)).taken ((behind (bases.take i)).hint base)
      rwa [taken_behind, List.length_reverse, hl, ← taken_behind] at this
    · rw [htake, ← mem_taken_behind] at hm
      rw [allocate_of_mem hm]
  · have hp : ∀ base ∈ bases.take i, Unmarked base := fun b hm => hu b (List.mem_of_mem_take hm)
    have hub := hu base (he ▸ List.getElem_mem hi)
    rw [(scans_behind _ _).eq_nth fun j hj => nth_mem_given hp hub hj,
      List.take_add_one, hb, List.count_append]
    simp

theorem given_repeatedName : (given ["a", "b", "a"])[2]? = some "a#2" := by
  have ⟨id, hid, _, _, hn⟩ := (allocateAll_scan ["a", "b", "a"]).2.2 2 "a" rfl
  rw [hid, hn (by simp [Unmarked])]
  decide

example : given ["a", "a#2", "a", "a"] = ["a", "a#2", "a#3", "a#4"] := by
  cbv

end TaskFlow.IdPool
