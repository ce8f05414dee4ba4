import PatternGroups.Proofs.Reachability

/-!
# The order of a search

A search lists an element when it discovers it. A queue may hold an element several times, once for
each discovery, and list it when it leaves the queue for the first time. Both lists are the same,
and no element is listed before a nearer one:

* `Drains.unique`, `drains_reach`: the queue runs empty, and lists elements in the order of the
  search;
* `reach_pairwise`: an element is no farther from the seeds than a later one;
* `reach_eq_of_mem_iff`: searches that list the same elements list them in one order, whatever their
  bounds.
-/

namespace PatternGroups.Search

variable {σ : Type}

/-- A number of moves leads from a seed to an element. -/
inductive Way (move : σ → σ → Prop) (seeds : List σ) : Nat → σ → Prop where
  | start {s : σ} (seed : s ∈ seeds) : Way move seeds 0 s
  | step {k : Nat} {s t : σ} (way : Way move seeds k s) (next : move s t) :
      Way move seeds (k + 1) t

/-- An element is no farther from the seeds than another. -/
def NoFarther (move : σ → σ → Prop) (seeds : List σ) (s t : σ) : Prop :=
  ∀ k, Way move seeds k t → ∃ j ≤ k, Way move seeds j s

variable [DecidableEq σ] {next : σ → List σ} {seeds : List σ}

/-! ## New elements -/

theorem fresh_congr {known known' : List σ} (h : ∀ s, s ∈ known ↔ s ∈ known') (l : List σ) :
    fresh known l = fresh known' l := by
  induction l generalizing known known' with
  | nil => rfl
  | cons s rest ih =>
    have later : ∀ r, r ∈ s :: known ↔ r ∈ s :: known' := fun r => by
      rw [List.mem_cons, List.mem_cons, h]
    simp only [fresh, h s, ih h, ih later]

theorem fresh_append (known l r : List σ) :
    fresh known (l ++ r) = fresh known l ++ fresh (known ++ l) r := by
  induction l generalizing known with
  | nil => rw [List.nil_append, List.append_nil]; rfl
  | cons s rest ih =>
    rw [List.cons_append, fresh, fresh]
    by_cases old : s ∈ known
    · rw [if_pos old, if_pos old, ih]
      refine congrArg (fresh known rest ++ ·) (fresh_congr (fun t => ?_) r)
      simp only [List.mem_append, List.mem_cons]
      constructor
      · exact Or.imp_right .inr
      · rintro (h | rfl | h)
        · exact .inl h
        · exact .inl old
        · exact .inr h
    · rw [if_neg old, if_neg old, ih, List.cons_append]
      refine congrArg (s :: fresh (s :: known) rest ++ ·) (fresh_congr (fun t => ?_) r)
      simp only [List.mem_append, List.mem_cons, or_left_comm]

theorem fresh_sublist (known l : List σ) : (fresh known l).Sublist l := by
  induction l generalizing known with
  | nil => exact List.Sublist.slnil
  | cons s rest ih =>
    rw [fresh]
    split
    · exact (ih known).cons s
    · exact (ih (s :: known)).cons_cons s

/-- What is known already can be left out. -/
theorem fresh_filter {known old : List σ} (h : ∀ s ∈ old, s ∈ known) (l : List σ) :
    fresh known (l.filter (· ∉ old)) = fresh known l := by
  induction l generalizing known with
  | nil => rfl
  | cons s rest ih =>
    by_cases hs : s ∈ old
    · rw [List.filter_cons_of_neg (by simpa using hs), ih h, fresh, if_pos (h s hs)]
    · rw [List.filter_cons_of_pos (by simpa using hs), fresh, fresh, ih h,
        ih fun r hr => List.mem_cons_of_mem s (h r hr)]

/-- The first new element of a list, and the known ones before it. -/
theorem fresh_eq_cons {known l rest : List σ} {s : σ} (h : fresh known l = s :: rest) :
    ∃ before after, l = before ++ s :: after ∧ (∀ r ∈ before, r ∈ known) ∧ s ∉ known ∧
      fresh (s :: known) after = rest := by
  induction l with
  | nil => cases h
  | cons r l ih =>
    rw [fresh] at h
    by_cases old : r ∈ known
    · rw [if_pos old] at h
      obtain ⟨before, after, rfl, olds, new, later⟩ := ih h
      exact ⟨r :: before, after, rfl, List.forall_mem_cons.2 ⟨old, olds⟩, new, later⟩
    · rw [if_neg old, List.cons.injEq] at h
      obtain ⟨rfl, later⟩ := h
      exact ⟨[], l, rfl, by simp, old, later⟩

/-! ## Queues -/

/-- The work of a queue that may hold an element several times. An element is listed when it leaves
the queue for the first time, and what it leads to comes to the end of the queue then, unless it is
listed already. -/
inductive Drains (next : σ → List σ) : (listed queue order : List σ) → Prop where
  | done {listed : List σ} : Drains next listed [] listed
  | skip {listed queue order : List σ} {s : σ} (old : s ∈ listed)
      (rest : Drains next listed queue order) : Drains next listed (s :: queue) order
  | list {listed queue order : List σ} {s : σ} (new : s ∉ listed)
      (rest : Drains next (listed ++ [s]) (queue ++ (next s).filter (· ∉ listed ++ [s])) order) :
      Drains next listed (s :: queue) order

theorem Drains.unique {listed queue order order' : List σ} (h : Drains next listed queue order)
    (h' : Drains next listed queue order') : order = order' := by
  induction h with
  | done =>
    cases h'
    rfl
  | skip old _ ih =>
    cases h' with
    | skip _ rest => exact ih rest
    | list new _ => exact absurd old new
  | list new _ ih =>
    cases h' with
    | skip old _ => exact absurd old new
    | list _ rest => exact ih rest

theorem Drains.skipAll {listed before queue order : List σ} (old : ∀ s ∈ before, s ∈ listed)
    (rest : Drains next listed queue order) : Drains next listed (before ++ queue) order := by
  induction before with
  | nil => exact rest
  | cons s before ih =>
    rw [List.forall_mem_cons] at old
    exact .skip old.1 (ih old.2)

/-- A queue from the seeds on comes to where a search is: the new elements of the queue are the
pending ones. -/
def Queued (next : σ → List σ) (seeds visited pending : List σ) : Prop :=
  ∃ queue, fresh visited queue = pending ∧
    ∀ order, Drains next visited queue order → Drains next [] seeds order

theorem Queued.visit {visited pending : List σ} {s : σ}
    (h : Queued next seeds visited (s :: pending)) :
    Queued next seeds (visited ++ [s])
      (pending ++ fresh (visited ++ s :: pending) (next s)) := by
  obtain ⟨queue, new, drains⟩ := h
  obtain ⟨before, after, rfl, olds, unlisted, rfl⟩ := fresh_eq_cons new
  refine ⟨after ++ (next s).filter (· ∉ visited ++ [s]), ?_, fun order rest => ?_⟩
  · have listed (r : σ) : r ∈ visited ++ [s] ↔ r ∈ s :: visited := by
      rw [List.mem_append, List.mem_singleton, List.mem_cons, or_comm]
    have known (r : σ) : r ∈ visited ++ [s] ++ after ↔
        r ∈ visited ++ s :: fresh (s :: visited) after := by
      simp only [List.mem_append, List.mem_cons, List.not_mem_nil, or_false, mem_fresh, not_or]
      tauto
    rw [fresh_append, fresh_congr listed after,
      fresh_filter (fun r hr => List.mem_append_left after hr), fresh_congr known]
  · exact drains order (.skipAll olds (.list unlisted rest))

/-- The queue runs empty, and what it has listed then is what the search lists. -/
theorem drains_reach {U : List σ} {bound : Nat} (hU : ∀ s, ∀ t ∈ next s, t ∈ U)
    (hb : seeds.length + U.length ≤ bound) :
    Drains next [] seeds (reach next bound seeds) := by
  have start : Visiting next [] (fresh [] seeds) ∧
      (∀ s ∈ [] ++ fresh [] seeds, s ∈ seeds ++ U) ∧ Queued next seeds [] (fresh [] seeds) :=
    ⟨.start seeds, fun s hs => List.mem_append_left _ (fresh_nil_subset.1 hs), seeds, rfl,
      fun _ => id⟩
  obtain ⟨visited, pending, order, ⟨visiting, within, queue, new, drains⟩, ended⟩ :=
    explore_run next
      (P := fun visited pending => Visiting next visited pending ∧
        (∀ s ∈ visited ++ pending, s ∈ seeds ++ U) ∧ Queued next seeds visited pending)
      (fun h => ⟨h.1.visit, within_visit (fun s t ht => List.mem_append_right _ (hU s t ht)) h.2.1,
        h.2.2.visit⟩)
      bound start
  have none : pending = [] := by
    refine ended.elim id fun count => visiting.eq_nil within ?_
    rw [count, List.length_append]
    exact Nat.le_trans hb (Nat.le_add_left _ _)
  subst none
  have old : ∀ s ∈ queue, s ∈ visited := by
    intro s hs
    by_contra unlisted
    have hm : s ∈ fresh visited queue := mem_fresh.2 ⟨hs, unlisted⟩
    rw [new] at hm
    cases hm
  have empty : Drains next visited (queue ++ []) visited := .skipAll old .done
  rw [List.append_nil] at empty
  rw [List.nil_append, List.append_nil] at order
  rw [reach, order]
  exact drains visited empty

/-! ## Distances -/

/-- A search lists near elements first: the known elements are in order of their distance, and none
is more than one move farther than a pending one. -/
structure Levelled (next : σ → List σ) (seeds visited pending : List σ) : Prop where
  visiting : Visiting next visited pending
  seeded : ∀ s ∈ seeds, s ∈ visited ++ pending
  ordered : (visited ++ pending).Pairwise (NoFarther (Move next) seeds)
  level : ∀ p ∈ pending, ∀ s ∈ visited ++ pending, ∀ k, Way (Move next) seeds k p →
    ∃ j ≤ k + 1, Way (Move next) seeds j s

namespace Levelled

variable {visited pending : List σ} {s : σ}

theorem start (next : σ → List σ) (seeds : List σ) : Levelled next seeds [] (fresh [] seeds) := by
  have near : ∀ s ∈ fresh [] seeds, Way (Move next) seeds 0 s := fun s hs =>
    .start (fresh_nil_subset.1 hs)
  refine ⟨.start seeds, fun s hs => fresh_nil_subset.2 hs, ?_, ?_⟩
  · exact List.pairwise_of_forall_mem_list fun s hs t _ k _ => ⟨0, Nat.zero_le k, near s hs⟩
  · exact fun p _ s hs k _ => ⟨0, Nat.zero_le _, near s hs⟩

/-- Every way to an undiscovered element leads over a pending one. -/
theorem passes (h : Levelled next seeds visited pending) {t : σ} {k : Nat}
    (way : Way (Move next) seeds k t) (new : t ∉ visited ++ pending) :
    ∃ p ∈ pending, ∃ j < k, Way (Move next) seeds j p := by
  induction way with
  | start seed => exact absurd (h.seeded _ seed) new
  | @step k r t way move ih =>
    by_cases known : r ∈ visited ++ pending
    · have unvisited : r ∉ visited := fun hr => new (h.visiting.closed r hr t move)
      exact ⟨r, (List.mem_append.1 known).resolve_left unvisited, k, Nat.lt_succ_self k, way⟩
    · obtain ⟨p, hp, j, hj, hway⟩ := ih known
      exact ⟨p, hp, j, Nat.lt_succ_of_lt hj, hway⟩

omit [DecidableEq σ] in
/-- The next element to be visited is the nearest that is pending. -/
theorem head_noFarther (h : Levelled next seeds visited (s :: pending)) {p : σ}
    (hp : p ∈ s :: pending) : NoFarther (Move next) seeds s p := by
  rcases List.mem_cons.1 hp with rfl | hp
  · exact fun k way => ⟨k, Nat.le_refl k, way⟩
  · exact (List.pairwise_cons.1 (List.pairwise_append.1 h.ordered).2.1).1 p hp

/-- Nothing known, and nothing that the next element leads to, is farther than an undiscovered
element. -/
theorem noFarther_new (h : Levelled next seeds visited (s :: pending)) {r t : σ}
    (hr : r ∈ visited ++ s :: pending ∨ r ∈ next s) (new : t ∉ visited ++ s :: pending) :
    NoFarther (Move next) seeds r t := by
  intro k way
  obtain ⟨p, hp, j, hj, hway⟩ := h.passes way new
  obtain ⟨i, hi, hs⟩ := h.head_noFarther hp j hway
  rcases hr with hr | hr
  · obtain ⟨l, hl, hr⟩ := h.level s List.mem_cons_self r hr i hs
    exact ⟨l, by omega, hr⟩
  · exact ⟨i + 1, by omega, hs.step hr⟩

theorem visit (h : Levelled next seeds visited (s :: pending)) :
    Levelled next seeds (visited ++ [s])
      (pending ++ fresh (visited ++ s :: pending) (next s)) := by
  have discovered {t : σ} (ht : t ∈ fresh (visited ++ s :: pending) (next s)) :=
    mem_fresh.1 ht
  refine ⟨h.visiting.visit, ?_, ?_, ?_⟩
  · intro r hr
    rw [append_visit]
    exact List.mem_append_left _ (h.seeded r hr)
  · rw [append_visit, List.pairwise_append]
    refine ⟨h.ordered, ?_, fun r hr t ht => h.noFarther_new (.inl hr) (discovered ht).2⟩
    exact List.pairwise_of_forall_mem_list fun r hr t ht =>
      h.noFarther_new (.inr (discovered hr).1) (discovered ht).2
  · intro p hp r hr k way
    rw [append_visit] at hr
    rcases List.mem_append.1 hp with hp | hp
    · rcases List.mem_append.1 hr with hr | hr
      · exact h.level p (List.mem_cons_of_mem s hp) r hr k way
      · obtain ⟨i, hi, hs⟩ := h.head_noFarther (List.mem_cons_of_mem s hp) k way
        exact ⟨i + 1, by omega, hs.step (discovered hr).1⟩
    · have hr' : r ∈ visited ++ s :: pending ∨ r ∈ next s :=
        (List.mem_append.1 hr).imp_right fun hr => (discovered hr).1
      obtain ⟨j, hj, hway⟩ := h.noFarther_new hr' (discovered hp).2 k way
      exact ⟨j, Nat.le_succ_of_le hj, hway⟩

end Levelled

/-- An element is no farther from the seeds than one that is listed later. -/
theorem reach_pairwise (next : σ → List σ) (bound : Nat) (seeds : List σ) :
    (reach next bound seeds).Pairwise (NoFarther (Move next) seeds) := by
  obtain ⟨visited, pending, order, levelled, _⟩ :=
    explore_run next Levelled.visit bound (Levelled.start next seeds)
  rw [List.nil_append] at order
  rw [reach, order]
  exact levelled.ordered

/-! ## Bounds -/

theorem explore_mono {bound bound' : Nat} (h : bound ≤ bound') (known pending : List σ) :
    explore next bound known pending <+: explore next bound' known pending := by
  induction bound generalizing bound' known pending with
  | zero => exact explore_subset bound' known pending
  | succ bound ih =>
    cases bound' with
    | zero => omega
    | succ bound' =>
      cases pending with
      | nil => exact List.prefix_refl known
      | cons s pending => exact ih (Nat.le_of_succ_le_succ h) _ _

/-- Searches with any bounds list elements in one order. -/
theorem reach_eq_of_mem_iff {bound bound' : Nat}
    (h : ∀ s, s ∈ reach next bound seeds ↔ s ∈ reach next bound' seeds) :
    reach next bound seeds = reach next bound' seeds := by
  have same : (reach next bound seeds).length = (reach next bound' seeds).length :=
    ((List.perm_ext_iff_of_nodup (reach_nodup _ _ _) (reach_nodup _ _ _)).2 h).length_eq
  rcases Nat.le_total bound bound' with le | le
  · exact (explore_mono le _ _).eq_of_length same
  · exact ((explore_mono le _ _).eq_of_length same.symm).symm

end PatternGroups.Search
