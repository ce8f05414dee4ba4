import Mathlib.Data.List.Perm.Subperm
import Mathlib.Logic.Relation
import PatternGroups.Search

/-!
# What a search finds

A search visits pending elements one by one and never forgets one. If its bound covers every
element that can be discovered, it stops with a set that is closed under its moves:

* `explore_run`: what every visit keeps, a search keeps;
* `explore_sound`, `reach_nodup`: nothing is listed that no seed leads to, and nothing twice;
* `explore_closed`: what a listed element leads to is listed, too;
* `mem_reach`: a search lists exactly what its seeds lead to.
-/

namespace PatternGroups.Search

variable {σ : Type} {next : σ → List σ}

/-- One move of a search. -/
abbrev Move (next : σ → List σ) (s t : σ) : Prop := t ∈ next s

/-- Known elements, of which those before the pending ones were visited: none is listed twice, and
what a visited element leads to is known. -/
structure Visiting (next : σ → List σ) (visited pending : List σ) : Prop where
  nodup : (visited ++ pending).Nodup
  closed : ∀ s ∈ visited, ∀ t ∈ next s, t ∈ visited ++ pending

/-- A visit keeps the order in which elements became known. -/
theorem append_visit (visited pending new : List σ) (s : σ) :
    visited ++ [s] ++ (pending ++ new) = (visited ++ s :: pending) ++ new := by
  simp

/-- When as many elements are visited as there are, none is pending: they are distinct. -/
theorem Visiting.eq_nil {U visited pending : List σ} (h : Visiting next visited pending)
    (within : ∀ s ∈ visited ++ pending, s ∈ U) (all : U.length ≤ visited.length) :
    pending = [] := by
  have count := (List.subperm_of_subset h.nodup within).length_le
  rw [List.length_append] at count
  exact List.eq_nil_of_length_eq_zero (by omega)

variable [DecidableEq σ]

theorem fresh_nil_subset {seeds : List σ} {s : σ} : s ∈ fresh [] seeds ↔ s ∈ seeds := by
  simp [mem_fresh]

theorem Visiting.start (seeds : List σ) : Visiting next [] (fresh [] seeds) :=
  ⟨fresh_nodup [] seeds, by simp⟩

theorem Visiting.visit {visited pending : List σ} {s : σ}
    (h : Visiting next visited (s :: pending)) :
    Visiting next (visited ++ [s])
      (pending ++ fresh (visited ++ s :: pending) (next s)) := by
  constructor
  · rw [append_visit, List.nodup_append]
    refine ⟨h.nodup, fresh_nodup _ _, ?_⟩
    rintro a ha b hb rfl
    exact (mem_fresh.1 hb).2 ha
  · intro r hr t ht
    rw [append_visit, List.mem_append]
    by_cases known : t ∈ visited ++ s :: pending
    · exact .inl known
    · rcases List.mem_append.1 hr with hr | hr
      · exact .inl (h.closed r hr t ht)
      · rw [List.mem_singleton] at hr
        subst hr
        exact .inr (mem_fresh.2 ⟨ht, known⟩)

/-- What is discovered by a visit is among all, as what was known is. -/
theorem within_visit {U visited pending : List σ} {s : σ}
    (hU : ∀ s, ∀ t ∈ next s, t ∈ U) (within : ∀ t ∈ visited ++ s :: pending, t ∈ U) :
    ∀ t ∈ visited ++ [s] ++ (pending ++ fresh (visited ++ s :: pending) (next s)), t ∈ U := by
  intro t ht
  rw [append_visit] at ht
  rcases List.mem_append.1 ht with ht | ht
  · exact within t ht
  · exact hU s t (mem_fresh.1 ht).1

theorem explore_subset (bound : Nat) (known pending : List σ) :
    known <+: explore next bound known pending := by
  induction bound generalizing known pending with
  | zero => exact List.prefix_refl known
  | succ bound ih =>
    cases pending with
    | nil => exact List.prefix_refl known
    | cons s pending =>
      rw [explore]
      exact (List.prefix_append known _).trans (ih _ _)

theorem explore_sound {bound : Nat} {known pending : List σ}
    {P : σ → Prop} (hstep : ∀ s, P s → ∀ t ∈ next s, P t)
    (hknown : ∀ s ∈ known, P s) (hpending : ∀ s ∈ pending, P s) :
    ∀ s ∈ explore next bound known pending, P s := by
  induction bound generalizing known pending with
  | zero => exact hknown
  | succ bound ih =>
    cases pending with
    | nil => exact hknown
    | cons s pending =>
      have new : ∀ t ∈ fresh known (next s), P t := fun t ht =>
        hstep s (hpending s List.mem_cons_self) t (mem_fresh.1 ht).1
      rw [explore]
      apply ih
      · intro t ht
        exact (List.mem_append.1 ht).elim (hknown t) (new t)
      · intro t ht
        exact (List.mem_append.1 ht).elim (fun h => hpending t (List.mem_cons_of_mem s h)) (new t)

theorem explore_nodup {bound : Nat} {known pending : List σ}
    (h : known.Nodup) : (explore next bound known pending).Nodup := by
  induction bound generalizing known pending with
  | zero => exact h
  | succ bound ih =>
    cases pending with
    | nil => exact h
    | cons s pending =>
      rw [explore]
      refine ih (List.nodup_append.2 ⟨h, fresh_nodup known (next s), ?_⟩)
      rintro a ha b hb rfl
      exact (mem_fresh.1 hb).2 ha

theorem reach_nodup (next : σ → List σ) (bound : Nat) (seeds : List σ) :
    (reach next bound seeds).Nodup :=
  explore_nodup (fresh_nodup [] seeds)

/-- What a visit keeps, a search keeps. At its end nothing is pending, or it has made all the visits
that it may make. -/
theorem explore_run (next : σ → List σ) {P : List σ → List σ → Prop}
    (visit : ∀ {visited : List σ} {s : σ} {pending : List σ}, P visited (s :: pending) →
      P (visited ++ [s]) (pending ++ fresh (visited ++ s :: pending) (next s)))
    (bound : Nat) {visited pending : List σ} (h : P visited pending) :
    ∃ visited' pending', explore next bound (visited ++ pending) pending = visited' ++ pending' ∧
      P visited' pending' ∧ (pending' = [] ∨ visited'.length = visited.length + bound) := by
  induction bound generalizing visited pending with
  | zero => exact ⟨visited, pending, rfl, h, .inr rfl⟩
  | succ bound ih =>
    cases pending with
    | nil => exact ⟨visited, [], rfl, h, .inl rfl⟩
    | cons s pending =>
      obtain ⟨visited', pending', order, kept, ended⟩ := ih (visit h)
      refine ⟨visited', pending', ?_, kept, ended.imp_right fun count => ?_⟩
      · rw [← order, explore, append_visit]
      · rw [count, List.length_append, List.length_singleton]
        omega

/-- A search that can make as many visits as there are elements left leaves none pending. -/
theorem explore_closed {U : List σ} (hU : ∀ s, ∀ t ∈ next s, t ∈ U) {bound : Nat}
    {visited pending : List σ} (h : Visiting next visited pending)
    (within : ∀ s ∈ visited ++ pending, s ∈ U)
    (hb : U.length ≤ visited.length + bound) :
    ∀ s ∈ explore next bound (visited ++ pending) pending, ∀ t ∈ next s,
      t ∈ explore next bound (visited ++ pending) pending := by
  obtain ⟨visited', pending', order, ⟨h', within'⟩, ended⟩ :=
    explore_run next
      (P := fun visited pending => Visiting next visited pending ∧ ∀ s ∈ visited ++ pending, s ∈ U)
      (fun h => ⟨h.1.visit, within_visit hU h.2⟩) bound ⟨h, within⟩
  have none : pending' = [] :=
    ended.elim id fun count => h'.eq_nil within' (count ▸ hb)
  subst none
  rw [order]
  simpa using h'.closed

/-- A search lists exactly what its seeds lead to, if it may make one visit for each seed and for
each element that anything leads to. -/
theorem mem_reach {U seeds : List σ} {bound : Nat} {t : σ}
    (hU : ∀ s, ∀ r ∈ next s, r ∈ U) (hb : seeds.length + U.length ≤ bound) :
    t ∈ reach next bound seeds ↔ ∃ s ∈ seeds, Relation.ReflTransGen (Move next) s t := by
  unfold reach
  constructor
  · refine explore_sound (P := fun t => ∃ s ∈ seeds, Relation.ReflTransGen (Move next) s t)
      ?_ ?_ ?_ t
    · rintro r ⟨s, hs, hsr⟩ t ht
      exact ⟨s, hs, hsr.tail ht⟩
    · intro s hs
      exact ⟨s, fresh_nil_subset.1 hs, .refl⟩
    · intro s hs
      exact ⟨s, fresh_nil_subset.1 hs, .refl⟩
  · rintro ⟨s, hs, hst⟩
    have closed := explore_closed (U := seeds ++ U)
      (fun r t ht => List.mem_append_right _ (hU r t ht)) (Visiting.start seeds)
      (fun r hr => List.mem_append_left _ (fresh_nil_subset.1 hr))
      (by rw [List.length_append]; exact Nat.le_trans hb (Nat.le_add_left _ _))
    induction hst with
    | refl =>
      exact (explore_subset _ _ _).subset (fresh_nil_subset.2 hs)
    | tail _ hrt ih => exact closed _ ih _ hrt

end PatternGroups.Search
