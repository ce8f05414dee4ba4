import PatternGroups.Proofs.WeakestCuts

/-!
# Cutting sorted strings

A cut that leaves enough on both sides ends the cutting. Otherwise the smaller side of the last
weakest cut is topped up from the larger one, which is cut in turn, with what is missing as the
least size. That is at most half of the larger side, so that there is always enough to cut.

* `Cuts`: how strings are cut, without a bound on the depth;
* `cuts_cutSorted`, `Cuts.unique`: the bound is never reached;
* `Cuts.perm`, `Cuts.positive`: no string is lost or doubled, and no part is empty;
* `exists_split`: strings that are enough are split.
-/

namespace PatternGroups.PrefixParts

variable {strings small large more rest : List String} {least w cut : Nat}

/-! ## Two parts, the smaller first -/

theorem bySize_perm (a b : List String) : ((bySize a b).1 ++ (bySize a b).2).Perm (a ++ b) := by
  unfold bySize
  split
  · exact List.perm_append_comm
  · exact .refl _

theorem length_bySize (a b : List String) :
    (bySize a b).1.length = min a.length b.length ∧
      (bySize a b).2.length = max a.length b.length := by
  unfold bySize
  split
  · rename_i h
    exact ⟨(Nat.min_eq_right (Nat.le_of_lt h)).symm, (Nat.max_eq_left (Nat.le_of_lt h)).symm⟩
  · rename_i h
    rw [Nat.not_lt] at h
    exact ⟨(Nat.min_eq_left h).symm, (Nat.max_eq_right h).symm⟩

theorem length_bySize_le (a b : List String) :
    (bySize a b).1.length ≤ (bySize a b).2.length := by
  rw [(length_bySize a b).1, (length_bySize a b).2]
  omega

theorem length_toppedUp (small more rest : List String) :
    (bySize (sort (small ++ more)) rest).1.length =
      min (small.length + more.length) rest.length := by
  rw [(length_bySize _ _).1, (sort_perm _).length_eq, List.length_append]

theorem cutAt_perm (strings : List String) (cut : Nat) :
    ((cutAt strings cut).1 ++ (cutAt strings cut).2).Perm strings := by
  refine (bySize_perm _ _).trans ?_
  rw [List.take_append_drop]

theorem length_cutAt (h : cut ≤ strings.length) :
    (cutAt strings cut).1.length = min cut (strings.length - cut) ∧
      (cutAt strings cut).2.length = max cut (strings.length - cut) := by
  have lengths := length_bySize (strings.take cut) (strings.drop cut)
  rwa [List.length_take_of_le h, List.length_drop] at lengths

theorem Suits.le_length (h : Suits strings least w cut) :
    least ≤ (cutAt strings cut).1.length := by
  rw [(length_cutAt (Nat.le_of_lt h.lt_length)).1]
  exact Nat.le_min.2 ⟨h.before, h.after⟩

/-! ## Topping up -/

/-- No cut leaves enough on both sides, and `cut` is the last of the weakest ones. -/
structure Lacks (strings : List String) (least w cut : Nat) : Prop where
  weakest : (neighbourPrefixes strings).min? = some w
  none : ∀ c, ¬Suits strings least w c
  last : IsGreatest {c | Suits strings 0 w c} cut

theorem exists_lacks (weakest : (neighbourPrefixes strings).min? = some w)
    (none : ∀ c, ¬Suits strings least w c) : ∃ cut, Lacks strings least w cut := by
  obtain ⟨c, suits⟩ := exists_suits weakest
  have some := List.getLast?_eq_some_getLast
    (List.ne_nil_of_mem ((mem_weakestCuts weakest).2 suits))
  exact ⟨_, weakest, none, (getLast?_weakestCuts weakest).1 some⟩

namespace Lacks

variable (h : Lacks strings least w cut)
include h

/-- A side is smaller than the least size, so that something is missing. -/
theorem lt_least : cut < least ∨ strings.length - cut < least := by
  by_contra enough
  rw [not_or, Nat.not_lt, Nat.not_lt] at enough
  exact h.none cut (suits_iff.2 ⟨h.last.1, enough⟩)

theorem two_le_length : 2 ≤ strings.length := h.last.1.two_le_length

theorem not_suits {w' c : Nat} (weakest : (neighbourPrefixes strings).min? = some w') :
    ¬Suits strings least w' c := by
  obtain rfl : w = w' := Option.some.inj (h.weakest.symm.trans weakest)
  exact h.none c

theorem sides_unique {w' cut' : Nat} {small' large' : List String}
    (other : Lacks strings least w' cut') (sides : cutAt strings cut = (small, large))
    (sides' : cutAt strings cut' = (small', large')) : small = small' ∧ large = large' := by
  obtain rfl : w = w' := Option.some.inj (h.weakest.symm.trans other.weakest)
  obtain rfl : cut = cut' := h.last.unique other.last
  exact Prod.mk.inj (sides.symm.trans sides')

/-- The smaller side is not empty, and is shorter than the least size. -/
theorem sizes (sides : cutAt strings cut = (small, large)) :
    small.length + large.length = strings.length ∧ 0 < small.length ∧
      small.length ≤ large.length ∧ small.length < least := by
  have inside := h.last.1.lt_length
  have positive := h.last.1.positive
  have missing := h.lt_least
  obtain ⟨first, second⟩ := length_cutAt (Nat.le_of_lt inside)
  rw [sides] at first second
  dsimp only at first second
  omega

end Lacks

/-! ## Cutting -/

/-- How sorted strings are cut in two. What the smaller side has is taken off the least size only
where it is not more. -/
inductive Cuts : (strings : List String) → (least : Nat) → List String × List String → Prop where
  | few {strings : List String} {least : Nat} (few : strings.length < 2) :
      Cuts strings least ([], strings)
  | between {strings : List String} {least w cut : Nat}
      (weakest : (neighbourPrefixes strings).min? = some w)
      (first : IsLeast {c | Suits strings least w c} cut) :
      Cuts strings least (cutAt strings cut)
  | toppedUp {strings small large more rest : List String} {least w cut : Nat}
      (lacks : Lacks strings least w cut) (sides : cutAt strings cut = (small, large))
      (missing : small.length ≤ least)
      (taken : Cuts large (least - small.length) (more, rest)) :
      Cuts strings least (bySize (sort (small ++ more)) rest)

theorem cutSorted_of_lt_two (depth : Nat) (h : strings.length < 2) :
    cutSorted depth strings least = ([], strings) := by
  cases depth with
  | zero => rfl
  | succ depth => rw [cutSorted, if_pos h]

theorem cutSorted_of_lacks (depth : Nat) (lacks : Lacks strings least w cut)
    (sides : cutAt strings cut = (small, large))
    (taken : cutSorted depth large (least - small.length) = (more, rest)) :
    cutSorted (depth + 1) strings least = bySize (sort (small ++ more)) rest := by
  rw [cutSorted, if_neg (Nat.not_lt.2 lacks.two_le_length)]
  simp only [(find?_weakestCuts_eq_none_iff lacks.weakest).2 lacks.none,
    (getLast?_weakestCuts lacks.weakest).2 lacks.last, Option.getD_some, sides, taken]

/-- The larger side is shorter than the whole, so that the number of strings is a bound on the
depth. -/
theorem cuts_cutSorted {depth : Nat} (enough : 2 * least ≤ strings.length)
    (deep : strings.length ≤ depth) : Cuts strings least (cutSorted depth strings least) := by
  induction depth generalizing strings least with
  | zero => exact .few (Nat.lt_of_le_of_lt deep Nat.two_pos)
  | succ depth ih =>
    by_cases few : strings.length < 2
    · rw [cutSorted_of_lt_two _ few]
      exact .few few
    · obtain ⟨w, weakest⟩ := exists_min?_neighbourPrefixes (Nat.le_of_not_lt few)
      by_cases suited : ∃ c, Suits strings least w c
      · obtain ⟨c, suits⟩ := suited
        obtain ⟨cut, first⟩ := exists_isLeast_of_suits suits
        rw [cutSorted_of_isLeast depth weakest first]
        exact .between weakest first
      · obtain ⟨cut, lacks⟩ := exists_lacks weakest (not_exists.1 suited)
        obtain ⟨all, some, _, missing⟩ := lacks.sizes rfl
        rw [cutSorted_of_lacks depth lacks rfl rfl]
        refine .toppedUp lacks rfl (Nat.le_of_lt missing) (ih ?_ ?_)
        · omega
        · omega

namespace Cuts

variable {parts others : List String × List String}

theorem unique (h : Cuts strings least parts) (other : Cuts strings least others) :
    parts = others := by
  induction h generalizing others with
  | few few =>
    cases other with
    | few _ => rfl
    | between _ first => exact absurd few (Nat.not_lt.2 first.1.two_le_length)
    | toppedUp lacks _ _ _ => exact absurd few (Nat.not_lt.2 lacks.two_le_length)
  | between weakest first =>
    cases other with
    | few few => exact absurd few (Nat.not_lt.2 first.1.two_le_length)
    | between weakest' first' =>
      obtain rfl := Option.some.inj (weakest.symm.trans weakest')
      rw [first.unique first']
    | toppedUp lacks _ _ _ => exact absurd first.1 (lacks.not_suits weakest)
  | toppedUp lacks sides _ _ ih =>
    cases other with
    | few few => exact absurd few (Nat.not_lt.2 lacks.two_le_length)
    | between weakest first => exact absurd first.1 (lacks.not_suits weakest)
    | toppedUp lacks' sides' _ taken =>
      obtain ⟨rfl, rfl⟩ := lacks.sides_unique lacks' sides sides'
      obtain ⟨rfl, rfl⟩ := Prod.mk.inj (ih taken)
      rfl

theorem perm (h : Cuts strings least parts) : (parts.1 ++ parts.2).Perm strings := by
  induction h with
  | few _ => exact .refl _
  | between _ _ => exact cutAt_perm _ _
  | @toppedUp strings small large more rest least w cut lacks sides _ _ ih =>
    have whole := cutAt_perm strings cut
    rw [sides] at whole
    have topped : (sort (small ++ more) ++ rest).Perm (small ++ (more ++ rest)) := by
      rw [← List.append_assoc]
      exact (sort_perm _).append_right rest
    exact (bySize_perm _ _).trans (topped.trans ((ih.append_left small).trans whole))

theorem length_add (h : Cuts strings least parts) :
    parts.1.length + parts.2.length = strings.length := by
  rw [← List.length_append, h.perm.length_eq]

theorem length_le (h : Cuts strings least parts) : parts.1.length ≤ parts.2.length := by
  cases h with
  | few _ => exact Nat.zero_le _
  | between _ _ => exact length_bySize_le _ _
  | toppedUp _ _ _ _ => exact length_bySize_le _ _

theorem positive (h : Cuts strings least parts) (two : 2 ≤ strings.length) :
    0 < parts.1.length := by
  cases h with
  | few few => exact absurd few (Nat.not_lt.2 two)
  | between _ first =>
    have inside := first.1.lt_length
    have positive := first.1.positive
    rw [(length_cutAt (Nat.le_of_lt inside)).1]
    omega
  | toppedUp lacks sides _ taken =>
    obtain ⟨_, some, larger, _⟩ := lacks.sizes sides
    have all := taken.length_add
    have shorter := taken.length_le
    rw [length_toppedUp]
    dsimp only at all shorter
    omega

end Cuts

/-- The sizes of the parts of strings that are sorted and cut. -/
theorem sizes_of_cuts (cuts : Cuts (sort strings) least (small, large))
    (two : 2 ≤ strings.length) :
    small.length + large.length = strings.length ∧ 0 < small.length ∧
      small.length ≤ large.length := by
  have length := (sort_perm strings).length_eq
  exact ⟨cuts.length_add.trans length, cuts.positive (length ▸ two), cuts.length_le⟩

theorem exists_split (enough : 2 * least ≤ strings.length) :
    ∃ small large, split? strings least = .ok (small, large) ∧
      Cuts (sort strings) least (small, large) := by
  have length := (sort_perm strings).length_eq
  rw [split?_of_le enough]
  exact ⟨_, _, rfl, cuts_cutSorted (length ▸ enough) (Nat.le_of_eq length)⟩

end PatternGroups.PrefixParts
