import PatternGroups.Proofs.Cutting

/-!
# Partitions

Parts wait in a stack. The part on top is done if it is small enough, and is cut in two otherwise,
of which the larger goes on top. Each cut leaves strings on both sides, so that the parts get smaller;
and a part that is too large has enough strings for two parts of the least size.

* `WorksOff`: how a stack is worked off, without a bound on the number of cuts;
* `WorksOff.unique`: only one result comes of it;
* `WorksOff.perm`, `WorksOff.length_le`, `WorksOff.ne_nil`: what the parts are that are done;
* `exists_parts`: parts are worked off one after the other.
-/

namespace PatternGroups.PrefixParts

/-- How pending parts are worked off, the first one first, when other parts are done. -/
inductive WorksOff (least most : Nat) :
    (pending done : List (List String)) → Except Refusal (List (List String)) → Prop where
  | finish {done : List (List String)} : WorksOff least most [] done (.ok done)
  | keep {part : List String} {pending done : List (List String)}
      {result : Except Refusal (List (List String))} (few : part.length ≤ most)
      (rest : WorksOff least most pending (done ++ [part]) result) :
      WorksOff least most (part :: pending) done result
  | cut {part small large : List String} {pending done : List (List String)}
      {result : Except Refusal (List (List String))} (many : most < part.length)
      (enough : 2 * least ≤ part.length) (cuts : Cuts (sort part) least (small, large))
      (rest : WorksOff least most (large :: small :: pending) done result) :
      WorksOff least most (part :: pending) done result
  | refuse {part : List String} {pending done : List (List String)} (many : most < part.length)
      (lacking : part.length < 2 * least) :
      WorksOff least most (part :: pending) done (.error (.misfit (.split part.length least)))

variable {least most : Nat} {pending done parts : List (List String)}
  {result : Except Refusal (List (List String))}

namespace WorksOff

theorem unique {other : Except Refusal (List (List String))}
    (h : WorksOff least most pending done result) (h' : WorksOff least most pending done other) :
    result = other := by
  induction h with
  | finish =>
    cases h' with
    | finish => rfl
  | keep few _ ih =>
    cases h' with
    | keep _ rest => exact ih rest
    | cut many _ _ _ => exact absurd few (Nat.not_le.2 many)
    | refuse many _ => exact absurd few (Nat.not_le.2 many)
  | cut many enough cuts _ ih =>
    cases h' with
    | keep few _ => exact absurd few (Nat.not_le.2 many)
    | cut _ _ cuts' rest =>
      obtain ⟨rfl, rfl⟩ := Prod.mk.inj (cuts.unique cuts')
      exact ih rest
    | refuse _ lacking => exact absurd enough (Nat.not_le.2 lacking)
  | refuse many lacking =>
    cases h' with
    | keep few _ => exact absurd few (Nat.not_le.2 many)
    | cut _ enough _ _ => exact absurd enough (Nat.not_le.2 lacking)
    | refuse _ _ => rfl

theorem perm (h : WorksOff least most pending done (.ok parts)) :
    parts.flatten.Perm (done.flatten ++ pending.flatten) := by
  -- The result stays the same while the stack is worked off.
  generalize ended : Except.ok parts = result at h
  induction h with
  | finish =>
    cases ended
    rw [List.flatten_nil, List.append_nil]
  | keep few _ ih =>
    refine (ih ended).trans ?_
    simp
  | @cut part small large pending done result _ _ cuts _ ih =>
    have same : (large ++ small).Perm part :=
      List.perm_append_comm.trans (cuts.perm.trans (sort_perm part))
    refine (ih ended).trans (List.Perm.append_left _ ?_)
    rw [List.flatten_cons, List.flatten_cons, List.flatten_cons, ← List.append_assoc]
    exact same.append_right _
  | refuse _ _ => cases ended

theorem length_le (h : WorksOff least most pending done (.ok parts))
    (fits : ∀ part ∈ done, part.length ≤ most) : ∀ part ∈ parts, part.length ≤ most := by
  generalize ended : Except.ok parts = result at h
  induction h with
  | finish =>
    cases ended
    exact fits
  | keep few _ ih =>
    exact ih (List.forall_mem_append.2 ⟨fits, List.forall_mem_singleton.2 few⟩) ended
  | cut _ _ _ _ ih => exact ih fits ended
  | refuse _ _ => cases ended

theorem ne_nil (h : WorksOff least most pending done (.ok parts)) (positive : 0 < most)
    (some : ∀ part ∈ done ++ pending, part ≠ []) : ∀ part ∈ parts, part ≠ [] := by
  generalize ended : Except.ok parts = result at h
  induction h with
  | finish =>
    cases ended
    rwa [List.append_nil] at some
  | keep few _ ih =>
    refine ih ?_ ended
    rwa [List.append_assoc]
  | @cut part small large pending done result many _ cuts _ ih =>
    obtain ⟨_, first, shorter⟩ := sizes_of_cuts cuts (by omega)
    have second : 0 < large.length := Nat.lt_of_lt_of_le first shorter
    rw [List.forall_mem_append, List.forall_mem_cons] at some
    refine ih (List.forall_mem_append.2 ⟨some.1, ?_⟩) ended
    rw [List.forall_mem_cons, List.forall_mem_cons]
    exact ⟨List.ne_nil_of_length_pos second, List.ne_nil_of_length_pos first, some.2.2⟩
  | refuse _ _ => cases ended

end WorksOff

theorem parts?_of_le {part : List String} (depth : Nat) (few : part.length ≤ most) :
    parts? least most depth part = .ok [part] := by
  cases depth with
  | zero => rfl
  | succ depth => rw [parts?, if_pos few]

theorem parts?_of_lt {part small large : List String} {smalls larges : List (List String)}
    {depth : Nat} (many : most < part.length) (split : split? part least = .ok (small, large))
    (hl : parts? least most depth large = .ok larges)
    (hs : parts? least most depth small = .ok smalls) :
    parts? least most (depth + 1) part = .ok (larges ++ smalls) := by
  rw [parts?, if_neg (Nat.not_le.2 many), split]
  simp only [bind, Except.bind, hl, hs]
  rfl

/-- A part is worked off before the ones below it. -/
theorem exists_parts (positive : 0 < most) (fits : 2 * least ≤ most) {depth : Nat}
    {part : List String} (deep : part.length ≤ depth) :
    ∃ parts, parts? least most depth part = .ok parts ∧ ∀ {pending done result},
      WorksOff least most pending (done ++ parts) result →
        WorksOff least most (part :: pending) done result := by
  induction depth generalizing part with
  | zero =>
    have few : part.length ≤ most := Nat.le_trans deep (Nat.zero_le most)
    exact ⟨[part], parts?_of_le 0 few, .keep few⟩
  | succ depth ih =>
    rcases Nat.lt_or_ge most part.length with many | few
    · have enough : 2 * least ≤ part.length := Nat.le_trans fits (Nat.le_of_lt many)
      obtain ⟨small, large, split, cuts⟩ := exists_split enough
      obtain ⟨all, first, shorter⟩ := sizes_of_cuts cuts (by omega)
      have deepLarge : large.length ≤ depth := by omega
      have deepSmall : small.length ≤ depth := by omega
      obtain ⟨larges, hl, largeFirst⟩ := ih deepLarge
      obtain ⟨smalls, hs, smallNext⟩ := ih deepSmall
      refine ⟨larges ++ smalls, parts?_of_lt many split hl hs, fun rest => ?_⟩
      rw [← List.append_assoc] at rest
      exact .cut many enough cuts (largeFirst (smallNext rest))
    · exact ⟨[part], parts?_of_le _ few, .keep few⟩

/-- If the sizes fit, strings are partitioned: their parts are worked off, and no cut is refused.
No string is lost or doubled, no part is too large, and none is empty unless there are no
strings. -/
theorem partition_parts (strings : List String) (least most : Nat) (positive : 1 ≤ most)
    (fits : 2 * least ≤ most) :
    ∃ parts, partition? strings least most = .ok parts ∧
      (∀ result, WorksOff least most [strings] [] result ↔ result = .ok parts) ∧
      parts.flatten.Perm strings ∧ (∀ part ∈ parts, part.length ≤ most) ∧
      (strings ≠ [] → ∀ part ∈ parts, part ≠ []) := by
  obtain ⟨parts, partitioned, worksOff⟩ := exists_parts positive fits (Nat.le_refl strings.length)
  have works : WorksOff least most [strings] [] (.ok parts) := worksOff .finish
  refine ⟨parts, ?_, fun result => ⟨fun other => other.unique works, ?_⟩, ?_, ?_, fun some => ?_⟩
  · rw [partition?, if_neg (not_or.2 ⟨Nat.ne_of_gt positive, Nat.not_lt.2 fits⟩), partitioned]
  · rintro rfl
    exact works
  · simpa using works.perm
  · exact works.length_le (List.forall_mem_nil _)
  · exact works.ne_nil positive (List.forall_mem_singleton.2 some)

/-- Equal strings are cut as well, after the first one. -/
theorem partition_parts_equal : ∃ strings : List String,
    strings = ["bx", "aa", "ab", "aa", "aa"] ∧ 1 ≤ 2 ∧ 2 * 0 ≤ 2 ∧ strings ≠ [] ∧
      WorksOff 0 2 [strings] [] (.ok [["aa", "aa"], ["aa"], ["ab"], ["bx"]]) ∧
      [["aa", "aa"], ["aa"], ["ab"], ["bx"]].flatten.Perm strings ∧
      ∀ part ∈ [["aa", "aa"], ["aa"], ["ab"], ["bx"]], part ≠ [] := by
  refine ⟨["bx", "aa", "ab", "aa", "aa"], rfl, by decide, by decide, by decide, ?_⟩
  obtain ⟨parts, partitioned, works, same, _, filled⟩ :=
    partition_parts ["bx", "aa", "ab", "aa", "aa"] 0 2 (by decide) (by decide)
  have listed : (partition? ["bx", "aa", "ab", "aa", "aa"] 0 2).toOption =
      some [["aa", "aa"], ["aa"], ["ab"], ["bx"]] := by decide +kernel
  rw [partitioned] at listed
  obtain rfl : parts = _ := Option.some.inj listed
  exact ⟨(works _).2 rfl, same, filled (by decide)⟩

end PatternGroups.PrefixParts
