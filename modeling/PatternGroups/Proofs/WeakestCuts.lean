import Mathlib.Data.List.Chain
import Mathlib.Data.Nat.Find
import Mathlib.Order.Bounds.Basic
import PatternGroups.Proofs.ByteOrder

/-!
# Weakest cuts

Strings that share a beginning with one between them share it with each other. So the least that
any two of some strings share is shared by two neighbours, in whatever order they stand; and in the
order of bytes a cut between such neighbours parts strings that share no more than that.

* `le_sharedLength_iff`: what two lists share;
* `min?_pairPrefixes_of_min?`: all pairs share at least what some neighbours share;
* `commonPrefix_le_of_between`: strings share no more than strings between them;
* `find?_weakestCuts`, `getLast?_weakestCuts`: the first weakest cut with enough on both sides, and
  the last of all.
-/

namespace PatternGroups.PrefixParts

/-! ## What two strings share -/

section Lists

variable {α : Type} [DecidableEq α] {l k m : List α} {n : Nat}

theorem le_sharedLength_iff :
    n ≤ sharedLength l k ↔ n ≤ l.length ∧ n ≤ k.length ∧ l.take n = k.take n := by
  fun_induction sharedLength l k generalizing n with
  | case1 l a k ih =>
    cases n with
    | zero => simp
    | succ n => simp [ih]
  | case2 a l b k differ =>
    cases n with
    | zero => simp
    | succ n => simp [differ]
  | case3 l k none =>
    cases n with
    | zero => simp
    | succ n =>
      cases l with
      | nil => simp
      | cons a l =>
        cases k with
        | nil => simp
        | cons b k => exact (none a l b k rfl rfl).elim

theorem sharedLength_comm (l k : List α) : sharedLength l k = sharedLength k l := by
  refine eq_of_forall_le_iff fun n => ?_
  rw [le_sharedLength_iff, le_sharedLength_iff, and_left_comm, eq_comm (a := l.take n)]

theorem le_sharedLength_trans (hlk : n ≤ sharedLength l k) (hkm : n ≤ sharedLength k m) :
    n ≤ sharedLength l m := by
  rw [le_sharedLength_iff] at *
  exact ⟨hlk.1, hkm.2.1, hlk.2.2.trans hkm.2.2⟩

end Lists

/-- A list between two others begins with what these share. -/
theorem sharedLength_le_of_between {l k m : List UInt8} (hlk : l ≤ k) (hkm : k ≤ m) :
    sharedLength l m ≤ sharedLength l k := by
  fun_induction sharedLength l m generalizing k with
  | case1 l a m ih =>
    cases k with
    | nil => exact absurd hlk (List.not_le.2 (List.nil_lt_cons a l))
    | cons b k =>
      rw [List.cons_le_cons_iff] at hlk hkm
      have same : a = b := by
        rcases hlk with less | ⟨same, _⟩
        · rcases hkm with less' | ⟨same', _⟩
          · exact absurd less (UInt8.lt_asymm less')
          · exact same'.symm
        · exact same
      subst same
      rw [sharedLength, if_pos rfl]
      refine Nat.succ_le_succ (ih ?_ ?_)
      · exact (hlk.resolve_left (UInt8.lt_irrefl a)).2
      · exact (hkm.resolve_left (UInt8.lt_irrefl a)).2
  | case2 => exact Nat.zero_le _
  | case3 => exact Nat.zero_le _

open Text (bytes bytes_le_bytes toList_toUTF8)

theorem commonPrefix_eq (a b : String) : commonPrefix a b = sharedLength (bytes a) (bytes b) := by
  rw [commonPrefix, toList_toUTF8, toList_toUTF8]

theorem commonPrefix_comm (a b : String) : commonPrefix a b = commonPrefix b a := by
  rw [commonPrefix_eq, commonPrefix_eq, sharedLength_comm]

theorem le_commonPrefix_trans {a b c : String} {n : Nat} (hab : n ≤ commonPrefix a b)
    (hbc : n ≤ commonPrefix b c) : n ≤ commonPrefix a c := by
  rw [commonPrefix_eq] at *
  exact le_sharedLength_trans hab hbc

/-- Strings share no more than strings that stand between them. -/
theorem commonPrefix_le_of_between {a b c d : String} (hab : bytes a ≤ bytes b)
    (hbc : bytes b ≤ bytes c) (hcd : bytes c ≤ bytes d) : commonPrefix a d ≤ commonPrefix b c := by
  have first {a b c : String} (hab : bytes a ≤ bytes b) (hbc : bytes b ≤ bytes c) :
      commonPrefix a c ≤ commonPrefix a b := by
    rw [commonPrefix_eq, commonPrefix_eq]
    exact sharedLength_le_of_between hab hbc
  -- What `a` and `c` share, `b` and `c` share through `a`.
  have second : commonPrefix a c ≤ commonPrefix b c := by
    refine le_commonPrefix_trans ?_ (Nat.le_refl (commonPrefix a c))
    rw [commonPrefix_comm b a]
    exact first hab hbc
  exact Nat.le_trans (first (List.le_trans hab hbc) hcd) second

/-! ## Pairs and neighbours -/

/-- What any two of some strings share. -/
def pairPrefixes : List String → List Nat
  | [] => []
  | a :: rest => rest.map (commonPrefix a) ++ pairPrefixes rest

section Prefixes

variable {strings : List String} {p : Nat → Prop}

theorem forall_pairPrefixes :
    (∀ n ∈ pairPrefixes strings, p n) ↔ strings.Pairwise fun a b => p (commonPrefix a b) := by
  induction strings with
  | nil => simp [pairPrefixes]
  | cons a rest ih =>
    rw [List.pairwise_cons, ← ih, pairPrefixes, List.forall_mem_append, List.forall_mem_map]

theorem forall_neighbourPrefixes :
    (∀ n ∈ neighbourPrefixes strings, p n) ↔ strings.IsChain fun a b => p (commonPrefix a b) := by
  fun_induction neighbourPrefixes strings with
  | case1 a b rest ih => rw [List.isChain_cons_cons, ← ih, List.forall_mem_cons]
  | case2 strings few =>
    match strings with
    | [] => simp
    | [a] => simp
    | a :: b :: rest => exact (few a b rest rfl).elim

theorem neighbourPrefixes_subset : neighbourPrefixes strings ⊆ pairPrefixes strings :=
  forall_neighbourPrefixes.2 (forall_pairPrefixes.1 fun _ => id).isChain

theorem forall_le_pairPrefixes {n : Nat} :
    (∀ m ∈ pairPrefixes strings, n ≤ m) ↔ ∀ m ∈ neighbourPrefixes strings, n ≤ m := by
  let _ : Trans (fun a b => n ≤ commonPrefix a b) (fun a b => n ≤ commonPrefix a b)
      fun a b => n ≤ commonPrefix a b := ⟨le_commonPrefix_trans⟩
  rw [forall_pairPrefixes, forall_neighbourPrefixes, List.isChain_iff_pairwise]

theorem length_neighbourPrefixes (strings : List String) :
    (neighbourPrefixes strings).length = strings.length - 1 := by
  fun_induction neighbourPrefixes strings with
  | case1 a b rest ih => simp [ih]
  | case2 strings few =>
    match strings with
    | [] => rfl
    | [a] => rfl
    | a :: b :: rest => exact (few a b rest rfl).elim

theorem getElem?_neighbourPrefixes {i w : Nat} : (neighbourPrefixes strings)[i]? = some w ↔
    ∃ a b, strings[i]? = some a ∧ strings[i + 1]? = some b ∧ commonPrefix a b = w := by
  fun_induction neighbourPrefixes strings generalizing i with
  | case1 a b rest ih =>
    cases i with
    | zero => simp
    | succ i => simpa using ih
  | case2 strings few =>
    match strings with
    | [] => simp
    | [a] => simp
    | a :: b :: rest => exact (few a b rest rfl).elim

theorem exists_min?_neighbourPrefixes (h : 2 ≤ strings.length) :
    ∃ w, (neighbourPrefixes strings).min? = some w := by
  refine Option.ne_none_iff_exists'.1 fun none => ?_
  have count := length_neighbourPrefixes strings
  rw [List.min?_eq_none_iff.1 none, List.length_nil] at count
  omega

/-- The least that any two of some strings share, two neighbours share. -/
theorem min?_pairPrefixes_of_min? {w : Nat} (h : (neighbourPrefixes strings).min? = some w) :
    (pairPrefixes strings).min? = some w := by
  rw [List.min?_eq_some_iff] at h ⊢
  exact ⟨neighbourPrefixes_subset h.1, forall_le_pairPrefixes.2 h.2⟩

/-- What two of some strings share does not depend on their order. -/
theorem mem_pairPrefixes_of_perm {others : List String} (h : strings.Perm others) {n : Nat} :
    n ∈ pairPrefixes strings ↔ n ∈ pairPrefixes others := by
  have without {strings : List String} :
      n ∉ pairPrefixes strings ↔ strings.Pairwise fun a b => ¬n = commonPrefix a b :=
    List.forall_mem_ne.symm.trans forall_pairPrefixes
  refine not_iff_not.1 ?_
  rw [without, without]
  refine h.pairwise_iff fun {a b} differ => ?_
  rwa [commonPrefix_comm]

theorem min?_pairPrefixes_of_perm {others : List String} (h : strings.Perm others) :
    (pairPrefixes strings).min? = (pairPrefixes others).min? := by
  refine Option.ext fun w => ?_
  simp only [List.min?_eq_some_iff, mem_pairPrefixes_of_perm h]

end Prefixes

/-! ## The first and the last cut -/

/-- A place to cut: before it and after it stand strings that share exactly `w` bytes, and there are
enough on both sides. -/
structure Suits (strings : List String) (least w cut : Nat) : Prop where
  positive : 0 < cut
  shared : ∃ a b, strings[cut - 1]? = some a ∧ strings[cut]? = some b ∧ commonPrefix a b = w
  before : least ≤ cut
  after : least ≤ strings.length - cut

section Ascending

variable {l : List Nat} {n : Nat} (ascending : l.Pairwise (· < ·))
include ascending

theorem find?_eq_some_iff_isLeast {p : Nat → Bool} :
    l.find? p = some n ↔ IsLeast {m | m ∈ l ∧ p m = true} n := by
  induction l with
  | nil => simp [IsLeast]
  | cons a rest ih =>
    rw [List.pairwise_cons] at ascending
    rw [List.find?_cons]
    cases first : p a with
    | true =>
      have least : IsLeast {m | m ∈ a :: rest ∧ p m = true} a := by
        refine ⟨⟨List.mem_cons_self, first⟩, ?_⟩
        rintro m ⟨hm, _⟩
        rcases List.mem_cons.1 hm with rfl | hm
        · exact Nat.le_refl _
        · exact Nat.le_of_lt (ascending.1 m hm)
      rw [Option.some.injEq]
      exact ⟨fun same => same ▸ least, fun other => least.unique other⟩
    | false =>
      have same : {m | m ∈ a :: rest ∧ p m = true} = {m | m ∈ rest ∧ p m = true} := by
        ext m
        simp only [Set.mem_ofPred_eq, List.mem_cons]
        constructor
        · rintro ⟨rfl | hm, holds⟩
          · rw [first] at holds
            cases holds
          · exact ⟨hm, holds⟩
        · exact fun h => ⟨.inr h.1, h.2⟩
      rw [same]
      exact ih ascending.2

theorem getLast?_eq_some_iff_isGreatest : l.getLast? = some n ↔ IsGreatest {m | m ∈ l} n := by
  have greatest {m : Nat} (h : l.getLast? = some m) : IsGreatest {k | k ∈ l} m := by
    obtain ⟨front, rfl⟩ := List.getLast?_eq_some_iff.1 h
    refine ⟨List.mem_append_right _ (List.mem_singleton_self m), fun k hk => ?_⟩
    rcases List.mem_append.1 hk with hk | hk
    · exact Nat.le_of_lt ((List.pairwise_append.1 ascending).2.2 k hk m (List.mem_singleton_self m))
    · exact Nat.le_of_eq (List.mem_singleton.1 hk)
  refine ⟨greatest, fun other => ?_⟩
  have some := List.getLast?_eq_some_getLast (List.ne_nil_of_mem other.1)
  rw [some, (greatest some).unique other]

end Ascending

section Cuts

variable {strings : List String} {least w cut : Nat}

theorem Suits.lt_length (h : Suits strings least w cut) : cut < strings.length := by
  obtain ⟨_, _, _, hb, _⟩ := h.shared
  exact (List.getElem?_eq_some_iff.1 hb).1

theorem Suits.two_le_length (h : Suits strings least w cut) : 2 ≤ strings.length :=
  Nat.lt_of_le_of_lt h.positive h.lt_length

theorem suits_iff : Suits strings least w cut ↔
    Suits strings 0 w cut ∧ least ≤ cut ∧ least ≤ strings.length - cut :=
  ⟨fun h => ⟨⟨h.positive, h.shared, Nat.zero_le _, Nat.zero_le _⟩, h.before, h.after⟩,
    fun h => ⟨h.1.positive, h.1.shared, h.2.1, h.2.2⟩⟩

theorem exists_isLeast_of_suits {c : Nat} (h : Suits strings least w c) :
    ∃ cut, IsLeast {c | Suits strings least w c} cut := by
  classical
  have some : ∃ c, Suits strings least w c := ⟨c, h⟩
  exact ⟨Nat.find some, Nat.find_spec some, fun _ other => Nat.find_min' some other⟩

theorem pairwise_weakestCuts (strings : List String) :
    (weakestCuts strings).Pairwise (· < ·) :=
  (List.pairwise_lt_range' (s := 1)).filter _

variable (weakest : (neighbourPrefixes strings).min? = some w)
include weakest

theorem mem_weakestCuts : cut ∈ weakestCuts strings ↔ Suits strings 0 w cut := by
  rw [weakestCuts, List.mem_filter, List.mem_range'_1, weakest, decide_eq_true_eq,
    getElem?_neighbourPrefixes, length_neighbourPrefixes]
  constructor
  · rintro ⟨⟨positive, _⟩, a, b, ha, hb, shared⟩
    rw [Nat.sub_add_cancel positive] at hb
    exact ⟨positive, ⟨a, b, ha, hb, shared⟩, Nat.zero_le _, Nat.zero_le _⟩
  · intro h
    obtain ⟨a, b, ha, hb, shared⟩ := h.shared
    have := h.lt_length
    refine ⟨⟨h.positive, by omega⟩, a, b, ha, ?_, shared⟩
    rwa [Nat.sub_add_cancel h.positive]

theorem find?_weakestCuts :
    ((weakestCuts strings).find? fun c => least ≤ c && least ≤ strings.length - c) = some cut ↔
      IsLeast {c | Suits strings least w c} cut := by
  rw [find?_eq_some_iff_isLeast (pairwise_weakestCuts strings)]
  simp only [mem_weakestCuts weakest, Bool.and_eq_true, decide_eq_true_eq, ← suits_iff]

theorem find?_weakestCuts_eq_none_iff :
    ((weakestCuts strings).find? fun c => least ≤ c && least ≤ strings.length - c) = none ↔
      ∀ c, ¬Suits strings least w c := by
  rw [List.find?_eq_none]
  simp only [mem_weakestCuts weakest, Bool.and_eq_true, decide_eq_true_eq]
  exact forall_congr' fun c => not_and.symm.trans (not_congr suits_iff.symm)

theorem getLast?_weakestCuts :
    (weakestCuts strings).getLast? = some cut ↔ IsGreatest {c | Suits strings 0 w c} cut := by
  rw [getLast?_eq_some_iff_isGreatest (pairwise_weakestCuts strings)]
  simp only [mem_weakestCuts weakest]

theorem exists_suits : ∃ c, Suits strings 0 w c := by
  obtain ⟨i, hi⟩ := List.getElem?_of_mem (List.min?_eq_some_iff.1 weakest).1
  obtain ⟨a, b, ha, hb, shared⟩ := getElem?_neighbourPrefixes.1 hi
  exact ⟨i + 1, Nat.succ_pos i, ⟨a, b, ha, hb, shared⟩, Nat.zero_le _, Nat.zero_le _⟩

end Cuts

/-! ## Sorted strings -/

/-- Strings in the order of their bytes. -/
def Sorted (strings : List String) : Prop :=
  strings.Pairwise fun a b => bytes a ≤ bytes b

theorem sorted_sort (strings : List String) : Sorted (sort strings) := by
  have ascending : (sort strings).Pairwise fun a b => decide (a ≤ b) = true := by
    apply Sorting.pairwise_sort
    · simpa using String.le_total
    · simpa using fun a b c => String.le_trans
  exact ascending.imp fun h => bytes_le_bytes (of_decide_eq_true h)

theorem sort_perm (strings : List String) : (sort strings).Perm strings :=
  Sorting.sort_perm _ strings

section Sides

variable {strings : List String} {least w cut : Nat}

theorem Sorted.bytes_le (sorted : Sorted strings) {i j : Nat} {a b : String} (hij : i ≤ j)
    (ha : strings[i]? = some a) (hb : strings[j]? = some b) : bytes a ≤ bytes b := by
  obtain ⟨hi, rfl⟩ := List.getElem?_eq_some_iff.1 ha
  obtain ⟨hj, rfl⟩ := List.getElem?_eq_some_iff.1 hb
  rcases Nat.lt_or_eq_of_le hij with hlt | rfl
  · exact List.pairwise_iff_getElem.1 sorted i j hi hj hlt
  · exact List.le_refl _

/-- Strings on different sides of a weakest cut share as little as any two. -/
theorem commonPrefix_eq_of_suits (sorted : Sorted strings)
    (weakest : (neighbourPrefixes strings).min? = some w) (h : Suits strings least w cut)
    {a b : String} (ha : a ∈ strings.take cut) (hb : b ∈ strings.drop cut) :
    commonPrefix a b = w := by
  apply Nat.le_antisymm
  · obtain ⟨c, d, hc, hd, rfl⟩ := h.shared
    obtain ⟨i, hi, rfl⟩ := List.mem_take_iff_getElem.1 ha
    obtain ⟨j, hj, rfl⟩ := List.mem_drop_iff_getElem.1 hb
    have positive := h.positive
    have before : i ≤ cut - 1 := by omega
    exact commonPrefix_le_of_between
      (sorted.bytes_le before (List.getElem?_eq_getElem _) hc)
      (sorted.bytes_le (Nat.sub_le cut 1) hc hd)
      (sorted.bytes_le (Nat.le_add_right cut j) hd (List.getElem?_eq_getElem _))
  · have pairs : strings.Pairwise fun a b => w ≤ commonPrefix a b :=
      forall_pairPrefixes.1 (forall_le_pairPrefixes.2 (List.min?_eq_some_iff.1 weakest).2)
    rw [← List.take_append_drop cut strings, List.pairwise_append] at pairs
    exact pairs.2.2 a ha b hb

end Sides

/-! ## Cuts with enough on both sides -/

section Splits

variable {strings : List String} {least w cut : Nat}

theorem cutAt_eq (h : cut ≤ strings.length) : cutAt strings cut =
    if strings.length < 2 * cut then (strings.drop cut, strings.take cut)
    else (strings.take cut, strings.drop cut) := by
  have larger : (strings.drop cut).length < (strings.take cut).length ↔
      strings.length < 2 * cut := by
    rw [List.length_drop, List.length_take]
    omega
  rw [cutAt, bySize]
  exact if_congr larger rfl rfl

theorem cutSorted_of_isLeast (depth : Nat) (weakest : (neighbourPrefixes strings).min? = some w)
    (first : IsLeast {c | Suits strings least w c} cut) :
    cutSorted (depth + 1) strings least = cutAt strings cut := by
  rw [cutSorted, if_neg (Nat.not_lt.2 first.1.two_le_length)]
  simp only [(find?_weakestCuts weakest).2 first]

theorem split?_of_le (h : 2 * least ≤ strings.length) :
    split? strings least = .ok (cutSorted strings.length (sort strings) least) :=
  if_neg (Nat.not_lt.2 h)

/-- Let two of some strings share `w` bytes and no two share less: as little is shared by two
neighbours in the order of bytes. If there is a cut between such neighbours that leaves enough on
both sides, the strings are split at the first one, the smaller side first, and what stands before
the cut if the sides are equal. Then strings of different parts share `w` bytes and no more. -/
theorem split_weakest (strings : List String) (least : Nat) (two : 2 ≤ strings.length)
    (enough : 2 * least ≤ strings.length) :
    (sort strings).Perm strings ∧ Sorted (sort strings) ∧
      ∃ w, (pairPrefixes strings).min? = some w ∧
        (neighbourPrefixes (sort strings)).min? = some w ∧
        ((∃ cut, Suits (sort strings) least w cut) →
          ∃ cut, IsLeast {c | Suits (sort strings) least w c} cut ∧
            split? strings least = .ok
              (if strings.length < 2 * cut then ((sort strings).drop cut, (sort strings).take cut)
              else ((sort strings).take cut, (sort strings).drop cut)) ∧
            ∀ a ∈ (sort strings).take cut, ∀ b ∈ (sort strings).drop cut,
              commonPrefix a b = w) := by
  have same := sort_perm strings
  have sorted := sorted_sort strings
  obtain ⟨w, weakest⟩ := exists_min?_neighbourPrefixes (same.length_eq ▸ two)
  refine ⟨same, sorted, w, ?_, weakest, fun ⟨c, suits⟩ => ?_⟩
  · rw [← min?_pairPrefixes_of_perm same]
    exact min?_pairPrefixes_of_min? weakest
  · obtain ⟨cut, first⟩ := exists_isLeast_of_suits suits
    obtain ⟨depth, hd⟩ := Nat.exists_eq_add_of_le' (Nat.le_of_succ_le two)
    refine ⟨cut, first, ?_, fun a ha b hb => commonPrefix_eq_of_suits sorted weakest first.1 ha hb⟩
    rw [split?_of_le enough, hd, cutSorted_of_isLeast depth weakest first,
      cutAt_eq (Nat.le_of_lt first.1.lt_length), same.length_eq, hd]

/-- All neighbours but `ab` and `bx` share a letter. -/
theorem split_weakest_letters : ∃ strings : List String,
    strings = ["bx", "aa", "ab", "by", "bz"] ∧ 2 ≤ strings.length ∧ 2 * 2 ≤ strings.length ∧
      (pairPrefixes strings).min? = some 0 ∧ Suits (sort strings) 2 0 2 ∧
      split? strings 2 = .ok (["aa", "ab"], ["bx", "by", "bz"]) := by
  refine ⟨["bx", "aa", "ab", "by", "bz"], rfl, ?_⟩
  have order : sort ["bx", "aa", "ab", "by", "bz"] = ["aa", "ab", "bx", "by", "bz"] := by
    decide +kernel
  have zero : (pairPrefixes ["bx", "aa", "ab", "by", "bz"]).min? = some 0 := by decide +kernel
  have suits : Suits (sort ["bx", "aa", "ab", "by", "bz"]) 2 0 2 := by
    rw [order]
    exact ⟨by decide, ⟨"ab", "bx", rfl, rfl, by decide +kernel⟩, by decide, by decide⟩
  obtain ⟨_, _, w, least, _, found⟩ :=
    split_weakest ["bx", "aa", "ab", "by", "bz"] 2 (by decide) (by decide)
  obtain rfl : w = 0 := Option.some.inj (least.symm.trans zero)
  obtain ⟨cut, first, parts, _⟩ := found ⟨2, suits⟩
  obtain rfl : cut = 2 := Nat.le_antisymm (first.2 suits) first.1.before
  refine ⟨by decide, by decide, zero, suits, parts.trans ?_⟩
  rw [order]
  rfl

end Splits

end PatternGroups.PrefixParts
