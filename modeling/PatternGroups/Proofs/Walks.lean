import Mathlib.Algebra.Group.Pi.Basic
import Mathlib.Computability.Language
import PatternGroups.Numbering

/-!
# Walks over links

A link from one state to another carries a language, and a walk reads one word of each link on its
way. Two systems of links agree below a number if the same words lead from one state below it to
another.

* `agree_bypass`: a fresh state can be replaced by links around it;
* `agree_loop`: a link for the empty word from a state to itself can be left out.
-/

namespace PatternGroups

open Computability

/-- The words that lead from one state to another in one step. -/
abbrev Links := State → State → Language Nat

/-- A single link. -/
def link (source target : State) (L : Language Nat) : Links :=
  fun s t => {w | (s = source ∧ t = target) ∧ w ∈ L}

theorem mem_link {source target s t : State} {L : Language Nat} {w : List Nat} :
    w ∈ link source target L s t ↔ (s = source ∧ t = target) ∧ w ∈ L := Iff.rfl

theorem mem_add_links {E F : Links} {s t : State} {w : List Nat} :
    w ∈ (E + F) s t ↔ w ∈ E s t ∨ w ∈ F s t := Iff.rfl

theorem link_add (source target : State) (L K : Language Nat) :
    link source target L + link source target K = link source target (L + K) := by
  funext s t
  ext w
  rw [mem_add_links, mem_link, mem_link, mem_link, Language.mem_add, and_or_left]

theorem link_zero (s t : State) : link s t 0 = 0 := by
  funext r u
  ext w
  exact ⟨fun h => h.2, fun h => h.elim⟩

inductive Walk (E : Links) : State → List Nat → State → Prop
  | nil (s : State) : Walk E s [] s
  | cons {s t r : State} {u v : List Nat} : u ∈ E s t → Walk E t v r → Walk E s (u ++ v) r

namespace Walk

variable {E F : Links}

theorem single {s t : State} {u : List Nat} (h : u ∈ E s t) : Walk E s u t := by
  simpa using cons h (nil t)

theorem append {s t r : State} {u v : List Nat} (h : Walk E s u t) (h' : Walk E t v r) :
    Walk E s (u ++ v) r := by
  induction h with
  | nil => exact h'
  | cons first _ ih => simpa only [List.append_assoc] using cons first (ih h')

/-- Each link may be replaced by a walk. -/
theorem replace {s t : State} {w : List Nat} (h : Walk E s w t)
    (hEF : ∀ {s t w}, w ∈ E s t → Walk F s w t) : Walk F s w t := by
  induction h with
  | nil s => exact nil s
  | cons first _ ih => exact (hEF first).append ih

/-- A loop is walked any number of times. -/
theorem star {s : State} {L : Language Nat} (hL : ∀ {w}, w ∈ L → Walk E s w s) {w : List Nat}
    (hw : w ∈ L∗) : Walk E s w s := by
  obtain ⟨words, rfl, hwords⟩ := Language.mem_kstar.1 hw
  clear hw
  induction words with
  | nil => exact nil s
  | cons u words ih =>
    rw [List.flatten_cons]
    have later : ∀ y ∈ words, y ∈ L := fun y hy => hwords y (List.mem_cons_of_mem u hy)
    exact (hL (hwords u List.mem_cons_self)).append (ih later)

end Walk

/-! ## Agreement -/

/-- All links are between states below a number. -/
def Links.Below (E : Links) (n : Nat) : Prop := ∀ s t w, w ∈ E s t → s < n ∧ t < n

theorem Links.Below.add {E F : Links} {n : Nat} (hE : E.Below n) (hF : F.Below n) :
    (E + F).Below n := by
  intro s t w h
  rcases mem_add_links.1 h with h | h
  · exact hE s t w h
  · exact hF s t w h

theorem Links.Below.mono {E : Links} {n k : Nat} (hE : E.Below n) (h : n ≤ k) : E.Below k := by
  intro s t w hw
  obtain ⟨hs, ht⟩ := hE s t w hw
  exact ⟨Nat.lt_of_lt_of_le hs h, Nat.lt_of_lt_of_le ht h⟩

theorem below_link {source target n : Nat} {L : Language Nat} (hs : source < n) (ht : target < n) :
    (link source target L).Below n := by
  rintro s t w ⟨⟨rfl, rfl⟩, _⟩
  exact ⟨hs, ht⟩

/-- The same words lead from state to state, as far as states below `n` go. -/
def Agree (n : Nat) (E F : Links) : Prop :=
  ∀ s t w, s < n → t < n → (Walk E s w t ↔ Walk F s w t)

namespace Agree

variable {E F G : Links} {n k : Nat}

theorem refl (n : Nat) (E : Links) : Agree n E E := fun _ _ _ _ _ => Iff.rfl

theorem symm (h : Agree n E F) : Agree n F E := fun s t w hs ht => (h s t w hs ht).symm

theorem trans (h : Agree n E F) (h' : Agree n F G) : Agree n E G :=
  fun s t w hs ht => (h s t w hs ht).trans (h' s t w hs ht)

theorem mono (h : Agree n E F) (hk : k ≤ n) : Agree k E F :=
  fun s t w hs ht => h s t w (Nat.lt_of_lt_of_le hs hk) (Nat.lt_of_lt_of_le ht hk)

end Agree

/-- A link for the empty word from a state to itself leads nowhere. -/
theorem agree_loop (n : Nat) (E : Links) (s : State) : Agree n (E + link s s 1) E := by
  intro a b w _ _
  constructor
  · intro h
    refine h.replace fun {r t u} hu => ?_
    rcases mem_add_links.1 hu with hu | ⟨⟨rfl, rfl⟩, rfl⟩
    · exact .single hu
    · exact .nil _
  · intro h
    exact h.replace fun hu => .single (.inl hu)

section Bypass

variable {E : Links} {n source target q : State} {A B C : Language Nat}

/-- The links of a state that has one way in, a loop and one way out. -/
def through (source q target : State) (A B C : Language Nat) : Links :=
  link source q A + link q q B + link q target C

/-- What a walk to a state below `n` becomes without the fresh state `q`: a walk from `q` on has
read a word of the loop and a word of the way out before it is back among the other states. -/
theorem walk_without (hE : E.Below n) (hs : source < n) (ht : target < n) (hq : n ≤ q) {a b : State}
    {w : List Nat} (h : Walk (E + through source q target A B C) a w b) (hb : b < n) :
    (a < n → Walk (E + link source target (A * (B∗ * C))) a w b) ∧
    (a = q → ∃ u v, w = u ++ v ∧ u ∈ B∗ * C ∧
      Walk (E + link source target (A * (B∗ * C))) target v b) := by
  have apart {s : State} (h : s < n) : s ≠ q := fun e => Nat.not_lt.2 hq (e ▸ h)
  induction h with
  | nil s => exact ⟨fun _ => .nil s, fun hsq => absurd hsq (apart hb)⟩
  | @cons s t r u v first _ ih =>
    obtain ⟨below, fromQ⟩ := ih hb
    constructor
    · intro hsn
      rcases mem_add_links.1 first with
        first | (⟨⟨rfl, rfl⟩, hA⟩ | ⟨⟨rfl, rfl⟩, _⟩) | ⟨⟨rfl, rfl⟩, _⟩
      · exact .cons (.inl first) (below (hE _ _ _ first).2)
      · obtain ⟨x, y, rfl, hx, rest⟩ := fromQ rfl
        rw [← List.append_assoc]
        exact .cons (.inr ⟨⟨rfl, rfl⟩, Language.append_mem_mul hA hx⟩) rest
      · exact absurd rfl (apart hsn)
      · exact absurd rfl (apart hsn)
    · rintro rfl
      rcases mem_add_links.1 first with first | (⟨⟨rfl, rfl⟩, _⟩ | ⟨⟨_, rfl⟩, hB⟩) | ⟨⟨_, rfl⟩, hC⟩
      · exact absurd rfl (apart (hE _ _ _ first).1)
      · exact absurd rfl (apart hs)
      · obtain ⟨x, y, rfl, hx, rest⟩ := fromQ rfl
        refine ⟨u ++ x, y, (List.append_assoc u x y).symm, ?_, rest⟩
        obtain ⟨x₁, hx₁, x₂, hx₂, rfl⟩ := Language.mem_mul.1 hx
        rw [← List.append_assoc]
        refine Language.append_mem_mul ?_ hx₂
        rw [← Language.one_add_self_mul_kstar_eq_kstar]
        exact .inr (Language.append_mem_mul hB hx₁)
      · refine ⟨u, v, rfl, ?_, below ht⟩
        simpa using Language.append_mem_mul (Language.nil_mem_kstar B) hC

/-- A fresh state is the same as a link for everything that can be read on the way through it. -/
theorem agree_bypass (hE : E.Below n) (hs : source < n) (ht : target < n) (hq : n ≤ q) :
    Agree n (E + through source q target A B C) (E + link source target (A * (B∗ * C))) := by
  intro a b w ha hb
  constructor
  · intro h
    exact (walk_without hE hs ht hq h hb).1 ha
  · intro h
    refine h.replace fun {s t u} hu => ?_
    rcases mem_add_links.1 hu with hu | ⟨⟨rfl, rfl⟩, around⟩
    · exact .single (.inl hu)
    · obtain ⟨x, hx, y, hy, rfl⟩ := Language.mem_mul.1 around
      obtain ⟨y₁, hy₁, y₂, hy₂, rfl⟩ := Language.mem_mul.1 hy
      have enter : Walk (E + through s q t A B C) s x q :=
        .single (.inr (.inl (.inl ⟨⟨rfl, rfl⟩, hx⟩)))
      have around : Walk (E + through s q t A B C) q y₁ q :=
        .star (fun hw => .single (.inr (.inl (.inr ⟨⟨rfl, rfl⟩, hw⟩)))) hy₁
      have leave : Walk (E + through s q t A B C) q y₂ t :=
        .single (.inr (.inr ⟨⟨rfl, rfl⟩, hy₂⟩))
      exact enter.append (around.append leave)

end Bypass

end PatternGroups
