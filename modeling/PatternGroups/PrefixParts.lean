import PatternGroups.Refusal
import PatternGroups.Sorting

/-!
Parts of a list of strings, by shared prefixes. Strings are cut where neighbours in sorted order
share the least, so that each part keeps strings that start alike. Strings are sorted by code
points, which is the order of their UTF-8 bytes; prefixes are measured in bytes.
-/

namespace PatternGroups.PrefixParts

/-- The length of the longest common beginning of two lists. -/
def sharedLength {α : Type} [DecidableEq α] : List α → List α → Nat
  | a :: l, b :: k => if a = b then sharedLength l k + 1 else 0
  | _, _ => 0

/-- How many bytes two strings share at their beginnings. -/
def commonPrefix (a b : String) : Nat :=
  sharedLength a.toUTF8.toList b.toUTF8.toList

def sort (strings : List String) : List String :=
  Sorting.sort (fun a b => decide (a ≤ b)) strings

/-- What each string shares with the next. -/
def neighbourPrefixes : List String → List Nat
  | a :: b :: rest => commonPrefix a b :: neighbourPrefixes (b :: rest)
  | _ => []

/-- The numbers of strings before each of the weakest cuts: those between neighbours that share the
least. -/
def weakestCuts (strings : List String) : List Nat :=
  let prefixes := neighbourPrefixes strings
  (List.range' 1 prefixes.length).filter fun cut => prefixes[cut - 1]? = prefixes.min?

def bySize (a b : List String) : List String × List String :=
  if b.length < a.length then (b, a) else (a, b)

def cutAt (strings : List String) (cut : Nat) : List String × List String :=
  bySize (strings.take cut) (strings.drop cut)

/-- Cuts sorted strings in two parts of some least size: at the first of the weakest cuts that
leaves enough on both sides. If there is none, the smaller side of the last of them is topped up
from the larger one. The larger side is shorter than the whole, so that the number of strings bounds
the depth. -/
def cutSorted : (depth : Nat) → (strings : List String) → (least : Nat) →
    List String × List String
  | 0, strings, _ => ([], strings)
  | depth + 1, strings, least =>
    if strings.length < 2 then ([], strings)
    else
      let cuts := weakestCuts strings
      match cuts.find? fun cut => least ≤ cut && least ≤ strings.length - cut with
      | some cut => cutAt strings cut
      | none =>
        let (small, large) := cutAt strings (cuts.getLast?.getD 0)
        let (more, large) := cutSorted depth large (least - small.length)
        bySize (sort (small ++ more)) large

/-- Splits strings in two parts of at least some size, the smaller part first. -/
def split? (strings : List String) (least : Nat) : Except Refusal (List String × List String) :=
  if strings.length < 2 * least then .error (.misfit (.split strings.length least))
  else .ok (cutSorted strings.length (sort strings) least)

/-- Splits a part until no part is larger than some size; of two parts the larger comes first. -/
def parts? (least most : Nat) : (depth : Nat) → List String → Except Refusal (List (List String))
  | 0, strings => .ok [strings]
  | depth + 1, strings =>
    if strings.length ≤ most then .ok [strings]
    else do
      let (small, large) ← split? strings least
      return (← parts? least most depth large) ++ (← parts? least most depth small)

/-- Partitions strings into parts of at most some size, and at least some size where they were
cut. -/
def partition? (strings : List String) (least most : Nat) : Except Refusal (List (List String)) :=
  if most = 0 ∨ most < 2 * least then .error (.misfit (.sizes least most))
  else parts? least most strings.length strings

end PatternGroups.PrefixParts
