/-!
Cutting texts at a separator and putting the pieces together again.
-/

namespace SharedWorkspace
namespace Text

/--
The pieces of `s` between the occurrences of `sep`. There is always at least one piece, and a
separator at either end gives an empty one.
-/
def pieces (sep : Char) (s : String) : List String :=
  (s.toList.splitOn sep).map String.ofList

def joined (sep : Char) (ps : List String) : String :=
  String.ofList ([sep].intercalate (ps.map String.toList))

def trimEnds (p : Char → Bool) (cs : List Char) : List Char :=
  ((cs.dropWhile p).reverse.dropWhile p).reverse

structure Strips (p : Char → Bool) (cs ds : List Char) : Prop where
  cut : ∃ as bs, cs = as ++ ds ++ bs ∧ (∀ c ∈ as, p c) ∧ ∀ c ∈ bs, p c
  head : ∀ c, ds.head? = some c → p c = false
  last : ∀ c, ds.getLast? = some c → p c = false

theorem head?_dropWhile {p : Char → Bool} {cs : List Char} {c : Char}
    (h : (cs.dropWhile p).head? = some c) : p c = false := by
  have := List.head?_dropWhile_not p cs
  rwa [h] at this

theorem strips_trimEnds (p : Char → Bool) (cs : List Char) : Strips p cs (trimEnds p cs) := by
  unfold trimEnds
  generalize hm : cs.dropWhile p = ms
  have hcs : cs.takeWhile p ++ ms = cs := by
    rw [← hm, List.takeWhile_append_dropWhile]
  have hms : (ms.reverse.dropWhile p).reverse ++ (ms.reverse.takeWhile p).reverse = ms := by
    rw [← List.reverse_append, List.takeWhile_append_dropWhile, List.reverse_reverse]
  constructor
  . refine ⟨cs.takeWhile p, (ms.reverse.takeWhile p).reverse, ?_, ?_, ?_⟩
    . rw [List.append_assoc, hms, hcs]
    . exact List.all_eq_true.1 List.all_takeWhile
    . intro c hc
      exact List.all_eq_true.1 List.all_takeWhile c (List.mem_reverse.1 hc)
  . intro c hc
    -- What is cut off at the end leaves the first character in place, if there is one.
    have hhead : (cs.dropWhile p).head? = some c := by
      rw [hm, ← hms, List.head?_append, hc]
      rfl
    exact head?_dropWhile hhead
  . intro c hc
    rw [List.getLast?_reverse] at hc
    exact head?_dropWhile hc

theorem dropWhile_eq_self {p : Char → Bool} {cs : List Char}
    (h : ∀ c, cs.head? = some c → p c = false) : cs.dropWhile p = cs := by
  cases cs with
  | nil => rfl
  | cons c cs => rw [List.dropWhile_cons_of_neg (by simp [h c rfl])]

theorem trimEnds_eq_self {p : Char → Bool} {cs : List Char}
    (hhead : ∀ c, cs.head? = some c → p c = false) (hlast : ∀ c, cs.getLast? = some c → p c = false) :
    trimEnds p cs = cs := by
  have hlast' : ∀ c, cs.reverse.head? = some c → p c = false := by
    intro c hc
    rw [List.head?_reverse] at hc
    exact hlast c hc
  rw [trimEnds, dropWhile_eq_self hhead, dropWhile_eq_self hlast', List.reverse_reverse]

theorem trimEnds_trimEnds (p : Char → Bool) (cs : List Char) :
    trimEnds p (trimEnds p cs) = trimEnds p cs := by
  obtain ⟨_, hhead, hlast⟩ := strips_trimEnds p cs
  exact trimEnds_eq_self hhead hlast

def dropStart? : (start cs : List Char) → Option (List Char)
  | [], cs => some cs
  | _ :: _, [] => none
  | a :: start, c :: cs => if a = c then dropStart? start cs else none

theorem dropStart?_eq_some_iff {start cs rest : List Char} :
    dropStart? start cs = some rest ↔ cs = start ++ rest := by
  induction start generalizing cs with
  | nil => simp [dropStart?, eq_comm]
  | cons a start ih =>
    cases cs with
    | nil => simp [dropStart?]
    | cons c cs =>
      by_cases h : a = c
      . simp [dropStart?, h, ih]
      . simp only [dropStart?, if_neg h, List.cons_append, List.cons.injEq]
        constructor
        . intro h'; cases h'
        . intro h'; exact absurd h'.1.symm h

end Text
end SharedWorkspace
