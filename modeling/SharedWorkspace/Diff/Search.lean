import SharedWorkspace.Diff.Edit

/-!
The search for a short script. Ways through the grid of old and new tokens are followed from both
ends at once, one edit further in each round, until they meet; the grid is cut there and both parts
are searched in turn. A way is known by its diagonal, the number of tokens that were deleted less
the number that were inserted.
-/

namespace SharedWorkspace
namespace Diff

variable {α : Type} [DecidableEq α]

/--
How many old tokens the furthest way on each diagonal has behind it.
-/
structure Reach where
  center : Nat
  counts : Array Nat

namespace Reach

def start (limit : Nat) : Reach where
  center := limit
  counts := Array.replicate (2 * limit + 1) 0

def get (r : Reach) (k : Int) : Nat :=
  r.counts.getD (k + r.center).toNat 0

def set (r : Reach) (k : Int) (x : Nat) : Reach :=
  { r with counts := r.counts.setIfInBounds (k + r.center).toNat x }

/--
Where the furthest way on diagonal `k` comes to with its edit number `d`: from one of the
neighbouring diagonals, from the one above if both are equally far.
-/
def next (r : Reach) (d : Nat) (k : Int) : Nat :=
  if k = -d ∨ (k ≠ d ∧ r.get (k - 1) < r.get (k + 1)) then r.get (k + 1) else r.get (k - 1) + 1

end Reach

def runLength (xs ys : Array α) (x y : Nat) : Nat :=
  if h : x < xs.size ∧ y < ys.size then
    if xs[x] = ys[y] then runLength xs ys (x + 1) (y + 1) + 1 else 0
  else
    0
termination_by xs.size - x

structure Cut where
  old : Nat
  new : Nat
  deriving DecidableEq

/--
One round of one of the two searches, over the diagonals `ks`. Ways of this search and of the other
one, which has come as far as `other`, have met if together they have all old tokens behind them; the
round ends there, with the point from which the equal tokens of the way were followed and the point
to which they led. It is not looked for a meeting where `meets` does not hold.
-/
def sweep (xs ys : Array α) (d : Nat) (meets : Int → Bool) (other : Reach) :
    List Int → Reach → Except (Cut × Cut) Reach
  | [], r => .ok r
  | k :: ks, r =>
    let x := r.next d k
    let y := (x - k).toNat
    let length := runLength xs ys x y
    let r := r.set k (x + length)
    let opposite := (xs.size : Int) - ys.size - k
    if meets k ∧ xs.size ≤ x + length + other.get opposite then
      .error (⟨x, y⟩, ⟨x + length, y + length⟩)
    else
      sweep xs ys d meets other ks r

def diagonals (d : Nat) : List Int :=
  (List.range (d + 1)).map fun (i : Nat) => (d : Int) - 2 * (i : Int)

/--
Rounds of both searches, the one from the beginning first. `ahead` and `back` tell how far they
came, `xr` and `yr` are the tokens in opposite order.
-/
def searchRounds (xs ys xr yr : Array α) : List Nat → (ahead back : Reach) → Option Cut
  | [], _, _ => none
  | d :: ds, ahead, back =>
    let delta := (xs.size : Int) - ys.size
    let odd := delta % 2 ≠ 0
    let near (limit : Int) (k : Int) : Bool := (k - delta).natAbs ≤ limit
    match sweep xs ys d (fun k => odd && near (d - 1) k) back (diagonals d) ahead with
    | .error (cut, _) => some cut
    | .ok ahead =>
      match sweep xr yr d (fun k => !odd && near d k) ahead (diagonals d) back with
      | .error (_, cut) => some ⟨xs.size - cut.old, ys.size - cut.new⟩
      | .ok back => searchRounds xs ys xr yr ds ahead back

def middle? (xs ys : List α) : Option Cut :=
  let limit := (xs.length + ys.length + 1) / 2
  searchRounds xs.toArray ys.toArray xs.reverse.toArray ys.reverse.toArray
    (List.range (limit + 1)) (.start (limit + 1)) (.start (limit + 1))

def replaceAll (i j : Nat) (xs ys : List α) : List Edit :=
  (if xs = [] then [] else [.delete i xs.length j]) ++
    (if ys = [] then [] else [.insert i j ys.length])

def keep (i j length : Nat) : List Edit :=
  if length = 0 then [] else [.equal i j length]

/--
The script that turns the tokens `xs`, which start at the old position `i`, into `ys`, which start at
the new position `j`. What both have in common at the ends is kept; the rest is cut in two, unless
one side of it is empty.
-/
def script (i j : Nat) (xs ys : List α) : List Edit :=
  let p := commonPrefix xs ys
  let s := commonSuffix (xs.drop p) (ys.drop p)
  let old := (xs.drop p).take (xs.length - p - s)
  let new := (ys.drop p).take (ys.length - p - s)
  let i' := i + p
  let j' := j + p
  let core :=
    if old = [] ∨ new = [] then
      replaceAll i' j' old new
    else
      match middle? old new with
      | none => replaceAll i' j' old new
      | some c =>
        if _h : (old.take c.old).length + (new.take c.new).length < xs.length + ys.length ∧
            (old.drop c.old).length + (new.drop c.new).length < xs.length + ys.length then
          script i' j' (old.take c.old) (new.take c.new) ++
            script (i' + c.old) (j' + c.new) (old.drop c.old) (new.drop c.new)
        else
          replaceAll i' j' old new
  keep i j p ++ core ++ keep (i' + old.length) (j' + new.length) s
termination_by xs.length + ys.length
decreasing_by
  . exact _h.1
  . exact _h.2

end Diff
end SharedWorkspace
