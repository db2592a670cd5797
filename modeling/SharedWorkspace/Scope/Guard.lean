import SharedWorkspace.OrderedMap
import SharedWorkspace.Scope.LockTable

/-!
Guards. Whoever is granted a scope keeps a guard for it, under a name of his own; to drop the guard is
to give the scope back.
-/

namespace SharedWorkspace

structure Guards where
  table : LockTable := {}
  kept : OrderedMap String ScopeKey := .empty

namespace Guards

def drop (g : Guards) (name : String) : Guards where
  table :=
    match g.kept.find? name with
    | some scope => g.table.release scope
    | none => g.table
  kept := g.kept.erase name

/--
Keep a guard for a scope that has just been granted. The guard that had the name is dropped.
-/
def keep (g : Guards) (name : String) (scope : ScopeKey) (granted : LockTable) : Guards :=
  let g := { g with table := granted }.drop name
  { g with kept := g.kept.insert name scope }

/--
Acquire a scope and keep its guard; `none` if more than `patience` attempts would be needed.
-/
def acquire {σ : Type} (isCancelled : σ → Bool × σ) (patience : Nat) (g : Guards) (name : String)
    (scope : ScopeKey) (s : σ) : Option (Except Failure Guards) × σ :=
  match g.table.acquire isCancelled scope patience s with
  | (some (.ok t), s) => (some (.ok (g.keep name scope t)), s)
  | (some (.error e), s) => (some (.error e), s)
  | (none, s) => (none, s)

end Guards
end SharedWorkspace
