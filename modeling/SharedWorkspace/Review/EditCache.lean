import SharedWorkspace.Diff.FileDiff
import SharedWorkspace.OrderedMap

/-!
Contents that were edited by hand and not yet applied, by the file that they are meant for. Paths
are the same if their components are; of several texts of one path the first one is kept.
-/

namespace SharedWorkspace

structure EditCache where
  contents : OrderedMap (List Component) (Path × String) := .empty
  deriving DecidableEq

namespace EditCache

def cache (c : EditCache) (d : FileDiff) (text : String) : EditCache :=
  match d.targetPath? with
  | none => c
  | some p =>
    let first := ((c.contents.find? p.components).map Prod.fst).getD p
    { contents := c.contents.insert p.components (first, text) }

def cached? (c : EditCache) (d : FileDiff) : Option String :=
  match d.targetPath? with
  | none => none
  | some p => (c.contents.find? p.components).map Prod.snd

def hasCached (c : EditCache) (d : FileDiff) : Bool :=
  (c.cached? d).isSome

def remove (c : EditCache) (d : FileDiff) : Bool × EditCache :=
  match d.targetPath? with
  | none => (false, c)
  | some p => (c.contents.contains p.components, { contents := c.contents.erase p.components })

def clear (c : EditCache) (d : FileDiff) : EditCache :=
  (c.remove d).2

def paths (c : EditCache) : List Path :=
  c.contents.values.map Prod.fst

end EditCache
end SharedWorkspace
