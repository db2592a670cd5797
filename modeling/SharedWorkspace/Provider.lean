import SharedWorkspace.OrderedMap
import SharedWorkspace.Resource

/-!
Providers: who keeps the versions of a project, and where. A provider is identified by its project
and its type alone; the location and the path there are what may change.
-/

namespace SharedWorkspace

abbrev ProviderTypeId := String

abbrev RepositoryLocation := String

abbrev ScopeKey := String

structure ProviderKey where
  project : ProjectName
  typeId : ProviderTypeId
  deriving DecidableEq

namespace ProviderKey

instance : Ord ProviderKey := ⟨compareLex (compareOn project) (compareOn typeId)⟩

instance : Std.TransOrd ProviderKey :=
  inferInstanceAs (Std.TransCmp (compareLex (compareOn project) (compareOn typeId)))

instance : Std.LawfulEqOrd ProviderKey where
  eq_of_compare {a b} h := by
    have h : (compare a.project b.project).then (compare a.typeId b.typeId) = .eq := h
    rw [Ordering.then_eq_eq] at h
    cases a; cases b
    have h₁ := Std.LawfulEqCmp.eq_of_compare h.1
    have h₂ := Std.LawfulEqCmp.eq_of_compare h.2
    simp_all

end ProviderKey

structure Provider where
  typeId : ProviderTypeId
  project : ProjectName
  location : RepositoryLocation
  rootPath : String
  deriving DecidableEq

namespace Provider

def key (p : Provider) : ProviderKey :=
  ⟨p.project, p.typeId⟩

def scopeOfProject (project : ProjectName) : ScopeKey :=
  "project:" ++ project

def projectScope (p : Provider) : ScopeKey :=
  scopeOfProject p.project

def display (p : Provider) : String :=
  p.project ++ ":" ++ p.typeId

end Provider
end SharedWorkspace
