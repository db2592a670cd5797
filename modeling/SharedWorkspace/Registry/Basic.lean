import SharedWorkspace.Provider
import SharedWorkspace.Subscriber

/-!
The registry of a workspace: the provider types that are known, the provider of each project, the
subscribers, how those are created that are not there yet, and who listens for new ones.

What provider types, factories and listeners do is not part of the registry. It knows them by names
of the type `N`; `Registry.Behaviour` says what a name stands for.
-/

namespace SharedWorkspace

abbrev Mappings := OrderedMap ProjectName Provider

namespace Mappings

def resolve (m : Mappings) (r : Resource) : Option Provider :=
  m.find? r.project

end Mappings

abbrev ListenerId := Nat

structure Registry (N : Type) where
  types : OrderedMap ProviderTypeId N := .empty
  mappings : Mappings := .empty
  factories : OrderedMap String N := .empty
  subscribers : OrderedMap SubscriberId Subscriber := .empty
  listeners : List (ListenerId × N) := []
  nextListener : ListenerId := 0

namespace Registry

variable {N : Type}

def registerType (r : Registry N) (id : ProviderTypeId) (type : N) : Registry N :=
  { r with types := r.types.insert id type }

def providerType? (r : Registry N) (id : ProviderTypeId) : Option N :=
  r.types.find? id

def setProvider (r : Registry N) (p : Provider) : Registry N :=
  { r with mappings := r.mappings.insert p.project p }

def restoreProvider (r : Registry N) (project : ProjectName) (previous : Option Provider) :
    Registry N :=
  match previous with
  | some p => { r with mappings := r.mappings.insert project p }
  | none => { r with mappings := r.mappings.erase project }

def unmap (r : Registry N) (project : ProjectName) : Option Provider × Registry N :=
  (r.mappings.find? project, { r with mappings := r.mappings.erase project })

def providerFor (r : Registry N) (project : ProjectName) : Option Provider :=
  r.mappings.find? project

def providerOfType (r : Registry N) (project : ProjectName) (typeId : ProviderTypeId) :
    Option Provider :=
  (r.providerFor project).filter (·.typeId = typeId)

def resolve (r : Registry N) (resource : Resource) : Option Provider :=
  r.mappings.resolve resource

def projects (r : Registry N) : List ProjectName :=
  r.mappings.keys

def registerFactory (r : Registry N) (qualifier : String) (factory : N) : Registry N :=
  { r with factories := r.factories.insert qualifier factory }

def factoryFor? (r : Registry N) (id : SubscriberId) : Option N :=
  r.factories.find? id.qualifier

def enterSubscriber (r : Registry N) (s : Subscriber) : Registry N :=
  { r with subscribers := r.subscribers.insert s.id s }

def subscriber? (r : Registry N) (id : SubscriberId) : Option Subscriber :=
  r.subscribers.find? id

def allSubscribers (r : Registry N) : List Subscriber :=
  r.subscribers.values

def addListener (r : Registry N) (listener : N) : ListenerId × Registry N :=
  (r.nextListener,
    { r with
      listeners := r.listeners ++ [(r.nextListener, listener)]
      nextListener := r.nextListener + 1 })

def removeListener (r : Registry N) (id : ListenerId) : Bool × Registry N :=
  (r.listeners.any (·.1 = id), { r with listeners := r.listeners.filter (·.1 ≠ id) })

end Registry
end SharedWorkspace
