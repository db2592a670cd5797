import SharedWorkspace.Dialogue
import SharedWorkspace.Registry.Basic

/-!
Dealing with a registry. To map a project, to look up a subscriber and to register one may call back
on provider types, factories and listeners, which may deal with the registry in turn. The registry
is changed before it calls back, and whom it will call is settled beforehand.
-/

namespace SharedWorkspace
namespace Registry

inductive Call (N : Type) where
  | look
  | registerType (id : ProviderTypeId) (type : N)
  | map (project : ProjectName) (typeId : ProviderTypeId) (location : RepositoryLocation)
      (rootPath : String)
  | unmap (project : ProjectName)
  | registerFactory (qualifier : String) (factory : N)
  | registerSubscriber (s : Subscriber)
  | subscriber (id : SubscriberId)
  | addListener (listener : N)
  | removeListener (id : ListenerId)

@[reducible]
def Call.Answer {N : Type} : Call N → Type
  | look => Registry N
  | registerType _ _ => Unit
  | map _ _ _ _ => Except Failure Provider
  | unmap _ => Option Provider
  | registerFactory _ _ => Unit
  | registerSubscriber _ => Unit
  | subscriber _ => Option Subscriber
  | addListener _ => ListenerId
  | removeListener _ => Bool

def calls (N : Type) : Interface where
  Call := Call N
  Answer := Call.Answer

abbrev Program (N : Type) (E : Interface) (α : Type) :=
  Dialogue ((calls N).sum E) α

def deal {N : Type} {E : Interface} (c : Call N) : Program N E c.Answer :=
  .ask (.inl c) .result

def callOutside {N : Type} {E : Interface} (c : E.Call) : Program N E (E.Answer c) :=
  .ask (.inr c) .result

structure Behaviour (N : Type) (E : Interface) where
  configure : N → Provider → Program N E (Except Failure Unit)
  create : N → SubscriberId → Program N E (Except Failure (Option Subscriber))
  hear : N → SubscriberId → Program N E Unit

inductive Deed where
  | asked (qualifier : String) (id : SubscriberId)
  | announced (id : SubscriberId) (listeners : List ListenerId)
  | told (listener : ListenerId) (id : SubscriberId)
  | delivered (id : SubscriberId)
  deriving DecidableEq

/--
A registry and what surrounds it, with a journal of what the registry did, the latest last.
-/
structure World (N σ : Type) where
  registry : Registry N
  surroundings : σ
  journal : List Deed := []

variable {N σ α : Type} {E : Interface}

/--
Changes of the world. They may come to no end, if callbacks are nested too deeply.
-/
abbrev Change (N σ : Type) :=
  StateT (World N σ) Option

namespace World

def note (deed : Deed) : Change N σ Unit :=
  modify fun w => { w with journal := w.journal ++ [deed] }

def change (f : Registry N → α × Registry N) : Change N σ α :=
  modifyGet fun w => ((f w.registry).1, { w with registry := (f w.registry).2 })

end World

abbrev Handler (N σ : Type) (E : Interface) :=
  (c : ((calls N).sum E).Call) → Change N σ (((calls N).sum E).Answer c)

def performMap (b : Behaviour N E) (inner : Handler N σ E) (p : Provider) :
    Change N σ (Except Failure Provider) := do
  let r := (← get).registry
  match r.providerType? p.typeId with
  | none => return .error (.unknownProviderType p.typeId)
  | some type =>
    let previous := r.providerFor p.project
    World.change fun r => ((), r.setProvider p)
    match ← (b.configure type p).runM inner with
    | .ok () => return .ok p
    | .error e =>
      World.change fun r => ((), r.restoreProvider p.project previous)
      return .error (.configure p.project e)

def tell (b : Behaviour N E) (inner : Handler N σ E) (id : SubscriberId) :
    List (ListenerId × N) → Change N σ Unit
  | [] => return ()
  | (listener, n) :: rest => do
    World.note (.told listener id)
    (b.hear n id).runM inner
    tell b inner id rest

def performRegister (b : Behaviour N E) (inner : Handler N σ E) (s : Subscriber) :
    Change N σ Unit := do
  World.change fun r => ((), r.enterSubscriber s)
  let listeners := (← get).registry.listeners
  World.note (.announced s.id (listeners.map Prod.fst))
  tell b inner s.id listeners
  World.note (.delivered s.id)

/--
Look up a subscriber. One that is not there is created, if someone is able to, and registered under
the name that it has then.
-/
def performLookup (b : Behaviour N E) (inner : Handler N σ E) (id : SubscriberId) :
    Change N σ (Option Subscriber) := do
  let r := (← get).registry
  match r.subscriber? id with
  | some s => return some s
  | none =>
    match r.factoryFor? id with
    | none => return none
    | some factory =>
      World.note (.asked id.qualifier id)
      match ← (b.create factory id).runM inner with
      | .ok (some s) =>
        performRegister b inner s
        return some s
      | .ok none => return none
      | .error _ => return none

def performWith (b : Behaviour N E) (inner : Handler N σ E)
    (outside : (c : E.Call) → StateM σ (E.Answer c)) : Handler N σ E
  | .inr c => modifyGet fun w =>
      ((outside c w.surroundings).1, { w with surroundings := (outside c w.surroundings).2 })
  | .inl .look => do return (← get).registry
  | .inl (.registerType id type) => World.change fun r => ((), r.registerType id type)
  | .inl (.map project typeId location rootPath) =>
      performMap b inner { typeId, project, location, rootPath }
  | .inl (.unmap project) => World.change fun r => r.unmap project
  | .inl (.registerFactory qualifier factory) =>
      World.change fun r => ((), r.registerFactory qualifier factory)
  | .inl (.registerSubscriber s) => performRegister b inner s
  | .inl (.subscriber id) => performLookup b inner id
  | .inl (.addListener listener) => World.change fun r => r.addListener listener
  | .inl (.removeListener id) => World.change fun r => r.removeListener id

/--
Perform one call with callbacks that are nested less than `depth` levels deep.
-/
def perform (b : Behaviour N E) (outside : (c : E.Call) → StateM σ (E.Answer c)) :
    (depth : Nat) → Handler N σ E
  | 0 => fun _ => failure
  | depth + 1 => performWith b (perform b outside depth) outside

def run (b : Behaviour N E) (outside : (c : E.Call) → StateM σ (E.Answer c)) (depth : Nat)
    (p : Program N E α) : Change N σ α :=
  p.runM (perform b outside depth)

end Registry
end SharedWorkspace
