import SharedWorkspace.Registry.Run

/-!
Rehearsals with a registry: provider types, factories and listeners that follow a script, and a
record of what they see.
-/

namespace SharedWorkspace
namespace Rehearsal

inductive HookStep where
  | map (typeId : ProviderTypeId)
  | unmap

/--
What a listener does when it is told something for the first time. Listeners go by labels; a label
that is used again stands for the newer listener.
-/
inductive ListenStep where
  | remove (label : String)
  | add (label : String) (steps : List ListenStep)
  | lookup (id : SubscriberId)

inductive Agent where
  | type (steps : List HookStep) (outcome : Except Failure Unit)
  | factory (outcome : SubscriberId → Except Failure (Option Subscriber))
  | listener (number : Nat) (label : String) (steps : List ListenStep)

inductive Remark where
  | configuring (p : Provider) (current : Option Provider)
  | mapped (r : Except Failure Provider)
  | unmapped (p : Option Provider)
  | creating (id : SubscriberId)
  | heard (label : String) (id : SubscriberId)
  | removed (label : String) (found : Option Bool)
  | lookedUp (s : Option Subscriber)

structure Audience where
  remarks : Array Remark := #[]
  labels : List (String × ListenerId) := []
  told : List Nat := []
  count : Nat := 0

def audienceCalls : Interface where
  Call := Audience → Audience
  Answer := fun _ => Audience

def onAudience (f : audienceCalls.Call) : StateM Audience (audienceCalls.Answer f) :=
  modifyGet fun a => (a, f a)

abbrev Steps (α : Type) :=
  Registry.Program Agent audienceCalls α

def deal (c : Registry.Call Agent) : Steps c.Answer :=
  Registry.deal c

def touch (f : Audience → Audience) : Steps Audience :=
  Registry.callOutside (E := audienceCalls) f

def remark (r : Remark) : Steps Unit := do
  let _ ← touch fun a => { a with remarks := a.remarks.push r }
  return ()

def HookStep.run (project : ProjectName) : HookStep → Steps Unit
  | map typeId => do remark (.mapped (← deal (.map project typeId "nested" "nested")))
  | unmap => do remark (.unmapped (← deal (.unmap project)))

def addListener (label : String) (steps : List ListenStep) : Steps Unit := do
  let before ← touch fun a => { a with count := a.count + 1 }
  let id ← deal (.addListener (.listener before.count label steps))
  let _ ← touch fun a => { a with labels := (label, id) :: a.labels }
  return ()

def removeListener (label : String) : Steps (Option Bool) := do
  match (← touch id).labels.lookup label with
  | some id => return some (← deal (.removeListener id))
  | none => return none

def ListenStep.run : ListenStep → Steps Unit
  | remove label => do remark (.removed label (← removeListener label))
  | add label steps => addListener label steps
  | lookup id => do remark (.lookedUp (← deal (.subscriber id)))

def configure : Agent → Provider → Steps (Except Failure Unit)
  | .type steps outcome, p => do
    remark (.configuring p ((← deal .look).providerFor p.project))
    steps.forM (HookStep.run p.project)
    return outcome
  | _, _ => return .ok ()

def create : Agent → SubscriberId → Steps (Except Failure (Option Subscriber))
  | .factory outcome, id => do
    remark (.creating id)
    return outcome id
  | _, _ => return .ok none

def hear : Agent → SubscriberId → Steps Unit
  | .listener number label steps, id => do
    remark (.heard label id)
    let before ← touch fun a => { a with told := number :: a.told }
    if number ∈ before.told then
      return ()
    else
      steps.forM ListenStep.run
  | _, _ => return ()

def behaviour : Registry.Behaviour Agent audienceCalls where
  configure
  create
  hear

abbrev Company := Registry.World Agent Audience

def run {α : Type} (depth : Nat) (steps : Steps α) (w : Company) : Option (α × Company) :=
  (Registry.run behaviour onAudience depth steps).run w

end Rehearsal
end SharedWorkspace
