import SharedWorkspace.Dialogue

/-!
What running work may tell the one who asked for it, and what it may ask: the calls of a progress
monitor. `Activity E α` is work that reports its progress and makes the calls of `E` besides;
`Work α` only reports.
-/

namespace SharedWorkspace
namespace Progress

/--
The calls of a progress monitor. `cancel` stands for the request to stop, which may come at any
moment, also from within the work that is running.
-/
inductive Call where
  | beginTask (name : String) (total : Nat)
  | setTaskName (name : String)
  | worked (units : Nat)
  | done
  | isCancelled
  | cancel
  deriving DecidableEq

@[reducible]
def Call.Answer : Call → Type
  | .isCancelled => Bool
  | _ => Unit

def calls : Interface where
  Call := Call
  Answer := Call.Answer

end Progress

abbrev Activity (E : Interface) (α : Type) :=
  Dialogue (Progress.calls.sum E) α

abbrev Work (α : Type) :=
  Activity .empty α

namespace Activity

variable {E : Interface} {α : Type}

def beginTask (name : String) (total : Nat) : Activity E Unit :=
  .ask (.inl (.beginTask name total)) .result

def setTaskName (name : String) : Activity E Unit :=
  .ask (.inl (.setTaskName name)) .result

def worked (units : Nat) : Activity E Unit :=
  .ask (.inl (.worked units)) .result

def done : Activity E Unit :=
  .ask (.inl .done) .result

def isCancelled : Activity E Bool :=
  .ask (.inl .isCancelled) .result

def cancel : Activity E Unit :=
  .ask (.inl .cancel) .result

def perform (c : E.Call) : Activity E (E.Answer c) :=
  .ask (.inr c) .result

def embed.onCall {F : Interface} (f : (c : E.Call) → Activity F (E.Answer c)) :
    (c : (Progress.calls.sum E).Call) → Activity F ((Progress.calls.sum E).Answer c)
  | .inl c => .ask (.inl c) .result
  | .inr c => f c

def embed {F : Interface} (f : (c : E.Call) → Activity F (E.Answer c)) (a : Activity E α) :
    Activity F α :=
  a.translate (embed.onCall f)

def ofWork (w : Work α) : Activity E α :=
  embed (fun (c : Empty) => c.elim) w

end Activity
end SharedWorkspace
