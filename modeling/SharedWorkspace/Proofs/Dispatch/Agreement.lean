import SharedWorkspace.Proofs.Dispatch.Commands
import SharedWorkspace.Proofs.Progress.Agreement

/-!
Dispatches of two operations of which an onlooker sees the same. If he cannot tell apart what they do with
a batch he cannot tell the dispatches apart, nor can the one who asked for them (`agree_execute`).
-/

namespace SharedWorkspace

open Dialogue Activity

variable {I E : Interface} {o : Onlooker I E} {script : Script I} {op op' : Operation E}

def Activity.Onlooker.onDispatch (o : Onlooker I E) : Onlooker I (Dispatch.calls E) where
  view e := (Dispatch.operation? e).bind o.view
  tame
    | ⟨.acquire _, granted⟩ => granted = true
    | ⟨.ofOperation c, x⟩ => o.tame ⟨c, x⟩
    | _ => True

structure Operation.Agree (o : Onlooker I E) (script : Script I) (op op' : Operation E) : Prop where
  name : op.name = op'.name
  taskName : op.taskName = op'.taskName
  scope : op.scope = op'.scope
  onBatch : ∀ p b, Activity.Agree o script (op.onBatch p b) (op'.onBatch p b)

namespace Dispatch

theorem agree_call {α : Type} {c : (calls E).Call} {f f' : (calls E).Answer c → Activity (calls E) α}
    (h : ∃ x, (∀ y, o.onDispatch.tame ⟨c, y⟩ → y = x) ∧
      Activity.Agree o.onDispatch script (f x) (f' x))
    : Activity.Agree o.onDispatch script (Activity.perform c >>= f) (Activity.perform c >>= f') := by
  obtain ⟨x, hx, hf⟩ := h
  apply agree_ask
  intro past
  exact ⟨x, fun y hcalm => hx y (hcalm.tame _ List.mem_cons_self), hf⟩

variable (h : op.Agree o script op')
include h

theorem agree_runBatch (p : Provider) (b : Batch)
    : Activity.Agree o.onDispatch script (runBatch op p b) (runBatch op' p b) := by
  unfold runBatch
  apply agree_report
  apply Activity.Agree.share
  apply agree_call
  refine ⟨(), fun _ _ => rfl, ?_⟩
  apply Activity.Agree.bind
  . apply (h.onBatch p b).embed (g := Callback.ofOperation)
    . exact fun c es x hr => run_perform hr
    . exact fun _ => rfl
    . exact fun _ he => he
  . exact fun result => agree_call ⟨(), fun _ _ => rfl, agree_result result⟩

theorem agree_runBatches (p : Provider) (bs : List Batch)
    : Activity.Agree o.onDispatch script (runBatches op p bs) (runBatches op' p bs) := by
  induction bs with
  | nil => exact agree_result _
  | cons b rest ih =>
    unfold runBatches
    apply (agree_runBatch h p b).bind
    rintro (e | _)
    . exact agree_result _
    . exact ih.bind fun _ => agree_result _

theorem agree_runProvider (run : ProviderRun)
    : Activity.Agree o.onDispatch script (runProvider op run) (runProvider op' run) := by
  unfold runProvider
  rw [h.taskName, h.scope]
  apply agree_report
  apply agree_report
  apply agree_call
  refine ⟨true, fun _ hgranted => hgranted, ?_⟩
  apply (agree_runBatches h _ _).bind
  intro ran
  apply agree_call
  refine ⟨(), fun _ _ => rfl, ?_⟩
  exact agree_report (agree_result _)

theorem agree_runProviders (budget : Nat) (runs : List ProviderRun)
    : Activity.Agree o.onDispatch script (runProviders op budget runs)
        (runProviders op' budget runs) := by
  induction runs with
  | nil => exact agree_result _
  | cons run rest ih =>
    unfold runProviders
    apply agree_report
    apply agree_call
    refine ⟨(), fun _ _ => rfl, ?_⟩
    apply ((agree_runProvider h run).share budget).bind
    rintro (e | ran)
    . exact agree_result _
    . exact ih.bind fun _ => agree_result _

theorem agree_execute (c : DispatchConfig) (g : Groups)
    : Activity.Agree o.onDispatch script (execute c op g) (execute c op' g) := by
  unfold execute
  rw [h.name]
  apply agree_report
  apply (agree_runProviders h _ _).bind
  intro report
  exact agree_report (agree_result report)

end Dispatch
end SharedWorkspace
