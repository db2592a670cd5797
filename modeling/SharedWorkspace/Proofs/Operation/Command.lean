import SharedWorkspace.Operation.Command
import SharedWorkspace.Proofs.Remote.Session

/-!
What an update, a commit or a tag does in one batch, as seen from outside: it heeds the wish to stop, and
the sessions that are open afterwards are those that were open before (`IsCommand.obeys`).
-/

namespace SharedWorkspace
namespace Operation

open Dialogue Activity

/--
The operations that send commands to a server, and which of their calls have to do with sessions.
-/
inductive IsCommand : {E : Interface} → Operation E → (E.Call → Option Session.Call) → Prop where
  | update (o : UpdateOptions) : IsCommand (update o) Sum.getLeft?
  | commit (message : String) : IsCommand (commit message) some
  | tag (t : Tag) : IsCommand (tag t) some

variable {s : Watch} {S : List SessionId}

theorem obeys_runCommand (p : Provider) (request : Request) (h : s.sessions = S)
    : (runCommand p request).Obeys Session.rules (fun t _ => t.sessions = S) s :=
  Session.obeys_exchange _ _ _ h

theorem obeys_commandBatch (p : Provider) (request : Request) (h : s.sessions = S)
    : (commandBatch p request).Obeys Session.rules (fun t _ => t.sessions = S) s := by
  unfold commandBatch
  apply Obeys.bind
  refine ⟨trivial, ?_⟩
  intro _ t ht
  apply Obeys.bind
  apply (obeys_runCommand p request (ht.2.trans h)).mono
  intro u r hu
  cases r with
  | error e => exact hu
  | ok items =>
    apply Obeys.bind
    refine ⟨trivial, ?_⟩
    intro _ v hv
    exact hv.2.trans hu

abbrev updateRules : Rules (Progress.calls.sum updateCalls) Watch :=
  Watch.rules Sum.getLeft? (Watch.heedful Sum.getLeft?)

theorem obeys_onServer {α : Type} {d : RemoteWork α} {Q : Watch → α → Prop}
    (h : d.Obeys Session.rules Q s)
    : (embed (fun c => Activity.perform (E := updateCalls) (.inl c)) d).Obeys updateRules Q s := by
  apply obeys_embed _ _ _ h
  . intro s c _
    trivial
  . intro s c x t ht
    cases c <;> exact ht
  . intro s c hc
    exact ⟨hc, fun x t ht => ht⟩

theorem obeys_onCache {α : Type} (d : Activity RemoteCache.calls α) (h : s.sessions = S)
    : (embed (fun c => Activity.perform (E := updateCalls) (.inr c)) d).Obeys updateRules
        (fun t _ => t.sessions = S) s := by
  have hd : d.Obeys (Watch.rules (fun _ => none) fun _ _ => True) (fun t _ => t.sessions = S) s := by
    apply obeys_of_keeps (K := fun t : Watch => t.sessions = S) _ _ d h
    . intro s c _
      cases c <;> trivial
    . rintro s ⟨c, x⟩ t hs ht
      cases c with
      | inl c => exact (Watch.drifts_of_step_inl ht).2.trans hs
      | inr c => exact ht.2.trans hs
  apply obeys_embed _ _ _ hd
  . intro s c _
    trivial
  . intro s c x t ht
    cases c <;> exact ht
  . intro s c _
    exact ⟨trivial, fun x t ht => ht⟩

theorem obeys_update (o : UpdateOptions) (p : Provider) (rs : List Resource) (recurse : Bool)
    (h : s.sessions = S)
    : ((update o).executeBatch p rs recurse).Obeys updateRules (fun t _ => t.sessions = S) s := by
  have kept : ∀ {α : Type} (t : Watch) (_ : α) u, t.sessions = S → t.Drifts u → u.sessions = S := by
    intro α t _ u ht hu
    exact hu.2.trans ht
  unfold update
  dsimp
  apply Obeys.bind
  refine ⟨trivial, ?_⟩
  intro _ t ht
  have h := ht.2.trans h
  apply Obeys.bind
  apply (obeys_share Watch.alike_rules kept (obeys_onServer (obeys_runCommand p _ h))).mono
  intro u r hu
  cases r with
  | error e => exact hu
  | ok items =>
    apply Obeys.bind
    have hrefresh : (share commandUnits
        (if o.refreshCache then
          embed (fun c => Activity.perform (E := updateCalls) (.inr c))
            (RemoteCache.refreshAfterUpdate p rs)
        else pure ())).Obeys updateRules (fun t _ => t.sessions = S) u := by
      apply obeys_share Watch.alike_rules kept
      split
      . exact obeys_onCache _ hu
      . exact hu
    apply hrefresh.mono
    intro v _ hv
    apply Obeys.bind
    refine ⟨trivial, ?_⟩
    intro _ w hw
    exact hw.2.trans hv

theorem IsCommand.obeys {E : Interface} {op : Operation E} {view : E.Call → Option Session.Call}
    (hop : IsCommand op view) (p : Provider) (b : Batch) (h : s.sessions = S)
    : (op.onBatch p b).Obeys (Watch.rules view (Watch.heedful view)) (fun t _ => t.sessions = S)
        s := by
  unfold onBatch
  cases hop with
  | update o =>
    cases b.kind with
    | deep => exact obeys_update o p b.resources true h
    | shallow => exact obeys_update o p b.resources false h
    | nontraversed => exact h
  | commit message =>
    cases b.kind with
    | nontraversed => exact h
    | _ => exact obeys_commandBatch p _ h
  | tag t =>
    cases b.kind with
    | nontraversed => exact h
    | _ => exact obeys_commandBatch p _ h

end Operation
end SharedWorkspace
