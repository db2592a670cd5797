import SharedWorkspace.Proofs.Dispatch.Execute
import SharedWorkspace.Proofs.Dispatch.Invariant
import SharedWorkspace.Proofs.Scope.Wait

/-!
The scopes that a dispatch holds. The main statement is `execute_holds`: a batch runs while the scope of
its provider is held besides those that were held before, and in the end all is as it was, however the
dispatch ends.
-/

namespace SharedWorkspace
namespace Dispatch

open Dialogue Activity

variable {E : Interface}

/--
What an event does to the table of scopes, which nobody but the dispatch touches meanwhile.
-/
def lockStep (t : LockTable) : Event (Progress.calls.sum (calls E)) → LockTable → Prop
  | ⟨.inr (.acquire scope), true⟩, u => ∃ answers, t.Wait scope answers (.ok u)
  | ⟨.inr (.acquire scope), false⟩, u => (∃ answers e, t.Wait scope answers (.error e)) ∧ u = t
  | ⟨.inr (.release scope), _⟩, u => u = t.release scope
  | _, u => u = t

def HoldsBesides (entry : LockTable) (scope : ScopeKey) (t : LockTable) : Prop :=
  scope ∉ entry.held ∧ ∀ s, s ∈ t.held ↔ s = scope ∨ s ∈ entry.held

def lockRules (op : Operation E) (entry : LockTable)
    : Rules (Progress.calls.sum (calls E)) LockTable where
  allows t
    | .inr (.started p _) | .inr (.finished p _ _) => HoldsBesides entry (op.scope p) t
    | _ => True
  step := lockStep

theorem holdsBesides_of_hold? {entry t : LockTable} {scope : ScopeKey}
    (h : entry.hold? scope = some t) : HoldsBesides entry scope t := by
  constructor
  . rw [← LockTable.hold?_eq_none_iff, h]
    nofun
  . intro s
    rw [LockTable.held_of_hold? h]
    exact List.mem_cons

theorem obeys_ofOperation_lockRules {op : Operation E} {entry t : LockTable} {α : Type}
    (d : Activity E α) : (ofOperation d).Obeys (lockRules op entry) (fun u _ => u = t) t := by
  have hd : d.Obeys ⟨fun _ _ => True, fun s _ u => u = s⟩ (fun u _ => u = t) t := by
    apply obeys_of_keeps
    . intro s c _
      trivial
    . rintro s e u hs rfl
      exact hs
    . rfl
  apply obeys_embed _ _ _ hd
  . intro s c _
    trivial
  . intro s c x u hu
    cases c <;> exact hu
  . intro s c _
    exact ⟨trivial, fun x u hu => hu⟩

def scopesHeld (op : Operation E) (entry : LockTable) : Invariant (lockRules op entry) op where
  drift s t := t = s
  alike :=
    { allows := fun _ _ => trivial
      refl := fun _ => rfl
      beginTask := Iff.rfl
      setTaskName := Iff.rfl
      worked := Iff.rfl
      done := Iff.rfl }
  free t := t = entry
  within p t := entry.hold? (op.scope p) = some t
  ready p t := entry.hold? (op.scope p) = some t
  drift_free := by
    rintro s t rfl h
    exact h
  drift_within := by
    rintro p s t rfl h
    exact h
  poll_free := by
    rintro s b t h rfl
    exact h
  poll_within := by
    rintro p s b t h rfl
    exact h
  poll_ready := by
    rintro p s t h rfl
    exact h
  turn := by
    rintro p s h
    refine ⟨trivial, ?_⟩
    rintro x t rfl
    exact h
  acquire := by
    rintro p s rfl
    refine ⟨trivial, ?_, ?_⟩
    . rintro t ⟨answers, hw⟩
      exact hw.hold?_of_ok
    . rintro t ⟨_, rfl⟩
      rfl
  started := by
    rintro p b s h
    refine ⟨holdsBesides_of_hold? h, ?_⟩
    rintro x t rfl
    apply (obeys_ofOperation_lockRules _).mono
    rintro u r rfl
    exact h
  finished := by
    rintro p b r s h
    refine ⟨holdsBesides_of_hold? h, ?_⟩
    rintro x t rfl
    exact h
  release := by
    rintro p s h
    refine ⟨trivial, ?_⟩
    rintro x t rfl
    exact LockTable.release_of_hold? h

/--
Whenever a callback is under way, the scope of its provider is held besides those that were held when
the dispatch started. It was none of these, and when the dispatch ends these alone are held again.
-/
theorem execute_holds (c : DispatchConfig) (op : Operation E) (g : Groups) {t u : LockTable}
    {es : List (LockTable × Event (Progress.calls.sum (calls E)))}
    {r : Except Failure DispatchReport} (h : (execute c op g).Run (es.map Prod.snd) r)
    (ht : Timeline lockStep t es u)
    : (∀ v p b, (v, ⟨.inr (.started p b), ()⟩) ∈ es → HoldsBesides t (op.scope p) v) ∧
        (∀ v p b result, (v, ⟨.inr (.finished p b result), ()⟩) ∈ es →
          HoldsBesides t (op.scope p) v) ∧
        (∀ p, op.scope p ∈ t.held → ∀ v b, (v, ⟨.inr (.started p b), ()⟩) ∉ es) ∧
        u.held = t.held := by
  have hobeys := (scopesHeld op t).obeys_execute c g rfl
  obtain ⟨hall, hend⟩ := hobeys.of_run h ht
  have hstarted : ∀ v p b, (v, ⟨.inr (.started p b), ()⟩) ∈ es →
      HoldsBesides t (op.scope p) v := by
    intro v p b hm
    exact hall _ hm
  refine ⟨hstarted, ?_, ?_, congrArg _ hend⟩
  . intro v p b result hm
    exact hall _ hm
  . intro p hp v b hm
    exact (hstarted v p b hm).1 hp

section Acquire

variable {σ : Type} {ask : σ → Bool × σ} {t u : LockTable} {scope : ScopeKey} {patience : Nat} {s s' : σ}

theorem lockStep_of_acquire_ok (h : t.acquire ask scope patience s = (some (.ok u), s'))
    : lockStep (E := E) t ⟨.inr (.acquire scope), true⟩ u := by
  obtain ⟨answers, -, hw⟩ := LockTable.exists_wait_of_acquire h
  exact ⟨answers, hw⟩

theorem lockStep_of_acquire_error {e : Failure} (h : t.acquire ask scope patience s = (some (.error e), s'))
    : lockStep (E := E) t ⟨.inr (.acquire scope), false⟩ t := by
  obtain ⟨answers, -, hw⟩ := LockTable.exists_wait_of_acquire h
  exact ⟨⟨answers, e, hw⟩, rfl⟩

end Acquire

theorem lockStep_untroubled (answer : (c : E.Call) → E.Answer c) (t : LockTable)
    (c : (Progress.calls.sum (calls E)).Call)
    : lockStep t ⟨c, (untroubled answer t c).1⟩ (untroubled answer t c).2 := by
  cases c with
  | inl c => cases c <;> rfl
  | inr c =>
    cases c with
    | acquire scope =>
      unfold untroubled
      dsimp
      split
      . next u hu =>
        have h : t.acquire (fun s => (false, s)) scope 1 () = (some (.ok u), ()) :=
          LockTable.acquire_of_hold? rfl hu 0
        exact lockStep_of_acquire_ok h
      . have h : t.acquire (fun s => (true, s)) scope 1 () = (some (.error .cancelled), ()) :=
          LockTable.acquire_of_cancelled rfl 0
        exact lockStep_of_acquire_error h
    | _ => rfl

/--
Two providers that work in the same scope, while another scope is held by somebody else.
-/
theorem execute_holds_shared
    : let notes : Provider := ⟨"git", "notes", "host", "/"⟩
      let website : Provider := ⟨"git", "website", "host", "/"⟩
      let g := Groups.ofTraversals (OrderedMap.insert (.insert .empty "notes" notes) "website" website)
        [⟨[.ofProject "notes", .ofProject "website"], .fullSubtree⟩]
      let op : Operation .empty :=
        { name := "visit"
          taskName := Provider.display
          scope := fun _ => "repository"
          executeBatch := fun _ _ _ => return .ok () }
      let t : LockTable := ⟨["backup"], by decide⟩
      let es := (execute {} op g).eventsIn (untroubled fun (c : Empty) => c.elim) t
      let started := es.filterMap fun
        | (v, ⟨.inr (.started p _), _⟩) => some (p, v.held)
        | _ => none
      started = [(notes, ["repository", "backup"]), (website, ["repository", "backup"])] ∧
        (∀ v p b, (v, ⟨.inr (.started p b), ()⟩) ∈ es → HoldsBesides t (op.scope p) v) ∧
        (∀ v p b result, (v, ⟨.inr (.finished p b result), ()⟩) ∈ es →
          HoldsBesides t (op.scope p) v) ∧
        (∀ p, op.scope p ∈ t.held → ∀ v b, (v, ⟨.inr (.started p b), ()⟩) ∉ es) ∧
        ((execute {} op g).endIn (untroubled fun (c : Empty) => c.elim) t).held = t.held := by
  intro notes website g op t es started
  refine ⟨by decide +kernel, ?_⟩
  apply execute_holds {} op g
  . apply run_in
  . apply timeline_in
    apply lockStep_untroubled

end Dispatch
end SharedWorkspace
