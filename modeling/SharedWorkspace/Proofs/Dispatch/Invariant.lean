import SharedWorkspace.Dispatch.Execute
import SharedWorkspace.Proofs.Progress.Activity

/-!
Invariants of dispatches. A dispatch in surroundings with a state is taken apart once: `obeys_execute`
leaves to prove what single calls do to what holds between providers and within the scope of one.
-/

namespace SharedWorkspace
namespace Dispatch

open Dialogue Activity

variable {E : Interface} {σ : Type}

/--
What holds of the surroundings in the course of a dispatch: `free` between providers, `within p` in the
scope of `p`, `ready p` there, right after the answer that nobody wishes to stop, and `inside p` at the end
of a callback for `p`, which need not be told apart.
-/
structure Invariant (R : Rules (Progress.calls.sum (calls E)) σ) (op : Operation E) where
  drift : σ → σ → Prop
  alike : Alike R drift
  free : σ → Prop
  within : Provider → σ → Prop
  ready : Provider → σ → Prop
  inside : Provider → σ → Prop := within
  drift_free : ∀ {s t}, drift s t → free s → free t
  drift_within : ∀ {p s t}, drift s t → within p s → within p t
  poll_free : ∀ {s b t}, free s → R.step s ⟨.inl .isCancelled, b⟩ t → free t
  poll_within : ∀ {p s b t}, within p s → R.step s ⟨.inl .isCancelled, b⟩ t → within p t
  poll_ready : ∀ {p s t}, within p s → R.step s ⟨.inl .isCancelled, false⟩ t → ready p t
  turn : ∀ {p s}, free s → R.allows s (.inr (.turn p)) ∧
    ∀ x t, R.step s ⟨.inr (.turn p), x⟩ t → free t
  acquire : ∀ {p s}, free s → R.allows s (.inr (.acquire (op.scope p))) ∧
    (∀ t, R.step s ⟨.inr (.acquire (op.scope p)), true⟩ t → within p t) ∧
    ∀ t, R.step s ⟨.inr (.acquire (op.scope p)), false⟩ t → free t
  started : ∀ {p b s}, ready p s → R.allows s (.inr (.started p b)) ∧
    ∀ x t, R.step s ⟨.inr (.started p b), x⟩ t →
      (ofOperation (op.onBatch p b)).Obeys R (fun u _ => inside p u) t
  finished : ∀ {p b r s}, inside p s → R.allows s (.inr (.finished p b r)) ∧
    ∀ x t, R.step s ⟨.inr (.finished p b r), x⟩ t → within p t
  release : ∀ {p s}, within p s → R.allows s (.inr (.release (op.scope p))) ∧
    ∀ x t, R.step s ⟨.inr (.release (op.scope p)), x⟩ t → free t

namespace Invariant

variable {R : Rules (Progress.calls.sum (calls E)) σ} {op : Operation E} (I : Invariant R op)
variable {s : σ}

theorem obeys_runBatch {p : Provider} (b : Batch) (h : I.within p s)
    : (runBatch op p b).Obeys R (fun t _ => I.within p t) s := by
  unfold runBatch
  apply Obeys.bind
  refine ⟨I.alike.allows _ _, ?_⟩
  intro cancelled t ht
  cases cancelled with
  | true => exact I.poll_within h ht
  | false =>
    apply obeys_share I.alike
    . intro t _ u ht hu
      exact I.drift_within hu ht
    . apply Obeys.bind
      -- Nothing lies between the answer and the start of the callback: a new share reports nothing.
      obtain ⟨hallowed, hstarted⟩ := I.started (b := b) (I.poll_ready h ht)
      refine ⟨hallowed, ?_⟩
      intro x u hu
      apply Obeys.bind
      apply (hstarted x u hu).mono
      intro v r hv
      apply Obeys.bind
      exact I.finished hv

theorem obeys_runBatches {p : Provider} (bs : List Batch) (h : I.within p s)
    : (runBatches op p bs).Obeys R (fun t _ => I.within p t) s := by
  induction bs generalizing s with
  | nil => exact h
  | cons b rest ih =>
    unfold runBatches
    apply Obeys.bind
    apply (I.obeys_runBatch b h).mono
    intro t r ht
    cases r with
    | error e => exact ht
    | ok =>
      apply Obeys.bind
      exact ih ht

theorem obeys_runProvider (run : ProviderRun) (h : I.free s)
    : (runProvider op run).Obeys R (fun t _ => I.free t) s := by
  unfold runProvider
  apply Obeys.bind
  refine ⟨I.alike.allows _ _, ?_⟩
  intro _ t ht
  have h := I.drift_free (I.alike.beginTask.1 ht) h
  apply Obeys.bind
  refine ⟨I.alike.allows _ _, ?_⟩
  intro _ u hu
  have h := I.drift_free (I.alike.setTaskName.1 hu) h
  apply Obeys.bind
  obtain ⟨hallowed, hgranted, hrefused⟩ := I.acquire (p := run.provider) h
  refine ⟨hallowed, ?_⟩
  intro granted v hv
  cases granted with
  | false => exact hrefused v hv
  | true =>
    apply Obeys.bind
    apply (I.obeys_runBatches run.batches (hgranted v hv)).mono
    intro w r hw
    apply Obeys.bind
    obtain ⟨hallowed, hreleased⟩ := I.release hw
    refine ⟨hallowed, ?_⟩
    intro x w' hw'
    apply Obeys.bind
    refine ⟨I.alike.allows _ _, ?_⟩
    intro _ w'' hw''
    exact I.drift_free (I.alike.done.1 hw'') (hreleased x w' hw')

theorem obeys_runProviders (budget : Nat) (runs : List ProviderRun) (h : I.free s)
    : (runProviders op budget runs).Obeys R (fun t _ => I.free t) s := by
  induction runs generalizing s with
  | nil => exact h
  | cons run rest ih =>
    unfold runProviders
    apply Obeys.bind
    refine ⟨I.alike.allows _ _, ?_⟩
    intro cancelled t ht
    have h := I.poll_free h ht
    cases cancelled with
    | true => exact h
    | false =>
      apply Obeys.bind
      obtain ⟨hallowed, hturn⟩ := I.turn (p := run.provider) h
      refine ⟨hallowed, ?_⟩
      intro x u hu
      have hkept : ∀ t (_ : Except Failure ProviderRun) v, I.free t → I.drift t v → I.free v := by
        intro t _ v ht hv
        exact I.drift_free hv ht
      apply Obeys.bind
      apply (obeys_share I.alike hkept (I.obeys_runProvider run (hturn x u hu))).mono
      intro v r hv
      cases r with
      | error e => exact hv
      | ok ran =>
        apply Obeys.bind
        exact ih hv

theorem obeys_execute (c : DispatchConfig) (g : Groups) (h : I.free s)
    : (execute c op g).Obeys R (fun t _ => I.free t) s := by
  unfold execute
  apply Obeys.bind
  refine ⟨I.alike.allows _ _, ?_⟩
  intro _ t ht
  apply Obeys.bind
  apply (I.obeys_runProviders _ _ (I.drift_free (I.alike.beginTask.1 ht) h)).mono
  intro u r hu
  apply Obeys.bind
  refine ⟨I.alike.allows _ _, ?_⟩
  intro _ v hv
  exact I.drift_free (I.alike.done.1 hv) hu

end Invariant
end Dispatch
end SharedWorkspace
