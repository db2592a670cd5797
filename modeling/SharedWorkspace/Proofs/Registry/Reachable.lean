import SharedWorkspace.Proofs.Registry.Tracking

/-!
The registries that dealings can lead to, also those that are only met by provider types, factories
and listeners while they are called back. `run_reachable` says that no program leaves them, and
`Reachable.project_eq` that in all of them the provider of a project is a provider of that project.
-/

namespace SharedWorkspace
namespace Registry

variable {N : Type}

/--
The registries that come about by single changes. What a project gets back when it is refused may be
what it had in any registry before.
-/
inductive Reachable : Registry N → Prop where
  | empty : Reachable {}
  | registerType {r : Registry N} (h : Reachable r) (id : ProviderTypeId) (type : N)
      : Reachable (r.registerType id type)
  | setProvider {r : Registry N} (h : Reachable r) (p : Provider) : Reachable (r.setProvider p)
  | restoreProvider {r before : Registry N} (h : Reachable r) (h' : Reachable before)
      (project : ProjectName)
      : Reachable (r.restoreProvider project (before.providerFor project))
  | unmap {r : Registry N} (h : Reachable r) (project : ProjectName) : Reachable (r.unmap project).2
  | registerFactory {r : Registry N} (h : Reachable r) (qualifier : String) (factory : N)
      : Reachable (r.registerFactory qualifier factory)
  | enterSubscriber {r : Registry N} (h : Reachable r) (s : Subscriber)
      : Reachable (r.enterSubscriber s)
  | addListener {r : Registry N} (h : Reachable r) (listener : N)
      : Reachable (r.addListener listener).2
  | removeListener {r : Registry N} (h : Reachable r) (id : ListenerId)
      : Reachable (r.removeListener id).2

theorem Reachable.project_eq {r : Registry N} (h : r.Reachable) {project : ProjectName}
    {p : Provider} (hp : r.providerFor project = some p) : p.project = project := by
  unfold providerFor at hp
  induction h generalizing project p with
  | empty => simp at hp
  | setProvider _ q ih =>
    rw [Registry.setProvider, OrderedMap.find?_insert] at hp
    split at hp
    . next hq =>
      rw [← Option.some.inj hp]
      exact (Std.LawfulEqCmp.eq_of_compare hq).symm
    . exact ih hp
  | restoreProvider _ _ q ih ih' =>
    unfold Registry.restoreProvider providerFor at hp
    split at hp
    . next hbefore =>
      rw [OrderedMap.find?_insert] at hp
      split at hp
      . next hq =>
        rw [← Option.some.inj hp, Std.LawfulEqCmp.eq_of_compare hq]
        exact ih' hbefore
      . exact ih hp
    . rw [OrderedMap.find?_erase] at hp
      split at hp
      . contradiction
      . exact ih hp
  | unmap _ q ih =>
    rw [Registry.unmap, OrderedMap.find?_erase] at hp
    split at hp
    . contradiction
    . exact ih hp
  | registerType _ _ _ ih => exact ih hp
  | registerFactory _ _ _ ih => exact ih hp
  | enterSubscriber _ _ ih => exact ih hp
  | addListener _ _ ih => exact ih hp
  | removeListener _ _ ih => exact ih hp

variable {σ α : Type} {E : Interface}

def KeepsReachable (c : Change N σ α) : Prop :=
  ∀ w a w', c w = some (a, w') → w.registry.Reachable → w'.registry.Reachable

theorem lasting_reachable : Lasting fun r r' : Registry N => r.Reachable → r'.Reachable :=
  ⟨fun _ => id, fun h h' hr => h' (h hr)⟩

theorem leads_reachable (c : Call N) : c.Leads fun r r' => r.Reachable → r'.Reachable := by
  cases c with
  | look => trivial
  | registerType id type => exact fun _ hr => hr.registerType id type
  -- What is restored upon a refusal comes from the registry before the call.
  | map project => exact ⟨fun _ hr => hr.setProvider _, fun _ _ h hr => (h hr).restoreProvider hr project⟩
  | unmap project => exact fun _ hr => hr.unmap project
  | registerFactory q f => exact fun _ hr => hr.registerFactory q f
  | registerSubscriber => exact fun _ s hr => hr.enterSubscriber s
  | subscriber => exact fun _ s hr => hr.enterSubscriber s
  | addListener l => exact fun _ hr => hr.addListener l
  | removeListener id => exact fun _ hr => hr.removeListener id

theorem run_reachable (b : Behaviour N E) (outside : (c : E.Call) → StateM σ (E.Answer c)) (depth : Nat)
    (p : Program N E α) : KeepsReachable (run b outside depth p) := by
  have hperform := tracks_perform lasting_reachable leads_reachable b outside depth 0
  have hp := Dialogue.within_of_forall (M := fun _ => True) (fun _ => trivial) p
  intro w a w' h
  exact (Tracks.runM lasting_reachable (fun c _ => hperform c) hp w a w' h).2

end Registry
end SharedWorkspace
