import SharedWorkspace.Proofs.Operation.Request

/-!
Surroundings in which nothing goes wrong: nobody wishes to stop, and a server does what it is asked.
Commands succeed there (`Sends.obeys_onBatch`).
-/

namespace SharedWorkspace

open Dialogue Activity

variable {E : Interface}

namespace Session

def Succeeds : Event calls → Prop
  | ⟨.connect _ _, opening⟩ => ∀ ws r, opening.Run ws r → ∃ session, r = .ok session
  | ⟨.opened _, _⟩ => True
  | ⟨.execute _ _, running⟩ => ∀ ws r, running.Run ws r → ∃ items, r = .ok ⟨.ok, items⟩
  | ⟨.close _, closed⟩ => closed = .ok ()

def SucceedsIn (view : Event E → Option (Event calls)) (e : Event E) : Prop :=
  ∀ s, view e = some s → Succeeds s

theorem succeedsIn_some : SucceedsIn some = Succeeds := by
  funext e
  simp [SucceedsIn]

end Session

namespace Activity

variable {K : Event E → Prop}

def Smooth (K : Event E → Prop) : Event (Progress.calls.sum E) → Prop
  | ⟨.inl .isCancelled, cancelled⟩ => cancelled = false
  | ⟨.inl _, _⟩ => True
  | ⟨.inr c, x⟩ => K ⟨c, x⟩

def smoothRules (K : Event E → Prop) : Rules (Progress.calls.sum E) Unit :=
  stateless (fun _ => True) (Smooth K)

theorem alike_smoothRules : Alike (smoothRules K) fun _ _ => True where
  allows _ _ := trivial
  refl _ := trivial
  beginTask := Iff.rfl
  setTaskName := Iff.rfl
  worked := Iff.rfl
  done := Iff.rfl

theorem obeys_call {α : Type} {c : (Progress.calls.sum E).Call}
    {f : (Progress.calls.sum E).Answer c → Activity E α} {Q : Unit → α → Prop}
    (h : ∀ x, Smooth K ⟨c, x⟩ → (f x).Obeys (smoothRules K) Q ())
    : (ask c result >>= f).Obeys (smoothRules K) Q () :=
  Obeys.bind ⟨trivial, fun x _ hx => h x hx⟩

end Activity

namespace Session

variable (location : RepositoryLocation) (root : RemoteFolder) (request : Request)

theorem obeys_connect_smooth
    : (connect location root).Obeys (smoothRules Succeeds) (fun _ r => ∃ session, r = .ok session)
        () := by
  unfold connect
  apply obeys_call
  rintro cancelled rfl
  apply obeys_call
  intro opening hopening
  apply Obeys.bind
  apply (obeys_ofWork_of_run (fun _ _ => trivial) hopening).mono
  rintro _ _ ⟨session, rfl⟩
  exact obeys_call fun _ _ => ⟨session, rfl⟩

theorem obeys_execute_smooth (session : SessionId)
    : (execute session request).Obeys (smoothRules Succeeds)
        (fun _ r => ∃ items, r = .ok ⟨.ok, items⟩) () := by
  unfold execute
  apply obeys_call
  rintro cancelled rfl
  apply obeys_call
  intro running hrunning
  exact obeys_ofWork_of_run (fun _ _ => trivial) hrunning

theorem obeys_exchange_smooth
    : (exchange location root request).Obeys (smoothRules Succeeds) (fun _ r => ∃ items, r = .ok items)
        () := by
  rw [exchange_eq]
  apply Obeys.bind
  apply (obeys_connect_smooth location root).mono
  rintro _ _ ⟨session, rfl⟩
  apply Obeys.bind
  apply (obeys_execute_smooth request session).mono
  rintro _ _ ⟨items, rfl⟩
  apply obeys_call
  intro closed hclosed
  obtain rfl : closed = .ok () := hclosed
  exact ⟨items, rfl⟩

end Session

namespace Operation

theorem obeys_commandBatch_smooth (p : Provider) (request : Request)
    : (commandBatch p request).Obeys (smoothRules Session.Succeeds) (fun _ r => r = .ok ()) () := by
  unfold commandBatch
  apply obeys_call
  intro _ _
  apply Obeys.bind
  apply (Session.obeys_exchange_smooth _ _ _).mono
  rintro _ _ ⟨items, rfl⟩
  exact obeys_call fun _ _ => rfl

theorem obeys_update_smooth (o : UpdateOptions) (p : Provider) (rs : List Resource) (recurse : Bool)
    : ((update o).executeBatch p rs recurse).Obeys (smoothRules (Session.SucceedsIn serverEvent?))
        (fun _ r => r = .ok ()) () := by
  unfold update
  apply obeys_call
  intro _ _
  apply Obeys.bind
  have hcommand : (share commandUnits (embed (fun c => Activity.perform (E := updateCalls) (.inl c))
      (runCommand p (o.request rs recurse)))).Obeys (smoothRules (Session.SucceedsIn serverEvent?))
        (fun _ r => ∃ items, r = .ok items) () := by
    apply obeys_share alike_smoothRules (fun _ _ _ h _ => h)
    apply obeys_embed _ _ _ (Session.obeys_exchange_smooth _ _ _)
    . intro _ _ _
      trivial
    . intro _ c _ _ h
      cases c <;> exact h
    . intro _ c _
      exact ⟨trivial, fun _ _ h => h _ rfl⟩
  apply hcommand.mono
  rintro _ _ ⟨items, rfl⟩
  apply Obeys.bind
  -- Whatever comes of a refresh, it does not count.
  apply (obeys_of_keeps (K := fun _ => True) (fun _ _ _ => trivial) (fun _ _ _ _ _ => trivial) _
    trivial).mono
  intro _ _ _
  exact obeys_call fun _ _ => rfl

theorem Sends.obeys_onBatch {op : Operation E} {view : Event E → Option (Event Session.calls)}
    {request : List Resource → Bool → Request} (hop : op.Sends view request) (p : Provider)
    (b : Batch) : (op.onBatch p b).Obeys (smoothRules (Session.SucceedsIn view))
        (fun _ r => r = .ok ()) () := by
  unfold onBatch
  cases hop with
  | update o =>
    cases b.kind with
    | nontraversed => rfl
    | _ => exact obeys_update_smooth o p b.resources _
  | commit message =>
    rw [Session.succeedsIn_some]
    cases b.kind with
    | nontraversed => rfl
    | _ => exact obeys_commandBatch_smooth p _
  | tag t =>
    rw [Session.succeedsIn_some]
    cases b.kind with
    | nontraversed => rfl
    | _ => exact obeys_commandBatch_smooth p _

end Operation
end SharedWorkspace
