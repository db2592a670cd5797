import SharedWorkspace.Proofs.Progress.Activity
import SharedWorkspace.Remote.Session

/-!
Activities that are watched: whether somebody wishes to stop, and which sessions are open. Whatever the
server does, an exchange asks nothing of it once it has been told to stop, and leaves the sessions that
were open before (`obeys_exchange`).
-/

namespace SharedWorkspace

open Dialogue Activity

variable {E : Interface}

structure Watch where
  cancelled : Bool := false
  sessions : List SessionId := []
  deriving DecidableEq

namespace Watch

/--
What may happen between one thing and the next. The wish to stop is never taken back.
-/
def Drifts (s t : Watch) : Prop :=
  (s.cancelled = true → t.cancelled = true) ∧ t.sessions = s.sessions

def sessionsAfter (s : Watch) : Option Session.Call → List SessionId
  | some (.opened id) => id :: s.sessions
  | some (.close id) => s.sessions.erase id
  | _ => s.sessions

/--
What may be seen after an event. Somebody may wish to stop at any question whether to stop, and right
after a report or another call; `view` tells which calls have to do with sessions.
-/
def step (view : E.Call → Option Session.Call) (s : Watch)
    : Event (Progress.calls.sum E) → Watch → Prop
  | ⟨.inl .isCancelled, cancelled⟩, t => t.cancelled = cancelled ∧ s.Drifts t
  | ⟨.inl _, _⟩, t => s.Drifts t
  | ⟨.inr c, _⟩, t =>
    (s.cancelled = true → t.cancelled = true) ∧ t.sessions = s.sessionsAfter (view c)

def rules (view : E.Call → Option Session.Call) (allows : Watch → E.Call → Prop)
    : Rules (Progress.calls.sum E) Watch where
  allows
    | _, .inl _ => True
    | s, .inr c => allows s c
  step := step view

variable {view : E.Call → Option Session.Call} {allows : Watch → E.Call → Prop} {s t : Watch}

theorem alike_rules : Alike (rules view allows) Drifts where
  allows _ _ := trivial
  refl _ := ⟨id, rfl⟩
  beginTask := Iff.rfl
  setTaskName := Iff.rfl
  worked := Iff.rfl
  done := Iff.rfl

theorem drifts_of_step_inl {c : Progress.Call} {x : (Progress.calls.sum E).Answer (.inl c)}
    (h : step view s ⟨.inl c, x⟩ t) : s.Drifts t := by
  cases c with
  | isCancelled => exact h.2
  | _ => exact h

def heedful (view : E.Call → Option Session.Call) (s : Watch) (c : E.Call) : Prop :=
  match view c with
  | some (.connect _ _) | some (.execute _ _) => s.cancelled = false
  | _ => True

theorem obeys_ofWork {α : Type} (w : Work α) {S : List SessionId} (h : s.sessions = S)
    : (ofWork w : Activity E α).Obeys (rules view allows) (fun t _ => t.sessions = S) s := by
  apply Activity.obeys_ofWork (K := fun t : Watch => t.sessions = S) _ _ w h
  . intro s c _
    trivial
  . intro s c x t hs ht
    rw [(drifts_of_step_inl ht).2, hs]

end Watch

namespace Session

variable {s : Watch} {S : List SessionId}

abbrev rules : Rules (Progress.calls.sum calls) Watch :=
  Watch.rules some (Watch.heedful some)

theorem obeys_connect (location : RepositoryLocation) (root : RemoteFolder) (h : s.sessions = S)
    : (connect location root).Obeys rules
        (fun t r => t.sessions = match r with
          | .ok id => id :: S
          | .error _ => S) s := by
  unfold connect
  apply Obeys.bind
  refine ⟨trivial, ?_⟩
  rintro cancelled t ⟨hc, hd⟩
  have h := hd.2.trans h
  cases cancelled with
  | true => exact h
  | false =>
    apply Obeys.bind
    refine ⟨hc, ?_⟩
    rintro work u ⟨_, hu⟩
    apply Obeys.bind
    apply (Watch.obeys_ofWork work (hu.trans h)).mono
    intro v r hv
    cases r with
    | error e => exact hv
    | ok id =>
      apply Obeys.bind
      refine ⟨trivial, ?_⟩
      rintro _ w ⟨_, hw⟩
      rw [← hv]
      exact hw

theorem obeys_execute (id : SessionId) (request : Request) (h : s.sessions = S)
    : (execute id request).Obeys rules (fun t _ => t.sessions = S) s := by
  unfold execute
  apply Obeys.bind
  refine ⟨trivial, ?_⟩
  rintro cancelled t ⟨hc, hd⟩
  have h := hd.2.trans h
  cases cancelled with
  | true => exact h
  | false =>
    apply Obeys.bind
    refine ⟨hc, ?_⟩
    rintro work u ⟨_, hu⟩
    exact Watch.obeys_ofWork work (hu.trans h)

theorem obeys_close (id : SessionId) (h : s.sessions = id :: S)
    : (close id).Obeys rules (fun t _ => t.sessions = S) s := by
  unfold close
  refine ⟨trivial, ?_⟩
  rintro _ t ⟨_, ht⟩
  show t.sessions = S
  rw [ht]
  unfold Watch.sessionsAfter
  dsimp
  rw [h, List.erase_cons_head]

end Session

namespace OpenSession

variable {s : Watch} {S : List SessionId} {g : OpenSession}

/--
Of the sessions that are open, the one that is inside is the first.
-/
def Guards (g : OpenSession) (S : List SessionId) (s : Watch) : Prop :=
  s.sessions = g.inner.toList ++ S

theorem obeys_execute (request : Request) (h : g.Guards S s)
    : (g.execute request).Obeys Session.rules (fun t _ => g.Guards S t) s := by
  unfold execute
  split
  . exact Session.obeys_execute _ request h
  . apply Obeys.bind
    refine ⟨trivial, ?_⟩
    rintro cancelled t ⟨_, hd⟩
    have ht : g.Guards S t := hd.2.trans h
    cases cancelled <;> exact ht

theorem obeys_close (h : g.Guards S s)
    : g.close.Obeys Session.rules (fun t r => r.2.Guards S t) s := by
  unfold close
  split
  . next id hid =>
    apply Obeys.bind
    apply (Session.obeys_close id (by rw [h, hid]; rfl)).mono
    intro t closed ht
    exact ht
  . exact h

theorem obeys_drop (h : g.Guards S s) : g.drop.Obeys Session.rules (fun t _ => t.sessions = S) s := by
  unfold drop
  split
  . next id hid =>
    apply Obeys.bind
    apply (Session.obeys_close id (by rw [h, hid]; rfl)).mono
    intro t closed ht
    exact ht
  . next hnone =>
    rw [Guards, hnone] at h
    exact h

theorem obeys_command (request : Request) (h : g.Guards S s)
    : (g.command request).Obeys Session.rules (fun t r => r.2.Guards S t) s := by
  unfold command
  apply Obeys.bind
  apply (obeys_execute request h).mono
  intro t response ht
  dsimp only
  split
  . exact ht
  . apply Obeys.bind
    apply (obeys_close ht).mono
    intro u r hu
    exact hu

end OpenSession

namespace Session

variable {s : Watch} {S : List SessionId}

theorem obeys_exchange (location : RepositoryLocation) (root : RemoteFolder) (request : Request)
    (h : s.sessions = S)
    : (exchange location root request).Obeys rules (fun t _ => t.sessions = S) s := by
  unfold exchange
  apply Obeys.bind
  -- Whatever comes of the command, what is dropped afterwards guards the session that was opened.
  apply (obeys_connect location root h).mono
  intro t r ht
  cases r with
  | error e => exact ht
  | ok id =>
    apply Obeys.bind
    apply (OpenSession.obeys_command (g := ⟨some id⟩) request ht).mono
    intro u r hu
    apply Obeys.bind
    apply (OpenSession.obeys_drop hu).mono
    intro v _ hv
    exact hv

end Session
end SharedWorkspace
