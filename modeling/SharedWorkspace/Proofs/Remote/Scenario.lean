import SharedWorkspace.Proofs.Progress.Activity
import SharedWorkspace.Remote.Session

/-!
Scenarios: how a server and a monitor behave while one command is run in a session of its own. The runs of
`Session.exchange` are those that scenarios describe, event by event (`run_exchange_iff`), and they end with
the first thing on the list `Scenario.exits` that fails, or with what the server has sent.
-/

namespace SharedWorkspace

open Dialogue Activity

namespace Activity

variable {E : Interface} {α : Type} {es : List (Event (Progress.calls.sum E))} {a : α}

theorem run_isCancelled_bind {f : Bool → Activity E α} (cancelled : Bool) (h : (f cancelled).Run es a)
    : (isCancelled >>= f).Run (⟨.inl .isCancelled, cancelled⟩ :: es) a :=
  .ask (I := Progress.calls.sum E) (c := .inl .isCancelled) cancelled h

theorem run_perform_bind {c : E.Call} {f : E.Answer c → Activity E α} (x : E.Answer c)
    (h : (f x).Run es a) : (perform c >>= f).Run (⟨.inr c, x⟩ :: es) a :=
  .ask (I := Progress.calls.sum E) (c := .inr c) x h

def reported : Event (Progress.calls.sum .empty) → Event (Progress.calls.sum E)
  | ⟨.inl c, x⟩ => ⟨.inl c, x⟩
  | ⟨.inr c, _⟩ => Empty.elim c

theorem effects_reported (ws : List (Event (Progress.calls.sum .empty)))
    : effects (ws.map (reported (E := E))) = [] := by
  unfold effects
  rw [List.filterMap_eq_nil_iff]
  intro e he
  obtain ⟨⟨c, x⟩, _, rfl⟩ := List.mem_map.1 he
  cases c with
  | inl c => rfl
  | inr c => exact Empty.elim c

theorem run_ofWork_iff {w : Work α}
    : (ofWork w : Activity E α).Run es a ↔ ∃ ws, w.Run ws a ∧ es = ws.map reported := by
  unfold ofWork embed
  constructor
  . intro h
    induction w generalizing es with
    | result b =>
      cases h
      exact ⟨[], .result _, rfl⟩
    | ask c k ih =>
      cases c with
      | inl c =>
        obtain ⟨x, fs, rfl, h'⟩ := run_call_bind h
        obtain ⟨ws, hw, rfl⟩ := ih x h'
        exact ⟨⟨.inl c, x⟩ :: ws, .ask (I := Progress.calls.sum .empty) (c := .inl c) x hw, rfl⟩
      | inr c => exact Empty.elim c
  . rintro ⟨ws, hw, rfl⟩
    induction hw with
    | result b => exact .result b
    | @ask c k x ws b _ ih =>
      cases c with
      | inl c => exact .ask (I := Progress.calls.sum E) (c := .inl c) x ih
      | inr c => exact Empty.elim c

end Activity

/--
How a server and a monitor behave while one command is run. What stands here for the time after something has
failed never comes to pass.
-/
structure Scenario where
  stops : Bool
  opening : Work (Except Failure SessionId) := pure (.error .cancelled)
  whileOpening : List (Event (Progress.calls.sum .empty)) := []
  opened : Except Failure SessionId := .error .cancelled
  stopsThen : Bool := false
  running : Work (Except Failure Response) := pure (.error .cancelled)
  whileRunning : List (Event (Progress.calls.sum .empty)) := []
  response : Except Failure Response := .error .cancelled
  closed : Except Failure Unit := .ok ()

def Scenario.failureOf? {α : Type} : Except Failure α → Option Failure
  | .error e => some e
  | .ok _ => none

namespace Scenario

structure Genuine (s : Scenario) : Prop where
  opening : s.opening.Run s.whileOpening s.opened
  running : s.running.Run s.whileRunning s.response

def rejection? (s : Scenario) : Option Failure :=
  match s.response with
  | .ok ⟨.serverError status, _⟩ => some (.serverProtocol status)
  | .ok ⟨.clientError message, _⟩ => some (.client message)
  | _ => none

def exits (s : Scenario) : List (Option Failure) :=
  [if s.stops then some .cancelled else none, failureOf? s.opened,
    if s.stopsThen then some .cancelled else none, failureOf? s.response, s.rejection?,
    failureOf? s.closed]

def failure? (s : Scenario) : Option Failure :=
  s.exits.findSome? id

def items (s : Scenario) : List ResponseItem :=
  match s.response with
  | .ok response => response.items
  | .error _ => []

def outcome (s : Scenario) : Except Failure (List ResponseItem) :=
  match s.failure? with
  | some e => .error e
  | none => .ok s.items

inductive Ends {α : Type} (s : Scenario) (P : α → Prop) : Except Failure α → Prop where
  | failed {e : Failure} (h : s.failure? = some e) : Ends s P (.error e)
  | answered {a : α} (h : s.failure? = none) (ha : P a) : Ends s P (.ok a)

theorem ends_iff {α : Type} {s : Scenario} {P : α → Prop} {g : List ResponseItem → α}
    {x : Except Failure α} (hP : ∀ a, P a ↔ a = g s.items) : s.Ends P x ↔ x = s.outcome.map g := by
  unfold outcome
  constructor
  . intro h
    cases h with
    | failed h =>
      rw [h]
      rfl
    | answered h ha =>
      rw [h, (hP _).1 ha]
      rfl
  . rintro rfl
    cases hfailure : s.failure? with
    | some e => exact .failed hfailure
    | none => exact .answered hfailure ((hP _).2 rfl)

theorem ends_ok_iff {α : Type} {s : Scenario} {P : α → Prop} {a : α}
    : s.Ends P (.ok a) ↔ s.failure? = none ∧ P a := by
  constructor
  . rintro (_ | ⟨h, ha⟩)
    exact ⟨h, ha⟩
  . rintro ⟨h, ha⟩
    exact .answered h ha

def connected (s : Scenario) : Except Failure SessionId :=
  if s.stops then .error .cancelled else s.opened

def executed (s : Scenario) : Except Failure Response :=
  if s.stopsThen then .error .cancelled else s.response

def connecting (s : Scenario) (location : RepositoryLocation) (root : RemoteFolder)
    : List (Event (Progress.calls.sum Session.calls)) :=
  ⟨.inl .isCancelled, s.stops⟩ ::
    if s.stops then
      []
    else
      ⟨.inr (.connect location root), s.opening⟩ :: (s.whileOpening.map reported ++
        match s.opened with
        | .ok session => [⟨.inr (.opened session), ()⟩]
        | .error _ => [])

def executing (s : Scenario) (session : SessionId) (request : Request)
    : List (Event (Progress.calls.sum Session.calls)) :=
  ⟨.inl .isCancelled, s.stopsThen⟩ ::
    if s.stopsThen then
      []
    else
      ⟨.inr (.execute session request), s.running⟩ :: s.whileRunning.map reported

def events (s : Scenario) (location : RepositoryLocation) (root : RemoteFolder) (request : Request)
    : List (Event (Progress.calls.sum Session.calls)) :=
  s.connecting location root ++
    match s.connected with
    | .ok session => s.executing session request ++ [⟨.inr (.close session), s.closed⟩]
    | .error _ => []

theorem effects_events (s : Scenario) (location : RepositoryLocation) (root : RemoteFolder)
    (request : Request)
    : effects (s.events location root request)
        =
      if s.stops then
        []
      else
        ⟨.connect location root, s.opening⟩ ::
          match s.opened with
          | .error _ => []
          | .ok session =>
            ⟨.opened session, ()⟩ ::
              ((if s.stopsThen then [] else [⟨.execute session request, s.running⟩]) ++
                [⟨.close session, s.closed⟩]) := by
  unfold events connecting connected
  cases s.stops with
  | true => rfl
  | false =>
    cases s.opened with
    | error e =>
      show _ :: effects (s.whileOpening.map reported ++ [] ++ []) = _
      rw [List.append_nil, List.append_nil, effects_reported]
      rfl
    | ok session =>
      show _ :: effects (s.whileOpening.map reported ++ [_] ++ (s.executing session request ++ [_])) = _
      rw [effects_append, effects_append, effects_append, effects_reported]
      unfold executing
      cases s.stopsThen with
      | true => rfl
      | false =>
        show _ :: _ :: _ :: (effects (s.whileRunning.map reported) ++ _) = _
        rw [effects_reported]
        rfl

end Scenario

namespace Session

/--
What the caller gets: that a session could not be closed counts only if nothing else failed.
-/
def conclude (executed : Except Failure Response) (closed : Except Failure Unit)
    : Except Failure (List ResponseItem) :=
  match executed >>= Response.toItems, closed with
  | .error e, _ => .error e
  | .ok _, .error e => .error e
  | .ok items, .ok () => .ok items

theorem command_drop_eq (session : SessionId) (request : Request)
    : (do
        let (items, s) ← OpenSession.command ⟨some session⟩ request
        s.drop
        return items)
        =
      (do
        let executed ← execute session request
        let closed ← close session
        return conclude executed closed : RemoteWork (Except Failure (List ResponseItem))) := by
  unfold OpenSession.command conclude
  rw [bind_assoc]
  congr 1
  funext executed
  generalize executed >>= Response.toItems = answer
  cases answer with
  | error e => rfl
  | ok items =>
    show (close session >>= fun closed => _) = close session >>= fun closed => _
    congr 1
    funext closed
    cases closed <;> rfl

/--
A session that was opened is closed once, before the outcome of its command is known to anybody.
-/
theorem exchange_eq (location : RepositoryLocation) (root : RemoteFolder) (request : Request)
    : exchange location root request
        =
      (do
        match ← connect location root with
        | .error e => return .error e
        | .ok session =>
          let executed ← execute session request
          let closed ← close session
          return conclude executed closed) := by
  unfold exchange
  congr 1
  funext connected
  cases connected with
  | error e => rfl
  | ok session => exact command_drop_eq session request

end Session

theorem Scenario.outcome_eq (s : Scenario)
    : s.outcome
        =
      match s.connected with
      | .error e => .error e
      | .ok _ => Session.conclude s.executed s.closed := by
  obtain ⟨stops, _, _, opened, stopsThen, _, _, response, closed⟩ := s
  cases stops with
  | true => rfl
  | false =>
    cases opened with
    | error e => rfl
    | ok session =>
      cases stopsThen with
      | true => rfl
      | false =>
        cases response with
        | error e => rfl
        | ok response =>
          obtain ⟨outcome, items⟩ := response
          cases outcome <;> cases closed <;> rfl

namespace Session

variable {es : List (Event (Progress.calls.sum calls))} {location : RepositoryLocation}
variable {root : RemoteFolder} {request : Request}

theorem run_connect_iff {r : Except Failure SessionId}
    : (connect location root).Run es r ↔
        ∃ s : Scenario, s.Genuine ∧ es = s.connecting location root ∧ r = s.connected := by
  constructor
  . intro h
    unfold connect at h
    obtain ⟨cancelled, es, rfl, h₁⟩ := run_call_bind h
    cases cancelled with
    | true =>
      cases h₁
      exact ⟨{ stops := true }, ⟨.result _, .result _⟩, rfl, rfl⟩
    | false =>
      obtain ⟨opening, es, rfl, h₂⟩ := run_call_bind h₁
      obtain ⟨es, fs, opened, rfl, h₃, h₄⟩ := run_bind_iff.1 h₂
      obtain ⟨ws, hw, rfl⟩ := run_ofWork_iff.1 h₃
      refine ⟨{ stops := false, opening, whileOpening := ws, opened }, ⟨hw, .result _⟩, ?_⟩
      cases opened with
      | error e =>
        cases h₄
        exact ⟨rfl, rfl⟩
      | ok session =>
        obtain ⟨_, fs, rfl, h₅⟩ := run_call_bind h₄
        cases h₅
        exact ⟨rfl, rfl⟩
  . rintro ⟨s, hs, rfl, rfl⟩
    unfold connect Scenario.connecting Scenario.connected
    apply run_isCancelled_bind s.stops
    cases s.stops with
    | true => exact .result _
    | false =>
      simp only [Bool.false_eq_true, if_false]
      apply run_perform_bind (E := calls) (c := .connect location root) s.opening
      apply (run_ofWork_iff.2 ⟨s.whileOpening, hs.opening, rfl⟩).bind
      cases s.opened with
      | error e => exact .result _
      | ok session => exact run_perform_bind (E := calls) (c := .opened session) () (.result _)

theorem run_execute_iff {session : SessionId} {r : Except Failure Response}
    : (execute session request).Run es r ↔
        ∃ s : Scenario, s.Genuine ∧ es = s.executing session request ∧ r = s.executed := by
  constructor
  . intro h
    unfold execute at h
    obtain ⟨cancelled, es, rfl, h₁⟩ := run_call_bind h
    cases cancelled with
    | true =>
      cases h₁
      exact ⟨{ stops := false, stopsThen := true }, ⟨.result _, .result _⟩, rfl, rfl⟩
    | false =>
      obtain ⟨running, es, rfl, h₂⟩ := run_call_bind h₁
      obtain ⟨ws, hw, rfl⟩ := run_ofWork_iff.1 h₂
      exact ⟨{ stops := false, running, whileRunning := ws, response := r }, ⟨.result _, hw⟩, rfl, rfl⟩
  . rintro ⟨s, hs, rfl, rfl⟩
    unfold execute Scenario.executing Scenario.executed
    apply run_isCancelled_bind s.stopsThen
    cases s.stopsThen with
    | true => exact .result _
    | false =>
      simp only [Bool.false_eq_true, if_false]
      apply run_perform_bind (E := calls) (c := .execute session request) s.running
      exact run_ofWork_iff.2 ⟨s.whileRunning, hs.running, rfl⟩

theorem run_exchange_iff {x : Except Failure (List ResponseItem)}
    : (exchange location root request).Run es x ↔
        ∃ s : Scenario, s.Genuine ∧ es = s.events location root request ∧ x = s.outcome := by
  rw [exchange_eq]
  constructor
  . intro h
    obtain ⟨es, fs, connected, rfl, h₁, h₂⟩ := run_bind_iff.1 h
    obtain ⟨s, hs, rfl, rfl⟩ := run_connect_iff.1 h₁
    cases hconnected : s.connected with
    | error e =>
      rw [hconnected] at h₂
      cases h₂
      refine ⟨s, hs, ?_, ?_⟩
      . rw [Scenario.events, hconnected]
      . rw [s.outcome_eq, hconnected]
    | ok session =>
      rw [hconnected] at h₂
      obtain ⟨gs, fs, executed, rfl, h₃, h₄⟩ := run_bind_iff.1 h₂
      obtain ⟨t, ht, rfl, rfl⟩ := run_execute_iff.1 h₃
      obtain ⟨closed, fs, rfl, h₅⟩ := run_call_bind h₄
      cases h₅
      -- What the first scenario says of the opening and the second of the command makes one scenario.
      let u : Scenario := { s with
        stopsThen := t.stopsThen
        running := t.running
        whileRunning := t.whileRunning
        response := t.response
        closed }
      have hu : u.connected = .ok session := hconnected
      refine ⟨u, ⟨hs.opening, ht.running⟩, ?_, ?_⟩
      . rw [Scenario.events, hu]
        rfl
      . rw [u.outcome_eq, hu]
        rfl
  . rintro ⟨s, hs, rfl, rfl⟩
    apply (run_connect_iff.2 ⟨s, hs, rfl, rfl⟩).bind
    rw [s.outcome_eq]
    cases s.connected with
    | error e => exact .result _
    | ok session =>
      apply (run_execute_iff.2 ⟨s, hs, rfl, rfl⟩).bind
      exact run_perform_bind (E := calls) (c := .close session) s.closed (.result _)

theorem run_exchange_bind_iff {β : Type} {g : Except Failure (List ResponseItem) → β} {b : β}
    : (exchange location root request >>= fun x => pure (g x)).Run es b ↔
        ∃ s : Scenario, s.Genuine ∧ es = s.events location root request ∧ b = g s.outcome := by
  rw [run_bind_iff]
  constructor
  . rintro ⟨es, fs, x, rfl, h, hb⟩
    obtain ⟨s, hs, rfl, rfl⟩ := run_exchange_iff.1 h
    cases hb
    exact ⟨s, hs, List.append_nil _, rfl⟩
  . rintro ⟨s, hs, rfl, rfl⟩
    exact ⟨_, [], s.outcome, (List.append_nil _).symm, run_exchange_iff.2 ⟨s, hs, rfl, rfl⟩, .result _⟩

end Session
end SharedWorkspace
