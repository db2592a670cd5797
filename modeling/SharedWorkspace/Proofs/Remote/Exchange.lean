import SharedWorkspace.Proofs.Remote.Scenario

/-!
Exchanges with a server, each in a session of its own. Whatever the server answers and whenever somebody
wishes to stop, what is asked of it for one command is one of the exchanges `Exchange`, or nothing at all
(`run_exchange`). `Series` says how the exchanges for several commands follow one another.
-/

namespace SharedWorkspace

open Dialogue Activity

structure Command where
  location : RepositoryLocation
  root : RemoteFolder
  request : Request
  deriving DecidableEq

inductive Exchange where
  | refused (command : Command) (opening : Work (Except Failure SessionId)) (e : Failure)
  | unused (command : Command) (opening : Work (Except Failure SessionId)) (session : SessionId)
      (closed : Except Failure Unit)
  | used (command : Command) (opening : Work (Except Failure SessionId)) (session : SessionId)
      (running : Work (Except Failure Response)) (response : Except Failure Response)
      (closed : Except Failure Unit)

namespace Exchange

def command : Exchange → Command
  | refused c _ _ | unused c _ _ _ | used c _ _ _ _ _ => c

def sent? : Exchange → Option Command
  | used c _ _ _ _ _ => some c
  | _ => none

def events : Exchange → List (Event Session.calls)
  | refused c opening _ => [⟨.connect c.location c.root, opening⟩]
  | unused c opening session closed =>
    [⟨.connect c.location c.root, opening⟩, ⟨.opened session, ()⟩, ⟨.close session, closed⟩]
  | used c opening session running _ closed =>
    [⟨.connect c.location c.root, opening⟩, ⟨.opened session, ()⟩,
      ⟨.execute session c.request, running⟩, ⟨.close session, closed⟩]

/--
What the caller gets. The first failure counts; that the session could not be closed is one only if
nothing failed before.
-/
def result : Exchange → Except Failure (List ResponseItem)
  | refused _ _ e => .error e
  | unused _ _ _ _ => .error .cancelled
  | used _ _ _ _ (.error e) _ => .error e
  | used _ _ _ _ (.ok response) closed =>
    match response.outcome, closed with
    | .serverError status, _ => .error (.serverProtocol status)
    | .clientError message, _ => .error (.client message)
    | .ok, .error e => .error e
    | .ok, .ok () => .ok response.items

def Genuine : Exchange → Prop
  | refused _ opening e => ∃ ws, opening.Run ws (.error e)
  | unused _ opening session _ => ∃ ws, opening.Run ws (.ok session)
  | used _ opening session running response _ =>
    (∃ ws, opening.Run ws (.ok session)) ∧ ∃ ws, running.Run ws response

theorem sent?_of_result {x : Exchange} {items : List ResponseItem} (h : x.result = .ok items)
    : x.sent? = some x.command := by
  cases x with
  | used => rfl
  | _ => contradiction

end Exchange

inductive Exchanged (c : Command)
    : List (Event Session.calls) → Except Failure (List ResponseItem) → Prop where
  | stopped : Exchanged c [] (.error .cancelled)
  | tried (x : Exchange) (hx : x.Genuine) (hc : x.command = c) : Exchanged c x.events x.result

/--
The exchanges that may be made for a list of commands, and how they end: all of them succeed, or one of
them fails, or somebody wishes to stop before all is done.
-/
inductive Series : List Command → List Exchange → Except Failure Unit → Prop where
  | done : Series [] [] (.ok ())
  | stopped (cs : List Command) : Series cs [] (.error .cancelled)
  | failed {x : Exchange} {e : Failure} (rest : List Command) (hx : x.Genuine)
      (he : x.result = .error e) : Series (x.command :: rest) [x] (.error e)
  | went {x : Exchange} {items : List ResponseItem} {rest : List Command} {xs : List Exchange}
      {r : Except Failure Unit} (hx : x.Genuine) (hi : x.result = .ok items) (h : Series rest xs r)
      : Series (x.command :: rest) (x :: xs) r

namespace Series

variable {cs : List Command} {xs : List Exchange} {r : Except Failure Unit}

theorem genuine (h : Series cs xs r) : ∀ x ∈ xs, x.Genuine := by
  induction h with
  | done => simp
  | stopped => simp
  | failed _ hx _ => simpa using hx
  | went hx _ _ ih => simpa using ⟨hx, ih⟩

theorem last_of_error (h : Series cs xs r) {before after : List Exchange} {x : Exchange}
    (hm : xs = before ++ x :: after) {e : Failure} (he : x.result = .error e)
    : after = [] ∧ r = .error e := by
  induction h generalizing before with
  | done => simp at hm
  | stopped => simp at hm
  | failed _ _ hx =>
    cases before with
    | nil =>
      cases hm
      rw [hx] at he
      cases he
      exact ⟨rfl, rfl⟩
    | cons => simp at hm
  | went _ hi _ ih =>
    cases before with
    | nil =>
      cases hm
      rw [hi] at he
      contradiction
    | cons _ before =>
      rw [List.cons_append] at hm
      exact ih (List.cons.inj hm).2

theorem isPrefix (h : Series cs xs r) : xs.map Exchange.command <+: cs := by
  induction h with
  | done => exact List.nil_prefix
  | stopped => exact List.nil_prefix
  | failed => simp
  | went _ _ _ ih => simpa using ih

theorem sent_isPrefix (h : Series cs xs r) : xs.filterMap Exchange.sent? <+: cs := by
  induction h with
  | done => exact List.nil_prefix
  | stopped => exact List.nil_prefix
  | @failed x =>
    rw [List.filterMap_cons]
    cases x <;> simp [Exchange.sent?, Exchange.command]
  | went _ hi _ ih =>
    rw [List.filterMap_cons, Exchange.sent?_of_result hi]
    simpa using ih

theorem of_ok (h : Series cs xs r) (hr : r = .ok ())
    : xs.map Exchange.command = cs ∧ ∀ x ∈ xs, ∃ items, x.result = .ok items := by
  induction h with
  | done => simp
  | stopped => contradiction
  | failed => contradiction
  | went _ hi _ ih =>
    obtain ⟨hc, hall⟩ := ih hr
    refine ⟨by rw [List.map_cons, hc], ?_⟩
    simpa using ⟨⟨_, hi⟩, hall⟩

end Series

namespace Session

variable {es : List (Event (Progress.calls.sum calls))} {location : RepositoryLocation}
variable {root : RemoteFolder} {request : Request}

theorem run_exchange {r : Except Failure (List ResponseItem)}
    (h : (exchange location root request).Run es r)
    : Exchanged ⟨location, root, request⟩ (effects es) r := by
  obtain ⟨s, ⟨hopening, hrunning⟩, rfl, rfl⟩ := run_exchange_iff.1 h
  rw [s.effects_events, s.outcome_eq]
  obtain ⟨stops, opening, _, opened, stopsThen, running, _, response, closed⟩ := s
  cases stops with
  | true => exact .stopped
  | false =>
    cases opened with
    | error e => exact .tried (.refused ⟨location, root, request⟩ opening e) ⟨_, hopening⟩ rfl
    | ok session =>
      cases stopsThen with
      | true =>
        exact .tried (.unused ⟨location, root, request⟩ opening session closed) ⟨_, hopening⟩ rfl
      | false =>
        have hx := Exchanged.tried (.used ⟨location, root, request⟩ opening session running response
          closed) ⟨⟨_, hopening⟩, _, hrunning⟩ rfl
        cases response with
        | error e => exact hx
        | ok response =>
          obtain ⟨outcome, items⟩ := response
          cases outcome <;> cases closed <;> exact hx

end Session
end SharedWorkspace
