import SharedWorkspace.Handle
import SharedWorkspace.Proofs.Dispatch.Commands

/-!
Undertakings: the calls by which a workspace has to do with a server. Whatever comes of them, and however
many of them there are one after another, the sessions that they open are well bracketed
(`undertakings_bracketed`).
-/

namespace SharedWorkspace

open Dialogue Activity Dispatch

inductive Undertaking : List (Event Session.calls) → Except Failure Unit → Prop where
  | contents {r r' : Revision} {es : List (Event (Progress.calls.sum Session.calls))}
      {x : Except Failure Reader} (h : r.fetch.Run es (x, r'))
      : Undertaking (effects es) (outcome x)
  | latest {parent : RemoteFolder} {info : SyncInfo} {tag : Option Tag}
      {es : List (Event (Progress.calls.sum Session.calls))} {x : Except Failure (Option Revision)}
      (h : (Revision.latest parent info tag).Run es x) : Undertaking (effects es) (outcome x)
  | log {r : Revision} {es : List (Event (Progress.calls.sum Session.calls))}
      {x : Except Failure (List LogEntry)} (h : r.log.Run es x)
      : Undertaking (effects es) (outcome x)
  | members {f : RemoteFolder} {es : List (Event (Progress.calls.sum Session.calls))}
      {x : Except Failure (List RemoteMember)} (h : f.members.Run es x)
      : Undertaking (effects es) (outcome x)
  | fetchContents {t : FileTree} {a a' : Handle}
      {es : List (Event (Progress.calls.sum Session.calls))} {x : Except Failure (Option Reader)}
      (h : (a.fetchContents t).Run es (x, a')) : Undertaking (effects es) (outcome x)
  | children {t : FileTree} {a : Handle} {es : List (Event (Progress.calls.sum Session.calls))}
      {x : Except Failure (List Handle)} (h : (a.children t).Run es x)
      : Undertaking (effects es) (outcome x)
  | dispatch {E : Interface} {op : Operation E} {view : Event E → Option (Event Session.calls)}
      {request : List Resource → Bool → Request} (hop : op.Sends view request) {N : Type}
      {registry : Registry N} {ts : List Traversal} {c : DispatchConfig}
      {es : List (Event (Progress.calls.sum (calls E)))} {x : Except Failure DispatchReport}
      (h : (execute c op (Groups.ofTraversals registry.mappings ts)).Run es x)
      : Undertaking (serverEvents view es) (outcome x)

/--
What was asked of a server are the exchanges `xs`, and they account for the result `r`: the first failure
of an exchange is the last thing that happens, and it is the result.
-/
structure Bracketed (es : List (Event Session.calls)) (r : Except Failure Unit) (xs : List Exchange)
    : Prop where
  events : es = xs.flatMap Exchange.events
  genuine : ∀ x ∈ xs, x.Genuine
  failed : ∀ before x after e, xs = before ++ x :: after → x.result = .error e →
    after = [] ∧ r = .error e

namespace Bracketed

variable {es : List (Event Session.calls)} {r : Except Failure Unit}

theorem nil : Bracketed [] r [] where
  events := rfl
  genuine := by simp
  failed := by simp

theorem of_series {cs : List Command} {xs : List Exchange} (he : es = xs.flatMap Exchange.events)
    (h : Series cs xs r) : Bracketed es r xs where
  events := he
  genuine := h.genuine
  failed _ _ _ _ hm hx := h.last_of_error hm hx

theorem exists_of_exchanged {c : Command} {x : Except Failure (List ResponseItem)}
    (h : Exchanged c es x) (hr : ∀ e, x = .error e → r = .error e) : ∃ xs, Bracketed es r xs := by
  cases h with
  | stopped => exact ⟨[], nil⟩
  | tried y hy _ =>
    refine ⟨[y], by simp, by simpa using hy, ?_⟩
    intro before z after e hm hz
    cases before with
    | nil =>
      cases hm
      exact ⟨rfl, hr e hz⟩
    | cons => simp at hm

end Bracketed

namespace Undertaking

section Exchange

variable {es : List (Event (Progress.calls.sum Session.calls))} {t : FileTree} {f : RemoteFolder}

theorem exists_bracketed_of_exchange {β : Type} {location : RepositoryLocation} {root : RemoteFolder}
    {request : Request} {k : Except Failure (List ResponseItem) → RemoteWork β}
    (out : β → Except Failure Unit) {b : β}
    (h : (Session.exchange location root request >>= k).Run es b)
    (hk : ∀ items fs b, (k items).Run fs b → fs = [] ∧ ∀ e, items = .error e → out b = .error e)
    : ∃ xs, Bracketed (effects es) (out b) xs := by
  obtain ⟨es, fs, items, rfl, h₁, h₂⟩ := run_bind_iff.1 h
  obtain ⟨rfl, hout⟩ := hk items fs b h₂
  rw [List.append_nil]
  exact Bracketed.exists_of_exchanged (Session.run_exchange h₁) hout

theorem exists_bracketed_fetch {r r' : Revision} {x : Except Failure Reader}
    (h : r.fetch.Run es (x, r')) : ∃ xs, Bracketed (effects es) (outcome x) xs := by
  unfold Revision.fetch at h
  split at h
  . cases h
    exact ⟨[], .nil⟩
  . apply exists_bracketed_of_exchange (fun b => outcome b.1) h
    intro items fs b hb
    cases items with
    | error e =>
      cases hb
      exact ⟨rfl, fun e he => by cases he; rfl⟩
    | ok items =>
      refine ⟨?_, nofun⟩
      dsimp at hb
      split at hb <;> cases hb <;> rfl

theorem exists_bracketed_latest {info : SyncInfo} {tag : Option Tag}
    {x : Except Failure (Option Revision)} (h : (Revision.latest f info tag).Run es x)
    : ∃ xs, Bracketed (effects es) (outcome x) xs := by
  unfold Revision.latest at h
  split at h
  . cases h
    exact ⟨[], .nil⟩
  . apply exists_bracketed_of_exchange outcome h
    intro items fs b hb
    cases items <;> cases hb
    . exact ⟨rfl, fun e he => by cases he; rfl⟩
    . exact ⟨rfl, nofun⟩

theorem exists_bracketed_log {r : Revision} {x : Except Failure (List LogEntry)}
    (h : r.log.Run es x) : ∃ xs, Bracketed (effects es) (outcome x) xs := by
  unfold Revision.log at h
  apply exists_bracketed_of_exchange outcome h
  intro items fs b hb
  cases items <;> cases hb
  . exact ⟨rfl, fun e he => by cases he; rfl⟩
  . exact ⟨rfl, nofun⟩

theorem exists_bracketed_members {x : Except Failure (List RemoteMember)}
    (h : f.members.Run es x) : ∃ xs, Bracketed (effects es) (outcome x) xs := by
  unfold RemoteFolder.members at h
  apply exists_bracketed_of_exchange outcome h
  intro items fs b hb
  cases items <;> cases hb
  . exact ⟨rfl, fun e he => by cases he; rfl⟩
  . exact ⟨rfl, nofun⟩

theorem exists_bracketed_fetchContents {a a' : Handle} {x : Except Failure (Option Reader)}
    (h : (a.fetchContents t).Run es (x, a')) : ∃ xs, Bracketed (effects es) (outcome x) xs := by
  unfold Handle.fetchContents at h
  split at h
  . split at h <;> cases h <;> exact ⟨[], .nil⟩
  . obtain ⟨es, fs, ⟨y, r⟩, rfl, h₁, h₂⟩ := run_bind_iff.1 h
    cases h₂
    rw [List.append_nil, outcome_map]
    exact exists_bracketed_fetch h₁
  . cases h
    exact ⟨[], .nil⟩

theorem exists_bracketed_children {a : Handle} {x : Except Failure (List Handle)}
    (h : (a.children t).Run es x) : ∃ xs, Bracketed (effects es) (outcome x) xs := by
  unfold Handle.children at h
  split at h
  . split at h <;> cases h <;> exact ⟨[], .nil⟩
  . obtain ⟨es, fs, y, rfl, h₁, h₂⟩ := run_bind_iff.1 h
    have hy := exists_bracketed_members h₁
    cases y <;> cases h₂ <;> rw [List.append_nil] <;> exact hy
  . cases h
    exact ⟨[], .nil⟩

end Exchange

theorem exists_bracketed {es : List (Event Session.calls)} {r : Except Failure Unit}
    (h : Undertaking es r) : ∃ xs, Bracketed es r xs := by
  cases h with
  | contents h => exact exists_bracketed_fetch h
  | latest h => exact exists_bracketed_latest h
  | log h => exact exists_bracketed_log h
  | members h => exact exists_bracketed_members h
  | fetchContents h => exact exists_bracketed_fetchContents h
  | children h => exact exists_bracketed_children h
  | @dispatch _ _ _ _ hop _ registry ts _ _ _ h =>
    obtain ⟨xs, he, hs⟩ :=
      exists_series hop (Groups.ofTraversals_proper registry.mappings ts) h
    exact ⟨xs, .of_series he hs⟩

end Undertaking

/--
A server is dealt with in an orderly way. There is one session at a time at most: the one in `open?`, with
whether a command was run in it. It is not used before it is opened or after it is closed, no more than
one command is run in it, and none is left open.
-/
inductive Orderly : (open? : Option (SessionId × Bool)) → List Session.Call → Prop where
  | nil : Orderly none []
  | refused {location : RepositoryLocation} {root : RemoteFolder} {cs : List Session.Call}
      (h : Orderly none cs) : Orderly none (.connect location root :: cs)
  | opened {location : RepositoryLocation} {root : RemoteFolder} {session : SessionId}
      {cs : List Session.Call} (h : Orderly (some (session, false)) cs)
      : Orderly none (.connect location root :: .opened session :: cs)
  | execute {session : SessionId} {request : Request} {cs : List Session.Call}
      (h : Orderly (some (session, true)) cs)
      : Orderly (some (session, false)) (.execute session request :: cs)
  | close {session : SessionId} {used : Bool} {cs : List Session.Call} (h : Orderly none cs)
      : Orderly (some (session, used)) (.close session :: cs)

def Session.callsOf (es : List (Event Session.calls)) : List Session.Call :=
  es.map fun e => e.1

theorem Session.callsOf_append (es fs : List (Event Session.calls))
    : callsOf (es ++ fs) = callsOf es ++ callsOf fs :=
  List.map_append

theorem Exchange.orderly_append (x : Exchange) {cs : List Session.Call} (h : Orderly none cs)
    : Orderly none (Session.callsOf x.events ++ cs) := by
  cases x with
  | refused => exact .refused h
  | unused => exact .opened (.close h)
  | used => exact .opened (.execute (.close h))

theorem orderly_flatMap_events (xs : List Exchange)
    : Orderly none (Session.callsOf (xs.flatMap Exchange.events)) := by
  induction xs with
  | nil => exact .nil
  | cons x xs ih =>
    rw [List.flatMap_cons, Session.callsOf_append]
    exact x.orderly_append ih

/--
However many undertakings there are, and whatever the server answers, it is asked for one exchange after
another, and each undertaking fails with the first exchange that does.
-/
theorem undertakings_bracketed {us : List (List (Event Session.calls) × Except Failure Unit)}
    (h : ∀ u ∈ us, Undertaking u.1 u.2)
    : ∃ xss : List (List Exchange),
        us.flatMap Prod.fst = xss.flatten.flatMap Exchange.events ∧
        Orderly none (Session.callsOf (us.flatMap Prod.fst)) ∧
        List.Forall₂ (fun u xs => Bracketed u.1 u.2 xs) us xss := by
  induction us with
  | nil => exact ⟨[], rfl, .nil, .nil⟩
  | cons u us ih =>
    obtain ⟨xs, hxs⟩ := (h u List.mem_cons_self).exists_bracketed
    obtain ⟨xss, he, _, hxss⟩ := ih fun v hv => h v (List.mem_cons_of_mem u hv)
    have htrace : (u :: us).flatMap Prod.fst = (xs :: xss).flatten.flatMap Exchange.events := by
      rw [List.flatMap_cons, List.flatten_cons, List.flatMap_append, hxs.events, he]
    refine ⟨xs :: xss, htrace, ?_, .cons hxs hxss⟩
    rw [htrace]
    apply orderly_flatMap_events

/--
A server that never closes a session without a complaint. It rejects a command first, which is what the
caller hears of, and then accepts another one.
-/
theorem undertakings_bracketed_complaint
    : let answer : Response → (c : Session.Call) → c.Answer := fun response => fun
        | .connect _ _ => pure (.ok 7)
        | .opened _ => ()
        | .execute _ _ => pure (.ok response)
        | .close _ => .error (.client "lost")
      let server : Surroundings (Progress.calls.sum Session.calls) Unit := fun _ => fun
        | .inl c => (c.reply false, ())
        | .inr c => (answer ⟨.serverError ⟨1, "unknown"⟩, []⟩ c, ())
      let registry : Registry Unit := Registry.setProvider {} ⟨"git", "website", "host", "/"⟩
      let ts : List Traversal := [⟨[.folder "website" "src"], .fullSubtree⟩]
      let history := (Revision.new (.new "host" "website" none) "index" "1.2" none).log
      let commit := execute {} (Operation.commit "done") (Groups.ofTraversals registry.mappings ts)
      let around := untroubled (answer ⟨.ok, []⟩)
      let free : LockTable := {}
      let us : List (List (Event Session.calls) × Except Failure Unit) :=
        [(effects ((history.eventsIn server ()).map Prod.snd), outcome (history.resultIn server ())),
          (serverEvents some ((commit.eventsIn around free).map Prod.snd),
            outcome (commit.resultIn around free))]
      us.map Prod.snd = [.error (.serverProtocol ⟨1, "unknown"⟩), .error (.client "lost")] ∧
        (∀ u ∈ us, Undertaking u.1 u.2) ∧
        ∃ xss : List (List Exchange),
          us.flatMap Prod.fst = xss.flatten.flatMap Exchange.events ∧
          Orderly none (Session.callsOf (us.flatMap Prod.fst)) ∧
          List.Forall₂ (fun u xs => Bracketed u.1 u.2 xs) us xss := by
  intro answer server registry ts history commit around free us
  have hlog : Undertaking (effects ((history.eventsIn server ()).map Prod.snd))
      (outcome (history.resultIn server ())) := .log (history.run_in server ())
  have hcommit : Undertaking (serverEvents some ((commit.eventsIn around free).map Prod.snd))
      (outcome (commit.resultIn around free)) :=
    .dispatch (.commit "done") (commit.run_in around free)
  have h : ∀ u ∈ us, Undertaking u.1 u.2 := by
    intro u hu
    rcases List.mem_cons.1 hu with hu | hu
    . rw [hu]
      exact hlog
    . rw [List.mem_singleton.1 hu]
      dsimp only
      exact hcommit
  exact ⟨by decide +kernel, h, undertakings_bracketed h⟩

end SharedWorkspace
