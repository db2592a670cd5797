import SharedWorkspace.Operation.Command
import SharedWorkspace.Proofs.Operation.Refresh

/-!
What an update, a commit and a tag ask of a server. `Sends` says which request is made for which
resources; that the operations make these requests, each in an exchange of its own, and nothing else of
the server, is `Sends.run_executeBatch` and `Sends.run_handleNontraversed`.
-/

namespace SharedWorkspace
namespace Operation

open Dialogue Activity

def onServer (e : Event Session.calls) : Event updateCalls :=
  ⟨.inl e.1, e.2⟩

def onCache (e : Event RemoteCache.calls) : Event updateCalls :=
  ⟨.inr e.1, e.2⟩

def serverEvent? : Event updateCalls → Option (Event Session.calls)
  | ⟨.inl c, x⟩ => some ⟨c, x⟩
  | ⟨.inr _, _⟩ => none

def targets (rs : List Resource) : List String :=
  rs.map fun r => if r.path = "" then "." else r.path

/--
The operation sends a request for each batch: to be told which resources it visits and whether what lies
below them is meant as well. Which of its events have to do with the server is told beside it.
-/
inductive Sends : {E : Interface} → Operation E → (Event E → Option (Event Session.calls)) →
    (List Resource → Bool → Request) → Prop where
  | update (o : UpdateOptions)
    : Sends (update o) serverEvent? fun rs recurse =>
      { kind := .update
        globalOptions := []
        localOptions :=
          (if recurse then [] else [.doNotRecurse])
            ++ (match o.tag with
              | some t => [.tag t]
              | none => [])
            ++ (if o.ignoreLocalChanges then [.ignoreLocalChanges] else [])
        arguments := targets rs }
  | commit (message : String)
    : Sends (commit message) some fun rs recurse =>
      { kind := .commit
        globalOptions := []
        localOptions := (if recurse then [] else [.doNotRecurse]) ++ [.message message]
        arguments := targets rs }
  | tag (t : Tag)
    : Sends (tag t) some fun rs recurse =>
      { kind := .tag
        globalOptions := []
        localOptions := if recurse then [] else [.doNotRecurse]
        arguments := t.name :: targets rs }

theorem run_onServer {α : Type} {d : RemoteWork α}
    {es : List (Event (Progress.calls.sum updateCalls))} {a : α}
    (h : (embed (fun c => Activity.perform (E := updateCalls) (.inl c)) d).Run es a)
    : ∃ fs, d.Run fs a ∧ effects es = (effects fs).map onServer := by
  have hc : ∀ c gs x, (Activity.perform (E := updateCalls) (.inl c)).Run gs x →
      effects gs = [onServer ⟨c, x⟩] := by
    intro c gs x hx
    rw [run_perform hx]
    rfl
  exact run_embed hc h

theorem run_onCache {α : Type} {d : Activity RemoteCache.calls α}
    {es : List (Event (Progress.calls.sum updateCalls))} {a : α}
    (h : (embed (fun c => Activity.perform (E := updateCalls) (.inr c)) d).Run es a)
    : ∃ fs, d.Run fs a ∧ effects es = (effects fs).map onCache := by
  have hc : ∀ c gs x, (Activity.perform (E := updateCalls) (.inr c)).Run gs x →
      effects gs = [onCache ⟨c, x⟩] := by
    intro c gs x hx
    rw [run_perform hx]
    rfl
  exact run_embed hc h

theorem filterMap_serverEvent? (server : List (Event Session.calls))
    (cache : List (Event RemoteCache.calls))
    : (server.map onServer ++ cache.map onCache).filterMap serverEvent? = server := by
  have hcache : (cache.map onCache).filterMap serverEvent? = [] := by
    rw [List.filterMap_map]
    exact List.filterMap_eq_nil_iff.2 fun _ _ => rfl
  rw [List.filterMap_append, hcache, List.append_nil, List.filterMap_map]
  exact List.filterMap_some

variable {p : Provider} {rs : List Resource} {recurse : Bool} {r : Except Failure Unit}

theorem run_commandBatch {request : Request} {es : List (Event (Progress.calls.sum Session.calls))}
    (h : (commandBatch p request).Run es r)
    : ∃ r', Exchanged ⟨p.location, rootFolder p none, request⟩ (effects es) r' ∧
        r = r'.map fun _ => () := by
  unfold commandBatch at h
  obtain ⟨_, es, rfl, h₁⟩ := run_call_bind h
  obtain ⟨es, fs, r', rfl, h₂, h₃⟩ := run_bind_iff.1 h₁
  refine ⟨r', ?_⟩
  have hx := Session.run_exchange h₂
  show Exchanged _ (effects (es ++ fs)) _ ∧ _
  cases r' with
  | error e =>
    cases h₃
    rw [List.append_nil]
    exact ⟨hx, rfl⟩
  | ok items =>
    obtain ⟨_, fs, rfl, h₄⟩ := run_call_bind h₃
    cases h₄
    rw [effects_append]
    show Exchanged _ (effects es ++ []) _ ∧ _
    rw [List.append_nil]
    exact ⟨hx, rfl⟩

def UpdateOptions.lookups (o : UpdateOptions) (p : Provider) (rs : List Resource)
    : Except Failure (List ResponseItem) → List RemoteCache.calls.Call
  | .error _ => []
  | .ok _ => if o.refreshCache then RemoteCache.lookups p rs else []

theorem run_refresh {o : UpdateOptions} {n : Nat} {es : List (Event (Progress.calls.sum updateCalls))}
    {items : List ResponseItem}
    (h : (share n
      (if o.refreshCache then
        embed (fun c => Activity.perform (E := updateCalls) (.inr c))
          (RemoteCache.refreshAfterUpdate p rs)
      else
        pure ())).Run es ())
    : ∃ cache : List (Event RemoteCache.calls), effects es = cache.map onCache ∧
        cache.map Sigma.fst = o.lookups p rs (.ok items) := by
  obtain ⟨fs, h₁, he⟩ := run_share h
  rw [← he.1]
  unfold UpdateOptions.lookups
  split at h₁
  . next ho =>
    obtain ⟨gs, hgs, heq⟩ := run_onCache h₁
    rw [if_pos ho]
    exact ⟨effects gs, heq, RemoteCache.run_refreshAfterUpdate hgs⟩
  . next ho =>
    cases h₁
    rw [if_neg ho]
    exact ⟨[], rfl, rfl⟩

theorem exists_parts_of_run_update {o : UpdateOptions}
    {es : List (Event (Progress.calls.sum updateCalls))}
    (h : ((update o).executeBatch p rs recurse).Run es r)
    : ∃ (server : List (Event Session.calls)) (cache : List (Event RemoteCache.calls))
        (r' : Except Failure (List ResponseItem)),
        effects es = server.map onServer ++ cache.map onCache ∧
        Exchanged ⟨p.location, rootFolder p none, o.request rs recurse⟩ server r' ∧
        cache.map Sigma.fst = o.lookups p rs r' ∧ r = r'.map fun _ => () := by
  unfold update at h
  obtain ⟨_, es, rfl, h₁⟩ := run_call_bind h
  obtain ⟨es, fs, r', rfl, h₂, h₃⟩ := run_bind_iff.1 h₁
  obtain ⟨es', h₄, he⟩ := run_share h₂
  obtain ⟨gs, h₅, hgs⟩ := run_onServer h₄
  have hx := Session.run_exchange h₅
  rw [he.1] at hgs
  cases r' with
  | error e =>
    cases h₃
    refine ⟨effects gs, [], .error e, ?_, hx, rfl, rfl⟩
    show effects (es ++ []) = _ ++ []
    rw [effects_append, hgs]
    rfl
  | ok items =>
    obtain ⟨fs, ks, _, rfl, h₆, h₇⟩ := run_bind_iff.1 h₃
    obtain ⟨_, ks, rfl, h₈⟩ := run_call_bind h₇
    cases h₈
    obtain ⟨cache, heq, hcalls⟩ := run_refresh h₆
    refine ⟨effects gs, cache, .ok items, ?_, hx, hcalls, rfl⟩
    show effects (es ++ (fs ++ _)) = _
    rw [effects_append, effects_append, hgs, heq]
    exact congrArg _ (List.append_nil _)

theorem run_update {o : UpdateOptions} {es : List (Event (Progress.calls.sum updateCalls))}
    (h : ((update o).executeBatch p rs recurse).Run es r)
    : ∃ r', Exchanged ⟨p.location, rootFolder p none, o.request rs recurse⟩
          ((effects es).filterMap serverEvent?) r' ∧
        r = r'.map fun _ => () := by
  obtain ⟨server, cache, r', he, hx, _, hr⟩ := exists_parts_of_run_update h
  rw [he, filterMap_serverEvent?]
  exact ⟨r', hx, hr⟩

namespace Sends

variable {E : Interface} {op : Operation E} {view : Event E → Option (Event Session.calls)}
variable {request : List Resource → Bool → Request} {es : List (Event (Progress.calls.sum E))}

theorem run_executeBatch (hop : Sends op view request)
    (h : (op.executeBatch p rs recurse).Run es r)
    : ∃ r', Exchanged ⟨p.location, rootFolder p none, request rs recurse⟩
          ((effects es).filterMap view) r' ∧
        r = r'.map fun _ => () := by
  cases hop with
  | update o =>
    obtain ⟨tag, ignore, _⟩ := o
    cases tag <;> exact run_update h
  | commit message =>
    rw [List.filterMap_some]
    exact run_commandBatch h
  | tag t =>
    rw [List.filterMap_some]
    exact run_commandBatch h

theorem run_handleNontraversed (hop : Sends op view request)
    (h : (op.handleNontraversed p rs).Run es r) : es = [] ∧ r = .ok () := by
  cases hop <;> cases h <;> exact ⟨rfl, rfl⟩

end Sends
end Operation
end SharedWorkspace
