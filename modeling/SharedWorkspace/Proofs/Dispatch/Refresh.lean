import Mathlib.Data.List.Flatten
import SharedWorkspace.Proofs.Dispatch.Agreement
import SharedWorkspace.Proofs.Dispatch.Requests

/-!
What comes of refreshing remembered remote state in a dispatch of an update. Nothing that the server or the
caller could tell (`execute_undisturbed`): refreshes may fail, and report whatever they like.
-/

namespace SharedWorkspace

open Dialogue Activity

namespace Operation

def serverOnlooker : Onlooker Session.calls updateCalls where
  view := serverEvent?
  tame _ := True

variable {script : Script Session.calls}

theorem agree_onServer {α : Type} (d : RemoteWork α)
    : Activity.Agree serverOnlooker script
        (embed (fun c => Activity.perform (E := updateCalls) (.inl c)) d)
        (embed (fun c => Activity.perform (E := updateCalls) (.inl c)) d) := by
  apply (agree_refl d).embed (g := onServer)
  . exact fun c es x hr => run_perform hr
  . exact fun _ => rfl
  . exact fun _ _ => trivial

theorem sees_nil_of_run_refresh {o : UpdateOptions} {p : Provider} {rs : List Resource}
    {es : List (Event (Progress.calls.sum updateCalls))}
    (h : Run (if o.refreshCache then
        embed (fun c => Activity.perform (E := updateCalls) (.inr c))
          (RemoteCache.refreshAfterUpdate p rs)
      else
        pure ()) es ())
    : serverOnlooker.sees es = [] := by
  split at h
  . obtain ⟨gs, _, he⟩ := run_onCache h
    unfold Onlooker.sees
    rw [he]
    exact filterMap_serverEvent? [] _
  . cases h
    rfl

theorem agree_update (o : UpdateOptions) (cached cached' : Bool)
    : (update { o with refreshCache := cached }).Agree serverOnlooker script
        (update { o with refreshCache := cached' }) where
  name := rfl
  taskName := rfl
  scope := rfl
  onBatch p b := by
    have hexecute : ∀ recurse, Activity.Agree serverOnlooker script
        ((update { o with refreshCache := cached }).executeBatch p b.resources recurse)
        ((update { o with refreshCache := cached' }).executeBatch p b.resources recurse) := by
      intro recurse
      unfold update
      apply agree_report
      apply ((agree_onServer (runCommand p (o.request b.resources recurse))).share _).bind
      rintro (e | items)
      . exact agree_result _
      . apply Activity.Agree.bind
        . apply agree_share_of_unseen
          . exact fun _ _ h => sees_nil_of_run_refresh h
          . exact fun _ _ h => sees_nil_of_run_refresh h
        . exact fun _ => agree_report (agree_result _)
    unfold onBatch
    cases b.kind with
    | deep => exact hexecute true
    | shallow => exact hexecute false
    | nontraversed => exact agree_result _

end Operation

namespace Dispatch

open Operation

variable {o : UpdateOptions} {es es' : List (Event (Progress.calls.sum (calls updateCalls)))}

structure Trip where
  visit : Visit
  server : List (Event Session.calls)
  result : Except Failure (List ResponseItem)
  cache : List (Event RemoteCache.calls)

namespace Trip

def events (t : Trip) : List (Event updateCalls) :=
  t.server.map onServer ++ t.cache.map onCache

structure IsOf (o : UpdateOptions) (t : Trip) : Prop where
  server : Exchanged (t.visit.command o.request) t.server t.result
  cache : t.cache.map Sigma.fst = o.lookups t.visit.provider t.visit.resources t.result

end Trip

theorem Trip.IsOf.folders_sublist {t : Trip} (h : t.IsOf o)
    : (t.cache.map fun e => RemoteCache.folder e.1).Sublist t.visit.resources := by
  have hfolders : t.cache.map (fun e => RemoteCache.folder e.1)
      = (o.lookups t.visit.provider t.visit.resources t.result).map RemoteCache.folder := by
    rw [← h.cache, List.map_map]
    rfl
  rw [hfolders]
  unfold UpdateOptions.lookups
  split
  . exact List.nil_sublist _
  . split
    . rw [RemoteCache.map_folder_lookups]
      exact List.filter_sublist
    . exact List.nil_sublist _

theorem exists_trips {made : List (Callback updateCalls)} (h : ∀ k ∈ made, k.IsOf (update o))
    : ∃ trips : List Trip, made.flatMap (fun k => effects k.events) = trips.flatMap Trip.events ∧
        trips.map Trip.visit = made.filterMap (fun k => k.errand.visit?) ∧ ∀ t ∈ trips, t.IsOf o := by
  induction made with
  | nil => exact ⟨[], rfl, rfl, by simp⟩
  | cons k made ih =>
    obtain ⟨hk, hmade⟩ := List.forall_mem_cons.1 h
    obtain ⟨trips, he, hv, ht⟩ := ih hmade
    rw [List.flatMap_cons, List.filterMap_cons, he, ← hv]
    unfold Callback.IsOf at hk
    generalize k.errand = errand at hk
    cases errand with
    | executeBatch p rs recurse =>
      obtain ⟨server, cache, r, hs, hx, hc, _⟩ := exists_parts_of_run_update hk
      rw [hs]
      exact ⟨⟨⟨p, rs, recurse⟩, server, r, cache⟩ :: trips, rfl, rfl,
        List.forall_mem_cons.2 ⟨⟨hx, hc⟩, ht⟩⟩
    | handleNontraversed p rs =>
      obtain ⟨he', _⟩ := (Sends.update o).run_handleNontraversed hk
      rw [he']
      exact ⟨trips, rfl, rfl, ht⟩

structure Travels (o : UpdateOptions) (vs : List Visit)
    (es : List (Event (Progress.calls.sum (calls updateCalls)))) (trips : List Trip) : Prop where
  seen : (deeds es).filterMap operation? = trips.flatMap Trip.events
  genuine : ∀ t ∈ trips, t.IsOf o
  isPrefix : trips.map Trip.visit <+: vs
  once : (trips.flatMap fun t => t.cache.map Sigma.fst).Nodup

theorem exists_travels {c : DispatchConfig} {g : Groups} {r : Except Failure DispatchReport}
    (hg : g.Proper) (hn : (g.visits.flatMap Visit.resources).Nodup)
    (h : (execute c (update o) g).Run es r) : ∃ trips, Travels o g.visits es trips := by
  obtain ⟨⟨made, hc, hd⟩, _⟩ := follows_execute hg h
  obtain ⟨trips, he, hv, ht⟩ := exists_trips hc.isOf
  have hvisits : trips.map Trip.visit <+: g.visits := by
    rw [hv, ← g.filterMap_visit?_errands]
    have := hc.errands_isPrefix.filterMap Errand.visit?
    rwa [List.filterMap_map] at this
  refine ⟨trips, ?_, ht, hvisits, ?_⟩
  . rw [hd, List.filterMap_flatMap, ← he]
    congr 1
    funext k
    exact k.filterMap_operation?_deeds
  . apply List.Nodup.of_map RemoteCache.folder
    rw [List.map_flatMap]
    refine List.Nodup.sublist ?_ hn
    apply List.Sublist.trans _ (hvisits.sublist.flatMap Visit.resources)
    rw [List.flatMap_map]
    apply List.Sublist.flatMap_right
    intro t hmem
    rw [List.map_map]
    exact (ht t hmem).folders_sublist

theorem sees_onDispatch (es : List (Event (Progress.calls.sum (calls updateCalls))))
    : serverOnlooker.onDispatch.sees es = serverEvents serverEvent? es := by
  unfold Onlooker.sees serverEvents deeds
  rw [List.filterMap_filterMap, List.filterMap_filter]
  congr 1
  funext e
  obtain ⟨_ | _ | _ | _ | _ | _, _⟩ := e <;> rfl

theorem calm_of_not_hindered {script : Script Session.calls} (h : ¬ Hindered es)
    (hs : Plays script [] (serverEvents serverEvent? es))
    : Calm serverOnlooker.onDispatch script [] es where
  polls hp := h (.inl hp)
  tame := by
    rintro ⟨c, x⟩ he
    cases c with
    | acquire scope =>
      cases x with
      | true => rfl
      | false => exact absurd (.inr ⟨scope, he⟩) h
    | _ => trivial
  plays := by
    rw [sees_onDispatch]
    exact hs

/--
Whether and how remembered state is refreshed makes no difference to what the server sees, to the result
and to the progress. It is refreshed for the visits that succeed, each in its turn.
-/
theorem execute_undisturbed {N : Type} {registry : Registry N} (hr : registry.Reachable)
    (ts : List Traversal) (c : DispatchConfig) (o : UpdateOptions) (script : Script Session.calls)
    {cached cached' : Bool} {r r' : Except Failure DispatchReport}
    (h : (execute c (update { o with refreshCache := cached })
      (Groups.ofTraversals registry.mappings ts)).Run es r)
    (h' : (execute c (update { o with refreshCache := cached' })
      (Groups.ofTraversals registry.mappings ts)).Run es' r')
    (hn : ¬ Hindered es) (hn' : ¬ Hindered es')
    (hs : Plays script [] (serverEvents serverEvent? es))
    (hs' : Plays script [] (serverEvents serverEvent? es'))
    : let vs := (Groups.ofTraversals registry.mappings ts).visits
      serverEvents serverEvent? es = serverEvents serverEvent? es' ∧ r = r' ∧
        charged es = charged es' ∧
        (∃ trips, Travels { o with refreshCache := cached } vs es trips) ∧
        ∃ trips, Travels { o with refreshCache := cached' } vs es' trips := by
  have hg := Groups.ofTraversals_proper registry.mappings ts
  have hnodup := ((Groups.ofTraversals_sorts hr.faithful ts).splitsUp hr.faithful).nodup_resources_visits
  obtain ⟨seen, a, n, hd, hd'⟩ := agree_execute (agree_update o cached cached') c
    (Groups.ofTraversals registry.mappings ts) []
  obtain ⟨hsees, ha, hcharged⟩ := hd es r h (calm_of_not_hindered hn hs)
  obtain ⟨hsees', ha', hcharged'⟩ := hd' es' r' h' (calm_of_not_hindered hn' hs')
  rw [sees_onDispatch] at hsees hsees'
  exact ⟨hsees.trans hsees'.symm, ha.trans ha'.symm, hcharged.trans hcharged'.symm,
    exists_travels hg hnodup h, exists_travels hg hnodup h'⟩

theorem plays_of_smooth (server : (c : Session.Call) → c.Answer)
    (h : ∀ e ∈ es, Smooth (Permits fun e => ∀ s, serverEvent? e = some s → s.2 = server s.1) e)
    : Plays (fun _ c => server c) [] (serverEvents serverEvent? es) := by
  apply plays_of_forall
  intro s hs
  obtain ⟨e, he, hse⟩ := List.mem_filterMap.1 hs
  obtain ⟨⟨c, x⟩, hc, hce⟩ := List.mem_filterMap.1 he
  have hsmooth := h _ (mem_of_mem_effects (List.mem_filter.1 hc).1)
  cases c with
  | ofOperation c =>
    cases hce
    exact hsmooth s hse
  | _ => contradiction

/--
Of three folders the second cannot be looked at, and whoever looks reports without rhyme or reason.
-/
theorem execute_undisturbed_unruly
    : let provider : ProjectName → Provider := fun project => ⟨"git", project, "host", "/"⟩
      let registry : Registry Unit :=
        Registry.setProvider (Registry.setProvider {} (provider "notes")) (provider "wiki")
      let ts : List Traversal := [⟨[.folder "notes" "a", .file "notes" "b"], .fullSubtree⟩,
        ⟨[.folder "wiki" "c", .folder "notes" "d"], .oneLevel⟩]
      let server : (c : Session.Call) → c.Answer := fun
        | .connect _ _ => pure (.ok 7)
        | .opened _ => ()
        | .execute _ _ => pure (.ok ⟨.ok, []⟩)
        | .close _ => .ok ()
      let refresh : Resource → Work (Except Failure Unit) := fun r => do
        Activity.worked 500
        Activity.beginTask "" 3
        Activity.worked 7
        Activity.done
        return if r.path = "d" then .error (.client "gone") else .ok ()
      let around : Surroundings (Progress.calls.sum (calls updateCalls)) Unit := fun _ => fun
        | .inl c => (c.reply false, ())
        | .inr (.acquire _) => (true, ())
        | .inr (.ofOperation (.inl c)) => (server c, ())
        | .inr (.ofOperation (.inr (.refresh _ r _))) => (refresh r, ())
        | .inr (.release _) | .inr (.turn _) | .inr (.started _ _) | .inr (.finished _ _ _) => ((), ())
      let g := Groups.ofTraversals registry.mappings ts
      let dispatch := fun cached => execute {} (update { refreshCache := cached }) g
      let es := fun cached => ((dispatch cached).eventsIn around ()).map Prod.snd
      let made : List (Session.Call ⊕ RemoteCache.Call) :=
        ((deeds (es true)).filterMap operation?).map Sigma.fst
      let exchange : List LocalOption → List String → List (Session.Call ⊕ RemoteCache.Call) :=
        fun localOptions arguments =>
          [.inl (.connect "host" ⟨"host", "", none⟩), .inl (.opened 7),
            .inl (.execute 7 { kind := .update, localOptions, arguments }), .inl (.close 7)]
      let expected :=
        exchange [] ["a"] ++ [.inr (.refresh (provider "notes") (.folder "notes" "a") true)]
          ++ exchange [.doNotRecurse] ["d", "b"]
          ++ [.inr (.refresh (provider "notes") (.folder "notes" "d") true)]
          ++ exchange [.doNotRecurse] ["c"]
          ++ [.inr (.refresh (provider "wiki") (.folder "wiki" "c") true)]
      registry.Reachable ∧ (∀ cached, ¬ Hindered (es cached)) ∧
        (∀ cached, Plays (fun _ c => server c) [] (serverEvents serverEvent? (es cached))) ∧
        serverEvents serverEvent? (es true) = serverEvents serverEvent? (es false) ∧
        charged (es true) = charged (es false) ∧
        (∃ trips, Travels { refreshCache := true } g.visits (es true) trips) ∧
        made = expected := by
  intro provider registry ts server refresh around g dispatch es made exchange expected
  have hr : registry.Reachable := .setProvider (.setProvider .empty _) _
  have hsmooth : ∀ cached, ∀ e ∈ es cached,
      Smooth (Permits fun e => ∀ s, serverEvent? e = some s → s.2 = server s.1) e := by
    intro cached
    apply forall_mem_eventsIn
    rintro _ (c | c)
    . cases c <;> trivial
    . cases c with
      | acquire => rfl
      | ofOperation c =>
        rintro s hs
        obtain c | c := c
        . cases hs
          rfl
        . contradiction
      | _ => trivial
  have hrun : ∀ cached, ∃ r, (dispatch cached).Run (es cached) r :=
    fun cached => ⟨_, run_in around (dispatch cached) ()⟩
  have hmade : made = expected := by
    decide +kernel
  -- From here on it does not matter what happens in particular.
  clear_value made es
  have hn := fun cached => not_hindered_of_smooth (hsmooth cached)
  have hs := fun cached => plays_of_smooth server (hsmooth cached)
  obtain ⟨r, hrefreshed⟩ := hrun true
  obtain ⟨r', hbare⟩ := hrun false
  obtain ⟨hserver, _, hcharged, htrips, _⟩ := execute_undisturbed hr ts {} {} (fun _ c => server c)
    hrefreshed hbare (hn true) (hn false) (hs true) (hs false)
  exact ⟨hr, hn, hs, hserver, hcharged, htrips, hmade⟩

end Dispatch
end SharedWorkspace
