import SharedWorkspace.Proofs.Dispatch.Execute
import SharedWorkspace.Proofs.Operation.Request

/-!
What a dispatch of an update, a commit or a tag has to do with servers: it makes the exchanges for the
commands of its groups, one after another (`exists_series`).
-/

namespace SharedWorkspace

open Dialogue Activity

variable {E : Interface} {view : Event E → Option (Event Session.calls)}
variable {request : List Resource → Bool → Request}

structure Visit where
  provider : Provider
  resources : List Resource
  recurse : Bool
  deriving DecidableEq

def Visit.command (request : List Resource → Bool → Request) (v : Visit) : Command :=
  ⟨v.provider.location, Operation.rootFolder v.provider none, request v.resources v.recurse⟩

def Selection.visits (p : Provider) (s : Selection) : List Visit :=
  (if s.deep = [] then [] else [⟨p, s.deep, true⟩])
    ++ (if s.shallow = [] then [] else [⟨p, s.shallow, false⟩])

def Groups.visits (g : Groups) : List Visit :=
  g.values.flatMap fun (p, s) => s.visits p

def Groups.commands (request : List Resource → Bool → Request) (g : Groups) : List Command :=
  g.visits.map (Visit.command request)

def Errand.visit? : Errand → Option Visit
  | .executeBatch p rs recurse => some ⟨p, rs, recurse⟩
  | .handleNontraversed _ _ => none

def Errand.command? (request : List Resource → Bool → Request) : Errand → Option Command
  | .executeBatch p rs recurse => some (Visit.command request ⟨p, rs, recurse⟩)
  | .handleNontraversed _ _ => none

theorem Errand.command?_eq (errand : Errand)
    : errand.command? request = errand.visit?.map (Visit.command request) := by
  cases errand <;> rfl

theorem Selection.filterMap_visit?_errands (p : Provider) (s : Selection)
    : (s.errands p).filterMap Errand.visit? = s.visits p := by
  unfold errands visits
  by_cases hd : s.deep = [] <;> by_cases hs : s.shallow = [] <;>
    by_cases hn : s.nontraversed = [] <;> simp [hd, hs, hn, Errand.visit?]

theorem Groups.filterMap_visit?_errands (g : Groups) : g.errands.filterMap Errand.visit? = g.visits := by
  unfold errands visits
  rw [List.filterMap_flatMap]
  congr 1
  funext ⟨p, s⟩
  exact s.filterMap_visit?_errands p

theorem Groups.filterMap_command?_errands (g : Groups)
    : g.errands.filterMap (Errand.command? request) = g.commands request := by
  unfold commands
  rw [← g.filterMap_visit?_errands, List.map_filterMap]
  congr 1
  funext errand
  exact errand.command?_eq

namespace Dispatch

def operation? : Event (calls E) → Option (Event E)
  | ⟨.ofOperation c, x⟩ => some ⟨c, x⟩
  | _ => none

def serverEvents (view : Event E → Option (Event Session.calls))
    (es : List (Event (Progress.calls.sum (calls E)))) : List (Event Session.calls) :=
  ((deeds es).filterMap operation?).filterMap view

namespace Callback

variable {k : Callback E} {op : Operation E}

def serverEvents (view : Event E → Option (Event Session.calls)) (k : Callback E)
    : List (Event Session.calls) :=
  (effects k.events).filterMap view

theorem filterMap_operation?_deeds (k : Callback E)
    : k.deeds.filterMap operation? = effects k.events := by
  unfold deeds
  rw [List.filterMap_append, List.filterMap_cons, List.filterMap_map]
  show (effects k.events).filterMap some ++ [] = _
  rw [List.filterMap_some, List.append_nil]

theorem exchanged_of_some (hop : op.Sends view request) (h : k.IsOf op) {c : Command}
    (hc : k.errand.command? request = some c)
    : ∃ r, Exchanged c (k.serverEvents view) r ∧ k.result = r.map fun _ => () := by
  unfold IsOf at h
  generalize k.errand = errand at h hc
  cases errand with
  | handleNontraversed => contradiction
  | executeBatch p rs recurse =>
    cases hc
    exact hop.run_executeBatch h

theorem serverEvents_of_none (hop : op.Sends view request) (h : k.IsOf op)
    (hc : k.errand.command? request = none) : k.serverEvents view = [] ∧ k.result = .ok () := by
  unfold IsOf at h
  generalize k.errand = errand at h hc
  cases errand with
  | executeBatch => contradiction
  | handleNontraversed p rs =>
    obtain ⟨he, hr⟩ := hop.run_handleNontraversed h
    refine ⟨?_, hr⟩
    unfold serverEvents
    rw [he]
    rfl

end Callback

theorem serverEvents_eq {es : List (Event (Progress.calls.sum (calls E)))}
    {made : List (Callback E)} (h : deeds es = made.flatMap Callback.deeds)
    : serverEvents view es = made.flatMap (Callback.serverEvents view) := by
  unfold serverEvents
  rw [h, List.filterMap_flatMap, List.filterMap_flatMap]
  congr 1
  funext k
  rw [k.filterMap_operation?_deeds]
  rfl

variable {op : Operation E}

theorem Course.exists_series (hop : op.Sends view request) {cause : Prop}
    {steps : List (Provider × Batch)} {made : List (Callback E)} {r : Except Failure Unit}
    (h : Course op cause steps made r)
    : ∃ xs, made.flatMap (Callback.serverEvents view) = xs.flatMap Exchange.events ∧
        Series (steps.filterMap fun step => (step.2.errand step.1).command? request) xs r := by
  induction h with
  | done => exact ⟨[], rfl, .done⟩
  | stopped => exact ⟨[], rfl, .stopped _⟩
  | @failed k e rest h he =>
    rw [List.filterMap_cons]
    cases hc : (k.batch.errand k.provider).command? request with
    | none =>
      obtain ⟨_, hr⟩ := Callback.serverEvents_of_none hop h hc
      rw [hr] at he
      contradiction
    | some c =>
      obtain ⟨r, hx, hr⟩ := Callback.exchanged_of_some hop h hc
      rw [List.flatMap_singleton]
      rw [he] at hr
      generalize k.serverEvents view = events at hx
      cases hx with
      | stopped =>
        cases hr
        exact ⟨[], rfl, .stopped _⟩
      | tried x hx hxc =>
        subst hxc
        refine ⟨[x], by simp, .failed _ hx ?_⟩
        cases hxr : x.result with
        | ok => rw [hxr] at hr; contradiction
        | error e' => rw [hxr] at hr; cases hr; rfl
  | @went k rest made r h hk _ ih =>
    obtain ⟨xs, hxs, hs⟩ := ih
    rw [List.filterMap_cons, List.flatMap_cons, hxs]
    cases hc : (k.batch.errand k.provider).command? request with
    | none =>
      obtain ⟨he, _⟩ := Callback.serverEvents_of_none hop h hc
      rw [he]
      exact ⟨xs, rfl, hs⟩
    | some c =>
      obtain ⟨r, hx, hr⟩ := Callback.exchanged_of_some hop h hc
      rw [hk] at hr
      generalize k.serverEvents view = events at hx
      cases hx with
      | stopped => contradiction
      | tried x hx hxc =>
        subst hxc
        refine ⟨x :: xs, by simp, ?_⟩
        cases hxr : x.result with
        | ok items => exact .went hx hxr hs
        | error => rw [hxr] at hr; contradiction

theorem exists_series (hop : op.Sends view request) {c : DispatchConfig} {g : Groups}
    {es : List (Event (Progress.calls.sum (calls E)))} {r : Except Failure DispatchReport}
    (hg : g.Proper) (h : (execute c op g).Run es r)
    : ∃ xs, serverEvents view es = xs.flatMap Exchange.events ∧
        Series (g.commands request) xs (outcome r) := by
  obtain ⟨⟨made, hc, hd⟩, _⟩ := follows_execute hg h
  obtain ⟨xs, hxs, hs⟩ := hc.exists_series hop
  refine ⟨xs, (serverEvents_eq hd).trans hxs, ?_⟩
  rw [← g.filterMap_command?_errands, ← g.map_errand_plan c, List.filterMap_map]
  exact hs

end Dispatch
end SharedWorkspace
