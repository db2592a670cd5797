import Mathlib.Data.List.Nodup
import SharedWorkspace.Proofs.Dispatch.Commands
import SharedWorkspace.Proofs.Operation.Success

/-!
What servers are asked to do in a dispatch of an update, a commit or a tag: to run the commands of its
groups, in order, and all of them if nothing goes wrong (`execute_asks`).
-/

namespace SharedWorkspace

open Dialogue Activity

variable {E : Interface}

theorem Requests.isDeepest_ownedBy {m : Mappings} {p : Provider} {q : Requests} {r : Resource}
    {d : Depth} : (q.ownedBy m p).IsDeepest r d ↔ q.IsDeepest r d ∧ m.resolve r = some p := by
  unfold IsDeepest
  simp only [mem_ownedBy]
  tauto

structure Visits (m : Mappings) (q : Requests) (vs : List Visit) : Prop where
  ordered : vs.Pairwise fun v w => compare v.provider.key w.provider.key = .lt ∨
    (v.provider = w.provider ∧ v.recurse = true ∧ w.recurse = false)
  nonempty : ∀ v ∈ vs, v.resources ≠ []
  owned : ∀ v ∈ vs, ∀ r ∈ v.resources, m.resolve r = some v.provider
  nodup : (vs.flatMap Visit.resources).Nodup
  mem_iff : ∀ r, r ∈ vs.flatMap Visit.resources ↔ r ∈ q.resources ∧ (∃ p, m.resolve r = some p) ∧
    ¬ (r.isContainer = true ∧ q.IsDeepest r .item)
  depth : ∀ v ∈ vs, ∀ r ∈ v.resources, r.isContainer = true →
    q.IsDeepest r (if v.recurse then .fullSubtree else .oneLevel)

namespace Selection

variable {s : Selection} {p : Provider} {q : Requests} {v : Visit}

theorem mem_visits : v ∈ s.visits p ↔
    v.resources ≠ [] ∧ (v = ⟨p, s.deep, true⟩ ∨ v = ⟨p, s.shallow, false⟩) := by
  unfold visits
  obtain ⟨p', rs, recurse⟩ := v
  by_cases hd : s.deep = [] <;> by_cases hs : s.shallow = [] <;> simp [hd, hs] <;> grind

theorem flatMap_resources_visits : (s.visits p).flatMap Visit.resources = s.deep ++ s.shallow := by
  unfold visits
  by_cases hd : s.deep = [] <;> by_cases hs : s.shallow = [] <;> simp [hd, hs]

theorem pairwise_visits
    : (s.visits p).Pairwise fun v w => v.provider = w.provider ∧ v.recurse = true ∧ w.recurse = false := by
  unfold visits
  by_cases hd : s.deep = [] <;> by_cases hs : s.shallow = [] <;> simp [hd, hs]

theorem SharesOut.mem_iff (h : s.SharesOut q) {r : Resource}
    : r ∈ s.deep ++ s.shallow ↔
        r ∈ q.resources ∧ ¬ (r.isContainer = true ∧ q.IsDeepest r .item) := by
  have hperm := h.perm.mem_iff (a := r)
  rw [Traversal.mem_distinct, List.mem_append] at hperm
  rw [← hperm, ← h.nontraversed]
  constructor
  . intro hr
    refine ⟨.inl hr, ?_⟩
    intro hn
    exact (List.nodup_append.1 h.nodup).2.2 r hr r hn rfl
  . rintro ⟨hr | hr, hn⟩
    . exact hr
    . contradiction

end Selection

namespace Groups

theorem mem_visits {g : Groups} {v : Visit}
    : v ∈ g.visits ↔ ∃ p s, (p, s) ∈ g.values ∧ v ∈ s.visits p := by
  simp [visits]

theorem flatMap_resources_visits (g : Groups)
    : g.visits.flatMap Visit.resources = g.values.flatMap fun e => e.2.deep ++ e.2.shallow := by
  unfold visits
  rw [List.flatMap_assoc]
  congr 1
  funext e
  exact Selection.flatMap_resources_visits

namespace SplitsUp

variable {m : Mappings} {q : Requests} {g : Groups} {p p' : Provider} {s s' : Selection}

theorem mem_deep_append_shallow (h : SplitsUp m q g) (hs : (p, s) ∈ g.values) {r : Resource}
    : r ∈ s.deep ++ s.shallow ↔ r ∈ q.resources ∧ m.resolve r = some p ∧
        ¬ (r.isContainer = true ∧ q.IsDeepest r .item) := by
  rw [(h.sharesOut p s hs).mem_iff, Requests.mem_resources_ownedBy, Requests.isDeepest_ownedBy]
  tauto

theorem nodup_resources_visits (h : SplitsUp m q g)
    : (g.visits.flatMap Visit.resources).Nodup := by
  rw [flatMap_resources_visits, List.nodup_flatMap]
  constructor
  . intro e he
    exact (List.nodup_append.1 (h.sharesOut e.1 e.2 he).nodup).1
  . have hordered := List.pairwise_map.1 h.ordered
    apply hordered.imp_of_mem
    intro e e' he he' hlt r hr hr'
    -- What two groups visit has one provider, so that they are one group.
    have hp := ((h.mem_deep_append_shallow he).1 hr).2.1
    have hp' := ((h.mem_deep_append_shallow he').1 hr').2.1
    have hrefl : compare e'.1.key e'.1.key = .eq := Std.ReflCmp.compare_self
    rw [Option.some.inj (hp.symm.trans hp'), hrefl] at hlt
    contradiction

theorem visits (h : SplitsUp m q g) : Visits m q g.visits where
  ordered := by
    apply List.pairwise_flatMap.2
    constructor
    . intro e _
      exact Selection.pairwise_visits.imp .inr
    . apply (List.pairwise_map.1 h.ordered).imp
      intro e e' hlt v hv w hw
      left
      obtain ⟨_, rfl | rfl⟩ := Selection.mem_visits.1 hv <;>
        obtain ⟨_, rfl | rfl⟩ := Selection.mem_visits.1 hw <;> exact hlt
  nonempty v hv := by
    obtain ⟨p, s, _, hv⟩ := mem_visits.1 hv
    exact (Selection.mem_visits.1 hv).1
  owned v hv r hr := by
    obtain ⟨p, s, hs, hv⟩ := mem_visits.1 hv
    have hmem := h.mem_deep_append_shallow hs (r := r)
    obtain ⟨_, rfl | rfl⟩ := Selection.mem_visits.1 hv
    . exact (hmem.1 (List.mem_append_left _ hr)).2.1
    . exact (hmem.1 (List.mem_append_right _ hr)).2.1
  nodup := h.nodup_resources_visits
  mem_iff r := by
    rw [flatMap_resources_visits, List.mem_flatMap]
    constructor
    . rintro ⟨e, he, hr⟩
      obtain ⟨hq, hp, hd⟩ := (h.mem_deep_append_shallow he).1 hr
      exact ⟨hq, ⟨_, hp⟩, hd⟩
    . rintro ⟨hq, ⟨p, hp⟩, hd⟩
      obtain ⟨s, hs⟩ := (h.providers p).2 ⟨r, hq, hp⟩
      exact ⟨_, hs, (h.mem_deep_append_shallow hs).2 ⟨hq, hp, hd⟩⟩
  depth v hv r hr hc := by
    obtain ⟨p, s, hs, hv⟩ := mem_visits.1 hv
    have hshares := h.sharesOut p s hs
    obtain ⟨_, rfl | rfl⟩ := Selection.mem_visits.1 hv
    . exact (Requests.isDeepest_ownedBy.1 ((hshares.deep r hc).1 hr)).1
    . exact (Requests.isDeepest_ownedBy.1 ((hshares.shallow r hc).1 hr)).1

end SplitsUp
end Groups

structure Command.IsAt (p : Provider) (c : Command) : Prop where
  location : c.location = p.location
  repository : c.root.repository = p.location
  path : Text.Strips (· = '/') p.rootPath.toList c.root.path.toList
  tag : c.root.tag = none

theorem Visit.isAt_command (request : List Resource → Bool → Request) (v : Visit)
    : (v.command request).IsAt v.provider where
  location := rfl
  repository := rfl
  path := by
    unfold command Operation.rootFolder RemoteFolder.new
    rw [String.toList_ofList]
    apply Text.strips_trimEnds
  tag := rfl

namespace Dispatch

def Permits (K : Event E → Prop) : Event (calls E) → Prop
  | ⟨.acquire _, granted⟩ => granted = true
  | ⟨.ofOperation c, x⟩ => K ⟨c, x⟩
  | _ => True

section Smooth

variable {op : Operation E} {K : Event E → Prop}

def SucceedsOn (op : Operation E) (K : Event E → Prop) : Prop :=
  ∀ p b, (op.onBatch p b).Obeys (smoothRules K) (fun _ r => r = .ok ()) ()

theorem obeys_runBatch_smooth (hop : SucceedsOn op K) (p : Provider) (b : Batch)
    : (runBatch op p b).Obeys (smoothRules (Permits K)) (fun _ r => r = .ok ()) () := by
  unfold runBatch
  apply obeys_call
  rintro cancelled rfl
  rw [if_neg Bool.false_ne_true]
  apply obeys_share alike_smoothRules (fun _ _ _ h _ => h)
  apply obeys_call
  intro _ _
  apply Obeys.bind
  have hb : (ofOperation (op.onBatch p b)).Obeys (smoothRules (Permits K)) (fun _ r => r = .ok ()) () := by
    apply obeys_embed _ _ _ (hop p b)
    . intro _ _ _
      trivial
    . intro _ c _ _ h
      cases c <;> exact h
    . intro _ c _
      exact ⟨trivial, fun _ _ h => h⟩
  apply hb.mono
  rintro _ _ rfl
  exact obeys_call fun _ _ => rfl

theorem obeys_runBatches_smooth (hop : SucceedsOn op K) (p : Provider) (bs : List Batch)
    : (runBatches op p bs).Obeys (smoothRules (Permits K)) (fun _ r => ∃ ran, r = .ok ran) () := by
  induction bs with
  | nil => exact ⟨[], rfl⟩
  | cons b rest ih =>
    unfold runBatches
    apply Obeys.bind
    apply (obeys_runBatch_smooth hop p b).mono
    rintro _ _ rfl
    apply Obeys.bind
    apply ih.mono
    rintro _ _ ⟨ran, rfl⟩
    exact ⟨_, rfl⟩

theorem obeys_runProvider_smooth (hop : SucceedsOn op K) (run : ProviderRun)
    : (runProvider op run).Obeys (smoothRules (Permits K)) (fun _ r => ∃ ran, r = .ok ran) () := by
  unfold runProvider
  apply obeys_call
  intro _ _
  apply obeys_call
  intro _ _
  apply obeys_call
  rintro granted rfl
  rw [if_pos rfl]
  apply Obeys.bind
  apply (obeys_runBatches_smooth hop _ _).mono
  rintro _ _ ⟨ran, rfl⟩
  apply obeys_call
  intro _ _
  exact obeys_call fun _ _ => ⟨_, rfl⟩

theorem obeys_runProviders_smooth (hop : SucceedsOn op K) (budget : Nat) (runs : List ProviderRun)
    : (runProviders op budget runs).Obeys (smoothRules (Permits K)) (fun _ r => ∃ report, r = .ok report)
        () := by
  induction runs with
  | nil => exact ⟨[], rfl⟩
  | cons run rest ih =>
    unfold runProviders
    apply obeys_call
    rintro cancelled rfl
    rw [if_neg Bool.false_ne_true]
    apply obeys_call
    intro _ _
    apply Obeys.bind
    apply (obeys_share alike_smoothRules (fun _ _ _ h _ => h) (obeys_runProvider_smooth hop run)).mono
    rintro _ _ ⟨ran, rfl⟩
    apply Obeys.bind
    apply ih.mono
    rintro _ _ ⟨report, rfl⟩
    exact ⟨_, rfl⟩

theorem obeys_execute_smooth (hop : SucceedsOn op K) (c : DispatchConfig) (g : Groups)
    : (execute c op g).Obeys (smoothRules (Permits K)) (fun _ r => ∃ report, r = .ok report) () := by
  unfold execute
  apply obeys_call
  intro _ _
  apply Obeys.bind
  apply (obeys_runProviders_smooth hop _ _).mono
  rintro _ _ ⟨report, rfl⟩
  exact obeys_call fun _ _ => ⟨report, rfl⟩

theorem not_hindered_of_smooth {es : List (Event (Progress.calls.sum (calls E)))}
    (h : ∀ e ∈ es, Smooth (Permits K) e) : ¬ Hindered es := by
  rintro (hp | ⟨scope, ha⟩)
  . obtain ⟨⟨c, x⟩, he, hx⟩ := List.mem_filterMap.1 hp
    obtain c | c := c
    . cases c with
      | isCancelled =>
        cases hx
        exact absurd (h _ he) Bool.noConfusion
      | _ => contradiction
    . contradiction
  . exact absurd (h _ (mem_of_mem_effects ha)) Bool.noConfusion

end Smooth

structure Asks (view : Event E → Option (Event Session.calls)) (cs : List Command)
    (es : List (Event (Progress.calls.sum (calls E)))) (xs : List Exchange)
    (r : Except Failure DispatchReport) : Prop where
  seen : serverEvents view es = xs.flatMap Exchange.events
  genuine : ∀ x ∈ xs, x.Genuine
  isPrefix : xs.map Exchange.command <+: cs
  sent_isPrefix : xs.filterMap Exchange.sent? <+: cs
  complete : (∀ e ∈ es, Smooth (Permits (Session.SucceedsIn view)) e) →
    (∃ report, r = .ok report) ∧ xs.map Exchange.sent? = cs.map some

variable {op : Operation E} {view : Event E → Option (Event Session.calls)}
variable {request : List Resource → Bool → Request}
variable {es : List (Event (Progress.calls.sum (calls E)))} {r : Except Failure DispatchReport}

/--
A dispatch has one command run for each visit that it is to make, whichever operation it is and whatever
was asked for; servers that fail and the wish to stop can only cut this short.
-/
theorem execute_asks {N : Type} {registry : Registry N} (hr : registry.Reachable)
    (ts : List Traversal) (c : DispatchConfig) (hop : op.Sends view request)
    (h : (execute c op (Groups.ofTraversals registry.mappings ts)).Run es r)
    : let vs := (Groups.ofTraversals registry.mappings ts).visits
      (∃ xs, Asks view (vs.map (Visit.command request)) es xs r) ∧
        Visits registry.mappings (Groups.requests ts) vs ∧
        ∀ v ∈ vs, (v.command request).IsAt v.provider := by
  obtain ⟨xs, hseen, hs⟩ :=
    exists_series hop (Groups.ofTraversals_proper registry.mappings ts) h
  refine ⟨⟨xs, hseen, hs.genuine, hs.isPrefix, hs.sent_isPrefix, ?_⟩,
    (Groups.ofTraversals_splitsUp hr ts).visits, fun v _ => v.isAt_command request⟩
  intro hsmooth
  have hok := ((obeys_execute_smooth hop.obeys_onBatch c _).of_run_stateless h hsmooth).2
  obtain ⟨hcommands, hresults⟩ := hs.of_ok (outcome_eq_ok_iff.2 hok)
  refine ⟨hok, ?_⟩
  rw [← Groups.commands, ← hcommands, List.map_map]
  apply List.map_congr_left
  intro x hx
  obtain ⟨items, hi⟩ := hresults x hx
  exact Exchange.sent?_of_result hi

/--
A tag, where the folder that is asked for alone gets none.
-/
theorem execute_asks_tag
    : let registry : Registry Unit := Registry.setProvider {} ⟨"git", "website", "host", "//site/"⟩
      let ts : List Traversal :=
        [⟨[.folder "website" "src"], .fullSubtree⟩, ⟨[.folder "website" "drafts"], .item⟩,
          ⟨[.file "website" "readme", .ofProject "website"], .oneLevel⟩]
      let op := Operation.tag (Tag.version "v1")
      let server : (c : Session.Call) → c.Answer := fun
        | .connect _ _ => pure (.ok 7)
        | .opened _ => ()
        | .execute _ _ => pure (.ok ⟨.ok, []⟩)
        | .close _ => .ok ()
      let around : Surroundings (Progress.calls.sum (calls Session.calls)) Unit := fun _ => fun
        | .inl c => (c.reply false, ())
        | .inr (.acquire _) => (true, ())
        | .inr (.ofOperation c) => (server c, ())
        | .inr (.release _) | .inr (.turn _) | .inr (.started _ _) | .inr (.finished _ _ _) => ((), ())
      let d := execute {} op (Groups.ofTraversals registry.mappings ts)
      let es := (d.eventsIn around ()).map Prod.snd
      let site : RemoteFolder := ⟨"host", "site", none⟩
      registry.Reachable ∧ (∀ e ∈ es, Smooth (Permits (Session.SucceedsIn some)) e) ∧
        ∃ xs : List Exchange, serverEvents some es = xs.flatMap Exchange.events ∧ xs.map Exchange.sent?
          =
        [some ⟨"host", site, { kind := .tag, arguments := ["v1", "src"] }⟩,
          some ⟨"host", site,
            { kind := .tag, localOptions := [.doNotRecurse], arguments := ["v1", ".", "readme"] }⟩] := by
  intro registry ts op server around d es site
  have hr : registry.Reachable := .setProvider .empty _
  have hsmooth : ∀ e ∈ es, Smooth (Permits (Session.SucceedsIn some)) e := by
    apply forall_mem_eventsIn
    rintro _ (c | c)
    . cases c <;> trivial
    . cases c with
      | acquire => rfl
      | ofOperation c =>
        rintro _ ⟨⟩
        cases c with
        | connect => rintro _ _ ⟨⟩; exact ⟨7, rfl⟩
        | opened => trivial
        | execute => rintro _ _ ⟨⟩; exact ⟨[], rfl⟩
        | close => rfl
      | _ => trivial
  refine ⟨hr, hsmooth, ?_⟩
  obtain ⟨⟨xs, hxs⟩, _⟩ := execute_asks hr ts {} (.tag (Tag.version "v1")) (d.run_in around ())
  refine ⟨xs, hxs.seen, ?_⟩
  rw [(hxs.complete hsmooth).2]
  decide +kernel

end Dispatch
end SharedWorkspace
