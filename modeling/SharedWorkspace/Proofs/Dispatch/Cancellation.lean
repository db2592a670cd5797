import Mathlib.Data.List.TakeWhile
import SharedWorkspace.Proofs.Dispatch.Execute
import SharedWorkspace.Proofs.Dispatch.Invariant
import SharedWorkspace.Proofs.Operation.Command

/-!
What becomes of a dispatch when somebody wishes to stop it. The main statement is `execute_heeds`:
nothing is started any more, and if not all was started before, the dispatch fails.
-/

namespace SharedWorkspace
namespace Dispatch

open Dialogue Activity

variable {E : Interface} {view : E.Call → Option Session.Call} {allows : Watch → E.Call → Prop}

/--
What may be seen after an event of a dispatch. A wait for a scope is granted upon the answer that nobody
wishes to stop, and cancelled upon the other one. Turns, releases and the beginning and the end of
callbacks are nothing that others could meddle with.
-/
def watchStep (view : E.Call → Option Session.Call) (s : Watch)
    : Event (Progress.calls.sum (calls E)) → Watch → Prop
  | ⟨.inl c, x⟩, t => Watch.step view s ⟨.inl c, x⟩ t
  | ⟨.inr (.ofOperation c), x⟩, t => Watch.step view s ⟨.inr c, x⟩ t
  | ⟨.inr (.acquire _), granted⟩, t => t.cancelled = !granted ∧ s.Drifts t
  | ⟨.inr _, _⟩, t => t = s

def watchRules (view : E.Call → Option Session.Call) (allows : Watch → E.Call → Prop)
    : Rules (Progress.calls.sum (calls E)) Watch where
  allows s
    | .inr (.started _ _) => s.cancelled = false
    | .inr (.ofOperation c) => allows s c
    | _ => True
  step := watchStep view

theorem obeys_ofOperation_watchRules {α : Type} {d : Activity E α} {Q : Watch → α → Prop} {s : Watch}
    (h : d.Obeys (Watch.rules view allows) Q s)
    : (ofOperation d).Obeys (watchRules view allows) Q s := by
  apply obeys_embed _ _ _ h
  . intro s c _
    trivial
  . intro s c x t ht
    exact ht
  . intro s c hc
    exact ⟨hc, fun x t ht => ht⟩

def watched (op : Operation E) (K : List SessionId → Prop)
    (hop : ∀ p b s, K s.sessions →
      (op.onBatch p b).Obeys (Watch.rules view allows) (fun t _ => K t.sessions) s)
    : Invariant (watchRules view allows) op where
  drift := Watch.Drifts
  alike :=
    { allows := fun _ _ => trivial
      refl := fun _ => ⟨id, rfl⟩
      beginTask := Iff.rfl
      setTaskName := Iff.rfl
      worked := Iff.rfl
      done := Iff.rfl }
  free s := K s.sessions
  within _ s := K s.sessions
  ready _ s := s.cancelled = false ∧ K s.sessions
  drift_free := by
    intro s t hd h
    rwa [hd.2]
  drift_within := by
    intro p s t hd h
    rwa [hd.2]
  poll_free := by
    rintro s b t h ⟨_, hd⟩
    rwa [hd.2]
  poll_within := by
    rintro p s b t h ⟨_, hd⟩
    rwa [hd.2]
  poll_ready := by
    rintro p s t h ⟨hc, hd⟩
    refine ⟨hc, ?_⟩
    rwa [hd.2]
  turn := by
    rintro p s h
    refine ⟨trivial, ?_⟩
    rintro x t rfl
    exact h
  acquire := by
    rintro p s h
    refine ⟨trivial, ?_, ?_⟩
    . rintro t ⟨_, hd⟩
      rwa [hd.2]
    . rintro t ⟨_, hd⟩
      rwa [hd.2]
  started := by
    rintro p b s ⟨hc, h⟩
    refine ⟨hc, ?_⟩
    rintro x t rfl
    exact obeys_ofOperation_watchRules (hop p b t h)
  finished := by
    rintro p b r s h
    refine ⟨trivial, ?_⟩
    rintro x t rfl
    exact h
  release := by
    rintro p s h
    refine ⟨trivial, ?_⟩
    rintro x t rfl
    exact h

theorem cancelled_of_watchStep {s t : Watch} {e : Event (Progress.calls.sum (calls E))}
    (h : watchStep view s e t) (hs : s.cancelled = true) : t.cancelled = true := by
  obtain ⟨c, x⟩ := e
  cases c with
  | inl c => exact (Watch.drifts_of_step_inl h).1 hs
  | inr c =>
    cases c with
    | ofOperation c => exact h.1 hs
    | acquire scope => exact h.2.1 hs
    | _ =>
      cases h
      exact hs

theorem cancelled_of_timeline {s t : Watch} {es : List (Watch × Event (Progress.calls.sum (calls E)))}
    (h : Timeline (watchStep view) s es t) (hs : s.cancelled = true)
    : ∀ m ∈ es, m.1.cancelled = true := by
  induction h with
  | nil => simp
  | cons h _ ih =>
    intro m hm
    rcases List.mem_cons.1 hm with rfl | hm
    . exact hs
    . exact ih (cancelled_of_watchStep h hs) m hm

theorem obeys_any (d : Activity E (Except Failure Unit)) (s : Watch)
    : d.Obeys (Watch.rules view fun _ _ => True) (fun _ _ => True) s := by
  apply obeys_of_keeps _ _ d trivial
  . intro s c _
    cases c <;> trivial
  . intro s e t _ _
    trivial

section Runs

variable {c : DispatchConfig} {op : Operation E} {g : Groups} {s t : Watch}
variable {es : List (Watch × Event (Progress.calls.sum (calls E)))}
variable {r : Except Failure DispatchReport}

theorem not_cancelled_of_started (h : (execute c op g).Run (es.map Prod.snd) r)
    (ht : Timeline (watchStep view) s es t) {w : Watch} {p : Provider} {b : Batch}
    (hm : (w, ⟨.inr (.started p b), ()⟩) ∈ es) : w.cancelled = false := by
  have hop : ∀ p b s, True →
      (op.onBatch p b).Obeys (Watch.rules view fun _ _ => True) (fun _ _ => True) s := by
    intro p b s _
    exact obeys_any _ s
  have hobeys := (watched op (fun _ => True) hop).obeys_execute (s := s) c g trivial
  exact (hobeys.of_run h ht).1 _ hm

theorem heedful_of_isCommand (hop : op.IsCommand view)
    (h : (execute c op g).Run (es.map Prod.snd) r) (ht : Timeline (watchStep view) s es t)
    : (∀ w d x, (w, ⟨.inr (.ofOperation d), x⟩) ∈ es → Watch.heedful view w d) ∧
        t.sessions = s.sessions := by
  have hop' : ∀ p b w, w.sessions = s.sessions →
      (op.onBatch p b).Obeys (Watch.rules view (Watch.heedful view))
        (fun t _ => t.sessions = s.sessions) w := by
    intro p b w hw
    exact hop.obeys p b hw
  have hobeys := (watched op (· = s.sessions) hop').obeys_execute (s := s) c g rfl
  obtain ⟨hall, hend⟩ := hobeys.of_run h ht
  refine ⟨?_, hend⟩
  intro w d x hm
  exact hall _ hm

theorem starts_eq_nil {w : Watch} {before after : List (Watch × Event (Progress.calls.sum (calls E)))}
    (h : (execute c op g).Run ((before ++ after).map Prod.snd) r)
    (hb : Timeline (watchStep view) s before w) (ha : Timeline (watchStep view) w after t)
    (hw : w.cancelled = true) : starts (after.map Prod.snd) = [] := by
  apply List.eq_nil_iff_forall_not_mem.2
  rintro ⟨p, b⟩ hp
  obtain ⟨⟨v, e⟩, hm, rfl⟩ := List.mem_map.1 (mem_of_mem_starts hp)
  have htrue := cancelled_of_timeline ha hw _ hm
  have hfalse := not_cancelled_of_started h (hb.append ha) (List.mem_append_right before hm)
  rw [hfalse] at htrue
  contradiction

end Runs

structure Heeds (op : Operation E) (view : E.Call → Option Session.Call) (planned : List Errand)
    (s : Watch) (es : List (Watch × Event (Progress.calls.sum (calls E)))) (t : Watch)
    (r : Except Failure DispatchReport) : Prop where
  started : ∀ w p b, (w, ⟨.inr (.started p b), ()⟩) ∈ es → w.cancelled = false
  demands : op.IsCommand view →
    ∀ w d x, (w, ⟨.inr (.ofOperation d), x⟩) ∈ es → Watch.heedful view w d
  sessions : op.IsCommand view → t.sessions = s.sessions
  stopped : ∀ before w after, es = before ++ after → Timeline (watchStep view) s before w →
    Timeline (watchStep view) w after t → w.cancelled = true →
    (starts (before.map Prod.snd)).length < planned.length →
    starts (after.map Prod.snd) = [] ∧ (r = .error .cancelled ∨
      ∃ e, r = .error e ∧ (answers (es.map Prod.snd)).getLast? = some (.error e))
  completed : (starts (es.map Prod.snd)).length = planned.length → planned ≠ [] →
    (answers (es.map Prod.snd)).getLast? = some (outcome r)

/--
A dispatch heeds the wish to stop, whenever it is made.
-/
theorem execute_heeds {N : Type} (registry : Registry N) (ts : List Traversal) (c : DispatchConfig)
    (op : Operation E) (view : E.Call → Option Session.Call) {s t : Watch}
    {es : List (Watch × Event (Progress.calls.sum (calls E)))} {r : Except Failure DispatchReport}
    (h : (execute c op (Groups.ofTraversals registry.mappings ts)).Run (es.map Prod.snd) r)
    (ht : Timeline (watchStep view) s es t)
    : Heeds op view (Groups.ofTraversals registry.mappings ts).errands s es t r := by
  have hg := Groups.ofTraversals_proper registry.mappings ts
  generalize Groups.ofTraversals registry.mappings ts = g at h hg
  obtain ⟨⟨made, hc, hd⟩, _⟩ := follows_execute hg h
  have hstarts : (starts (es.map Prod.snd)).length = made.length := by
    rw [starts_eq hd, List.length_map]
  have hanswers : ∀ k, made.getLast? = some k →
      (answers (es.map Prod.snd)).getLast? = some k.result := by
    intro k hk
    rw [answers_eq hd, List.getLast?_map, hk]
    rfl
  constructor
  . intro w p b hm
    exact not_cancelled_of_started h ht hm
  . intro hop
    exact (heedful_of_isCommand hop h ht).1
  . intro hop
    exact (heedful_of_isCommand hop h ht).2
  . intro before w after hes hb ha hw hl
    subst hes
    have hnil := starts_eq_nil h hb ha hw
    refine ⟨hnil, ?_⟩
    -- What was asked for before is all that is asked for, and less than was planned.
    rw [List.map_append, starts_append, hnil, List.append_nil] at hstarts
    rw [hstarts, g.length_errands c] at hl
    obtain ⟨e, he⟩ := hc.error_of_shorter hl
    rcases hc.cause_of_error he with ⟨k, hk, hke⟩ | ⟨rfl, _⟩
    . refine .inr ⟨e, outcome_eq_error_iff.1 he, ?_⟩
      rw [hanswers k hk, hke]
    . exact .inl (outcome_eq_error_iff.1 he)
  . intro hl hn
    rw [hstarts, g.length_errands c] at hl
    have hsteps : DispatchReport.steps (g.plan c) ≠ [] := by
      rw [← List.length_pos_iff] at hn ⊢
      rwa [← g.length_errands c]
    obtain ⟨k, hk, hr⟩ := hc.result_of_all hl hsteps
    rw [hanswers k hk, hr]

def interrupted (view : E.Call → Option Session.Call) (answer : (c : E.Call) → E.Answer c)
    (upon : (Progress.calls.sum E).Call → Bool)
    : Surroundings (Progress.calls.sum (calls E)) Watch
  | s, .inl .isCancelled => (s.cancelled, s)
  | s, .inl c => (c.reply s.cancelled, { s with cancelled := s.cancelled || upon (.inl c) })
  | s, .inr (.ofOperation c) =>
    (answer c, ⟨s.cancelled || upon (.inr c), s.sessionsAfter (view c)⟩)
  | s, .inr (.acquire _) => (!s.cancelled, s)
  | s, .inr (.turn _) | s, .inr (.release _) | s, .inr (.started _ _) | s, .inr (.finished _ _ _) =>
    ((), s)

theorem watchStep_interrupted (answer : (c : E.Call) → E.Answer c)
    (upon : (Progress.calls.sum E).Call → Bool) (s : Watch)
    (c : (Progress.calls.sum (calls E)).Call)
    : watchStep view s ⟨c, (interrupted view answer upon s c).1⟩
        (interrupted view answer upon s c).2 := by
  have hor : ∀ b, s.cancelled = true → (s.cancelled || b) = true := by
    intro b hs
    rw [hs, Bool.true_or]
  cases c with
  | inl c =>
    cases c with
    | isCancelled => exact ⟨rfl, id, rfl⟩
    | _ => exact ⟨hor _, rfl⟩
  | inr c =>
    cases c with
    | ofOperation c => exact ⟨hor _, rfl⟩
    | acquire scope => exact ⟨(Bool.not_not _).symm, id, rfl⟩
    | _ => rfl

/--
A commit that is to stop when its session has just been opened.
-/
theorem execute_heeds_commit
    : let registry : Registry Unit := Registry.setProvider {} ⟨"git", "website", "host", "/"⟩
      let ts : List Traversal :=
        [⟨[.folder "website" "src"], .fullSubtree⟩, ⟨[.folder "website" "drafts"], .oneLevel⟩]
      let op := Operation.commit "done"
      let answer : (c : Session.Call) → c.Answer := fun
        | .connect _ _ => pure (.ok 7)
        | .opened _ => ()
        | .execute _ _ => pure (.ok ⟨.ok, []⟩)
        | .close _ => .ok ()
      let upon : (Progress.calls.sum Session.calls).Call → Bool := fun
        | .inr (.opened _) => true
        | _ => false
      let d := execute {} op (Groups.ofTraversals registry.mappings ts)
      let es := d.eventsIn (interrupted some answer upon) {}
      let demands : List (Bool × Session.Call) := es.filterMap fun
        | (w, ⟨.inr (.ofOperation c), _⟩) => some (w.cancelled, c)
        | _ => none
      demands = [(false, .connect "host" (.new "host" "/" none)), (false, .opened 7),
          (true, .close 7)] ∧
        op.IsCommand some ∧
        Heeds op some (Groups.ofTraversals registry.mappings ts).errands {} es ⟨true, []⟩
          (.error .cancelled) := by
  intro registry ts op answer upon d es demands
  have hr : d.resultIn (interrupted some answer upon) {} = .error .cancelled := by
    decide +kernel
  have ht : d.endIn (interrupted some answer upon) {} = ⟨true, []⟩ := by
    decide +kernel
  refine ⟨by decide +kernel, .commit "done", ?_⟩
  apply execute_heeds registry ts {} op
  . rw [← hr]
    apply run_in
  . rw [← ht]
    apply timeline_in
    apply watchStep_interrupted

theorem exists_first_wish {s t : Watch} {es : List (Watch × Event (Progress.calls.sum (calls E)))}
    (h : Timeline (watchStep view) s es t) (hc : ∃ m ∈ es, m.1.cancelled = true)
    : ∃ w, w.cancelled = true ∧
        Timeline (watchStep view) s (es.takeWhile fun m => !m.1.cancelled) w ∧
        Timeline (watchStep view) w (es.dropWhile fun m => !m.1.cancelled) t := by
  induction h with
  | nil => simp at hc
  | @cons s t u e es h h' ih =>
    cases hs : s.cancelled with
    | true =>
      refine ⟨s, hs, ?_, ?_⟩
      . rw [List.takeWhile_cons_of_neg (by simp [hs])]
        exact .nil s
      . rw [List.dropWhile_cons_of_neg (by simp [hs])]
        exact .cons h h'
    | false =>
      have hc : ∃ m ∈ es, m.1.cancelled = true := by simpa [hs] using hc
      obtain ⟨w, hw, hb, ha⟩ := ih hc
      refine ⟨w, hw, ?_, ?_⟩
      . rw [List.takeWhile_cons_of_pos (by simp [hs])]
        exact .cons h hb
      . rw [List.dropWhile_cons_of_pos (by simp [hs])]
        exact ha

theorem exists_wish_after_failure
    : let registry : Registry Unit := Registry.setProvider {} ⟨"git", "website", "host", "/"⟩
      let ts : List Traversal :=
        [⟨[.folder "website" "src"], .fullSubtree⟩, ⟨[.folder "website" "drafts"], .item⟩]
      let op : Operation .empty :=
        { name := "visit"
          taskName := Provider.display
          executeBatch := fun _ _ _ => return .error (.client "refused") }
      let view : Interface.empty.Call → Option Session.Call := fun _ => none
      let upon : (Progress.calls.sum .empty).Call → Bool := fun
        | .inl (.worked _) => true
        | _ => false
      let around := interrupted view (fun (c : Empty) => c.elim) upon
      let d := execute {} op (Groups.ofTraversals registry.mappings ts)
      ∃ before w after t, before ++ after = d.eventsIn around {} ∧
        d.Run ((before ++ after).map Prod.snd) (.error (.client "refused")) ∧
        Timeline (watchStep view) {} before w ∧ Timeline (watchStep view) w after t ∧
        (∀ m ∈ before, m.1.cancelled = false) ∧ w.cancelled = true ∧
        (starts (before.map Prod.snd)).length = 1 ∧ (answers (before.map Prod.snd)).length = 1 ∧
        (Groups.ofTraversals registry.mappings ts).errands.length = 2 := by
  intro registry ts op view upon around d
  have hr : d.resultIn around {} = .error (.client "refused") := by
    decide +kernel
  have ht : Timeline (watchStep view) {} (d.eventsIn around {}) (d.endIn around {}) := by
    apply timeline_in
    apply watchStep_interrupted
  have hc : ∃ m ∈ d.eventsIn around {}, m.1.cancelled = true := by
    decide +kernel
  obtain ⟨w, hw, hb, ha⟩ := exists_first_wish ht hc
  have hsplit := List.takeWhile_append_dropWhile (p := fun m => !m.1.cancelled) (l := d.eventsIn around {})
  refine ⟨_, w, _, _, hsplit, ?_, hb, ha, ?_, hw, by decide +kernel, by decide +kernel,
    by decide +kernel⟩
  . rw [hsplit, ← hr]
    apply run_in
  . intro m hm
    simpa using List.mem_takeWhile_imp hm

/--
It is not enough to look at the callback that is under way when somebody first wishes to stop: if the one
before has failed and there is none any more, its failure is what the dispatch returns.
-/
theorem not_cancelled_after_failure
    : ¬ ∀ (E : Interface) (view : E.Call → Option Session.Call) (registry : Registry Unit)
        (ts : List Traversal) (c : DispatchConfig) (op : Operation E) (s t : Watch)
        (es : List (Watch × Event (Progress.calls.sum (calls E))))
        (r : Except Failure DispatchReport),
        (execute c op (Groups.ofTraversals registry.mappings ts)).Run (es.map Prod.snd) r →
        Timeline (watchStep view) s es t →
        ∀ before w after, es = before ++ after → Timeline (watchStep view) s before w →
          Timeline (watchStep view) w after t → (∀ m ∈ before, m.1.cancelled = false) →
          w.cancelled = true →
          (starts (before.map Prod.snd)).length
            < (Groups.ofTraversals registry.mappings ts).errands.length →
          r = .error .cancelled ∨
            ((answers (before.map Prod.snd)).length < (starts (before.map Prod.snd)).length ∧
              ∃ e, r = .error e ∧ (answers (es.map Prod.snd)).getLast? = some (.error e)) := by
  intro h
  obtain ⟨before, w, after, t, _, hrun, hb, ha, hfirst, hw, hstarts, hanswers, hplanned⟩ :=
    exists_wish_after_failure
  have hcancelled := h _ _ _ _ _ _ _ _ _ _ hrun (hb.append ha) before w after rfl hb ha hfirst hw
    (by rw [hstarts, hplanned]; decide)
  rw [hstarts, hanswers] at hcancelled
  simp at hcancelled

end Dispatch
end SharedWorkspace
