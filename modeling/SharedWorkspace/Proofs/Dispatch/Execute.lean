import SharedWorkspace.Proofs.Dispatch.Course
import SharedWorkspace.Scope.LockTable

/-!
The runs of a dispatch. The main statement is `execute_keepsTo`: whatever the surroundings do, a
dispatch asks its operation for what was planned when it started and for nothing else, up to the first
failure or the wish to stop.
-/

namespace SharedWorkspace
namespace Dispatch

open Dialogue Activity

variable {E : Interface} {op : Operation E} {steps steps' : List (Provider × Batch)}
variable {es fs : List (Event (Progress.calls.sum (calls E)))} {r : Except Failure Unit}

def Follows (op : Operation E) (steps : List (Provider × Batch))
    (es : List (Event (Progress.calls.sum (calls E)))) (r : Except Failure Unit) : Prop :=
  ∃ made, Course op (Hindered es) steps made r ∧ deeds es = made.flatMap Callback.deeds

namespace Follows

theorem congr (h : Follows op steps es r) (he : Resembles es fs) : Follows op steps fs r := by
  obtain ⟨made, hc, hm⟩ := h
  exact ⟨made, hc.mono fun h => h.congr he, (deeds_congr he).symm.trans hm⟩

theorem cons {e : Event (Progress.calls.sum (calls E))} (h : Follows op steps es r)
    (hd : deeds [e] = []) : Follows op steps (e :: es) r := by
  obtain ⟨made, hc, hm⟩ := h
  rw [← List.singleton_append]
  refine ⟨made, hc.mono fun h => hindered_append.2 (.inr h), ?_⟩
  rw [deeds_append, hd, hm, List.nil_append]

theorem append (h : Follows op steps es r) (hd : deeds fs = []) : Follows op steps (es ++ fs) r := by
  obtain ⟨made, hc, hm⟩ := h
  refine ⟨made, hc.mono fun h => hindered_append.2 (.inl h), ?_⟩
  rw [deeds_append, hd, hm, List.append_nil]

theorem append_error {e : Failure} (h : Follows op steps es (.error e))
    (rest : List (Provider × Batch)) : Follows op (steps ++ rest) es (.error e) := by
  obtain ⟨made, hc, hm⟩ := h
  exact ⟨made, hc.append_error rest, hm⟩

theorem append_ok (h : Follows op steps es (.ok ())) (h' : Follows op steps' fs r)
    : Follows op (steps ++ steps') (es ++ fs) r := by
  obtain ⟨made, hc, hm⟩ := h
  obtain ⟨made', hc', hm'⟩ := h'
  have hc := hc.mono fun h => hindered_append.2 (.inl (b := Hindered fs) h)
  have hc' := hc'.mono fun h => hindered_append.2 (.inr (a := Hindered es) h)
  refine ⟨made ++ made', hc.append_ok hc', ?_⟩
  rw [deeds_append, hm, hm', List.flatMap_append]

theorem stopped (hn : steps ≠ []) (hd : deeds es = []) (hh : Hindered es)
    : Follows op steps es (.error .cancelled) := by
  cases steps with
  | nil => contradiction
  | cons step rest => exact ⟨[], .stopped step rest hh, hd⟩

theorem of_callback {k : Callback E} (h : k.IsOf op) (hd : deeds es = k.deeds)
    : Follows op [(k.provider, k.batch)] es k.result := by
  cases hk : k.result with
  | error e => exact ⟨[k], .failed [] h hk, by simp [hd]⟩
  | ok => exact ⟨[k], .went h hk .done, by simp [hd]⟩

end Follows

theorem run_ofOperation {α : Type} {d : Activity E α} {a : α} (h : (ofOperation d).Run es a)
    : ∃ gs, d.Run gs a ∧ effects es = (effects gs).map Callback.ofOperation := by
  have hc : ∀ c fs x, (Activity.perform (E := calls E) (.ofOperation c)).Run fs x →
      effects fs = [Callback.ofOperation (E := E) ⟨c, x⟩] := by
    intro c fs x hx
    rw [run_perform hx]
    rfl
  exact run_embed hc h

theorem deeds_eq_map {gs : List (Event E)} (h : effects es = gs.map Callback.ofOperation)
    : deeds es = gs.map Callback.ofOperation := by
  unfold deeds
  rw [h, List.filter_eq_self]
  intro e he
  obtain ⟨_, _, rfl⟩ := List.mem_map.1 he
  rfl

theorem exists_callback {p : Provider} {b : Batch}
    (h : (do
      started p b
      let result ← ofOperation (op.onBatch p b)
      finished p b result
      return result : Activity (calls E) (Except Failure Unit)).Run es r)
    : ∃ gs, (Callback.mk p b gs r).IsOf op ∧ deeds es = (Callback.mk p b gs r).deeds := by
  obtain ⟨es₁, es, _, rfl, h₁, h⟩ := run_bind_iff.1 h
  obtain ⟨es₂, es, result, rfl, h₂, h⟩ := run_bind_iff.1 h
  obtain ⟨es₃, es, _, rfl, h₃, h⟩ := run_bind_iff.1 h
  cases h
  rw [run_perform h₁, run_perform h₃]
  obtain ⟨gs, hgs, he⟩ := run_ofOperation h₂
  rw [op.onBatch_eq] at hgs
  refine ⟨gs, hgs, ?_⟩
  rw [deeds_append, deeds_append, deeds_append, deeds_eq_map he]
  rfl

theorem follows_runBatch {p : Provider} {b : Batch} (h : (runBatch op p b).Run es r)
    : Follows op [(p, b)] es r := by
  unfold runBatch at h
  obtain ⟨cancelled, es, rfl, h₁⟩ := run_call_bind h
  cases cancelled with
  | true =>
    cases h₁
    exact Follows.stopped (by simp) rfl (.inl List.mem_cons_self)
  | false =>
    rw [if_neg Bool.false_ne_true] at h₁
    obtain ⟨fs, h₂, he⟩ := run_share h₁
    obtain ⟨gs, hk, hd⟩ := exists_callback h₂
    exact ((Follows.of_callback hk hd).congr he).cons rfl

def outcome {α : Type} (r : Except Failure α) : Except Failure Unit :=
  r.map fun _ => ()

section Outcome

variable {α : Type} {r : Except Failure α}

theorem outcome_eq_error_iff {e : Failure} : outcome r = .error e ↔ r = .error e := by
  cases r <;> simp [outcome, Except.map]

theorem outcome_eq_ok_iff : outcome r = .ok () ↔ ∃ a, r = .ok a := by
  cases r <;> simp [outcome, Except.map]

theorem outcome_map {β : Type} (f : α → β) : outcome (r.map f) = outcome r := by
  cases r <;> rfl

end Outcome

theorem follows_runBatches {p : Provider} {bs : List Batch} {r : Except Failure (List Batch)}
    (h : (runBatches op p bs).Run es r)
    : Follows op (bs.map (p, ·)) es (outcome r) ∧ ∀ ran, r = .ok ran → ran = bs := by
  induction bs generalizing es r with
  | nil =>
    cases h
    exact ⟨⟨[], .done, rfl⟩, fun ran hr => (Except.ok.inj hr).symm⟩
  | cons b rest ih =>
    unfold runBatches at h
    obtain ⟨es₁, es₂, r₁, rfl, h₁, h₂⟩ := run_bind_iff.1 h
    have hb := follows_runBatch h₁
    cases r₁ with
    | error e =>
      cases h₂
      rw [List.append_nil]
      exact ⟨hb.append_error _, nofun⟩
    | ok =>
      obtain ⟨es₃, _, r₂, rfl, h₃, h₄⟩ := run_bind_iff.1 h₂
      obtain ⟨hf, hr⟩ := ih h₃
      cases h₄
      rw [List.append_nil]
      refine ⟨?_, ?_⟩
      . rw [outcome_map]
        exact hb.append_ok hf
      . intro ran hran
        cases r₂ with
        | error e => contradiction
        | ok bs => rw [← Except.ok.inj hran, hr bs rfl]

theorem follows_runProvider {run : ProviderRun} {r : Except Failure ProviderRun}
    (hn : run.batches ≠ []) (h : (runProvider op run).Run es r)
    : Follows op (run.batches.map (run.provider, ·)) es (outcome r) ∧
        ∀ ran, r = .ok ran → ran = run := by
  have hn : run.batches.map (run.provider, ·) ≠ [] := by simpa using hn
  unfold runProvider at h
  obtain ⟨_, es, rfl, h₁⟩ := run_call_bind h
  obtain ⟨_, es, rfl, h₂⟩ := run_call_bind h₁
  obtain ⟨granted, es, rfl, h₃⟩ := run_call_bind h₂
  cases granted with
  | false =>
    cases h₃
    exact ⟨Follows.stopped hn rfl (.inr ⟨_, List.mem_cons_self⟩), nofun⟩
  | true =>
    -- Once the scope is granted it is released, whatever the batches come to.
    rw [if_pos rfl] at h₃
    obtain ⟨es, fs, r', rfl, h₄, h₅⟩ := run_bind_iff.1 h₃
    obtain ⟨_, fs, rfl, h₆⟩ := run_call_bind h₅
    obtain ⟨_, fs, rfl, h₇⟩ := run_call_bind h₆
    cases h₇
    obtain ⟨hf, hr⟩ := follows_runBatches h₄
    refine ⟨?_, ?_⟩
    . rw [outcome_map]
      exact (((hf.append rfl).cons rfl).cons rfl).cons rfl
    . intro ran hran
      cases r' with
      | error e => contradiction
      | ok bs => rw [← Except.ok.inj hran, hr bs rfl]

theorem follows_runProviders {budget : Nat} {runs : List ProviderRun}
    {r : Except Failure DispatchReport} (hn : ∀ run ∈ runs, run.batches ≠ [])
    (h : (runProviders op budget runs).Run es r)
    : Follows op (DispatchReport.steps runs) es (outcome r) ∧
        ∀ report, r = .ok report → report = runs := by
  induction runs generalizing es r with
  | nil =>
    cases h
    exact ⟨⟨[], .done, rfl⟩, fun report hr => (Except.ok.inj hr).symm⟩
  | cons run rest ih =>
    have hrun := hn run List.mem_cons_self
    have hrest := fun x hx => hn x (List.mem_cons_of_mem run hx)
    unfold runProviders at h
    rw [DispatchReport.steps_cons]
    obtain ⟨cancelled, es, rfl, h₁⟩ := run_call_bind h
    cases cancelled with
    | true =>
      cases h₁
      exact ⟨Follows.stopped (by simp [hrun]) rfl (.inl List.mem_cons_self), nofun⟩
    | false =>
      rw [if_neg Bool.false_ne_true] at h₁
      obtain ⟨_, es, rfl, h₂⟩ := run_call_bind h₁
      obtain ⟨es, fs, r₁, rfl, h₃, h₄⟩ := run_bind_iff.1 h₂
      obtain ⟨gs, h₅, he⟩ := run_share h₃
      obtain ⟨hf, hr⟩ := follows_runProvider hrun h₅
      have hf := hf.congr he
      cases r₁ with
      | error e =>
        cases h₄
        rw [List.append_nil]
        exact ⟨((hf.append_error _).cons rfl).cons rfl, nofun⟩
      | ok ran =>
        obtain ⟨fs, _, r₂, rfl, h₆, h₇⟩ := run_bind_iff.1 h₄
        obtain ⟨hf', hr'⟩ := ih hrest h₆
        cases h₇
        rw [List.append_nil]
        refine ⟨?_, ?_⟩
        . rw [outcome_map]
          exact ((hf.append_ok hf').cons rfl).cons rfl
        . intro report hreport
          cases r₂ with
          | error e => contradiction
          | ok runs => rw [← Except.ok.inj hreport, hr ran rfl, hr' runs rfl]

theorem follows_execute {c : DispatchConfig} {g : Groups} {r : Except Failure DispatchReport}
    (hg : g.Proper) (h : (execute c op g).Run es r)
    : Follows op (DispatchReport.steps (g.plan c)) es (outcome r) ∧
        ∀ report, r = .ok report → report = g.plan c := by
  unfold execute at h
  obtain ⟨_, es, rfl, h₁⟩ := run_call_bind h
  obtain ⟨es, fs, r', rfl, h₂, h₃⟩ := run_bind_iff.1 h₁
  obtain ⟨_, fs, rfl, h₄⟩ := run_call_bind h₃
  cases h₄
  obtain ⟨hf, hr⟩ := follows_runProviders (hg.batches_ne_nil c) h₂
  exact ⟨(hf.append rfl).cons rfl, hr⟩

theorem Course.errands_isPrefix {cause : Prop} {made : List (Callback E)} {c : DispatchConfig}
    {g : Groups} (h : Course op cause (DispatchReport.steps (g.plan c)) made r)
    : made.map Callback.errand <+: g.errands := by
  rw [← g.map_errand_plan c]
  have := h.isPrefix.map fun x => x.2.errand x.1
  rwa [List.map_map] at this

/--
In a dispatch of `op` to the groups `g` there happened `es`, which is the callbacks `made`, and it
returned `r`, all in keeping with what was planned.
-/
structure KeepsTo (op : Operation E) (c : DispatchConfig) (g : Groups)
    (es : List (Event (Progress.calls.sum (calls E)))) (made : List (Callback E))
    (r : Except Failure DispatchReport) : Prop where
  seen : deeds es = made.flatMap Callback.deeds
  genuine : ∀ k ∈ made, k.IsOf op
  isPrefix : made.map Callback.errand <+: g.errands
  inOrder : ((g.plan c).map fun run => run.provider.key).Pairwise fun a b => compare a b = .lt
  failed : ∀ before k after e, made = before ++ k :: after → k.result = .error e →
    after = [] ∧ r = .error e
  cause : ∀ e, r = .error e → (∃ k, made.getLast? = some k ∧ k.result = .error e) ∨
    (e = .cancelled ∧ Hindered es)
  succeeded : (∃ report, r = .ok report) ↔
    made.map Callback.errand = g.errands ∧ ∀ k ∈ made, k.result = .ok ()
  report : ∀ report, r = .ok report → report = g.plan c ∧
    ∀ run ∈ report, run.batches ≠ [] ∧ ∀ b ∈ run.batches, b.resources ≠ []

/--
A dispatch keeps to what is planned for the mappings that it finds at its start, even if callbacks fail,
stop it or change the registry meanwhile.
-/
theorem execute_keepsTo {N : Type} (registry : Registry N) (ts : List Traversal)
    (c : DispatchConfig) (op : Operation E) {r : Except Failure DispatchReport}
    (h : (execute c op (Groups.ofTraversals registry.mappings ts)).Run es r)
    : ∃ made, KeepsTo op c (Groups.ofTraversals registry.mappings ts) es made r := by
  have hg := Groups.ofTraversals_proper registry.mappings ts
  generalize Groups.ofTraversals registry.mappings ts = g at h hg
  obtain ⟨⟨made, hc, hd⟩, hr⟩ := follows_execute hg h
  have hprefix := hc.errands_isPrefix
  -- A prefix of what was planned is all of it if it is as long.
  have hlength : made.map Callback.errand = g.errands
      ↔ made.length = (DispatchReport.steps (g.plan c)).length := by
    rw [← g.length_errands c, ← List.length_map Callback.errand]
    exact ⟨congrArg _, hprefix.eq_of_length⟩
  refine ⟨made, hd, hc.isOf, hprefix, ?_, ?_, ?_, ?_, ?_⟩
  . unfold Groups.plan
    rw [List.map_map]
    exact Groups.ordered hg.key
  . intro before k after e hm he
    rw [← outcome_eq_error_iff]
    exact hc.last_of_error hm he
  . intro e he
    rw [← outcome_eq_error_iff] at he
    exact hc.cause_of_error he
  . rw [← outcome_eq_ok_iff, hlength]
    exact hc.ok_iff
  . intro report h'
    rw [hr report h']
    refine ⟨rfl, ?_⟩
    intro run hrun
    exact ⟨hg.batches_ne_nil c run hrun, Groups.resources_ne_nil hrun⟩

def untroubled (answer : (c : E.Call) → E.Answer c)
    : Surroundings (Progress.calls.sum (calls E)) LockTable
  | t, .inl c => (c.reply false, t)
  | t, .inr (.acquire scope) =>
    match t.hold? scope with
    | some u => (true, u)
    | none => (false, t)
  | t, .inr (.release scope) => ((), t.release scope)
  | t, .inr (.turn _) | t, .inr (.started _ _) | t, .inr (.finished _ _ _) => ((), t)
  | t, .inr (.ofOperation c) => (answer c, t)

/--
An operation that takes the provider away from its project in one batch, and fails in the next.
-/
theorem execute_keepsTo_unmapped
    : let website : Provider := ⟨"git", "website", "host", "/"⟩
      let registry : Registry Unit := Registry.setProvider {} website
      let ts : List Traversal :=
        [⟨[.folder "website" "src"], .fullSubtree⟩, ⟨[.folder "website" "drafts"], .item⟩]
      let unmap : Interface := ⟨ProjectName, fun _ => Option Provider⟩
      let op : Operation unmap :=
        { name := "retire"
          taskName := Provider.display
          executeBatch := fun p _ _ => do
            let _ ← Activity.perform (E := unmap) p.project
            return .ok ()
          handleNontraversed := fun _ _ => return .error (.client "refused") }
      let g := Groups.ofTraversals registry.mappings ts
      let es := (execute {} op g).eventsIn (untroubled fun _ => some website) {}
      g.errands = [.executeBatch website [.folder "website" "src"] true,
          .handleNontraversed website [.folder "website" "drafts"]] ∧
        ∃ made, KeepsTo op {} g (es.map Prod.snd) made (.error (.client "refused")) := by
  intro website registry ts unmap op g es
  have hr : (execute {} op g).resultIn (untroubled fun _ => some website) {}
      = .error (.client "refused") := by
    decide +kernel
  refine ⟨by decide +kernel, ?_⟩
  apply execute_keepsTo registry ts {} op
  rw [← hr]
  apply run_in

end Dispatch
end SharedWorkspace
