import SharedWorkspace.Proofs.Dispatch.Execute
import SharedWorkspace.Proofs.Progress.Accounting

/-!
The progress that a dispatch reports. Each provider whose turn has come is charged its budget, and nothing
else is, whatever the operation reports and however the dispatch ends (`execute_accounts`).
-/

namespace SharedWorkspace
namespace Dispatch

open Dialogue Activity

variable {E : Interface} {op : Operation E} {es fs : List (Event (Progress.calls.sum (calls E)))}

def turn? : Event (calls E) → Option Provider
  | ⟨.turn p, _⟩ => some p
  | _ => none

def turns (es : List (Event (Progress.calls.sum (calls E)))) : List Provider :=
  (effects es).filterMap turn?

@[simp]
theorem turns_append : turns (es ++ fs) = turns es ++ turns fs := by
  unfold turns
  rw [effects_append, List.filterMap_append]

theorem turns_cons_concat {e f : Event (Progress.calls.sum (calls E))} (he : turns [e] = [])
    (hf : turns [f] = []) : turns (e :: (es ++ [f])) = turns es := by
  rw [← List.singleton_append, turns_append, turns_append, he, hf, List.nil_append, List.append_nil]

theorem turns_of_run_ofOperation {α : Type} {d : Activity E α} {a : α}
    (h : (ofOperation d).Run es a) : turns es = [] := by
  obtain ⟨fs, _, he⟩ := run_ofOperation h
  unfold turns
  rw [he, List.filterMap_map]
  apply List.filterMap_eq_nil_iff.2
  intro e _
  rfl

theorem turns_of_run_share {α : Type} {n : Nat} {d : Activity (calls E) α} {a : α}
    (hd : ∀ es, d.Run es a → turns es = []) (h : (share n d).Run es a) : turns es = [] := by
  obtain ⟨fs, hr, he⟩ := run_share h
  unfold turns
  rw [← he.1]
  exact hd fs hr

theorem turns_of_run_runBatch {p : Provider} {b : Batch} {r : Except Failure Unit}
    (h : (runBatch op p b).Run es r) : turns es = [] := by
  unfold runBatch at h
  obtain ⟨cancelled, es, rfl, h₁⟩ := run_call_bind h
  cases cancelled with
  | true =>
    cases h₁
    rfl
  | false =>
    rw [if_neg Bool.false_ne_true] at h₁
    show turns es = []
    refine turns_of_run_share ?_ h₁
    intro fs h₂
    obtain ⟨_, fs, rfl, h₃⟩ := run_call_bind h₂
    obtain ⟨fs, gs, r', rfl, h₄, h₅⟩ := run_bind_iff.1 h₃
    obtain ⟨_, gs, rfl, h₆⟩ := run_call_bind h₅
    cases h₆
    show turns (fs ++ _) = []
    rw [turns_append, turns_of_run_ofOperation h₄]
    rfl

theorem turns_of_run_runBatches {p : Provider} {bs : List Batch} {r : Except Failure (List Batch)}
    (h : (runBatches op p bs).Run es r) : turns es = [] := by
  induction bs generalizing es r with
  | nil =>
    cases h
    rfl
  | cons b rest ih =>
    unfold runBatches at h
    obtain ⟨es, fs, r', rfl, h₁, h₂⟩ := run_bind_iff.1 h
    rw [turns_append, turns_of_run_runBatch h₁]
    cases r' with
    | error e =>
      cases h₂
      rfl
    | ok =>
      obtain ⟨fs, _, _, rfl, h₃, h₄⟩ := run_bind_iff.1 h₂
      cases h₄
      rw [List.append_nil]
      exact ih h₃

theorem turns_of_run_runProvider {run : ProviderRun} {r : Except Failure ProviderRun}
    (h : (runProvider op run).Run es r) : turns es = [] := by
  unfold runProvider at h
  obtain ⟨_, es, rfl, h₁⟩ := run_call_bind h
  obtain ⟨_, es, rfl, h₂⟩ := run_call_bind h₁
  obtain ⟨granted, es, rfl, h₃⟩ := run_call_bind h₂
  cases granted with
  | false =>
    cases h₃
    rfl
  | true =>
    rw [if_pos rfl] at h₃
    obtain ⟨es, fs, _, rfl, h₄, h₅⟩ := run_bind_iff.1 h₃
    obtain ⟨_, fs, rfl, h₆⟩ := run_call_bind h₅
    obtain ⟨_, fs, rfl, h₇⟩ := run_call_bind h₆
    cases h₇
    show turns (es ++ _) = []
    rw [turns_append, turns_of_run_runBatches h₄]
    rfl

/--
The parent of providers that are worth `budget` units each has seen `es`: it was charged that much for
each whose turn had come, and never more before.
-/
structure Metered (budget : Nat) (es : List (Event (Progress.calls.sum (calls E)))) : Prop where
  bounded : ∀ before, before <+: es → charged before ≤ budget * (turns before).length
  exact : charged es = budget * (turns es).length

namespace Metered

variable {budget : Nat}

theorem append (h : Metered budget es) (h' : Metered budget fs) : Metered budget (es ++ fs) where
  bounded := by
    refine charged_le_of_prefix_append ?_ h.bounded h.exact h'.bounded
    intro es fs
    rw [turns_append, List.length_append, Nat.mul_add]
  exact := by
    rw [charged_append, turns_append, List.length_append, Nat.mul_add, h.exact, h'.exact]

theorem of_idle (hc : charged es = 0) (ht : turns es = []) : Metered budget es where
  bounded before hb := by
    have hbefore := charged_le_of_prefix hb
    rw [hc] at hbefore
    exact Nat.le_trans hbefore (Nat.zero_le _)
  exact := by
    rw [hc, ht]
    rfl

theorem cons {e : Event (Progress.calls.sum (calls E))} (h : Metered budget es) (hu : units e = 0)
    (ht : turns [e] = []) : Metered budget (e :: es) :=
  append (of_idle (by simpa using hu) ht) h

theorem turn (p : Provider) (hc : charged es = budget) (ht : turns es = [])
    : Metered budget (⟨.inr (Call.turn p), ()⟩ :: es) where
  bounded before hb := by
    rcases List.prefix_cons_iff.1 hb with rfl | ⟨bs, rfl, hbs⟩
    . exact Nat.zero_le _
    . calc charged (_ :: bs)
          = charged bs := Nat.zero_add _
        _ ≤ budget * 1 := by rw [Nat.mul_one, ← hc]; exact charged_le_of_prefix hbs
        _ ≤ budget * (p :: turns bs).length := Nat.mul_le_mul_left _ (by simp)
  exact := by
    show 0 + charged es = budget * (p :: turns es).length
    rw [hc, ht, Nat.zero_add, List.length_singleton, Nat.mul_one]

end Metered

theorem metered_runProviders {budget : Nat} {runs : List ProviderRun}
    {r : Except Failure DispatchReport} (h : (runProviders op budget runs).Run es r)
    : Metered budget es ∧ (∀ e ∈ es, Quiet e) ∧ turns es <+: runs.map ProviderRun.provider ∧
        ∀ report, r = .ok report → turns es = runs.map ProviderRun.provider := by
  induction runs generalizing es r with
  | nil =>
    cases h
    exact ⟨.of_idle rfl rfl, by simp, List.prefix_rfl, fun _ _ => rfl⟩
  | cons run rest ih =>
    unfold runProviders at h
    obtain ⟨cancelled, es, rfl, h₁⟩ := run_call_bind h
    cases cancelled with
    | true =>
      cases h₁
      exact ⟨.of_idle rfl rfl, by simp [Quiet], List.nil_prefix, by rintro _ ⟨⟩⟩
    | false =>
      rw [if_neg Bool.false_ne_true] at h₁
      obtain ⟨_, es, rfl, h₂⟩ := run_call_bind h₁
      obtain ⟨es, fs, r₁, rfl, h₃, h₄⟩ := run_bind_iff.1 h₂
      -- The share of the provider is charged in full, also if the provider fails.
      obtain ⟨hcharged, hquiet⟩ := run_share_exact h₃
      have hturns : turns es = [] := turns_of_run_share (fun _ h => turns_of_run_runProvider h) h₃
      have hrun : Metered budget (⟨.inr (Call.turn run.provider), ()⟩ :: es) :=
        .turn run.provider hcharged hturns
      cases r₁ with
      | error e =>
        cases h₄
        rw [List.append_nil]
        refine ⟨hrun.cons rfl rfl, ?_, ?_, by rintro _ ⟨⟩⟩
        . exact List.forall_mem_cons.2 ⟨trivial, List.forall_mem_cons.2 ⟨trivial, hquiet⟩⟩
        . show run.provider :: turns es <+: _
          rw [hturns]
          exact List.prefix_append [run.provider] _
      | ok ran =>
        obtain ⟨fs, _, r₂, rfl, h₅, h₆⟩ := run_bind_iff.1 h₄
        obtain ⟨hrest, hquiet', hprefix, hall⟩ := ih h₅
        cases h₆
        rw [List.append_nil]
        have hcons : turns (es ++ fs) = turns fs := by
          rw [turns_append, hturns, List.nil_append]
        refine ⟨(hrun.append hrest).cons rfl rfl, ?_, ?_, ?_⟩
        . refine List.forall_mem_cons.2 ⟨trivial, List.forall_mem_cons.2 ⟨trivial, ?_⟩⟩
          exact List.forall_mem_append.2 ⟨hquiet, hquiet'⟩
        . show run.provider :: turns (es ++ fs) <+: _
          rw [hcons]
          exact (List.prefix_cons_inj _).2 hprefix
        . intro report hreport
          show run.provider :: turns (es ++ fs) = _
          cases r₂ with
          | error e => contradiction
          | ok runs => rw [hcons, hall runs rfl, List.map_cons]

structure Accounts (name : String) (budget : Nat) (g : Groups)
    (es : List (Event (Progress.calls.sum (calls E)))) (r : Except Failure DispatchReport) : Prop where
  framed : ∃ mid, es = ⟨.inl (.beginTask name (g.size * budget)), ()⟩ :: (mid ++ [⟨.inl .done, ()⟩]) ∧
    ∀ e ∈ mid, Quiet e
  bounded : ∀ before, before <+: es → charged before ≤ budget * (turns before).length
  exact : charged es = budget * (turns es).length
  inOrder : turns es <+: g.values.map Prod.fst
  complete : ∀ report, r = .ok report →
    turns es = g.values.map Prod.fst ∧ charged es = g.size * budget

/--
Whatever an operation reports and however a dispatch of it ends, its monitor is charged the budget of each
provider whose turn has come: all that was announced, if the dispatch succeeds.
-/
theorem execute_accounts {N : Type} (registry : Registry N) (ts : List Traversal) (c : DispatchConfig)
    (op : Operation E) {r : Except Failure DispatchReport}
    (h : (execute c op (Groups.ofTraversals registry.mappings ts)).Run es r)
    : Accounts op.name c.providerBudget.toNat (Groups.ofTraversals registry.mappings ts) es r := by
  generalize Groups.ofTraversals registry.mappings ts = g at h
  unfold execute at h
  obtain ⟨⟨⟩, es, rfl, h₁⟩ := run_call_bind h
  obtain ⟨es, fs, r', rfl, h₂, h₃⟩ := run_bind_iff.1 h₁
  obtain ⟨⟨⟩, fs, rfl, h₄⟩ := run_call_bind h₃
  cases h₄
  obtain ⟨hmetered, hquiet, hprefix, hall⟩ := metered_runProviders h₂
  have hproviders : (g.plan c).map ProviderRun.provider = g.values.map Prod.fst := by
    unfold Groups.plan
    rw [List.map_map]
    rfl
  rw [hproviders] at hprefix hall
  have hframe : Metered c.providerBudget.toNat
      (⟨.inl (.beginTask op.name (g.size * c.providerBudget.toNat)), ()⟩ :: (es ++ [⟨.inl .done, ()⟩])) :=
    (hmetered.append (.of_idle rfl rfl)).cons rfl rfl
  have hturns : turns (⟨.inl (.beginTask op.name (g.size * c.providerBudget.toNat)), ()⟩
      :: (es ++ [⟨.inl .done, ()⟩])) = turns es := turns_cons_concat rfl rfl
  refine ⟨⟨es, rfl, hquiet⟩, hframe.bounded, hframe.exact, hturns ▸ hprefix, ?_⟩
  intro report hreport
  refine ⟨hturns.trans (hall report hreport), hframe.exact.trans ?_⟩
  rw [hturns, hall report hreport, List.length_map, Nat.mul_comm]
  unfold OrderedMap.values OrderedMap.size
  rw [List.length_map]

/--
An operation that reports without rhyme or reason, and fails for the second of three providers.
-/
theorem execute_accounts_unruly
    : let provider : ProjectName → Provider := fun project => ⟨"git", project, "host", "/"⟩
      let registry : Registry Unit := ["notes", "website", "wiki"].foldl
        (fun r project => Registry.setProvider r (provider project)) {}
      let ts : List Traversal :=
        [⟨[.folder "wiki" "a", .folder "website" "b", .folder "notes" "c"], .fullSubtree⟩]
      let op : Operation .empty :=
        { name := "visit"
          taskName := Provider.display
          executeBatch := fun p _ _ => do
            Activity.worked 7
            Activity.beginTask "" 3
            Activity.worked 2
            Activity.beginTask "" 4
            Activity.worked 9
            Activity.done
            Activity.worked 1
            return if p.project = "website" then .error (.client "refused") else .ok () }
      let g := Groups.ofTraversals registry.mappings ts
      let es := ((execute {} op g).eventsIn (untroubled fun c : Empty => c.elim) {}).map Prod.snd
      g.size = 3 ∧ turns es = [provider "notes", provider "website"] ∧
        (es.map units).filter (0 < ·) = [660, 340, 660, 340] ∧
        Accounts "visit" 1000 g es (.error (.client "refused")) := by
  intro provider registry ts op g es
  have hr : (execute {} op g).resultIn (untroubled fun c : Empty => c.elim) {}
      = .error (.client "refused") := by
    decide +kernel
  refine ⟨by decide +kernel, by decide +kernel, by decide +kernel, ?_⟩
  apply execute_accounts registry ts {} op
  rw [← hr]
  apply run_in

end Dispatch
end SharedWorkspace
