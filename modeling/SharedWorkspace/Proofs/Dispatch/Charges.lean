import SharedWorkspace.Proofs.Dispatch.Accounting
import SharedWorkspace.Proofs.Progress.Scaling

/-!
When a provider is charged for. While its scope is held, that is for the batches that have been started, in
proportion to their units (`Settles`), and what is left of its budget is charged in one piece when the scope
has been released, or was not granted (`execute_settles`).
-/

namespace SharedWorkspace
namespace Dispatch

open Dialogue Activity Share

variable {E : Interface} {op : Operation E} {es fs before : List (Event (Progress.calls.sum (calls E)))}

def begun (es : List (Event (Progress.calls.sum (calls E)))) : Nat :=
  ((starts es).map fun x => x.2.units).sum

theorem begun_append : begun (es ++ fs) = begun es + begun fs := by
  unfold begun
  rw [starts_append, List.map_append, List.sum_append]

theorem starts_congr (h : Resembles es fs) : starts es = starts fs := by
  unfold starts
  rw [deeds_congr h]

theorem begun_congr (h : Resembles es fs) : begun es = begun fs := by
  unfold begun
  rw [starts_congr h]

def OfBatches (es : List (Event (Progress.calls.sum (calls E)))) : Prop :=
  deeds es = effects es

theorem OfBatches.append (h : OfBatches es) (h' : OfBatches fs) : OfBatches (es ++ fs) := by
  unfold OfBatches at h h' ⊢
  rw [deeds_append, effects_append, h, h']

theorem OfBatches.congr (h : OfBatches es) (he : Resembles es fs) : OfBatches fs := by
  unfold OfBatches at h ⊢
  rw [← deeds_congr he, ← he.1, h]

structure Paced (es : List (Event (Progress.calls.sum (calls E)))) : Prop where
  ofBatches : OfBatches es
  quiet : ∀ e ∈ es, Quiet e
  bounded : ∀ before, before <+: es → charged before ≤ begun before
  exact : charged es = begun es

namespace Paced

theorem append (h : Paced es) (h' : Paced fs) : Paced (es ++ fs) where
  ofBatches := h.ofBatches.append h'.ofBatches
  quiet := List.forall_mem_append.2 ⟨h.quiet, h'.quiet⟩
  bounded := charged_le_of_prefix_append (fun _ _ => begun_append) h.bounded h.exact h'.bounded
  exact := by
    rw [charged_append, begun_append, h.exact, h'.exact]

theorem nil : Paced ([] : List (Event (Progress.calls.sum (calls E)))) where
  ofBatches := rfl
  quiet := nofun
  bounded before hb := by
    rw [List.prefix_nil.1 hb]
    exact Nat.zero_le _
  exact := rfl

theorem poll (cancelled : Bool)
    : Paced ([⟨.inl .isCancelled, cancelled⟩] : List (Event (Progress.calls.sum (calls E)))) where
  ofBatches := rfl
  quiet := by simp [Quiet]
  bounded before hb := by
    have hcharged := charged_le_of_prefix hb
    exact hcharged.trans (Nat.zero_le _)
  exact := rfl

theorem batch {p : Provider} {b : Batch} (hb : OfBatches es) (hcharged : charged es = b.units)
    (hquiet : ∀ e ∈ es, Quiet e) (hstarts : starts es = [])
    : Paced (⟨.inr (Call.started p b), ()⟩ :: es) where
  ofBatches := congrArg (_ :: ·) hb
  quiet := List.forall_mem_cons.2 ⟨trivial, hquiet⟩
  bounded before hb := by
    rcases List.prefix_cons_iff.1 hb with rfl | ⟨bs, rfl, hbs⟩
    . exact Nat.zero_le _
    . calc charged (_ :: bs)
          = charged bs := Nat.zero_add _
        _ ≤ b.units := hcharged ▸ charged_le_of_prefix hbs
        _ ≤ b.units + begun bs := Nat.le_add_right _ _
        _ = begun (_ :: bs) := rfl
  exact := by
    show 0 + charged es = b.units + ((starts es).map fun x => x.2.units).sum
    rw [hcharged, hstarts, Nat.zero_add]
    rfl

end Paced

theorem paced_runBatch {p : Provider} {b : Batch} {r : Except Failure Unit}
    (h : (runBatch op p b).Run es r) : Paced es := by
  unfold runBatch at h
  obtain ⟨cancelled, es, rfl, h₁⟩ := run_call_bind h
  rw [← List.singleton_append]
  refine (Paced.poll cancelled).append ?_
  cases cancelled with
  | true =>
    cases h₁
    exact .nil
  | false =>
    rw [if_neg Bool.false_ne_true] at h₁
    obtain ⟨hcharged, hquiet⟩ := run_share_exact h₁
    obtain ⟨fs, h₂, rfl⟩ := run_share_relay h₁
    obtain ⟨⟨⟩, fs, rfl, h₃⟩ := run_call_bind h₂
    obtain ⟨fs, gs, _, rfl, h₄, h₅⟩ := run_bind_iff.1 h₃
    obtain ⟨⟨⟩, gs, rfl, h₆⟩ := run_call_bind h₅
    cases h₆
    obtain ⟨_, -, heffects⟩ := run_ofOperation h₄
    have hdeeds := deeds_eq_map heffects
    have hof : OfBatches (fs ++ [⟨.inr (Call.finished p b r), ()⟩]) :=
      OfBatches.append (hdeeds.trans heffects.symm) rfl
    have hstarts : starts (fs ++ [⟨.inr (Call.finished p b r), ()⟩]) = [] := by
      rw [starts_append]
      unfold starts
      rw [hdeeds, filterMap_ofOperation fun _ => rfl]
      rfl
    have hsame := resembles_relay_charges { allotment := b.units }
      (fs ++ [⟨.inr (Call.finished p b r), ()⟩])
    refine .batch (hof.congr (hsame _)) ?_ (List.forall_mem_cons.1 hquiet).2 ?_
    . exact (Nat.zero_add _).symm.trans hcharged
    . exact (starts_congr (hsame _)).symm.trans hstarts

theorem paced_runBatches {p : Provider} {bs : List Batch} {r : Except Failure (List Batch)}
    (h : (runBatches op p bs).Run es r) : Paced es := by
  induction bs generalizing es r with
  | nil =>
    cases h
    exact .nil
  | cons b rest ih =>
    unfold runBatches at h
    obtain ⟨es, fs, r', rfl, h₁, h₂⟩ := run_bind_iff.1 h
    refine (paced_runBatch h₁).append ?_
    cases r' with
    | error e =>
      cases h₂
      exact .nil
    | ok =>
      obtain ⟨fs, _, _, rfl, h₃, h₄⟩ := run_bind_iff.1 h₂
      cases h₄
      rw [List.append_nil]
      exact ih h₃

theorem starts_isPrefix_of_run_runBatches {p : Provider} {bs : List Batch}
    {r : Except Failure (List Batch)} (h : (runBatches op p bs).Run es r)
    : starts es <+: bs.map (p, ·) := by
  obtain ⟨⟨made, hcourse, hdeeds⟩, -⟩ := follows_runBatches h
  rw [starts_eq hdeeds]
  exact hcourse.isPrefix

theorem begun_le_units {run : ProviderRun} (h : starts es <+: run.batches.map (run.provider, ·))
    : begun es ≤ run.units := by
  have hunits : run.units = ((run.batches.map (run.provider, ·)).map fun x => x.2.units).sum := by
    unfold ProviderRun.units
    induction run.batches with
    | nil => rfl
    | cons b bs ih => simpa using ih
  obtain ⟨rest, hrest⟩ := h
  unfold begun
  rw [hunits, ← hrest, List.map_append, List.sum_append]
  exact Nat.le_add_right _ _

/--
What the monitor of a dispatch sees in the turn of a provider that is worth `budget` units: the name of the
task, whether the scope is granted, and if so, what happens until it is released.
-/
inductive Settles (op : Operation E) (budget : Nat) (run : ProviderRun)
    : List (Event (Progress.calls.sum (calls E))) → Prop where
  | refused : Settles op budget run (⟨.inl (.setTaskName (op.taskName run.provider)), ()⟩
      :: ⟨.inr (.acquire (op.scope run.provider)), false⟩ :: charges budget)
  | held {within : List (Event (Progress.calls.sum (calls E)))} (ofBatches : OfBatches within)
      (started : starts within <+: run.batches.map (run.provider, ·))
      (bounded : ∀ before, before <+: within → charged before ≤ budget * begun before / run.units)
      (exact : charged within = budget * begun within / run.units)
      : Settles op budget run (⟨.inl (.setTaskName (op.taskName run.provider)), ()⟩
        :: ⟨.inr (.acquire (op.scope run.provider)), true⟩
        :: (within ++ ((⟨.inr (.release (op.scope run.provider)), ()⟩ : Event (Progress.calls.sum (calls E)))
          :: charges (budget - budget * begun within / run.units))))

def close (E : Interface) (scope : ScopeKey) : List (Event (Progress.calls.sum (calls E))) :=
  [⟨.inr (.release scope), ()⟩, ⟨.inl .done, ()⟩]

theorem relay_close {budget total w : Nat} (hw : w ≤ total) (scope : ScopeKey)
    : relay (midway budget total w) (close E scope)
          ++ charges ((close E scope).foldl heed (midway budget total w)).finish.1
        =
      (⟨.inr (.release scope), ()⟩ : Event (Progress.calls.sum (calls E)))
        :: charges (budget - scaled budget total w) := by
  show _ :: (charges (midway budget total w).finish.1 ++ [])
    ++ charges (midway budget total w).finish.2.finish.1 = _
  rw [finish_midway hw, List.append_nil]
  exact List.append_nil _

theorem Paced.charged_relay {budget total : Nat} (h : Paced es) (hle : begun es ≤ total)
    (hmax : budget * total ≤ maxUnits)
    : charged (relay (midway budget total 0) es) = budget * begun es / total := by
  have hproduct : budget * begun es ≤ maxUnits := (Nat.mul_le_mul_left budget hle).trans hmax
  rw [charged_relay_midway h.quiet, h.exact, Nat.min_eq_left hle, scaled_eq hproduct]

theorem Paced.charged_relay_le {budget total : Nat} (h : Paced es) (hle : begun es ≤ total)
    (hmax : budget * total ≤ maxUnits) (hb : before <+: relay (midway budget total 0) es)
    : charged before ≤ budget * begun before / total := by
  obtain ⟨fs, hfs, rfl⟩ := exists_prefix_of_relay hb
  have hquiet : ∀ e ∈ fs, Quiet e := fun e he => h.quiet e (hfs.subset he)
  have hcharged : charged fs ≤ begun fs := h.bounded fs hfs
  have hbegun : begun fs ≤ total := by
    obtain ⟨rest, rfl⟩ := hfs
    rw [begun_append] at hle
    omega
  rw [← begun_congr (resembles_relay _ fs), charged_relay_midway hquiet,
    Nat.min_eq_left (hcharged.trans hbegun), scaled_eq]
  . exact Nat.div_le_div_right (Nat.mul_le_mul_left budget hcharged)
  . exact (Nat.mul_le_mul_left budget (hcharged.trans hbegun)).trans hmax

theorem Paced.settles {budget : Nat} {run : ProviderRun} (h : Paced es)
    (hstarts : starts es <+: run.batches.map (run.provider, ·)) (hmax : budget * run.units ≤ maxUnits)
    : Settles op budget run (⟨.inl (.setTaskName (op.taskName run.provider)), ()⟩
        :: ⟨.inr (.acquire (op.scope run.provider)), true⟩
        :: (relay (midway budget run.units 0) (es ++ close E (op.scope run.provider))
          ++ charges ((es ++ close E (op.scope run.provider)).foldl heed
            (midway budget run.units 0)).finish.1)) := by
  have hle := begun_le_units hstarts
  have hsame := resembles_relay (midway budget run.units 0) es
  have hproduct : budget * begun es ≤ maxUnits := (Nat.mul_le_mul_left budget hle).trans hmax
  rw [relay_append, List.foldl_append, foldl_heed_midway (Nat.zero_le _) h.quiet, Nat.zero_add,
    h.exact, Nat.min_eq_left hle, List.append_assoc, relay_close hle, scaled_eq hproduct,
    begun_congr hsame]
  refine .held (h.ofBatches.congr hsame) (starts_congr hsame ▸ hstarts) ?_ ?_
  . intro before hb
    exact h.charged_relay_le hle hmax hb
  . rw [← begun_congr hsame]
    exact h.charged_relay hle hmax

theorem settles_share {budget : Nat} {run : ProviderRun} {r : Except Failure ProviderRun}
    (h : (share budget (runProvider op run)).Run es r) (hmax : budget * run.units ≤ maxUnits)
    : Settles op budget run es := by
  obtain ⟨fs, h₁, rfl⟩ := run_share_relay h
  unfold runProvider at h₁
  obtain ⟨⟨⟩, fs, rfl, h₂⟩ := run_call_bind h₁
  obtain ⟨⟨⟩, fs, rfl, h₃⟩ := run_call_bind h₂
  obtain ⟨granted, fs, rfl, h₄⟩ := run_call_bind h₃
  cases granted with
  | false =>
    cases h₄
    show Settles op budget run
      (_ :: _ :: charges (({ allotment := budget } : Share).beginTask run.units).finish.1)
    rw [beginTask_new, finish_midway (Nat.zero_le _), scaled_zero, Nat.sub_zero]
    exact .refused
  | true =>
    rw [if_pos rfl] at h₄
    obtain ⟨es, fs, _, rfl, h₅, h₆⟩ := run_bind_iff.1 h₄
    obtain ⟨⟨⟩, fs, rfl, h₇⟩ := run_call_bind h₆
    obtain ⟨⟨⟩, fs, rfl, h₈⟩ := run_call_bind h₇
    cases h₈
    show Settles op budget run (_ :: _ ::
      (relay (({ allotment := budget } : Share).beginTask run.units) (es ++ close E _) ++
        charges ((es ++ close E _).foldl heed
          (({ allotment := budget } : Share).beginTask run.units)).finish.1))
    rw [beginTask_new]
    exact (paced_runBatches h₅).settles (starts_isPrefix_of_run_runBatches h₅) hmax

abbrev Round (E : Interface) :=
  ProviderRun × List (Event (Progress.calls.sum (calls E)))

def rounds (taken : List (Round E)) : List (Event (Progress.calls.sum (calls E))) :=
  taken.flatMap fun x => ⟨.inl .isCancelled, false⟩ :: ⟨.inr (.turn x.1.provider), ()⟩ :: x.2

theorem turns_rounds {taken : List (Round E)} (h : ∀ x ∈ taken, turns x.2 = [])
    : turns (rounds taken) = taken.map (·.1.provider) := by
  induction taken with
  | nil => rfl
  | cons x taken ih =>
    obtain ⟨hx, h⟩ := List.forall_mem_cons.1 h
    show x.1.provider :: turns (x.2 ++ rounds taken) = _
    rw [turns_append, hx, List.nil_append, ih h, List.map_cons]

theorem exists_rounds {budget : Nat} {runs : List ProviderRun} {r : Except Failure DispatchReport}
    (h : (runProviders op budget runs).Run es r)
    : ∃ taken closing, es = rounds taken ++ closing ∧
        (closing = [] ∨ closing = [⟨.inl .isCancelled, true⟩]) ∧ taken.map Prod.fst <+: runs ∧
        ∀ x ∈ taken, ∃ r, (share budget (runProvider op x.1)).Run x.2 r := by
  induction runs generalizing es r with
  | nil =>
    cases h
    exact ⟨[], [], rfl, .inl rfl, List.prefix_rfl, nofun⟩
  | cons run rest ih =>
    unfold runProviders at h
    obtain ⟨cancelled, es, rfl, h₁⟩ := run_call_bind h
    cases cancelled with
    | true =>
      cases h₁
      exact ⟨[], _, rfl, .inr rfl, List.nil_prefix, nofun⟩
    | false =>
      rw [if_neg Bool.false_ne_true] at h₁
      obtain ⟨⟨⟩, es, rfl, h₂⟩ := run_call_bind h₁
      obtain ⟨es, fs, r₁, rfl, h₃, h₄⟩ := run_bind_iff.1 h₂
      cases r₁ with
      | error e =>
        cases h₄
        refine ⟨[(run, es)], [], ?_, .inl rfl, List.prefix_append [run] rest, ?_⟩
        . unfold rounds
          simp
        . simpa using ⟨_, h₃⟩
      | ok ran =>
        obtain ⟨fs, _, r₂, rfl, h₅, h₆⟩ := run_bind_iff.1 h₄
        cases h₆
        obtain ⟨taken, closing, rfl, hclosing, hstart, htaken⟩ := ih h₅
        refine ⟨(run, es) :: taken, closing, ?_, hclosing, ?_, ?_⟩
        . unfold rounds
          simp
        . exact (List.prefix_cons_inj run).2 hstart
        . exact List.forall_mem_cons.2 ⟨⟨_, h₃⟩, htaken⟩

/--
Whatever an operation reports and however a dispatch of it ends: as long as the scope of a provider is held,
the monitor is charged for it in proportion to the batches that have been started, and never for more. What is
left of its budget is charged when the scope is not held, in one report of work or none.
-/
theorem execute_settles (c : DispatchConfig) (op : Operation E) (g : Groups)
    {r : Except Failure DispatchReport} (h : (execute c op g).Run es r)
    : let budget := c.providerBudget.toNat
      ∃ taken closing,
        es = ⟨.inl (.beginTask op.name (g.size * budget)), ()⟩ :: (rounds taken ++ closing) ∧
        (closing = [⟨.inl .done, ()⟩] ∨
          closing = [⟨.inl .isCancelled, true⟩, ⟨.inl .done, ()⟩]) ∧
        taken.map Prod.fst <+: g.plan c ∧ turns es = taken.map (·.1.provider) ∧
        ∀ x ∈ taken, budget * x.1.units ≤ maxUnits → Settles op budget x.1 x.2 := by
  unfold execute at h
  obtain ⟨⟨⟩, es, rfl, h₁⟩ := run_call_bind h
  obtain ⟨es, fs, r', rfl, h₂, h₃⟩ := run_bind_iff.1 h₁
  obtain ⟨⟨⟩, fs, rfl, h₄⟩ := run_call_bind h₃
  cases h₄
  obtain ⟨taken, closing, rfl, hclosing, hstart, htaken⟩ := exists_rounds h₂
  have hturns : ∀ x ∈ taken, turns x.2 = [] := by
    intro x hx
    obtain ⟨_, hrun⟩ := htaken x hx
    exact turns_of_run_share (fun _ h => turns_of_run_runProvider h) hrun
  refine ⟨taken, closing ++ [⟨.inl .done, ()⟩], by rw [List.append_assoc], ?_, hstart, ?_, ?_⟩
  . rcases hclosing with rfl | rfl
    . exact .inl rfl
    . exact .inr rfl
  . rw [turns_cons_concat rfl rfl, turns_append, turns_rounds hturns]
    rcases hclosing with rfl | rfl <;> exact List.append_nil _
  . intro x hx hmax
    obtain ⟨_, hrun⟩ := htaken x hx
    exact settles_share hrun hmax

/--
An operation that reports without rhyme or reason. For the notes it goes well; for the wiki, the first of two
batches fails, so that half of the budget is left when the scope is released.
-/
theorem execute_settles_unruly
    : let provider : ProjectName → Provider := fun project => ⟨"git", project, "host", "/"⟩
      let registry : Registry Unit := ["notes", "wiki"].foldl
        (fun r project => Registry.setProvider r (provider project)) {}
      let ts : List Traversal :=
        [⟨[.folder "notes" "a", .folder "wiki" "b"], .fullSubtree⟩, ⟨[.folder "wiki" "c"], .oneLevel⟩,
          ⟨[.folder "notes" "d"], .item⟩]
      let op : Operation .empty :=
        { name := "visit"
          taskName := Provider.display
          executeBatch := fun p _ _ => do
            Activity.worked 7
            Activity.beginTask "" 3
            Activity.worked 2
            Activity.beginTask "" 4
            Activity.worked 3
            return if p.project = "wiki" then .error (.client "refused") else .ok () }
      let g := Groups.ofTraversals registry.mappings ts
      let es := ((execute {} op g).eventsIn (untroubled fun c : Empty => c.elim) {}).map Prod.snd
      turns es = [provider "notes", provider "wiki"] ∧
        (es.map units).filter (0 < ·) = [600, 81, 228, 91, 330, 45, 125, 500] ∧
        ∃ taken : List (Round .empty), taken.map (·.1.provider) = [provider "notes", provider "wiki"] ∧
          ∀ x ∈ taken, Settles op 1000 x.1 x.2 := by
  intro provider registry ts op g es
  have hunits : ∀ run ∈ g.plan {}, 1000 * run.units ≤ maxUnits := by
    decide +kernel
  have hturns : turns es = [provider "notes", provider "wiki"] := by
    decide +kernel
  refine ⟨hturns, by decide +kernel, ?_⟩
  obtain ⟨taken, _, -, -, hstart, htaken, hsettles⟩ := execute_settles {} op g
    (run_in (untroubled fun c : Empty => c.elim) (execute {} op g) {})
  refine ⟨taken, htaken.symm.trans hturns, ?_⟩
  intro x hx
  exact hsettles x hx (hunits x.1 (hstart.subset (List.mem_map_of_mem hx)))

end Dispatch
end SharedWorkspace
