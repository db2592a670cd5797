import SharedWorkspace.Dispatch.Execute
import SharedWorkspace.Proofs.Dispatch.Groups
import SharedWorkspace.Proofs.Progress.Activity

/-!
The course that a dispatch takes: what it asks of its operation, one batch after another, and how it
comes to its end. `Course` says it of a list of batches; that a dispatch takes such a course is shown
where its runs are.
-/

namespace SharedWorkspace

open Dialogue Activity

variable {E : Interface}

inductive Errand where
  | executeBatch (p : Provider) (resources : List Resource) (recurse : Bool)
  | handleNontraversed (p : Provider) (resources : List Resource)
  deriving DecidableEq

def Operation.perform (op : Operation E) : Errand → Activity E (Except Failure Unit)
  | .executeBatch p rs recurse => op.executeBatch p rs recurse
  | .handleNontraversed p rs => op.handleNontraversed p rs

def Batch.errand (p : Provider) (b : Batch) : Errand :=
  match b.kind with
  | .deep => .executeBatch p b.resources true
  | .shallow => .executeBatch p b.resources false
  | .nontraversed => .handleNontraversed p b.resources

theorem Operation.onBatch_eq (op : Operation E) (p : Provider) (b : Batch)
    : op.onBatch p b = op.perform (b.errand p) := by
  unfold onBatch Batch.errand
  cases b.kind <;> rfl

def Selection.errands (p : Provider) (s : Selection) : List Errand :=
  (if s.deep = [] then [] else [.executeBatch p s.deep true])
    ++ (if s.shallow = [] then [] else [.executeBatch p s.shallow false])
    ++ (if s.nontraversed = [] then [] else [.handleNontraversed p s.nontraversed])

theorem Selection.map_errand_batches (c : DispatchConfig) (p : Provider) (s : Selection)
    : (s.batches c).map (Batch.errand p) = s.errands p := by
  unfold batches errands Batch.errand
  by_cases hd : s.deep = [] <;> by_cases hs : s.shallow = [] <;>
    by_cases hn : s.nontraversed = [] <;> simp [hd, hs, hn]

def DispatchReport.steps (runs : DispatchReport) : List (Provider × Batch) :=
  runs.flatMap fun run => run.batches.map (run.provider, ·)

namespace DispatchReport

@[simp]
theorem steps_cons (run : ProviderRun) (runs : DispatchReport)
    : steps (run :: runs) = run.batches.map (run.provider, ·) ++ runs.steps := rfl

end DispatchReport

namespace Groups

def errands (g : Groups) : List Errand :=
  g.values.flatMap fun (p, s) => s.errands p

theorem map_errand_plan (c : DispatchConfig) (g : Groups)
    : (DispatchReport.steps (g.plan c)).map (fun x => x.2.errand x.1) = g.errands := by
  unfold plan errands DispatchReport.steps
  rw [List.flatMap_map, List.map_flatMap]
  congr 1
  funext ⟨p, s⟩
  dsimp
  rw [← Selection.map_errand_batches c, List.map_map]
  rfl

theorem length_errands (c : DispatchConfig) (g : Groups)
    : g.errands.length = (DispatchReport.steps (g.plan c)).length := by
  rw [← g.map_errand_plan c, List.length_map]

end Groups

namespace Dispatch

def Call.isDeed : Call E → Bool
  | turn _ | acquire _ | release _ => false
  | started _ _ | finished _ _ _ | ofOperation _ => true

def deeds (es : List (Event (Progress.calls.sum (calls E)))) : List (Event (calls E)) :=
  (effects es).filter fun e => Call.isDeed e.1

section Deeds

variable {es fs : List (Event (Progress.calls.sum (calls E)))}

@[simp]
theorem deeds_append : deeds (es ++ fs) = deeds es ++ deeds fs := by
  unfold deeds
  rw [effects_append, List.filter_append]

theorem deeds_congr (h : Resembles es fs) : deeds es = deeds fs := by
  unfold deeds
  rw [h.1]

/--
Somebody wished to stop: said so when asked, or cancelled the wait for a scope.
-/
def Hindered (es : List (Event (Progress.calls.sum (calls E)))) : Prop :=
  true ∈ polls es ∨ ∃ scope, (⟨.acquire scope, false⟩ : Event (calls E)) ∈ effects es

theorem Hindered.congr (h : Hindered es) (he : Resembles es fs) : Hindered fs := by
  unfold Hindered
  rw [← he.1, ← he.2]
  exact h

theorem hindered_append : Hindered (es ++ fs) ↔ Hindered es ∨ Hindered fs := by
  unfold Hindered
  simp only [polls_append, effects_append, List.mem_append, exists_or]
  tauto

end Deeds

structure Callback (E : Interface) where
  provider : Provider
  batch : Batch
  events : List (Event (Progress.calls.sum E))
  result : Except Failure Unit

namespace Callback

def errand (k : Callback E) : Errand :=
  k.batch.errand k.provider

def IsOf (op : Operation E) (k : Callback E) : Prop :=
  (op.perform k.errand).Run k.events k.result

def ofOperation (e : Event E) : Event (calls E) :=
  ⟨.ofOperation e.1, e.2⟩

def deeds (k : Callback E) : List (Event (calls E)) :=
  ⟨.started k.provider k.batch, ()⟩ :: (effects k.events).map ofOperation
    ++ [⟨.finished k.provider k.batch k.result, ()⟩]

end Callback

def start? : Event (calls E) → Option (Provider × Batch)
  | ⟨.started p b, _⟩ => some (p, b)
  | _ => none

def answer? : Event (calls E) → Option (Except Failure Unit)
  | ⟨.finished _ _ r, _⟩ => some r
  | _ => none

def starts (es : List (Event (Progress.calls.sum (calls E)))) : List (Provider × Batch) :=
  (deeds es).filterMap start?

def answers (es : List (Event (Progress.calls.sum (calls E)))) : List (Except Failure Unit) :=
  (deeds es).filterMap answer?

section Callbacks

variable {es fs : List (Event (Progress.calls.sum (calls E)))} {made : List (Callback E)}

theorem starts_append : starts (es ++ fs) = starts es ++ starts fs := by
  unfold starts
  rw [deeds_append, List.filterMap_append]

theorem mem_of_mem_starts {p : Provider} {b : Batch} (h : (p, b) ∈ starts es)
    : ⟨.inr (.started p b), ()⟩ ∈ es := by
  obtain ⟨⟨c, x⟩, hc, he⟩ := List.mem_filterMap.1 h
  cases c with
  | started p' b' =>
    cases he
    exact mem_of_mem_effects (List.mem_filter.1 hc).1
  | _ => contradiction

theorem filterMap_ofOperation {β : Type} {f : Event (calls E) → Option β}
    (hf : ∀ e, f (Callback.ofOperation e) = none) (es : List (Event E))
    : (es.map Callback.ofOperation).filterMap f = [] := by
  rw [List.filterMap_map, List.filterMap_eq_nil_iff]
  intro e _
  exact hf e

theorem filterMap_deeds {β : Type} {f : Event (calls E) → Option β} {g : Callback E → β}
    (hf : ∀ k, k.deeds.filterMap f = [g k]) (h : deeds es = made.flatMap Callback.deeds)
    : (deeds es).filterMap f = made.map g := by
  rw [h]
  clear h
  induction made with
  | nil => rfl
  | cons k made ih =>
    rw [List.flatMap_cons, List.filterMap_append, hf, ih]
    rfl

theorem starts_eq (h : deeds es = made.flatMap Callback.deeds)
    : starts es = made.map fun k => (k.provider, k.batch) := by
  apply filterMap_deeds _ h
  intro k
  unfold Callback.deeds
  rw [List.cons_append, List.filterMap_cons, List.filterMap_append, filterMap_ofOperation fun _ => rfl]
  rfl

theorem answers_eq (h : deeds es = made.flatMap Callback.deeds)
    : answers es = made.map Callback.result := by
  apply filterMap_deeds _ h
  intro k
  unfold Callback.deeds
  rw [List.cons_append, List.filterMap_cons, List.filterMap_append, filterMap_ofOperation fun _ => rfl]
  rfl

end Callbacks

/--
The courses that a list of batches may take: it comes to its end, or one of them fails, or it is stopped
before one of them, for which there must have been a `cause`.
-/
inductive Course (op : Operation E) (cause : Prop)
    : List (Provider × Batch) → List (Callback E) → Except Failure Unit → Prop where
  | done : Course op cause [] [] (.ok ())
  | stopped (step : Provider × Batch) (rest : List (Provider × Batch)) (h : cause)
      : Course op cause (step :: rest) [] (.error .cancelled)
  | failed {k : Callback E} {e : Failure} (rest : List (Provider × Batch)) (h : k.IsOf op)
      (he : k.result = .error e) : Course op cause ((k.provider, k.batch) :: rest) [k] (.error e)
  | went {k : Callback E} {rest : List (Provider × Batch)} {made : List (Callback E)}
      {r : Except Failure Unit} (h : k.IsOf op) (hk : k.result = .ok ())
      (h' : Course op cause rest made r)
      : Course op cause ((k.provider, k.batch) :: rest) (k :: made) r

namespace Course

variable {op : Operation E} {cause : Prop} {steps steps' : List (Provider × Batch)}
variable {made made' : List (Callback E)} {r : Except Failure Unit}

theorem mono {cause' : Prop} (h : Course op cause steps made r) (hc : cause → cause')
    : Course op cause' steps made r := by
  induction h with
  | done => exact done
  | stopped step rest h => exact stopped step rest (hc h)
  | failed rest h he => exact failed rest h he
  | went h hk _ ih => exact went h hk ih

theorem append_error {e : Failure} (h : Course op cause steps made (.error e))
    (rest : List (Provider × Batch)) : Course op cause (steps ++ rest) made (.error e) := by
  generalize hr : Except.error e = r at h
  induction h with
  | done => contradiction
  | stopped _ _ h =>
    cases hr
    exact stopped _ _ h
  | failed _ h he => exact failed _ h he
  | went h hk _ ih => exact went h hk (ih hr)

theorem append_ok (h : Course op cause steps made (.ok ())) (h' : Course op cause steps' made' r)
    : Course op cause (steps ++ steps') (made ++ made') r := by
  generalize hr : Except.ok () = r' at h
  induction h with
  | done => exact h'
  | stopped => contradiction
  | failed => contradiction
  | went h hk _ ih => exact went h hk (ih hr)

theorem isOf (h : Course op cause steps made r) : ∀ k ∈ made, k.IsOf op := by
  induction h with
  | done => simp
  | stopped => simp
  | failed _ h => simpa using h
  | went h _ _ ih => simpa using ⟨h, ih⟩

theorem isPrefix (h : Course op cause steps made r)
    : made.map (fun k => (k.provider, k.batch)) <+: steps := by
  induction h with
  | done => exact List.nil_prefix
  | stopped => exact List.nil_prefix
  | failed => simp
  | went _ _ _ ih => simpa using ih

theorem last_of_error (h : Course op cause steps made r) {before after : List (Callback E)}
    {k : Callback E} (hm : made = before ++ k :: after) {e : Failure} (he : k.result = .error e)
    : after = [] ∧ r = .error e := by
  induction h generalizing before with
  | done => simp at hm
  | stopped => simp at hm
  | failed _ _ hk =>
    cases before with
    | nil =>
      cases hm
      rw [hk] at he
      exact ⟨rfl, he⟩
    | cons => simp at hm
  | went _ hk _ ih =>
    cases before with
    | nil =>
      cases hm
      rw [hk] at he
      contradiction
    | cons _ before =>
      rw [List.cons_append] at hm
      exact ih (List.cons.inj hm).2

theorem ok_iff (h : Course op cause steps made r)
    : r = .ok () ↔ made.length = steps.length ∧ ∀ k ∈ made, k.result = .ok () := by
  induction h with
  | done => simp
  | stopped => simp
  | failed _ _ he => simp [he]
  | went _ hk _ ih => simp [hk, ih]

theorem cause_of_error (h : Course op cause steps made r) {e : Failure} (hr : r = .error e)
    : (∃ k, made.getLast? = some k ∧ k.result = .error e) ∨ (e = .cancelled ∧ cause) := by
  induction h with
  | done => contradiction
  | stopped _ _ h =>
    cases hr
    exact .inr ⟨rfl, h⟩
  | failed _ _ he => exact .inl ⟨_, rfl, he.trans hr⟩
  | went _ _ _ ih =>
    rcases ih hr with ⟨k, hk, he⟩ | h
    . refine .inl ⟨k, ?_, he⟩
      rw [List.getLast?_cons, hk]
      rfl
    . exact .inr h

theorem error_of_shorter (h : Course op cause steps made r) (hl : made.length < steps.length)
    : ∃ e, r = .error e := by
  cases r with
  | error e => exact ⟨e, rfl⟩
  | ok =>
    have hlength := (h.ok_iff.1 rfl).1
    omega

theorem result_of_all (h : Course op cause steps made r) (hl : made.length = steps.length)
    (hn : steps ≠ []) : ∃ k, made.getLast? = some k ∧ r = k.result := by
  induction h with
  | done => contradiction
  | stopped => simp at hl
  | failed _ _ he => exact ⟨_, rfl, he.symm⟩
  | @went k rest made r _ hk h' ih =>
    cases rest with
    | nil =>
      cases h'
      exact ⟨k, rfl, hk.symm⟩
    | cons =>
      obtain ⟨k', hk', hr⟩ := ih (by simpa using hl) (by simp)
      refine ⟨k', ?_, hr⟩
      rw [List.getLast?_cons, hk']
      rfl

end Course
end Dispatch
end SharedWorkspace
