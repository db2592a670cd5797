import Mathlib.Logic.Function.Basic
import Mathlib.Logic.Relation
import SharedWorkspace.Proofs.Dispatch.Invariant
import SharedWorkspace.Proofs.Scope.Wait

/-!
Dispatches that share one table of scopes. Any number of them take turns in any order, one call at a time. The
main statement is `run_untangled`: no two of them are in callbacks under the same scope, and they never wait
for one another in a circle, since who waits for a scope holds none.
-/

namespace SharedWorkspace
namespace Dispatch

open Dialogue Activity

structure Job where
  interface : Interface
  op : Operation interface
  config : DispatchConfig
  groups : Groups
  answered : ∀ c, Nonempty (interface.Answer c)

namespace Job

abbrev Call (j : Job) :=
  (Progress.calls.sum (calls j.interface)).Call

abbrev Answer (j : Job) :=
  (Progress.calls.sum (calls j.interface)).Answer

abbrev Rest (j : Job) :=
  Activity (calls j.interface) (Except Failure DispatchReport)

def start (j : Job) : j.Rest :=
  execute j.config j.op j.groups

abbrev Replies (j : Job) :=
  (c : j.Call) → j.Answer c

theorem nonempty_replies (j : Job) : Nonempty j.Replies := by
  refine ⟨?_⟩
  intro c
  cases c with
  | inl c => exact c.reply false
  | inr c =>
    cases c with
    | acquire => exact false
    | ofOperation c => exact (j.answered c).some
    | _ => exact ()

end Job

structure Grip where
  held : List ScopeKey := []
  inside : Option Provider := none
  deriving DecidableEq

namespace Grip

variable {E : Interface}

def after (s : Grip) : Event (Progress.calls.sum (calls E)) → Grip
  | ⟨.inr (.acquire scope), true⟩ => { s with held := scope :: s.held }
  | ⟨.inr (.release scope), _⟩ => { s with held := s.held.erase scope }
  | ⟨.inr (.started p _), _⟩ => { s with inside := some p }
  | ⟨.inr (.finished _ _ _), _⟩ => { s with inside := none }
  | _ => s

inductive Fits (op : Operation E) : Grip → Prop where
  | free : Fits op {}
  | within (p : Provider) : Fits op ⟨[op.scope p], none⟩
  | inside (p : Provider) : Fits op ⟨[op.scope p], some p⟩

theorem Fits.length_held_le {op : Operation E} {s : Grip} (h : s.Fits op) : s.held.length ≤ 1 := by
  cases h with
  | free => exact Nat.zero_le 1
  | within => exact Nat.le_refl 1
  | inside => exact Nat.le_refl 1

/--
A dispatch asks for a scope while it holds none, and releases the one that it holds outside of
callbacks.
-/
def rules (op : Operation E) : Rules (Progress.calls.sum (calls E)) Grip where
  allows s
    | .inr (.acquire scope) => s = {} ∧ ∃ p, scope = op.scope p
    | .inr (.release scope) => s = ⟨[scope], none⟩
    | .inr (.started p _) => s = ⟨[op.scope p], none⟩
    | .inr (.finished p _ _) => s = ⟨[op.scope p], some p⟩
    | _ => True
  step s e t := t = s.after e

theorem after_release (E : Interface) (scope : ScopeKey)
    : (Grip.mk [scope] none).after (E := E) ⟨.inr (.release scope), ()⟩ = {} :=
  congrArg (Grip.mk · none) (List.erase_cons_head ..)

theorem Fits.after {op : Operation E} {s : Grip} (h : s.Fits op)
    {e : Event (Progress.calls.sum (calls E))} (ha : (rules op).allows s e.1) : (s.after e).Fits op := by
  obtain ⟨c, x⟩ := e
  cases c with
  | inl => exact h
  | inr c =>
    cases c with
    | acquire =>
      obtain ⟨rfl, p, rfl⟩ := ha
      cases x with
      | true => exact .within p
      | false => exact .free
    | release scope =>
      cases ha
      show Fits op ⟨[scope].erase scope, none⟩
      rw [List.erase_cons_head]
      exact .free
    | started p =>
      cases ha
      exact .inside p
    | finished p =>
      cases ha
      exact .within p
    | turn => exact h
    | ofOperation => exact h

theorem obeys_ofOperation_rules {op : Operation E} {s : Grip} {α : Type} (d : Activity E α)
    : (ofOperation d).Obeys (rules op) (fun t _ => t = s) s := by
  have hd : d.Obeys ⟨fun _ _ => True, fun s _ u => u = s⟩ (fun u _ => u = s) s := by
    apply obeys_of_keeps
    . intro t c _
      trivial
    . rintro t e u ht rfl
      exact ht
    . rfl
  apply obeys_embed _ _ _ hd
  . intro t c _
    trivial
  . intro t c x u hu
    exact hu
  . intro t c _
    exact ⟨trivial, fun x u hu => hu⟩

def invariant (op : Operation E) : Invariant (rules op) op where
  drift s t := t = s
  alike :=
    { allows := fun _ _ => trivial
      refl := fun _ => rfl
      beginTask := Iff.rfl
      setTaskName := Iff.rfl
      worked := Iff.rfl
      done := Iff.rfl }
  free s := s = {}
  within p s := s = ⟨[op.scope p], none⟩
  ready p s := s = ⟨[op.scope p], none⟩
  inside p s := s = ⟨[op.scope p], some p⟩
  drift_free := by
    rintro s t rfl h
    exact h
  drift_within := by
    rintro p s t rfl h
    exact h
  poll_free := by
    rintro s b t h rfl
    exact h
  poll_within := by
    rintro p s b t h rfl
    exact h
  poll_ready := by
    rintro p s t h rfl
    exact h
  turn := by
    rintro p s h
    refine ⟨trivial, ?_⟩
    rintro x t rfl
    exact h
  acquire := by
    rintro p s rfl
    refine ⟨⟨rfl, p, rfl⟩, ?_, ?_⟩
    . rintro t rfl
      rfl
    . rintro t rfl
      rfl
  started := by
    rintro p b s rfl
    refine ⟨rfl, ?_⟩
    rintro x t rfl
    exact obeys_ofOperation_rules _
  finished := by
    rintro p b r s rfl
    refine ⟨rfl, ?_⟩
    rintro x t rfl
    rfl
  release := by
    rintro p s rfl
    refine ⟨rfl, ?_⟩
    rintro x t rfl
    exact after_release E _

end Grip

structure Rival (j : Job) where
  left : j.Rest := j.start
  grip : Grip := {}

namespace Rival

variable {j : Job}

def advance (x : Rival j) (e : Event (Progress.calls.sum (calls j.interface))) (rest : j.Rest) : Rival j :=
  ⟨rest, x.grip.after e⟩

def awaited? (x : Rival j) : Option ScopeKey :=
  match x.left with
  | .ask (.inr (.acquire scope)) _ => some scope
  | _ => none

def Waits (x : Rival j) (scope : ScopeKey) : Prop :=
  x.awaited? = some scope

theorem waits_iff {x : Rival j} {scope : ScopeKey}
    : x.Waits scope ↔ ∃ k, x.left = .ask (.inr (.acquire scope)) k := by
  unfold Waits awaited?
  constructor
  . intro h
    split at h
    . next hc =>
      cases h
      exact ⟨_, hc⟩
    . contradiction
  . rintro ⟨k, hk⟩
    rw [hk]

def Finished (x : Rival j) : Prop :=
  ∃ r, x.left = .result r

structure Sound (x : Rival j) : Prop where
  obeys : x.left.Obeys (Grip.rules j.op) (fun t _ => t = {}) x.grip
  fits : x.grip.Fits j.op

namespace Sound

variable {x : Rival j} {c : j.Call} {k : j.Answer c → j.Rest}

theorem start (j : Job) : ({} : Rival j).Sound where
  obeys := (Grip.invariant j.op).obeys_execute _ _ rfl
  fits := .free

theorem allows (h : x.Sound) (hc : x.left = .ask c k) : (Grip.rules j.op).allows x.grip c := by
  have hobeys := h.obeys
  rw [hc] at hobeys
  exact hobeys.1

theorem advance (h : x.Sound) (hc : x.left = .ask c k) (a : j.Answer c)
    : (x.advance ⟨c, a⟩ (k a)).Sound where
  obeys := by
    have hobeys := h.obeys
    rw [hc] at hobeys
    exact hobeys.2 a _ rfl
  fits := h.fits.after (e := ⟨c, a⟩) (h.allows hc)

theorem grip_of_waits (h : x.Sound) {scope : ScopeKey} (hw : x.Waits scope) : x.grip = {} := by
  obtain ⟨k, hk⟩ := waits_iff.1 hw
  exact (h.allows hk).1

theorem grip_of_finished (h : x.Sound) (hf : x.Finished) : x.grip = {} := by
  obtain ⟨r, hr⟩ := hf
  have hobeys := h.obeys
  rw [hr] at hobeys
  exact hobeys

end Sound
end Rival

structure Rivals {ι : Type} (jobs : ι → Job) where
  table : LockTable := {}
  rival : ∀ i, Rival (jobs i) := fun _ => {}

namespace Rivals

variable {ι : Type} {jobs : ι → Job} {s : Rivals jobs}

def WaitsFor (s : Rivals jobs) (i j : ι) : Prop :=
  ∃ scope, (s.rival i).Waits scope ∧ scope ∈ (s.rival j).grip.held

def InVain (s : Rivals jobs) (i : ι) (reply : (jobs i).Replies) : Prop :=
  ∃ scope, (s.rival i).Waits scope ∧ s.table.attempt (reply (.inl .isCancelled)) scope = .busy

structure Sound (s : Rivals jobs) : Prop where
  rival : ∀ i, (s.rival i).Sound
  held : ∀ k, k ∈ s.table.held ↔ ∃ i, k ∈ (s.rival i).grip.held
  unique : ∀ i k, k ∈ (s.rival i).grip.held → ∀ j, k ∈ (s.rival j).grip.held → i = j

theorem Sound.start (jobs : ι → Job) : Sound ({} : Rivals jobs) where
  rival i := .start (jobs i)
  held k := by simp
  unique i k hi := by simp at hi

section Step

variable [DecidableEq ι] {i : ι}

def advance (s : Rivals jobs) (i : ι) (e : Event (Progress.calls.sum (calls (jobs i).interface)))
    (rest : (jobs i).Rest) (table : LockTable) : Rivals jobs where
  table
  rival := Function.update s.rival i ((s.rival i).advance e rest)

/--
It is the turn of the dispatch `i`, which makes its next call. If this is for a scope, it is one attempt: the
monitor is asked, and then the table.
-/
def step (s : Rivals jobs) (i : ι) (reply : (jobs i).Replies) : Rivals jobs :=
  match (s.rival i).left with
  | .result _ => s
  | .ask (.inr (.acquire scope)) k =>
    match s.table.attempt (reply (.inl .isCancelled)) scope with
    | .cancelled => s.advance i ⟨.inr (.acquire scope), false⟩ (k false) s.table
    | .granted t => s.advance i ⟨.inr (.acquire scope), true⟩ (k true) t
    | .busy => s
  | .ask (.inr (.release scope)) k =>
    s.advance i ⟨.inr (.release scope), ()⟩ (k ()) (s.table.release scope)
  | .ask c k => s.advance i ⟨c, reply c⟩ (k (reply c)) s.table

abbrev Turn (jobs : ι → Job) :=
  (i : ι) × (jobs i).Replies

def run (turns : List (Turn jobs)) (s : Rivals jobs) : Rivals jobs :=
  turns.foldl (fun s t => s.step t.1 t.2) s

namespace Sound

omit [DecidableEq ι] in
theorem mem_held_iff (h : s.Sound) (i : ι) {k : ScopeKey}
    : k ∈ s.table.held ↔ k ∈ (s.rival i).grip.held ∨ ∃ j, j ≠ i ∧ k ∈ (s.rival j).grip.held := by
  rw [h.held]
  constructor
  . rintro ⟨j, hj⟩
    by_cases hji : j = i
    . exact .inl (hji ▸ hj)
    . exact .inr ⟨j, hji, hj⟩
  . rintro (hi | ⟨j, _, hj⟩)
    . exact ⟨i, hi⟩
    . exact ⟨j, hj⟩

theorem advance (h : s.Sound) {c : (jobs i).Call} {k : (jobs i).Answer c → (jobs i).Rest}
    (hc : (s.rival i).left = .ask c k) {a : (jobs i).Answer c} {t : LockTable}
    (hheld : ∀ scope, scope ∈ t.held ↔
      scope ∈ ((s.rival i).grip.after ⟨c, a⟩).held ∨ ∃ j, j ≠ i ∧ scope ∈ (s.rival j).grip.held)
    (hnew : ∀ scope, scope ∈ ((s.rival i).grip.after ⟨c, a⟩).held →
      scope ∈ (s.rival i).grip.held ∨ scope ∉ s.table.held)
    : (s.advance i ⟨c, a⟩ (k a) t).Sound where
  rival := by
    apply (Function.forall_update_iff s.rival fun _ x => x.Sound).2
    exact ⟨(h.rival i).advance hc a, fun j _ => h.rival j⟩
  held scope := by
    have hrivals := Function.exists_update_iff s.rival (b := (s.rival i).advance ⟨c, a⟩ (k a))
      fun _ x => scope ∈ x.grip.held
    exact (hheld scope).trans hrivals.symm
  unique := by
    have hother : ∀ j scope, j ≠ i → scope ∈ ((s.rival i).grip.after ⟨c, a⟩).held →
        scope ∉ (s.rival j).grip.held := by
      intro j scope hj hi hk
      rcases hnew scope hi with hi | hfree
      . exact hj (h.unique j scope hk i hi)
      . exact hfree ((h.held scope).2 ⟨j, hk⟩)
    intro j scope hj l hl
    unfold Rivals.advance at hj hl
    dsimp only at hj hl
    by_cases hji : j = i <;> by_cases hli : l = i
    . rw [hji, hli]
    . subst hji
      rw [Function.update_self] at hj
      rw [Function.update_of_ne hli] at hl
      exact absurd hl (hother l scope hli hj)
    . subst hli
      rw [Function.update_of_ne hji] at hj
      rw [Function.update_self] at hl
      exact absurd hj (hother j scope hji hl)
    . rw [Function.update_of_ne hji] at hj
      rw [Function.update_of_ne hli] at hl
      exact h.unique j scope hj l hl

theorem advance_idle (h : s.Sound) {c : (jobs i).Call} {k : (jobs i).Answer c → (jobs i).Rest}
    (hc : (s.rival i).left = .ask c k) {a : (jobs i).Answer c}
    (ha : ((s.rival i).grip.after ⟨c, a⟩).held = (s.rival i).grip.held)
    : (s.advance i ⟨c, a⟩ (k a) s.table).Sound := by
  apply h.advance hc
  . intro scope
    rw [ha]
    exact h.mem_held_iff i
  . intro scope hscope
    rw [ha] at hscope
    exact .inl hscope

theorem advance_acquire (h : s.Sound) {scope : ScopeKey} {k : Bool → (jobs i).Rest}
    (hc : (s.rival i).left = .ask (.inr (.acquire scope)) k) {t : LockTable}
    (ht : s.table.hold? scope = some t)
    : (s.advance i ⟨.inr (.acquire scope), true⟩ (k true) t).Sound := by
  have hgrip := (h.rival i).grip_of_waits (Rival.waits_iff.2 ⟨k, hc⟩)
  have hfree : scope ∉ s.table.held := by
    rw [← LockTable.hold?_eq_none_iff, ht]
    nofun
  have hafter : ((s.rival i).grip.after (E := (jobs i).interface) ⟨.inr (.acquire scope), true⟩).held
      = [scope] := by
    rw [hgrip]
    rfl
  apply h.advance hc
  . intro l
    refine Iff.trans ?_ (or_congr_left (Eq.to_iff (congrArg (l ∈ ·) hafter.symm)))
    rw [LockTable.held_of_hold? ht, List.mem_cons, h.mem_held_iff i, hgrip]
    simp
  . intro l hl
    rw [hafter, List.mem_singleton] at hl
    rw [hl]
    exact .inr hfree

theorem advance_release (h : s.Sound) {scope : ScopeKey} {k : Unit → (jobs i).Rest}
    (hc : (s.rival i).left = .ask (.inr (.release scope)) k)
    : (s.advance i ⟨.inr (.release scope), ()⟩ (k ()) (s.table.release scope)).Sound := by
  have hgrip : (s.rival i).grip = ⟨[scope], none⟩ := (h.rival i).allows hc
  have hafter : (s.rival i).grip.after (E := (jobs i).interface) ⟨.inr (.release scope), ()⟩ = {} := by
    rw [hgrip]
    exact Grip.after_release _ scope
  apply h.advance hc
  . intro l
    rw [hafter, LockTable.mem_release, h.mem_held_iff i, hgrip, List.mem_singleton]
    constructor
    . rintro ⟨hne, rfl | hj⟩
      . exact absurd rfl hne
      . exact .inr hj
    . rintro (hl | ⟨j, hj, hl⟩)
      . simp at hl
      . refine ⟨?_, .inr ⟨j, hj, hl⟩⟩
        rintro rfl
        apply hj
        apply h.unique j l hl
        rw [hgrip]
        exact List.mem_singleton_self l
  . intro l hl
    rw [hafter] at hl
    simp at hl

theorem step (h : s.Sound) (i : ι) (reply : (jobs i).Replies) : (s.step i reply).Sound := by
  unfold Rivals.step
  split
  . exact h
  . next scope k hc =>
    split
    . exact h.advance_idle hc rfl
    . next t ht => exact h.advance_acquire hc (LockTable.attempt_eq_granted_iff.1 ht).2
    . exact h
  . next scope k hc => exact h.advance_release hc
  . next c k hacquire hrelease hc =>
    apply h.advance_idle hc
    cases c with
    | inl => rfl
    | inr c =>
      cases c with
      | acquire scope => exact absurd HEq.rfl (hacquire scope k rfl)
      | release scope => exact absurd HEq.rfl (hrelease scope k rfl)
      | _ => rfl

theorem run (h : s.Sound) (turns : List (Turn jobs)) : (run turns s).Sound := by
  induction turns generalizing s with
  | nil => exact h
  | cons t turns ih => exact ih (h.step t.1 t.2)

end Sound

structure Untangled (s : Rivals jobs) : Prop where
  atMostOne : ∀ i, (s.rival i).grip.held.length ≤ 1
  waiting : ∀ i scope, (s.rival i).Waits scope → (s.rival i).grip.held = []
  inside : ∀ i p, (s.rival i).grip.inside = some p → (s.rival i).grip.held = [(jobs i).op.scope p]
  apart : ∀ i j p q, (s.rival i).grip.inside = some p → (s.rival j).grip.inside = some q →
    (jobs i).op.scope p = (jobs j).op.scope q → i = j
  held : ∀ k, k ∈ s.table.held ↔ ∃! i, k ∈ (s.rival i).grip.held
  holder : ∀ k i, k ∈ (s.rival i).grip.held →
    (∀ scope, ¬ (s.rival i).Waits scope) ∧ ¬ (s.rival i).Finished
  acyclic : ∀ i, ¬ Relation.TransGen s.WaitsFor i i
  progress : (∃ i, ¬ (s.rival i).Finished) →
    ∃ i, ¬ (s.rival i).Finished ∧ Nonempty (jobs i).Replies ∧ ∀ reply, ¬ s.InVain i reply

namespace Sound

omit [DecidableEq ι]

theorem holder (h : s.Sound) {k : ScopeKey} (hk : k ∈ (s.rival i).grip.held)
    : (∀ scope, ¬ (s.rival i).Waits scope) ∧ ¬ (s.rival i).Finished := by
  have hne : (s.rival i).grip ≠ {} := by
    intro hgrip
    rw [hgrip] at hk
    simp at hk
  refine ⟨?_, ?_⟩
  . intro scope hw
    exact hne ((h.rival i).grip_of_waits hw)
  . intro hf
    exact hne ((h.rival i).grip_of_finished hf)

theorem held_of_inside (h : s.Sound) {p : Provider} (hp : (s.rival i).grip.inside = some p)
    : (s.rival i).grip.held = [(jobs i).op.scope p] := by
  have hfits := (h.rival i).fits
  generalize (s.rival i).grip = grip at hp hfits
  cases hfits with
  | inside q =>
    cases hp
    rfl
  | _ => contradiction

theorem not_transGen_waitsFor (h : s.Sound) : ¬ Relation.TransGen s.WaitsFor i i := by
  intro hcycle
  obtain ⟨j, ⟨scope, hw, _⟩, _⟩ := Relation.TransGen.head'_iff.1 hcycle
  obtain ⟨l, _, ⟨scope', _, hheld⟩⟩ := Relation.TransGen.tail'_iff.1 hcycle
  exact (h.holder hheld).1 scope hw

theorem not_inVain_of_not_waits (hw : ∀ scope, ¬ (s.rival i).Waits scope) (reply : (jobs i).Replies)
    : ¬ s.InVain i reply := by
  rintro ⟨scope, hwaits, _⟩
  exact hw scope hwaits

theorem progress (h : s.Sound) (hi : ¬ (s.rival i).Finished)
    : ∃ j, ¬ (s.rival j).Finished ∧ ∀ reply, ¬ s.InVain j reply := by
  by_cases hw : ∃ scope, (s.rival i).Waits scope
  . obtain ⟨scope, hw⟩ := hw
    by_cases hheld : scope ∈ s.table.held
    -- The holder has a call to make that is not for a scope.
    . obtain ⟨j, hj⟩ := (h.held scope).1 hheld
      obtain ⟨hwaits, hfinished⟩ := h.holder hj
      exact ⟨j, hfinished, not_inVain_of_not_waits hwaits⟩
    . refine ⟨i, hi, ?_⟩
      rintro reply ⟨scope', hw', hbusy⟩
      cases Option.some.inj (hw.symm.trans hw')
      obtain ⟨t, ht⟩ := Option.ne_none_iff_exists'.1 (mt LockTable.hold?_eq_none_iff.1 hheld)
      unfold LockTable.attempt at hbusy
      rw [ht] at hbusy
      split at hbusy <;> contradiction
  . exact ⟨i, hi, not_inVain_of_not_waits fun scope hs => hw ⟨scope, hs⟩⟩

theorem untangled (h : s.Sound) : s.Untangled where
  atMostOne i := (h.rival i).fits.length_held_le
  waiting i scope hw := by rw [(h.rival i).grip_of_waits hw]
  inside i p hp := h.held_of_inside hp
  apart i j p q hp hq hscope := by
    apply h.unique i ((jobs i).op.scope p)
    . rw [h.held_of_inside hp]
      exact List.mem_singleton_self _
    . rw [h.held_of_inside hq, hscope]
      exact List.mem_singleton_self _
  held k := by
    rw [h.held]
    constructor
    . rintro ⟨i, hi⟩
      exact ⟨i, hi, fun j hj => h.unique j k hj i hi⟩
    . rintro ⟨i, hi, _⟩
      exact ⟨i, hi⟩
  holder k i hk := h.holder hk
  acyclic i := h.not_transGen_waitsFor
  progress := by
    rintro ⟨i, hi⟩
    obtain ⟨j, hj, hvain⟩ := h.progress hi
    exact ⟨j, hj, (jobs j).nonempty_replies, hvain⟩

end Sound

/--
Dispatches that take turns with one table of scopes get in each other's way in no other way than that one of
them has to wait until another one has released a scope, which it can do without waiting itself.
-/
theorem run_untangled (jobs : ι → Job) (turns : List (Turn jobs)) : (run turns {}).Untangled :=
  ((Sound.start jobs).run turns).untangled

/--
Two dispatches that work in one scope: while the first one is in a callback there, the second one waits, and
has been asked in vain twice.
-/
theorem run_untangled_shared
    : let website : Provider := ⟨"git", "website", "host", "/"⟩
      let notes : Provider := ⟨"git", "notes", "host", "/"⟩
      let op : Operation .empty :=
        { name := "visit"
          taskName := Provider.display
          scope := fun _ => "repository"
          executeBatch := fun _ _ _ => return .ok () }
      let jobs : Bool → Job := fun i =>
        { interface := .empty
          op
          config := {}
          groups :=
            .insert .empty (if i then notes.key else website.key)
              (if i then (notes, { fullDepthFolders := [.ofProject "notes"] })
                else (website, { fullDepthFolders := [.ofProject "website"] }))
          answered := fun (c : Empty) => c.elim }
      let reply : (i : Bool) → (jobs i).Replies := fun
        | _, .inl c => c.reply false
        | _, .inr (.acquire _) => false
        | _, .inr (.ofOperation c) => Empty.elim c
        | _, .inr (.turn _) | _, .inr (.release _) | _, .inr (.started _ _) | _, .inr (.finished _ _ _) => ()
      let turns : List (Turn jobs) :=
        (List.replicate 7 false ++ List.replicate 7 true).map fun i => ⟨i, reply i⟩
      let s := run turns {}
      s.table.held = ["repository"] ∧ (s.rival false).grip = ⟨["repository"], some website⟩ ∧
        (s.rival true).grip = {} ∧ s.InVain true (reply true) ∧ s.Untangled := by
  intro website notes op jobs reply turns s
  have hheld : s.table.held = ["repository"] := by decide +kernel
  have hwaits : (s.rival true).Waits "repository" := by
    unfold Rival.Waits
    decide +kernel
  have hbusy : s.table.attempt false "repository" = .busy := by
    apply LockTable.attempt_of_held
    rw [hheld]
    exact List.mem_singleton_self _
  exact ⟨hheld, by decide +kernel, by decide +kernel, ⟨_, hwaits, hbusy⟩, run_untangled jobs turns⟩

end Step
end Rivals
end Dispatch
end SharedWorkspace
