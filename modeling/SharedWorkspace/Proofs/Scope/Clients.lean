import Mathlib.Logic.Function.Basic
import SharedWorkspace.Proofs.Scope.Wait
import SharedWorkspace.Scope.Guard

/-!
Clients of one table of scopes. Any number of them may be waiting for scopes, and keep guards; they take
turns in any order, one attempt at a time. Whatever the order is, a scope is held if and only if there is a
guard for it, and there is never more than one (`run_excludes`). To acquire a scope is to be such a client
(`exists_ends_acquire`).
-/

namespace SharedWorkspace

namespace Guards

variable {g : Guards} {t : LockTable} {k scope : ScopeKey} {m n name : String}

structure Exclusive (g : Guards) : Prop where
  held : ∀ k, k ∈ g.table.held ↔ ∃ name, g.kept.find? name = some k
  unique : ∀ {m n k}, g.kept.find? m = some k → g.kept.find? n = some k → m = n

theorem exclusive_empty : Exclusive {} where
  held k := by simp
  unique h := by simp at h

theorem find?_drop (g : Guards) (name n : String)
    : (g.drop name).kept.find? n = if n = name then none else g.kept.find? n := by
  unfold drop
  dsimp only
  rw [OrderedMap.find?_erase]
  simp only [Std.LawfulEqCmp.compare_eq_iff_eq]

theorem mem_held_drop (g : Guards) (name : String)
    : k ∈ (g.drop name).table.held ↔ k ∈ g.table.held ∧ g.kept.find? name ≠ some k := by
  unfold drop
  cases g.kept.find? name with
  | none => simp
  | some scope => rw [LockTable.mem_release, and_comm, ne_comm, ne_eq, ne_eq, Option.some_inj]

theorem isHeld_drop (g : Guards) (name : String) (k : ScopeKey)
    : (g.drop name).table.isHeld k = true ↔ g.table.isHeld k = true ∧ g.kept.find? name ≠ some k := by
  rw [LockTable.isHeld_iff, LockTable.isHeld_iff, mem_held_drop]

theorem find?_keep (g : Guards) (name : String) (scope : ScopeKey) (t : LockTable) (n : String)
    : (g.keep name scope t).kept.find? n = if n = name then some scope else g.kept.find? n := by
  unfold keep
  dsimp only
  rw [OrderedMap.find?_insert, find?_drop]
  simp only [Std.LawfulEqCmp.compare_eq_iff_eq]
  split <;> rfl

theorem mem_held_keep (g : Guards) (name : String) (ht : g.table.hold? scope = some t)
    : k ∈ (g.keep name scope t).table.held ↔
        (k = scope ∨ k ∈ g.table.held) ∧ g.kept.find? name ≠ some k := by
  have hmem := mem_held_drop (k := k) { g with table := t } name
  rw [LockTable.held_of_hold? ht, List.mem_cons] at hmem
  exact hmem

namespace Exclusive

theorem drop (h : g.Exclusive) (name : String) : (g.drop name).Exclusive where
  held k := by
    rw [mem_held_drop, h.held]
    constructor
    . rintro ⟨⟨n, hn⟩, hname⟩
      refine ⟨n, ?_⟩
      rw [find?_drop, if_neg, hn]
      rintro rfl
      exact hname hn
    . rintro ⟨n, hn⟩
      rw [find?_drop] at hn
      split at hn
      . contradiction
      . next hne => exact ⟨⟨n, hn⟩, fun hname => hne (h.unique hn hname)⟩
  unique {m n k} hm hn := by
    rw [find?_drop] at hm hn
    split at hm
    . contradiction
    . split at hn
      . contradiction
      . exact h.unique hm hn

theorem find?_ne_of_hold? (h : g.Exclusive) (ht : g.table.hold? scope = some t) (n : String)
    : g.kept.find? n ≠ some scope := by
  intro hn
  have hheld := (h.held scope).2 ⟨n, hn⟩
  rw [← LockTable.hold?_eq_none_iff, ht] at hheld
  contradiction

theorem keep (h : g.Exclusive) (ht : g.table.hold? scope = some t) (name : String)
    : (g.keep name scope t).Exclusive := by
  -- The scope was free, so there was no guard for it.
  have hfree := h.find?_ne_of_hold? ht
  constructor
  case held =>
    intro k
    rw [mem_held_keep g name ht, h.held]
    constructor
    . rintro ⟨rfl | ⟨n, hn⟩, hname⟩
      . exact ⟨name, by rw [find?_keep, if_pos rfl]⟩
      . refine ⟨n, ?_⟩
        rw [find?_keep, if_neg, hn]
        rintro rfl
        exact hname hn
    . rintro ⟨n, hn⟩
      rw [find?_keep] at hn
      split at hn
      . cases hn
        exact ⟨.inl rfl, hfree name⟩
      . next hne => exact ⟨.inr ⟨n, hn⟩, fun hname => hne (h.unique hn hname)⟩
  case unique =>
    intro m n k hm hn
    rw [find?_keep] at hm hn
    split at hm <;> split at hn
    . next hm' hn' => rw [hm', hn']
    . cases hm
      exact absurd hn (hfree n)
    . cases hn
      exact absurd hm (hfree m)
    . exact h.unique hm hn

theorem isHeld_keep (h : g.Exclusive) (ht : g.table.hold? scope = some t) (name : String)
    (k : ScopeKey)
    : (g.keep name scope t).table.isHeld k = true ↔
        k = scope ∨ (g.table.isHeld k = true ∧ g.kept.find? name ≠ some k) := by
  rw [LockTable.isHeld_iff, LockTable.isHeld_iff, mem_held_keep g name ht]
  constructor
  . rintro ⟨rfl | hk, hname⟩
    . exact .inl rfl
    . exact .inr ⟨hk, hname⟩
  . rintro (rfl | ⟨hk, hname⟩)
    . exact ⟨.inl rfl, h.find?_ne_of_hold? ht name⟩
    . exact ⟨.inr hk, hname⟩

theorem isHeld_iff (h : g.Exclusive) (k : ScopeKey)
    : g.table.isHeld k = true ↔ ∃! name, g.kept.find? name = some k := by
  rw [LockTable.isHeld_iff, h.held]
  constructor
  . rintro ⟨name, hname⟩
    exact ⟨name, hname, fun n hn => h.unique hn hname⟩
  . rintro ⟨name, hname, _⟩
    exact ⟨name, hname⟩

end Exclusive
end Guards

structure Waiting where
  name : String
  scope : ScopeKey
  answers : List Bool := []
  deriving DecidableEq

structure Ending (ι : Type) where
  client : ι
  waiting : Waiting
  result : Except Failure Unit

structure Clients (ι : Type) where
  guards : Guards := {}
  waiting : ι → Option Waiting := fun _ => none
  cancelled : ι → Bool := fun _ => false
  endings : List (Ending ι) := []

namespace Clients

/--
From `s` to `u`, nothing has happened but what comes to `r` for the client `i` that waits as `w`
says.
-/
def Ends {ι : Type} (s u : Clients ι) (i : ι) (w : Waiting) : Option (Except Failure Guards) → Prop
  | some (.ok g) => u.guards = g ∧ u.waiting i = none ∧ u.endings = s.endings ++ [⟨i, w, .ok ()⟩]
  | some (.error e) =>
    u.guards = s.guards ∧ u.waiting i = none ∧ u.endings = s.endings ++ [⟨i, w, .error e⟩]
  | none => u.guards = s.guards ∧ u.waiting i = some w ∧ u.endings = s.endings

theorem Ends.congr {ι : Type} {s t u : Clients ι} {i : ι} {w : Waiting} {r : Option (Except Failure Guards)}
    (h : Ends t u i w r)
    (hguards : t.guards = s.guards) (hendings : t.endings = s.endings) : Ends s u i w r := by
  unfold Ends at h ⊢
  rwa [hguards, hendings] at h

inductive Act (ι : Type) where
  | enter (client : ι) (name : String) (scope : ScopeKey)
  | attempt (client : ι)
  | answer (client : ι) (cancelled : Bool)
  | drop (name : String)
  deriving DecidableEq

variable {ι : Type} [DecidableEq ι]

def finish (s : Clients ι) (i : ι) (w : Waiting) (result : Except Failure Unit) (guards : Guards)
    : Clients ι :=
  { s with
    guards
    waiting := Function.update s.waiting i none
    endings := s.endings ++ [⟨i, w, result⟩] }

def attempt (s : Clients ι) (i : ι) (w : Waiting) : Clients ι :=
  let w' := { w with answers := w.answers ++ [s.cancelled i] }
  match s.guards.table.attempt (s.cancelled i) w.scope with
  | .cancelled => s.finish i w' (.error .cancelled) s.guards
  | .granted t => s.finish i w' (.ok ()) (s.guards.keep w.name w.scope t)
  | .busy => { s with waiting := Function.update s.waiting i (some w') }

def step (s : Clients ι) : Act ι → Clients ι
  | .enter i name scope =>
    match s.waiting i with
    | none => { s with waiting := Function.update s.waiting i (some { name, scope }) }
    | some _ => s
  | .attempt i =>
    match s.waiting i with
    | none => s
    | some w => s.attempt i w
  | .answer i cancelled => { s with cancelled := Function.update s.cancelled i cancelled }
  | .drop name => { s with guards := s.guards.drop name }

def run (acts : List (Act ι)) (s : Clients ι) : Clients ι :=
  acts.foldl step s

variable {s : Clients ι} {i : ι} {w : Waiting}

theorem step_attempt (hw : s.waiting i = some w) : s.step (.attempt i) = s.attempt i w := by
  unfold step
  dsimp only
  rw [hw]

theorem attempt_of_cancelled (h : s.cancelled i = true) (w : Waiting)
    : s.attempt i w
        =
      s.finish i { w with answers := w.answers ++ [true] } (.error .cancelled) s.guards := by
  unfold attempt
  rw [h, LockTable.attempt_eq_cancelled_iff.2 rfl]

theorem attempt_of_busy (h : s.cancelled i = false) (hheld : w.scope ∈ s.guards.table.held)
    : s.attempt i w
        =
      { s with
        waiting := Function.update s.waiting i (some { w with answers := w.answers ++ [false] }) } := by
  unfold attempt
  rw [h, LockTable.attempt_of_held hheld]

theorem attempt_of_hold? {t : LockTable} (h : s.cancelled i = false)
    (ht : s.guards.table.hold? w.scope = some t)
    : s.attempt i w
        =
      s.finish i { w with answers := w.answers ++ [false] } (.ok ()) (s.guards.keep w.name w.scope t) := by
  unfold attempt
  rw [h, LockTable.attempt_eq_granted_iff.2 ⟨rfl, ht⟩]

theorem attempt_of_free (h : s.cancelled i = false) (hfree : w.scope ∉ s.guards.table.held)
    : ∃ t, s.guards.table.hold? w.scope = some t ∧
        s.attempt i w
          =
        s.finish i { w with answers := w.answers ++ [false] } (.ok ())
          (s.guards.keep w.name w.scope t) := by
  rw [← LockTable.hold?_eq_none_iff] at hfree
  obtain ⟨t, ht⟩ := Option.ne_none_iff_exists'.1 hfree
  exact ⟨t, ht, attempt_of_hold? h ht⟩

theorem exclusive_step (h : s.guards.Exclusive) (a : Act ι) : (s.step a).guards.Exclusive := by
  cases a with
  | enter i =>
    unfold step
    dsimp only
    split <;> exact h
  | answer => exact h
  | drop name => exact h.drop name
  | attempt i =>
    unfold step
    dsimp only
    split
    . exact h
    . next w _ =>
      cases hc : s.cancelled i with
      | true =>
        rw [attempt_of_cancelled hc]
        exact h
      | false =>
        by_cases hheld : w.scope ∈ s.guards.table.held
        . rw [attempt_of_busy hc hheld]
          exact h
        . obtain ⟨t, ht, heq⟩ := attempt_of_free hc hheld
          rw [heq]
          exact h.keep ht w.name

theorem exclusive_run (h : s.guards.Exclusive) (acts : List (Act ι)) : (run acts s).guards.Exclusive := by
  induction acts generalizing s with
  | nil => exact h
  | cons a acts ih => exact ih (exclusive_step h a)

structure Recorded (s : Clients ι) : Prop where
  waiting : ∀ i w, s.waiting i = some w → ∃ n, w.answers = List.replicate n false
  endings : ∀ e ∈ s.endings, ∃ n b, e.waiting.answers = List.replicate n false ++ [b] ∧
    e.result = if b then .error .cancelled else .ok ()

namespace Recorded

theorem update (h : s.Recorded) (i : ι) {n : Nat} (hw : w.answers = List.replicate n false)
    : Recorded { s with waiting := Function.update s.waiting i (some w) } where
  waiting j v hv := by
    dsimp only at hv
    rw [Function.update_apply] at hv
    split at hv
    . cases hv
      exact ⟨n, hw⟩
    . exact h.waiting j v hv
  endings := h.endings

theorem finish (h : s.Recorded) (i : ι) {n : Nat} {b : Bool} {result : Except Failure Unit}
    (hw : w.answers = List.replicate n false ++ [b])
    (hr : result = if b then .error .cancelled else .ok ()) (g : Guards)
    : (s.finish i w result g).Recorded where
  waiting j v hv := by
    unfold Clients.finish at hv
    dsimp only at hv
    rw [Function.update_apply] at hv
    split at hv
    . contradiction
    . exact h.waiting j v hv
  endings e he := by
    rcases List.mem_append.1 he with he | he
    . exact h.endings e he
    . rw [List.mem_singleton.1 he]
      exact ⟨n, b, hw, hr⟩

theorem attempt (h : s.Recorded) (hw : s.waiting i = some w) : (s.attempt i w).Recorded := by
  obtain ⟨n, hn⟩ := h.waiting i w hw
  cases hc : s.cancelled i with
  | true =>
    rw [attempt_of_cancelled hc]
    exact h.finish i (n := n) (b := true) (by rw [hn]) rfl s.guards
  | false =>
    by_cases hheld : w.scope ∈ s.guards.table.held
    . rw [attempt_of_busy hc hheld]
      exact h.update i (n := n + 1) (by rw [hn, List.replicate_succ'])
    . obtain ⟨t, _, heq⟩ := attempt_of_free hc hheld
      rw [heq]
      exact h.finish i (n := n) (b := false) (by rw [hn]) rfl _

theorem step (h : s.Recorded) (a : Act ι) : (s.step a).Recorded := by
  unfold Clients.step
  cases a with
  | enter i =>
    dsimp only
    split
    . exact h.update i (n := 0) rfl
    . exact h
  | attempt i =>
    dsimp only
    split
    . exact h
    . next hw => exact h.attempt hw
  | answer => exact ⟨h.waiting, h.endings⟩
  | drop => exact ⟨h.waiting, h.endings⟩

theorem run (h : s.Recorded) (acts : List (Act ι)) : (run acts s).Recorded := by
  induction acts generalizing s with
  | nil => exact h
  | cons a acts ih => exact ih (h.step a)

end Recorded

def Stays (i : ι) (scope : ScopeKey) : List (Act ι) → Clients ι → Prop
  | [], _ => True
  | a :: acts, s =>
    (a = .attempt i → scope ∈ s.guards.table.held ∧ s.cancelled i = false) ∧ Stays i scope acts (s.step a)

theorem waiting_step_of_ne {a : Act ι} (ha : a ≠ .attempt i) (hw : s.waiting i = some w)
    : (s.step a).waiting i = some w := by
  cases a with
  | enter j name scope =>
    unfold step
    dsimp only
    split
    . next hj =>
      have hij : i ≠ j := by
        rintro rfl
        rw [hj] at hw
        contradiction
      exact (Function.update_of_ne hij _ _).trans hw
    . exact hw
  | answer => exact hw
  | drop => exact hw
  | attempt j =>
    have hij : i ≠ j := by
      rintro rfl
      exact ha rfl
    unfold step
    dsimp only
    split
    . exact hw
    . unfold attempt finish
      dsimp only
      split <;> (dsimp only; rw [Function.update_of_ne hij, hw])

theorem waiting_run_of_stays (acts : List (Act ι)) (hw : s.waiting i = some w)
    (h : Stays i w.scope acts s)
    : (run acts s).waiting i
        =
      some { w with answers := w.answers ++ List.replicate (acts.count (.attempt i)) false } := by
  -- Attempts add an answer each to what is on record; whatever the others do leaves the record as it is.
  induction acts generalizing s w with
  | nil =>
    rw [List.count_nil, List.replicate_zero, List.append_nil]
    exact hw
  | cons a acts ih =>
    obtain ⟨ha, h⟩ := h
    by_cases heq : a = .attempt i
    . obtain ⟨hheld, hc⟩ := ha heq
      subst heq
      have hstep : (s.step (.attempt i)).waiting i
          = some { w with answers := w.answers ++ [false] } := by
        rw [step_attempt hw, attempt_of_busy hc hheld]
        exact Function.update_self ..
      refine (ih hstep h).trans ?_
      rw [List.count_cons_self, List.replicate_succ, List.append_assoc]
      rfl
    . rw [List.count_cons_of_ne heq]
      exact ih (waiting_step_of_ne heq hw) h

structure Excludes (s : Clients ι) : Prop where
  held : ∀ k, s.guards.table.isHeld k = true ↔ ∃! name, s.guards.kept.find? name = some k
  apart : ∀ m n k, s.guards.kept.find? m = some k → s.guards.kept.find? n = some k → m = n
  refused : ∀ i w, s.waiting i = some w → s.cancelled i = true →
    s.step (.attempt i)
      = s.finish i { w with answers := w.answers ++ [true] } (.error .cancelled) s.guards
  granted : ∀ i w, s.waiting i = some w → s.cancelled i = false →
    s.guards.table.isHeld w.scope = false →
    ∃ g, s.step (.attempt i) = s.finish i { w with answers := w.answers ++ [false] } (.ok ()) g ∧
      (∀ n, g.kept.find? n = if n = w.name then some w.scope else s.guards.kept.find? n) ∧
      ∀ k, g.table.isHeld k = true ↔
        k = w.scope ∨ (s.guards.table.isHeld k = true ∧ s.guards.kept.find? w.name ≠ some k)
  recorded : s.Recorded
  busy : ∀ i w, s.waiting i = some w → s.cancelled i = false → s.guards.table.isHeld w.scope = true →
    s.step (.attempt i)
      = { s with waiting := Function.update s.waiting i (some { w with answers := w.answers ++ [false] }) }
  drop : ∀ name, (∀ k, (s.step (.drop name)).guards.table.isHeld k = true ↔
      s.guards.table.isHeld k = true ∧ s.guards.kept.find? name ≠ some k) ∧
    ∀ n, (s.step (.drop name)).guards.kept.find? n = if n = name then none else s.guards.kept.find? n
  idle : ∀ a, (s.step a).guards ≠ s.guards → (∃ i, a = .attempt i) ∨ ∃ name, a = .drop name
  patient : ∀ i w acts, s.waiting i = some w → w.answers = [] → Stays i w.scope acts s →
    let n := acts.count (.attempt i)
    let t := run acts s
    t.waiting i = some { w with answers := List.replicate n false } ∧
      (t.cancelled i = true →
        t.step (.attempt i)
          = t.finish i { w with answers := List.replicate n false ++ [true] } (.error .cancelled) t.guards)

theorem excludes (h : s.guards.Exclusive) (hr : s.Recorded) : s.Excludes where
  held := h.isHeld_iff
  apart _ _ _ := h.unique
  refused i w hw hc := by
    rw [step_attempt hw, attempt_of_cancelled hc]
  granted i w hw hc hfree := by
    have hfree : w.scope ∉ s.guards.table.held := by
      rw [← LockTable.isHeld_iff, hfree]
      exact Bool.false_ne_true
    obtain ⟨t, ht, heq⟩ := attempt_of_free hc hfree
    rw [step_attempt hw]
    exact ⟨_, heq, Guards.find?_keep s.guards w.name w.scope t, h.isHeld_keep ht w.name⟩
  recorded := hr
  busy i w hw hc hheld := by
    rw [step_attempt hw, attempt_of_busy hc (LockTable.isHeld_iff.1 hheld)]
  drop name := ⟨s.guards.isHeld_drop name, s.guards.find?_drop name⟩
  idle a ha := by
    cases a with
    | attempt i => exact .inl ⟨i, rfl⟩
    | drop name => exact .inr ⟨name, rfl⟩
    | answer => exact absurd rfl ha
    | enter i =>
      unfold step at ha
      dsimp only at ha
      split at ha <;> exact absurd rfl ha
  patient i w acts hw hanswers hstays := by
    intro n t
    have ht := waiting_run_of_stays acts hw hstays
    rw [hanswers, List.nil_append] at ht
    refine ⟨ht, ?_⟩
    intro hc
    rw [step_attempt ht, attempt_of_cancelled hc]

def turns (i : ι) (answers : List Bool) : List (Act ι) :=
  answers.flatMap fun b => [.answer i b, .attempt i]

theorem cancelled_answer (s : Clients ι) (i : ι) (b : Bool) : (s.step (.answer i b)).cancelled i = b :=
  Function.update_self ..

theorem run_turns_cons (hw : s.waiting i = some w) (b : Bool) (answers : List Bool)
    : run (turns i (b :: answers)) s = run (turns i answers) ((s.step (.answer i b)).attempt i w) := by
  rw [← step_attempt (s := s.step (.answer i b)) hw]
  rfl

theorem run_turns_of_busy {b : Bool} (hw : s.waiting i = some w)
    (h : s.guards.table.attempt b w.scope = .busy) (answers : List Bool)
    : ∃ t : Clients ι, run (turns i (b :: answers)) s = run (turns i answers) t ∧
        t.guards = s.guards ∧ t.endings = s.endings ∧
        t.waiting i = some { w with answers := w.answers ++ [b] } := by
  obtain ⟨rfl, hheld⟩ := LockTable.attempt_eq_busy_iff.1 h
  refine ⟨_, run_turns_cons hw false answers, ?_⟩
  rw [attempt_of_busy (cancelled_answer s i false) hheld]
  exact ⟨rfl, rfl, Function.update_self ..⟩

theorem ends_of_wait {t : LockTable} {scope : ScopeKey} {answers : List Bool}
    {r : Except Failure LockTable} (h : t.Wait scope answers r) (ht : s.guards.table = t)
    (hscope : w.scope = scope) (hw : s.waiting i = some w)
    : Ends s (run (turns i answers) s) i { w with answers := w.answers ++ answers }
        (some (r.map (s.guards.keep w.name scope))) := by
  induction h generalizing s w with
  | @cancelled b h =>
    rw [run_turns_cons hw]
    cases LockTable.attempt_eq_cancelled_iff.1 h
    rw [attempt_of_cancelled (cancelled_answer s i true)]
    exact ⟨rfl, Function.update_self .., rfl⟩
  | @granted b u h =>
    subst ht hscope
    rw [run_turns_cons hw]
    obtain ⟨rfl, hu⟩ := LockTable.attempt_eq_granted_iff.1 h
    rw [attempt_of_hold? (cancelled_answer s i false) hu]
    exact ⟨rfl, Function.update_self .., rfl⟩
  | @busy b answers r h _ ih =>
    subst ht hscope
    obtain ⟨t, hrun, hguards, hendings, ht⟩ := run_turns_of_busy hw h answers
    have hends := ih (w := { w with answers := w.answers ++ [b] }) (congrArg _ hguards) rfl ht
    rw [hguards, List.append_assoc] at hends
    rw [hrun]
    exact hends.congr hguards hendings

theorem ends_of_busy {answers : List Bool} (hw : s.waiting i = some w)
    (h : ∀ b ∈ answers, s.guards.table.attempt b w.scope = .busy)
    : Ends s (run (turns i answers) s) i { w with answers := w.answers ++ answers } none := by
  induction answers generalizing s w with
  | nil =>
    rw [List.append_nil]
    exact ⟨rfl, hw, rfl⟩
  | cons b answers ih =>
    obtain ⟨hb, hanswers⟩ := List.forall_mem_cons.1 h
    obtain ⟨t, hrun, hguards, hendings, ht⟩ := run_turns_of_busy hw hb answers
    have hends := ih ht (by rwa [hguards])
    rw [List.append_assoc] at hends
    rw [hrun]
    exact hends.congr hguards hendings

/--
To acquire a scope is to make attempts, like any other client, while all others stand still.
-/
theorem exists_ends_acquire {σ : Type} (ask : σ → Bool × σ) (patience : Nat) {name : String}
    {scope : ScopeKey} (hw : s.waiting i = some { name, scope }) (x : σ)
    : ∃ answers, LockTable.Answers ask x answers (s.guards.acquire ask patience name scope x).2 ∧
        ((s.guards.acquire ask patience name scope x).1 = none → answers.length = patience) ∧
        Ends s (run (turns i answers) s) i { name, scope, answers }
          (s.guards.acquire ask patience name scope x).1 := by
  unfold Guards.acquire
  cases h : s.guards.table.acquire ask scope patience x with
  | mk r y =>
    cases r with
    | none =>
      obtain ⟨answers, hanswers, hlength, hbusy⟩ := LockTable.busy_of_acquire h
      exact ⟨answers, hanswers, fun _ => hlength, ends_of_busy hw hbusy⟩
    | some r =>
      obtain ⟨answers, hanswers, hwait⟩ := LockTable.exists_wait_of_acquire h
      have hends := ends_of_wait hwait rfl rfl hw
      cases r with
      | error => exact ⟨answers, hanswers, nofun, hends⟩
      | ok => exact ⟨answers, hanswers, nofun, hends⟩

/--
Scopes exclude one another and nothing else. This is so after any number of clients have done anything in any
order. To acquire a scope is to make the attempts of such a client: one that is free is granted upon the first
no and refused upon a yes, and who waits for one that is held is asked as often as it takes until the answer is
yes.
-/
theorem run_excludes (acts : List (Act ι))
    : (run acts ({} : Clients ι)).Excludes ∧
        (∀ {σ : Type} (ask : σ → Bool × σ) (t : LockTable) (scope : ScopeKey) (s s' : σ) (n : Nat),
          t.isHeld scope = true → LockTable.Answers ask s (List.replicate n false ++ [true]) s' →
          ∀ patience,
            (n < patience → t.acquire ask scope patience s = (some (.error .cancelled), s')) ∧
            (patience ≤ n → (t.acquire ask scope patience s).1 = none)) ∧
        (∀ {σ : Type} (ask : σ → Bool × σ) (t : LockTable) (scope : ScopeKey) (s : σ) (patience : Nat),
          t.isHeld scope = false →
          ((ask s).1 = true →
              t.acquire ask scope (patience + 1) s = (some (.error .cancelled), (ask s).2)) ∧
            ((ask s).1 = false →
              ∃ u, t.acquire ask scope (patience + 1) s = (some (.ok u), (ask s).2) ∧
                ∀ k, u.isHeld k = true ↔ k = scope ∨ t.isHeld k = true)) ∧
        ∀ {σ : Type} (ask : σ → Bool × σ) (patience : Nat) (s : Clients ι) (i : ι) (name : String)
          (scope : ScopeKey) (x : σ), s.waiting i = some { name, scope } →
          let (r, y) := s.guards.acquire ask patience name scope x
          ∃ answers, LockTable.Answers ask x answers y ∧ (r = none → answers.length = patience) ∧
            Ends s (run (turns i answers) s) i { name, scope, answers } r := by
  refine ⟨excludes (exclusive_run Guards.exclusive_empty acts) (Recorded.run ⟨nofun, by simp⟩ acts),
    ?_, ?_, ?_⟩
  . intro σ ask t scope s s' n hheld h patience
    exact LockTable.acquire_of_held (LockTable.isHeld_iff.1 hheld) h
  . intro σ ask t scope s patience hfree
    refine ⟨fun h => LockTable.acquire_of_cancelled h patience, ?_⟩
    intro h
    obtain ⟨u, hu⟩ := LockTable.hold?_of_free hfree
    exact ⟨u, LockTable.acquire_of_hold? h hu patience, LockTable.isHeld_of_hold? hu⟩
  . intro σ ask patience s i name scope x hw
    exact exists_ends_acquire ask patience hw x

/--
One client is told to stop while it waits for a scope that another one holds, and a third one gets another
scope meanwhile; the first one comes back once the scope is free. And a monitor that is cancelled before its
third question is asked three times, but only once if the scope is free.
-/
theorem run_excludes_contended
    : let acts : List (Act Nat) :=
        [.enter 0 "zero" "build", .attempt 0, .enter 1 "one" "build", .attempt 1, .enter 2 "two" "tests",
          .attempt 2, .attempt 1, .answer 1 true, .attempt 1, .drop "zero", .answer 1 false,
          .enter 1 "one" "build", .attempt 1]
      let s := run acts {}
      let ask : Nat → Bool × Nat := fun n => (2 ≤ n, n + 1)
      let t : LockTable := { held := ["build"], nodup := by decide }
      let v := s.step (.enter 3 "three" "build")
      s.Excludes ∧ s.guards.table.held = ["build", "tests"] ∧
        s.guards.kept.entries = [("one", "build"), ("two", "tests")] ∧
        (s.endings.map fun e => (e.client, e.waiting.answers))
          = [(0, [false]), (2, [false]), (1, [false, false, true]), (1, [false])] ∧
        t.acquire ask "build" 3 0 = (some (.error .cancelled), 3) ∧
        (∃ u, t.acquire ask "docs" 3 0 = (some (.ok u), 1) ∧
          ∀ k, u.isHeld k = true ↔ k = "docs" ∨ t.isHeld k = true) ∧
        ∃ answers, LockTable.Answers ask 0 answers 2 ∧
          Ends v (run (turns 3 answers) v) 3 ⟨"three", "build", answers⟩ none := by
  intro acts s ask t v
  obtain ⟨hexcludes, hheld, hfree, hacquire⟩ := run_excludes acts
  have hanswers : LockTable.Answers ask 0 (List.replicate 2 false ++ [true]) 3 :=
    .cons (.cons (.cons (.nil 3)))
  have hwaiting : v.waiting 3 = some { name := "three", scope := "build" } := by
    decide +kernel
  have hbusy : v.guards.acquire ask 2 "three" "build" 0 = (none, 2) := by
    rfl
  have hthree := hacquire ask 2 v 3 "three" "build" 0 hwaiting
  rw [hbusy] at hthree
  obtain ⟨answers, hasked, -, hends⟩ := hthree
  refine ⟨hexcludes, by decide +kernel, by decide +kernel, by decide +kernel, ?_, ?_, answers, hasked,
    hends⟩
  . exact (hheld ask t "build" 0 3 2 (by decide) hanswers 3).1 (by decide)
  . exact (hfree ask t "docs" 0 2 (by decide)).2 (by decide)

end Clients
end SharedWorkspace
