import SharedWorkspace.Scope.LockTable

/-!
Waits for a scope. `Wait` says what comes of the answers to whether a wait is cancelled, whoever gives
them, and `exists_wait_of_acquire` that a table acquires its scopes by such waits.
-/

namespace SharedWorkspace
namespace LockTable

variable {t u : LockTable} {scope : ScopeKey} {b : Bool}

theorem attempt_eq_granted_iff
    : t.attempt b scope = .granted u ↔ b = false ∧ t.hold? scope = some u := by
  unfold attempt
  cases b with
  | true => simp
  | false => cases t.hold? scope <;> simp

theorem attempt_eq_cancelled_iff : t.attempt b scope = .cancelled ↔ b = true := by
  unfold attempt
  cases b with
  | true => simp
  | false => cases t.hold? scope <;> simp

theorem attempt_eq_busy_iff : t.attempt b scope = .busy ↔ b = false ∧ scope ∈ t.held := by
  rw [← hold?_eq_none_iff]
  unfold attempt
  cases b with
  | true => simp
  | false => cases t.hold? scope <;> simp

theorem attempt_of_held (h : scope ∈ t.held) : t.attempt false scope = .busy :=
  attempt_eq_busy_iff.2 ⟨rfl, h⟩

theorem hold?_of_free (h : t.isHeld scope = false) : ∃ u, t.hold? scope = some u := by
  apply Option.ne_none_iff_exists'.1
  rw [ne_eq, hold?_eq_none_iff, ← isHeld_iff, h]
  exact Bool.false_ne_true

theorem isHeld_of_hold? (h : t.hold? scope = some u) (k : ScopeKey)
    : u.isHeld k = true ↔ k = scope ∨ t.isHeld k = true := by
  rw [isHeld_iff, isHeld_iff, held_of_hold? h, List.mem_cons]

theorem release_of_hold? (h : t.hold? scope = some u) : u.release scope = t := by
  have hu := held_of_hold? h
  obtain ⟨held, nodup⟩ := t
  unfold release
  congr
  rw [hu]
  apply List.erase_cons_head

/--
The answers to whether a wait is cancelled, one for each attempt, and how the wait ends.
-/
inductive Wait (t : LockTable) (scope : ScopeKey)
    : List Bool → Except Failure LockTable → Prop where
  | cancelled {b : Bool} (h : t.attempt b scope = .cancelled) : Wait t scope [b] (.error .cancelled)
  | granted {b : Bool} {u : LockTable} (h : t.attempt b scope = .granted u) : Wait t scope [b] (.ok u)
  | busy {b : Bool} {answers : List Bool} {r : Except Failure LockTable}
      (h : t.attempt b scope = .busy) (h' : Wait t scope answers r) : Wait t scope (b :: answers) r

namespace Wait

variable {answers : List Bool}

theorem hold?_of_ok (h : t.Wait scope answers (.ok u)) : t.hold? scope = some u := by
  generalize hr : Except.ok u = r at h
  induction h with
  | cancelled => contradiction
  | granted h =>
    cases hr
    exact (attempt_eq_granted_iff.1 h).2
  | busy _ _ ih => exact ih hr

end Wait

section Acquire

variable {σ : Type} {ask : σ → Bool × σ}

inductive Answers (ask : σ → Bool × σ) : σ → List Bool → σ → Prop where
  | nil (s : σ) : Answers ask s [] s
  | cons {s s' : σ} {answers : List Bool} (h : Answers ask (ask s).2 answers s')
      : Answers ask s ((ask s).1 :: answers) s'

theorem Answers.cons_iff {s s' : σ} {answers : List Bool}
    : Answers ask s (b :: answers) s' ↔ (ask s).1 = b ∧ Answers ask (ask s).2 answers s' := by
  constructor
  . intro h
    generalize hl : b :: answers = l at h
    cases h with
    | nil => contradiction
    | cons h =>
      cases hl
      exact ⟨rfl, h⟩
  . rintro ⟨rfl, h⟩
    exact .cons h

theorem Answers.nil_iff {s s' : σ} : Answers ask s [] s' ↔ s' = s := by
  constructor
  . intro h
    cases h
    rfl
  . rintro rfl
    exact .nil _

theorem acquire_of_cancelled {s : σ} (h : (ask s).1 = true) (patience : Nat)
    : t.acquire ask scope (patience + 1) s = (some (.error .cancelled), (ask s).2) := by
  unfold acquire
  dsimp only
  rw [h, attempt_eq_cancelled_iff.2 rfl]

theorem acquire_of_hold? {s : σ} (h : (ask s).1 = false) (hu : t.hold? scope = some u) (patience : Nat)
    : t.acquire ask scope (patience + 1) s = (some (.ok u), (ask s).2) := by
  unfold acquire
  dsimp only
  rw [h, attempt_eq_granted_iff.2 ⟨rfl, hu⟩]

theorem acquire_of_held {n patience : Nat} {s s' : σ} (hheld : scope ∈ t.held)
    (h : Answers ask s (List.replicate n false ++ [true]) s')
    : (n < patience → t.acquire ask scope patience s = (some (.error .cancelled), s')) ∧
        (patience ≤ n → (t.acquire ask scope patience s).1 = none) := by
  induction n generalizing patience s with
  | zero =>
    obtain ⟨hyes, hend⟩ := Answers.cons_iff.1 h
    cases patience with
    | zero => exact ⟨fun h => absurd h (Nat.lt_irrefl 0), fun _ => rfl⟩
    | succ patience =>
      refine ⟨fun _ => ?_, fun h => absurd h (Nat.not_succ_le_zero _)⟩
      rw [acquire_of_cancelled hyes, Answers.nil_iff.1 hend]
  | succ n ih =>
    obtain ⟨hno, h⟩ := Answers.cons_iff.1 h
    cases patience with
    | zero => exact ⟨fun h => absurd h (Nat.not_lt_zero _), fun _ => rfl⟩
    | succ patience =>
      unfold acquire
      dsimp only
      rw [hno, attempt_of_held hheld, Nat.add_lt_add_iff_right, Nat.add_le_add_iff_right]
      exact ih h

theorem exists_wait_of_acquire {patience : Nat} {s s' : σ} {r : Except Failure LockTable}
    (h : t.acquire ask scope patience s = (some r, s'))
    : ∃ answers, Answers ask s answers s' ∧ t.Wait scope answers r := by
  induction patience generalizing s with
  | zero => cases h
  | succ patience ih =>
    -- The table stays as it is while the scope is taken, so the next attempt is at the same one.
    cases ha : t.attempt (ask s).1 scope with
    | cancelled =>
      rw [acquire_of_cancelled (attempt_eq_cancelled_iff.1 ha)] at h
      cases h
      exact ⟨[(ask s).1], .cons (.nil _), .cancelled ha⟩
    | granted u =>
      obtain ⟨hno, hu⟩ := attempt_eq_granted_iff.1 ha
      rw [acquire_of_hold? hno hu] at h
      cases h
      exact ⟨[(ask s).1], .cons (.nil _), .granted ha⟩
    | busy =>
      unfold acquire at h
      dsimp only at h
      rw [ha] at h
      obtain ⟨answers, hs, hw⟩ := ih h
      exact ⟨_ :: answers, .cons hs, .busy ha hw⟩

theorem busy_of_acquire {patience : Nat} {s s' : σ} (h : t.acquire ask scope patience s = (none, s'))
    : ∃ answers, Answers ask s answers s' ∧ answers.length = patience ∧
        ∀ b ∈ answers, t.attempt b scope = .busy := by
  induction patience generalizing s with
  | zero =>
    cases h
    exact ⟨[], .nil _, rfl, List.forall_mem_nil _⟩
  | succ patience ih =>
    unfold acquire at h
    dsimp only at h
    split at h
    . cases h
    . cases h
    . next ha =>
      obtain ⟨answers, hs, hlength, hbusy⟩ := ih h
      exact ⟨_ :: answers, .cons hs, congrArg (· + 1) hlength, List.forall_mem_cons.2 ⟨ha, hbusy⟩⟩

end Acquire

end LockTable
end SharedWorkspace
