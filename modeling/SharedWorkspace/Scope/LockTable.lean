import SharedWorkspace.Failure
import SharedWorkspace.Provider

/-!
The table of the scopes that are held. A scope is held by one holder at a time; whoever wants a
scope that is taken tries again until it is free or the wait is cancelled.
-/

namespace SharedWorkspace

structure LockTable where
  held : List ScopeKey := []
  nodup : held.Nodup := by exact List.nodup_nil

namespace LockTable

def isHeld (t : LockTable) (scope : ScopeKey) : Bool :=
  scope ∈ t.held

def hold? (t : LockTable) (scope : ScopeKey) : Option LockTable :=
  if h : scope ∈ t.held then
    none
  else
    some ⟨scope :: t.held, List.nodup_cons.2 ⟨h, t.nodup⟩⟩

def release (t : LockTable) (scope : ScopeKey) : LockTable :=
  ⟨t.held.erase scope, t.nodup.erase _⟩

inductive Attempt where
  | cancelled
  | busy
  | granted (t : LockTable)

/--
One attempt. Who has been cancelled gets nothing, even if the scope is free.
-/
def attempt (t : LockTable) (cancelled : Bool) (scope : ScopeKey) : Attempt :=
  if cancelled then
    .cancelled
  else
    match t.hold? scope with
    | some t => .granted t
    | none => .busy

/--
Attempts until one is granted or cancelled, each after asking `isCancelled` once; `none` if more
than `patience` attempts would be needed.
-/
def acquire {σ : Type} (isCancelled : σ → Bool × σ) (scope : ScopeKey) (t : LockTable) :
    (patience : Nat) → σ → Option (Except Failure LockTable) × σ
  | 0, s => (none, s)
  | patience + 1, s =>
    let (cancelled, s) := isCancelled s
    match t.attempt cancelled scope with
    | .cancelled => (some (.error .cancelled), s)
    | .granted t => (some (.ok t), s)
    | .busy => acquire isCancelled scope t patience s

@[simp]
theorem isHeld_iff {t : LockTable} {scope : ScopeKey} : t.isHeld scope = true ↔ scope ∈ t.held := by
  simp [isHeld]

theorem hold?_eq_none_iff {t : LockTable} {scope : ScopeKey} :
    t.hold? scope = none ↔ scope ∈ t.held := by
  simp only [hold?]
  split <;> simp [*]

theorem held_of_hold? {t u : LockTable} {scope : ScopeKey} (h : t.hold? scope = some u) :
    u.held = scope :: t.held := by
  simp only [hold?] at h
  split at h
  . simp at h
  . cases h; rfl

theorem mem_release {t : LockTable} {scope s : ScopeKey} :
    s ∈ (t.release scope).held ↔ s ≠ scope ∧ s ∈ t.held := by
  simp [release, t.nodup.mem_erase_iff]

end LockTable
end SharedWorkspace
