import SharedWorkspace.Operation.Refresh
import SharedWorkspace.Proofs.Remote.Exchange

/-!
What is looked at afresh after an update: each folder among its resources, once, in their order and with
all that lies below it (`run_refreshAfterUpdate`). Files are passed over.
-/

namespace SharedWorkspace
namespace RemoteCache

open Dialogue Activity

variable {p : Provider} {es : List (Event (Progress.calls.sum calls))}

def lookups (p : Provider) (rs : List Resource) : List calls.Call :=
  (rs.filter (·.isContainer)).map (Call.refresh p · true)

theorem lookups_cons (r : Resource) (rest : List Resource)
    : lookups p (r :: rest) = lookups p [r] ++ lookups p rest := by
  unfold lookups
  rw [← List.singleton_append, List.filter_append]
  exact List.map_append

def folder : calls.Call → Resource
  | Call.refresh _ r _ => r

theorem map_folder_lookups (rs : List Resource)
    : (lookups p rs).map folder = rs.filter (·.isContainer) := by
  exact List.map_map.trans (List.map_id _)

theorem run_refreshOne {r : Resource} (h : (refreshOne p r).Run es ())
    : (effects es).map Sigma.fst = lookups p [r] := by
  unfold refreshOne at h
  unfold lookups
  split at h
  . next hr =>
    rw [List.filter_cons_of_pos hr]
    obtain ⟨work, es, rfl, h₁⟩ := run_call_bind h
    obtain ⟨fs, h₂, he⟩ := run_share h₁
    obtain ⟨fs, gs, _, rfl, h₃, h₄⟩ := run_bind_iff.1 h₂
    cases h₄
    obtain ⟨ws, _, rfl⟩ := run_ofWork_iff.1 h₃
    rw [← List.singleton_append, effects_append, ← he.1, effects_append, effects_reported]
    rfl
  . next hr =>
    rw [List.filter_cons_of_neg hr]
    cases h with
    | ask _ h =>
      cases h
      rfl

theorem run_refreshEach {rs : List Resource} (h : (refreshEach p rs).Run es ())
    : (effects es).map Sigma.fst = lookups p rs := by
  induction rs generalizing es with
  | nil =>
    cases h
    rfl
  | cons r rest ih =>
    obtain ⟨es, fs, _, rfl, h₁, h₂⟩ := run_bind_iff.1 h
    rw [effects_append, List.map_append, run_refreshOne h₁, ih h₂, ← lookups_cons]

theorem run_refreshAfterUpdate {rs : List Resource} (h : (refreshAfterUpdate p rs).Run es ())
    : (effects es).map Sigma.fst = lookups p rs := by
  unfold refreshAfterUpdate at h
  obtain ⟨_, es, rfl, h₁⟩ := run_call_bind h
  obtain ⟨es, fs, _, rfl, h₂, h₃⟩ := run_bind_iff.1 h₁
  cases h₃ with
  | ask _ h₃ =>
    cases h₃
    rw [← run_refreshEach h₂]
    show (effects (es ++ _)).map Sigma.fst = _
    rw [effects_append]
    simp [effects]

end RemoteCache
end SharedWorkspace
