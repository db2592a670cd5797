import Mathlib.Data.List.Forall2
import SharedWorkspace.Operation.Arguments
import SharedWorkspace.Proofs.Text.Pieces

/-!
The paths of resources are in normal form: a resource has the segments that lead somewhere and nothing else,
and everything that is told of its path can be told from them (`paths_in_normal_form`).
-/

namespace SharedWorkspace

namespace Text

variable {sep : Char} {s : String} {ps : List String}

theorem filter_pieces {keep : String → Bool} (h : keep "" = false)
    : (pieces sep s).filter keep = (segments sep s).filter keep := by
  unfold segments
  split
  . next hs => rw [hs, pieces_empty, List.filter_cons_of_neg (by simp [h])]
  . rfl

theorem head?_ne_of_segments (h : "" ∉ segments sep s) : s.toList.head? ≠ some sep := by
  intro hhead
  obtain ⟨ds, hs⟩ := List.head?_eq_some_iff.1 hhead
  have hsegments : segments sep s = pieces sep "" ++ pieces sep (String.ofList ds) := segments_append hs
  exact h (hsegments ▸ List.mem_append_left _ (List.mem_singleton_self _))

theorem getLast?_ne_of_segments (h : "" ∉ segments sep s) : s.toList.getLast? ≠ some sep := by
  intro hlast
  obtain ⟨cs, hs⟩ := List.getLast?_eq_some_iff.1 hlast
  have hsegments : segments sep s = pieces sep (String.ofList cs) ++ pieces sep "" := segments_append hs
  exact h (hsegments ▸ List.mem_append_right _ (List.mem_singleton_self _))

theorem not_isInfix_of_segments (h : "" ∉ segments sep s) : ¬ [sep, sep] <:+: s.toList := by
  rintro ⟨cs, ds, hs⟩
  have hsegments : segments sep s = pieces sep (String.ofList cs) ++ pieces sep (String.ofList (sep :: ds)) :=
    segments_append (by rw [← hs]; simp)
  have hrest : pieces sep (String.ofList (sep :: ds)) = pieces sep "" ++ pieces sep (String.ofList ds) :=
    pieces_append String.toList_ofList
  rw [hsegments, hrest] at h
  exact h (by simp)

theorem join_map_append (hne : ps ≠ []) : String.join (ps.map ("/" ++ ·)) = "/" ++ joined '/' ps := by
  induction ps with
  | nil => contradiction
  | cons p rest ih =>
    rw [List.map_cons, String.join_cons]
    cases rest with
    | nil => rw [List.map_nil, String.join_nil, String.append_empty, joined_eq, String.intercalate_singleton]
    | cons q rest =>
      rw [ih (List.cons_ne_nil _ _), joined_eq, joined_eq, String.intercalate_cons_cons]
      simp only [String.append_assoc]

end Text

namespace Resource

variable {s t p : String} {r : Resource}

theorem mem_pathSegments (h : p ∈ pathSegments s) : (p ≠ "" ∧ p ≠ ".") ∧ '/' ∉ p.toList := by
  obtain ⟨hmem, hp⟩ := List.mem_filter.1 h
  exact ⟨of_decide_eq_true hp, Text.not_mem_of_mem_pieces hmem⟩

theorem segments_normalize (s : String) : Text.segments '/' (normalize s) = pathSegments s :=
  Text.segments_joined fun _ hp => ⟨(mem_pathSegments hp).1.1, (mem_pathSegments hp).2⟩

theorem empty_not_mem (s : String) : "" ∉ Text.segments '/' (normalize s) := by
  rw [segments_normalize]
  intro h
  exact (mem_pathSegments h).1.1 rfl

theorem normalize_inj : normalize s = normalize t ↔ pathSegments s = pathSegments t := by
  rw [← segments_normalize, ← segments_normalize, Text.segments_inj]

theorem normalize_eq_empty_iff : normalize s = "" ↔ pathSegments s = [] := by
  rw [← segments_normalize, Text.segments_eq_nil_iff]

theorem pathSegments_normalize (s : String) : pathSegments (normalize s) = pathSegments s := by
  unfold pathSegments
  rw [Text.filter_pieces (by simp), segments_normalize, pathSegments, List.filter_filter]
  simp only [Bool.and_self]

theorem segments_of_path (h : r.path = normalize s) : r.segments = pathSegments s := by
  unfold segments
  rw [h, Text.filter_pieces (by simp), segments_normalize, List.filter_eq_self]
  intro p hp
  exact decide_eq_true (mem_pathSegments hp).1.1

theorem name_of_path (h : r.path = normalize s) : r.name = (pathSegments s).getLast?.getD r.project := by
  unfold name
  rw [h]
  by_cases hempty : normalize s = ""
  . rw [normalize_eq_empty_iff.1 hempty, hempty]
    rfl
  . rw [← Text.segments_of_ne hempty, segments_normalize]
    cases hlast : (pathSegments s).getLast? with
    | none => rfl
    | some p => exact if_neg (mem_pathSegments (List.mem_of_getLast? hlast)).1.1

theorem fullPath_of_path (h : r.path = normalize s)
    : r.fullPath = "/" ++ r.project ++ String.join ((pathSegments s).map ("/" ++ ·)) := by
  unfold fullPath
  rw [h]
  split
  . next hempty =>
    rw [normalize_eq_empty_iff.1 hempty, List.map_nil, String.join_nil, String.append_empty]
  . next hempty =>
    rw [Text.join_map_append (mt normalize_eq_empty_iff.2 hempty), ← String.append_assoc]
    rfl

def Made (r : Resource) : Prop :=
  ∃ project path, r = file project path ∨ r = folder project path ∨ r = ofProject project

theorem Made.exists_path (h : r.Made) : ∃ s, r.path = normalize s := by
  obtain ⟨project, path, rfl | rfl | rfl⟩ := h
  . exact ⟨path, rfl⟩
  . exact ⟨path, rfl⟩
  . exact ⟨"", rfl⟩

theorem argument_of_path (h : r.path = normalize s)
    : let argument := if r.path = "" then "." else r.path
      argument ≠ "" ∧ (argument = "." ↔ r.segments = []) := by
  dsimp only
  rw [segments_of_path h, h]
  split
  . next hempty => exact ⟨by decide, iff_of_true rfl (normalize_eq_empty_iff.1 hempty)⟩
  . next hempty =>
    refine ⟨hempty, iff_of_false ?_ (mt normalize_eq_empty_iff.2 hempty)⟩
    intro hdot
    have hsegments := segments_normalize s
    rw [hdot, Text.segments_of_ne (by decide), Text.pieces_of_not_mem (by decide)] at hsegments
    exact (mem_pathSegments (hsegments ▸ List.mem_singleton_self ".")).1.2 rfl

/--
The path that is put into a resource comes out in normal form: without anything that leads nowhere, and the
same for all paths that lead to the same place.
-/
structure NormalForm (build : ProjectName → String → Resource) : Prop where
  path : ∀ project s, (build project s).path = Text.joined '/' (pathSegments s)
  trimmed : ∀ project s, let cs := (build project s).path.toList
    cs.head? ≠ some '/' ∧ cs.getLast? ≠ some '/' ∧ ¬ ['/', '/'] <:+: cs
  again : ∀ project s, build project (build project s).path = build project s
  eq_iff : ∀ project s t, build project s = build project t ↔ pathSegments s = pathSegments t
  segments : ∀ project s, (build project s).segments = pathSegments s
  name : ∀ project s, (build project s).name = (pathSegments s).getLast?.getD project
  fullPath : ∀ project s,
    (build project s).fullPath = "/" ++ project ++ String.join ((pathSegments s).map ("/" ++ ·))

theorem normalForm_mk (kind : ResourceKind) : NormalForm fun project s => ⟨project, normalize s, kind⟩ where
  path _ _ := rfl
  trimmed _ s :=
    have h := empty_not_mem s
    ⟨Text.head?_ne_of_segments h, Text.getLast?_ne_of_segments h, Text.not_isInfix_of_segments h⟩
  again project s := by
    dsimp only
    rw [normalize_inj.2 (pathSegments_normalize s)]
  eq_iff project s t := by
    simp [normalize_inj]
  segments _ _ := segments_of_path rfl
  name _ _ := name_of_path rfl
  fullPath _ _ := fullPath_of_path rfl

/--
Files and folders have their paths in normal form, and every resource is written as an argument that is not
empty: as a dot if and only if it has no segments.
-/
theorem paths_in_normal_form
    : NormalForm file ∧ NormalForm folder ∧
        ∀ rs : List Resource, (∀ r ∈ rs, r.Made) →
          List.Forall₂ (fun r argument => argument ≠ "" ∧ (argument = "." ↔ r.segments = []))
            rs (Operation.pathArguments rs) := by
  refine ⟨normalForm_mk .file, normalForm_mk .folder, ?_⟩
  intro rs hrs
  unfold Operation.pathArguments
  rw [List.forall₂_map_right_iff, List.forall₂_same]
  intro r hr
  obtain ⟨s, hs⟩ := (hrs r hr).exists_path
  exact argument_of_path hs

/--
A file without segments, a folder whose path needs tidying, and a project.
-/
theorem paths_in_normal_form_dots
    : let tidy := folder "website" "//./a/..b//.c/"
      let rs := [file "website" "./", tidy, ofProject "website"]
      (∀ r ∈ rs, r.Made) ∧ tidy.path = "a/..b/.c" ∧ tidy.name = ".c" ∧ tidy.fullPath = "/website/a/..b/.c" ∧
        Operation.pathArguments rs = [".", "a/..b/.c", "."] ∧
        List.Forall₂ (fun r argument => argument ≠ "" ∧ (argument = "." ↔ r.segments = []))
          rs (Operation.pathArguments rs) := by
  intro tidy rs
  obtain ⟨_, hfolder, harguments⟩ := paths_in_normal_form
  have hmade : ∀ r ∈ rs, r.Made := by
    simp only [rs, List.forall_mem_cons]
    exact ⟨⟨_, _, .inl rfl⟩, ⟨_, _, .inr (.inl rfl)⟩, ⟨_, "", .inr (.inr rfl)⟩, List.forall_mem_nil _⟩
  refine ⟨hmade, ?_, ?_, ?_, by decide +kernel, harguments rs hmade⟩
  . rw [hfolder.path]
    decide +kernel
  . rw [hfolder.name]
    decide +kernel
  . rw [hfolder.fullPath]
    decide +kernel

end Resource
end SharedWorkspace
