import Mathlib.Data.List.Induction
import SharedWorkspace.Dispatch.Plan

/-!
What a selection holds after a list of requests, said of the list as a whole: which files were asked
for, and at which depth each folder was asked for at its deepest. `Covers.add` ties this to the requests
being taken one by one, and `Covers.sharesOut` says how the batches share them out.
-/

namespace SharedWorkspace

namespace Depth

theorem le_refl (d : Depth) : d ≤ d :=
  Nat.le_refl d.toNat

theorem le_antisymm {d e : Depth} (h : d ≤ e) (h' : e ≤ d) : d = e := by
  have := Nat.le_antisymm h h'
  cases d <;> cases e <;> simp_all [toNat]

theorem le_of_not_le {d e : Depth} (h : ¬ d ≤ e) : e ≤ d := by
  apply Nat.le_of_lt
  apply Nat.lt_of_not_le
  exact h

theorem le_trans {d e f : Depth} (h : d ≤ e) (h' : e ≤ f) : d ≤ f :=
  Nat.le_trans h h'

end Depth

namespace Traversal

variable {α : Type} [DecidableEq α]

@[simp]
theorem distinct_nil : distinct ([] : List α) = [] := rfl

theorem distinct_concat (xs : List α) (x : α)
    : distinct (xs ++ [x]) = if x ∈ distinct xs then distinct xs else distinct xs ++ [x] := by
  unfold distinct
  rw [List.foldl_append]
  rfl

@[simp]
theorem mem_distinct {xs : List α} {x : α} : x ∈ distinct xs ↔ x ∈ xs := by
  induction xs using List.reverseRecOn with
  | nil => simp
  | append_singleton xs y ih =>
    rw [distinct_concat]
    split
    . next hy =>
      constructor
      . intro hx
        exact List.mem_append_left _ (ih.1 hx)
      . intro hx
        rcases List.mem_append.1 hx with hx | hx
        . exact ih.2 hx
        . rw [List.mem_singleton.1 hx]
          exact hy
    . simp [ih]

theorem nodup_distinct (xs : List α) : (distinct xs).Nodup := by
  induction xs using List.reverseRecOn with
  | nil => simp
  | append_singleton xs x ih =>
    rw [distinct_concat]
    split
    . exact ih
    . next hx =>
      apply List.nodup_append.2
      refine ⟨ih, by simp, ?_⟩
      intro y hy z hz
      rw [List.mem_singleton.1 hz]
      intro h
      exact hx (h ▸ hy)

end Traversal

abbrev Requests := List (Resource × Depth)

namespace Requests

def resources (q : Requests) : List Resource :=
  q.map Prod.fst

def atDepth (q : Requests) (d : Depth) : List Resource :=
  (q.filter (·.2 = d)).map Prod.fst

def IsDeepest (q : Requests) (r : Resource) (d : Depth) : Prop :=
  (r, d) ∈ q ∧ ∀ e, (r, e) ∈ q → e ≤ d

instance (q : Requests) (r : Resource) (d : Depth) : Decidable (q.IsDeepest r d) :=
  decidable_of_iff ((r, d) ∈ q ∧ ∀ x ∈ q, x.1 = r → x.2 ≤ d) <| by
    unfold IsDeepest
    apply and_congr_right
    intro
    constructor
    . intro h e he
      exact h (r, e) he rfl
    . rintro h ⟨_, e⟩ hx rfl
      exact h e hx

def files (q : Requests) : List Resource :=
  Traversal.distinct (q.resources.filter fun r => !r.isContainer)

def foldersAt (q : Requests) (d : Depth) : List Resource :=
  (Traversal.distinct (q.atDepth d)).filter fun r => r.isContainer ∧ q.IsDeepest r d

variable {q : Requests} {r x : Resource} {d e : Depth}

theorem mem_atDepth : r ∈ q.atDepth d ↔ (r, d) ∈ q := by
  simp [atDepth]

theorem atDepth_concat_self : atDepth (q ++ [(r, d)]) d = atDepth q d ++ [r] := by
  simp [atDepth]

theorem atDepth_concat_of_ne (h : d ≠ e) : atDepth (q ++ [(r, d)]) e = atDepth q e := by
  simp [atDepth, h]

theorem IsDeepest.unique (h : q.IsDeepest r d) (h' : q.IsDeepest r e) : d = e := by
  apply Depth.le_antisymm
  . exact h'.2 d h.1
  . exact h.2 e h'.1

theorem exists_isDeepest (h : (r, d) ∈ q) : ∃ e, q.IsDeepest r e := by
  by_cases hf : (r, .fullSubtree) ∈ q
  . refine ⟨.fullSubtree, hf, ?_⟩
    intro e _
    cases e <;> decide
  . by_cases ho : (r, .oneLevel) ∈ q
    . refine ⟨.oneLevel, ho, ?_⟩
      intro e he
      cases e with
      | item => decide
      | oneLevel => decide
      | fullSubtree => exact absurd he hf
    . refine ⟨d, h, ?_⟩
      intro e he
      cases e with
      | item => cases d <;> decide
      | oneLevel => exact absurd he ho
      | fullSubtree => exact absurd he hf

theorem isDeepest_concat_of_ne (h : x ≠ r) : IsDeepest (q ++ [(r, d)]) x e ↔ q.IsDeepest x e := by
  simp [IsDeepest, h]

theorem isDeepest_concat_of_le {f : Depth} (h : q.IsDeepest r f) (hd : d ≤ f)
    : IsDeepest (q ++ [(r, d)]) r e ↔ q.IsDeepest r e := by
  constructor
  . intro he
    have hfe : f ≤ e := he.2 f (List.mem_append_left _ h.1)
    rcases List.mem_append.1 he.1 with hm | hm
    . exact ⟨hm, fun e' he' => he.2 e' (List.mem_append_left _ he')⟩
    . have hed : e = d := by simpa using hm
      rw [hed] at hfe
      rw [hed, Depth.le_antisymm hd hfe]
      exact h
  . intro he
    refine ⟨List.mem_append_left _ he.1, ?_⟩
    intro e' he'
    rcases List.mem_append.1 he' with hm | hm
    . exact he.2 e' hm
    . have : e' = d := by simpa using hm
      rw [this, he.unique h]
      exact hd

theorem isDeepest_concat_of_deeper (h : ∀ f, (r, f) ∈ q → ¬ d ≤ f)
    : IsDeepest (q ++ [(r, d)]) r e ↔ e = d := by
  constructor
  . intro he
    rcases List.mem_append.1 he.1 with hm | hm
    . exact absurd (he.2 d (by simp)) (h e hm)
    . simpa using hm
  . rintro rfl
    refine ⟨by simp, ?_⟩
    intro f hf
    rcases List.mem_append.1 hf with hm | hm
    . exact Depth.le_of_not_le (h f hm)
    . have : f = e := by simpa using hm
      rw [this]
      apply Depth.le_refl

theorem resources_concat : resources (q ++ [(r, d)]) = q.resources ++ [r] := by
  simp [resources]

theorem mem_files : r ∈ q.files ↔ r ∈ q.resources ∧ r.isContainer = false := by
  simp [files]

theorem mem_foldersAt : r ∈ q.foldersAt d ↔ r.isContainer = true ∧ q.IsDeepest r d := by
  unfold foldersAt
  rw [List.mem_filter, Traversal.mem_distinct, mem_atDepth, decide_eq_true_iff]
  constructor
  . exact And.right
  . intro h
    exact ⟨h.2.1, h⟩

theorem files_concat_of_container (h : r.isContainer = true) : files (q ++ [(r, d)]) = q.files := by
  unfold files
  rw [resources_concat, List.filter_append]
  simp [h]

theorem files_concat_of_file (h : r.isContainer = false)
    : files (q ++ [(r, d)]) = if r ∈ q.files then q.files else q.files ++ [r] := by
  unfold files
  rw [resources_concat, List.filter_append]
  have hr : [r].filter (fun r => !r.isContainer) = [r] := by simp [h]
  rw [hr, Traversal.distinct_concat]

theorem foldersAt_concat_of_idle
    (h : r.isContainer = false ∨ ∃ f, q.IsDeepest r f ∧ d ≤ f)
    : foldersAt (q ++ [(r, d)]) e = q.foldersAt e := by
  have hp : ∀ x, (x.isContainer = true ∧ IsDeepest (q ++ [(r, d)]) x e)
      ↔ (x.isContainer = true ∧ q.IsDeepest x e) := by
    intro x
    by_cases hx : x = r
    . subst hx
      rcases h with h | ⟨f, hf, hd⟩
      . simp [h]
      . rw [isDeepest_concat_of_le hf hd]
    . rw [isDeepest_concat_of_ne hx]
  unfold foldersAt
  simp only [hp]
  by_cases hde : d = e
  . subst hde
    rw [atDepth_concat_self, Traversal.distinct_concat]
    split
    . rfl
    . next hr =>
      rw [Traversal.mem_distinct, mem_atDepth] at hr
      rw [List.filter_append]
      have : ¬ (r.isContainer = true ∧ q.IsDeepest r d) := fun h' => hr h'.2.1
      simp [this]
  . rw [atDepth_concat_of_ne hde]

theorem foldersAt_concat_of_deeper (hr : r.isContainer = true) (h : ∀ f, (r, f) ∈ q → ¬ d ≤ f)
    : foldersAt (q ++ [(r, d)]) e
        =
      if d = e then (q.foldersAt e).filter (· ≠ r) ++ [r] else (q.foldersAt e).filter (· ≠ r) := by
  have hp : ∀ x, x ≠ r → (IsDeepest (q ++ [(r, d)]) x e ↔ q.IsDeepest x e) := by
    intro x hx
    apply isDeepest_concat_of_ne hx
  split
  . next hde =>
    subst hde
    -- The folder is new at this depth, so that its first request here is the last of all.
    have hn : r ∉ Traversal.distinct (q.atDepth d) := by
      rw [Traversal.mem_distinct, mem_atDepth]
      intro hm
      exact h d hm (Depth.le_refl d)
    unfold foldersAt
    rw [atDepth_concat_self, Traversal.distinct_concat, if_neg hn, List.filter_append,
      List.filter_filter]
    congr 1
    . apply List.filter_congr
      intro x hx
      have : x ≠ r := fun h' => hn (h' ▸ hx)
      simp [hp x this, this]
    . simp [hr, isDeepest_concat_of_deeper h]
  . next hde =>
    unfold foldersAt
    rw [atDepth_concat_of_ne hde, List.filter_filter]
    apply List.filter_congr
    intro x _
    by_cases hx : x = r
    . subst hx
      simp [isDeepest_concat_of_deeper h, Ne.symm hde]
    . simp [hp x hx, hx]

theorem nodup_files (q : Requests) : q.files.Nodup :=
  Traversal.nodup_distinct _

theorem nodup_foldersAt (q : Requests) (d : Depth) : (q.foldersAt d).Nodup := by
  unfold foldersAt
  apply List.Pairwise.filter
  apply Traversal.nodup_distinct

theorem ne_of_mem_foldersAt (h : r ∈ q.foldersAt d) (h' : x ∈ q.foldersAt e) (hde : d ≠ e) : r ≠ x := by
  rintro rfl
  apply hde
  apply (mem_foldersAt.1 h).2.unique
  exact (mem_foldersAt.1 h').2

theorem ne_of_mem_foldersAt_of_mem_files (h : r ∈ q.foldersAt d) (h' : x ∈ q.files) : r ≠ x := by
  rintro rfl
  have hr := (mem_foldersAt.1 h).1
  rw [(mem_files.1 h').2] at hr
  contradiction

theorem mem_resources_iff
    : r ∈ q.resources ↔ (∃ d, r ∈ q.foldersAt d) ∨ r ∈ q.files := by
  constructor
  . intro h
    cases hr : r.isContainer with
    | false => exact .inr (mem_files.2 ⟨h, hr⟩)
    | true =>
      obtain ⟨⟨_, d⟩, hm, rfl⟩ := List.mem_map.1 h
      obtain ⟨e, he⟩ := exists_isDeepest hm
      exact .inl ⟨e, mem_foldersAt.2 ⟨hr, he⟩⟩
  . rintro (⟨d, h⟩ | h)
    . exact List.mem_map.2 ⟨(r, d), (mem_foldersAt.1 h).2.1, rfl⟩
    . exact (mem_files.1 h).1

end Requests

namespace Selection

@[simp]
theorem foldersAt_removeFolder (s : Selection) (r : Resource) (d : Depth)
    : (s.removeFolder r).foldersAt d = (s.foldersAt d).filter (· ≠ r) := by
  cases d <;> rfl

@[simp]
theorem foldersAt_appendFolder (s : Selection) (r : Resource) (d e : Depth)
    : (s.appendFolder r d).foldersAt e
        =
      if d = e then s.foldersAt e ++ [r] else s.foldersAt e := by
  cases d <;> cases e <;> rfl

@[simp]
theorem files_removeFolder (s : Selection) (r : Resource) : (s.removeFolder r).files = s.files := rfl

@[simp]
theorem files_appendFolder (s : Selection) (r : Resource) (d : Depth)
    : (s.appendFolder r d).files = s.files := by
  cases d <;> rfl

@[simp]
theorem files_addFolder (s : Selection) (r : Resource) (d : Depth)
    : (s.addFolder r d).files = s.files := by
  unfold addFolder
  split <;> simp

@[simp]
theorem foldersAt_addFile (s : Selection) (r : Resource) (d : Depth)
    : (s.addFile r).foldersAt d = s.foldersAt d := by
  unfold addFile
  split
  . rfl
  . cases d <;> rfl

theorem mem_of_depthOf? {s : Selection} {r : Resource} {d : Depth} (h : s.depthOf? r = some d)
    : r ∈ s.foldersAt d := by
  unfold depthOf? at h
  simpa using List.find?_some h

theorem exists_depthOf? {s : Selection} {r : Resource} {d : Depth} (h : r ∈ s.foldersAt d)
    : ∃ e, s.depthOf? r = some e := by
  apply Option.isSome_iff_exists.1
  unfold depthOf?
  rw [List.find?_isSome]
  refine ⟨d, ?_, by simpa using h⟩
  cases d <;> simp

def resources (s : Selection) : List Resource :=
  s.foldersAt .fullSubtree ++ s.foldersAt .oneLevel ++ s.foldersAt .item ++ s.files

def visited (s : Selection) : List Resource :=
  s.deep ++ s.shallow ++ s.nontraversed

theorem visited_perm (s : Selection) : s.visited.Perm s.resources := by
  unfold visited resources deep shallow nontraversed foldersAt
  by_cases hf : s.fullDepthFolders = []
  . by_cases ho : s.oneLevelFolders = []
    . simp [hf, ho, List.perm_append_comm]
    . simp only [hf, ho, if_true, if_false, List.nil_append, and_true, List.append_assoc]
      apply List.Perm.append_left
      apply List.perm_append_comm
  . by_cases ho : s.oneLevelFolders = []
    . simp only [hf, ho, if_true, if_false, List.append_nil, and_false, List.append_assoc]
      apply List.Perm.append_left
      apply List.perm_append_comm
    . simp only [hf, ho, if_false, and_false, List.append_assoc]
      apply List.Perm.append_left
      apply List.Perm.append_left
      apply List.perm_append_comm

theorem isEmpty_iff {s : Selection} : s.isEmpty = true ↔ s.resources = [] := by
  unfold isEmpty resources foldersAt
  simp only [Bool.and_eq_true, List.isEmpty_iff, List.append_eq_nil_iff]
  tauto

theorem batches_ne_nil {s : Selection} (h : s.isEmpty = false) (c : DispatchConfig)
    : s.batches c ≠ [] := by
  intro hb
  have hv : s.visited = [] := by
    unfold batches at hb
    rw [List.filter_eq_nil_iff] at hb
    unfold visited
    simpa using hb
  have hr : s.resources = [] := by
    have := s.visited_perm
    rw [hv] at this
    exact List.nil_perm.1 this
  rw [isEmpty_iff.2 hr] at h
  contradiction

theorem mem_resources {s : Selection} {r : Resource}
    : r ∈ s.resources ↔ (∃ d, r ∈ s.foldersAt d) ∨ r ∈ s.files := by
  unfold resources
  simp only [List.mem_append]
  constructor
  . rintro (((hr | hr) | hr) | hr)
    . exact .inl ⟨_, hr⟩
    . exact .inl ⟨_, hr⟩
    . exact .inl ⟨_, hr⟩
    . exact .inr hr
  . rintro (⟨d, hr⟩ | hr)
    . cases d with
      | item => exact .inl (.inr hr)
      | oneLevel => exact .inl (.inl (.inr hr))
      | fullSubtree => exact .inl (.inl (.inl hr))
    . exact .inr hr

theorem mem_addFile (s : Selection) (r : Resource) : r ∈ (s.addFile r).files := by
  unfold addFile
  split
  . assumption
  . simp

theorem mem_addFolder (s : Selection) (r : Resource) (d : Depth)
    : ∃ e, r ∈ (s.addFolder r d).foldersAt e := by
  unfold addFolder
  split
  . next hd =>
    rw [Option.any_eq_true] at hd
    obtain ⟨e, he, _⟩ := hd
    exact ⟨e, mem_of_depthOf? he⟩
  . exact ⟨d, by simp⟩

theorem isEmpty_add (s : Selection) (r : Resource) (d : Depth) : (s.add r d).isEmpty = false := by
  rw [Bool.eq_false_iff]
  intro h
  have hr : r ∈ (s.add r d).resources := by
    rw [mem_resources]
    unfold add
    split
    . exact .inl (s.mem_addFolder r d)
    . exact .inr (s.mem_addFile r)
  rw [isEmpty_iff.1 h] at hr
  contradiction

/--
The selection holds what the requests `q` ask for, each folder at its deepest.
-/
structure Covers (s : Selection) (q : Requests) : Prop where
  files : s.files = q.files
  folders : ∀ d, s.foldersAt d = q.foldersAt d

namespace Covers

variable {s : Selection} {q : Requests} {r : Resource} {d : Depth}

theorem depthOf?_eq_some_iff (h : s.Covers q) (hr : r.isContainer = true)
    : s.depthOf? r = some d ↔ q.IsDeepest r d := by
  have mem : ∀ e, r ∈ s.foldersAt e ↔ q.IsDeepest r e := by
    intro e
    rw [h.folders, Requests.mem_foldersAt]
    simp [hr]
  constructor
  . intro hd
    exact (mem d).1 (mem_of_depthOf? hd)
  . intro hd
    obtain ⟨e, he⟩ := exists_depthOf? ((mem d).2 hd)
    rw [he, hd.unique ((mem e).1 (mem_of_depthOf? he))]

theorem nil : Covers {} [] where
  files := rfl
  folders d := by cases d <;> rfl

theorem addFile (h : s.Covers q) (hr : r.isContainer = false)
    : (s.addFile r).Covers (q ++ [(r, d)]) where
  files := by
    rw [Requests.files_concat_of_file hr, ← h.files]
    unfold Selection.addFile
    split <;> rfl
  folders e := by
    rw [foldersAt_addFile, h.folders, Requests.foldersAt_concat_of_idle (.inl hr)]

theorem addFolder (h : s.Covers q) (hr : r.isContainer = true)
    : (s.addFolder r d).Covers (q ++ [(r, d)]) where
  files := by
    rw [Requests.files_concat_of_container hr, files_addFolder, h.files]
  folders e := by
    unfold Selection.addFolder
    split
    . next hd =>
      rw [Option.any_eq_true] at hd
      obtain ⟨f, hf, hdf⟩ := hd
      have hidle : ∃ f, q.IsDeepest r f ∧ d ≤ f :=
        ⟨f, (h.depthOf?_eq_some_iff hr).1 hf, by simpa using hdf⟩
      rw [Requests.foldersAt_concat_of_idle (.inr hidle), h.folders]
    . next hd =>
      have hdeeper : ∀ f, (r, f) ∈ q → ¬ d ≤ f := by
        intro f hm hdf
        obtain ⟨g, hg⟩ := Requests.exists_isDeepest hm
        apply hd
        rw [(h.depthOf?_eq_some_iff hr).2 hg]
        simpa using Depth.le_trans hdf (hg.2 f hm)
      rw [Requests.foldersAt_concat_of_deeper hr hdeeper]
      simp [h.folders]

theorem add (h : s.Covers q) : (s.add r d).Covers (q ++ [(r, d)]) := by
  unfold Selection.add
  split
  . next hr => exact h.addFolder hr
  . next hr => exact h.addFile (by simpa using hr)

theorem mem_resources (h : s.Covers q) : r ∈ s.resources ↔ r ∈ q.resources := by
  rw [Selection.mem_resources, Requests.mem_resources_iff]
  simp only [h.folders, h.files]

theorem nodup_resources (h : s.Covers q) : s.resources.Nodup := by
  have folders : ∀ d e, d ≠ e → ∀ r ∈ q.foldersAt d, ∀ x ∈ q.foldersAt e, r ≠ x := by
    intro d e hde r hr x hx
    exact Requests.ne_of_mem_foldersAt hr hx hde
  have files : ∀ d, ∀ r ∈ q.foldersAt d, ∀ x ∈ q.files, r ≠ x := by
    intro d r hr x hx
    exact Requests.ne_of_mem_foldersAt_of_mem_files hr hx
  unfold Selection.resources
  simp only [h.folders, h.files, List.nodup_append, List.mem_append, or_imp, forall_and]
  exact ⟨⟨⟨q.nodup_foldersAt _, q.nodup_foldersAt _, folders _ _ (by decide)⟩, q.nodup_foldersAt _,
    folders _ _ (by decide), folders _ _ (by decide)⟩, q.nodup_files, ⟨files _, files _⟩, files _⟩

theorem mem_foldersAt (h : s.Covers q) (hr : r.isContainer = true)
    : r ∈ s.foldersAt d ↔ q.IsDeepest r d := by
  rw [h.folders, Requests.mem_foldersAt]
  simp [hr]

theorem not_mem_files (h : s.Covers q) (hr : r.isContainer = true) : r ∉ s.files := by
  rw [h.files, Requests.mem_files]
  simp [hr]

end Covers

/--
The batches share out what the requests `q` ask for. A folder is visited as deep as it is asked for
at its deepest. Files go along with the folders that are visited one level deep; only if there are
none, but folders that are visited in depth, they go along with these.
-/
structure SharesOut (s : Selection) (q : Requests) : Prop where
  nodup : (s.deep ++ s.shallow ++ s.nontraversed).Nodup
  perm : (s.deep ++ s.shallow ++ s.nontraversed).Perm (Traversal.distinct q.resources)
  deep : ∀ r, r.isContainer = true → (r ∈ s.deep ↔ q.IsDeepest r .fullSubtree)
  shallow : ∀ r, r.isContainer = true → (r ∈ s.shallow ↔ q.IsDeepest r .oneLevel)
  nontraversed : ∀ r, r ∈ s.nontraversed ↔ r.isContainer = true ∧ q.IsDeepest r .item
  files : ∀ r ∈ q.files,
    if q.foldersAt .oneLevel = [] ∧ q.foldersAt .fullSubtree ≠ [] then r ∈ s.deep else r ∈ s.shallow

theorem mem_deep {s : Selection} {r : Resource} (hr : r ∉ s.files)
    : r ∈ s.deep ↔ r ∈ s.foldersAt .fullSubtree := by
  unfold deep foldersAt
  split
  . simp_all
  . split <;> simp [hr]

theorem mem_shallow {s : Selection} {r : Resource} (hr : r ∉ s.files)
    : r ∈ s.shallow ↔ r ∈ s.foldersAt .oneLevel := by
  unfold shallow foldersAt
  split
  . simp_all
  . split <;> simp_all

theorem mem_of_mem_files {s : Selection} {r : Resource} (hr : r ∈ s.files)
    : if s.foldersAt .oneLevel = [] ∧ s.foldersAt .fullSubtree ≠ [] then r ∈ s.deep
      else r ∈ s.shallow := by
  by_cases ho : s.oneLevelFolders = []
  . by_cases hf : s.fullDepthFolders = []
    . simp [shallow, foldersAt, ho, hf, hr]
    . simp [deep, foldersAt, ho, hf, hr]
  . simp [shallow, foldersAt, ho, hr]

theorem Covers.sharesOut {s : Selection} {q : Requests} (h : s.Covers q) : s.SharesOut q where
  nodup := s.visited_perm.nodup_iff.2 h.nodup_resources
  perm := by
    apply s.visited_perm.trans
    rw [List.perm_ext_iff_of_nodup h.nodup_resources (Traversal.nodup_distinct _)]
    intro r
    rw [h.mem_resources, Traversal.mem_distinct]
  deep r hr := by
    rw [mem_deep (h.not_mem_files hr), h.mem_foldersAt hr]
  shallow r hr := by
    rw [mem_shallow (h.not_mem_files hr), h.mem_foldersAt hr]
  nontraversed r := by
    rw [← Requests.mem_foldersAt, ← h.folders]
    rfl
  files r hr := by
    rw [← h.files] at hr
    rw [← h.folders, ← h.folders]
    exact mem_of_mem_files hr

end Selection
end SharedWorkspace
