import Mathlib.Data.List.Forall2
import SharedWorkspace.Proofs.Dispatch.Accounting
import SharedWorkspace.Proofs.Dispatch.Requests

/-!
What a dispatch makes of requests that are put in another way: split up among other traversals, in another
order, or repeated. It does the same as long as the same is asked for at the deepest
(`execute_alike`), and a request that is for nothing new makes no difference at all
(`Groups.ofTraversals_append`).
-/

namespace SharedWorkspace

open Dialogue Activity

namespace OrderedMap

theorem find?_mapValues {κ α β : Type} [Ord κ] (f : α → β) (m : OrderedMap κ α) (k : κ)
    : (m.mapValues f).find? k = (m.find? k).map f := by
  obtain ⟨es, hes⟩ := m
  simp only [find?, mapValues]
  clear hes
  induction es with
  | nil => rfl
  | cons e es ih =>
    rw [List.map_cons, find?.go, find?.go]
    split
    . rfl
    . exact ih

theorem forall₂_values {κ α β : Type} [Ord κ] [Std.TransOrd κ] [Std.LawfulEqOrd κ]
    {R : α → β → Prop} {m : OrderedMap κ α} {n : OrderedMap κ β}
    (h : ∀ k, Option.Rel R (m.find? k) (n.find? k)) : List.Forall₂ R m.values n.values := by
  have hkeys : m.mapValues (fun _ => ()) = n.mapValues fun _ => () := by
    apply ext_find?
    intro k
    rw [find?_mapValues, find?_mapValues]
    have hk := h k
    generalize m.find? k = a, n.find? k = b at hk
    cases hk <;> rfl
  have hentries : List.Forall₂ (fun e f => e.1 = f.1) m.entries n.entries := by
    have heq := congrArg keys hkeys
    unfold keys mapValues at heq
    rw [List.map_map, List.map_map, ← List.forall₂_eq_eq_eq, List.forall₂_map_left_iff,
      List.forall₂_map_right_iff] at heq
    exact heq
  unfold values
  rw [List.forall₂_map_left_iff, List.forall₂_map_right_iff]
  rw [List.forall₂_iff_zip] at hentries ⊢
  refine ⟨hentries.1, ?_⟩
  rintro ⟨k, a⟩ ⟨k', b⟩ hz
  obtain rfl : k = k' := hentries.2 hz
  obtain ⟨ha, hb⟩ := List.of_mem_zip hz
  have hrel := h k
  rw [find?_eq_some_iff.2 ha, find?_eq_some_iff.2 hb] at hrel
  cases hrel with
  | some hrel => exact hrel

end OrderedMap

namespace Requests

/--
The same is asked for: the same files, and each container at the same depth at the deepest.
-/
structure Equivalent (q q' : Requests) : Prop where
  files : ∀ r, r.isContainer = false → (r ∈ q.resources ↔ r ∈ q'.resources)
  folders : ∀ r d, r.isContainer = true → (q.IsDeepest r d ↔ q'.IsDeepest r d)

def Includes (q : Requests) (x : Resource × Depth) : Prop :=
  x.1 ∈ q.resources ∧ (x.1.isContainer = true → ∃ e, (x.1, e) ∈ q ∧ x.2 ≤ e)

variable {q q' more : Requests} {r : Resource} {x : Resource × Depth}

theorem equivalent_iff
    : q.Equivalent q' ↔ ∀ x ∈ q ++ q',
        if x.1.isContainer then
          ∀ d ∈ [Depth.item, .oneLevel, .fullSubtree], q.IsDeepest x.1 d ↔ q'.IsDeepest x.1 d
        else
          x.1 ∈ q.resources ↔ x.1 ∈ q'.resources := by
  constructor
  . intro h x _
    split
    . next hx => exact fun d _ => h.folders x.1 d hx
    . next hx => exact h.files x.1 (by simpa using hx)
  . intro h
    refine ⟨?_, ?_⟩
    . intro r hr
      have hmem : ∀ d, (r, d) ∈ q ++ q' → (r ∈ q.resources ↔ r ∈ q'.resources) := by
        intro d hd
        have hx := h _ hd
        rwa [if_neg (by simp [hr])] at hx
      constructor
      . intro hq
        obtain ⟨⟨_, d⟩, hd, rfl⟩ := List.mem_map.1 hq
        exact (hmem d (List.mem_append_left _ hd)).1 hq
      . intro hq
        obtain ⟨⟨_, d⟩, hd, rfl⟩ := List.mem_map.1 hq
        exact (hmem d (List.mem_append_right _ hd)).2 hq
    . intro r d hr
      have hmem : (r, d) ∈ q ++ q' → (q.IsDeepest r d ↔ q'.IsDeepest r d) := by
        intro hd
        have hx := h _ hd
        rw [if_pos hr] at hx
        exact hx d (by cases d <;> simp)
      constructor
      . intro hq
        exact (hmem (List.mem_append_left _ hq.1)).1 hq
      . intro hq
        exact (hmem (List.mem_append_right _ hq.1)).2 hq

instance (q q' : Requests) : Decidable (q.Equivalent q') :=
  decidable_of_iff' _ equivalent_iff

instance (q : Requests) (x : Resource × Depth) : Decidable (q.Includes x) :=
  decidable_of_iff
      (x.1 ∈ q.resources ∧ (x.1.isContainer = true → ∃ y ∈ q, y.1 = x.1 ∧ x.2 ≤ y.2)) <| by
    unfold Includes
    apply and_congr_right
    intro
    apply imp_congr_right
    intro
    constructor
    . rintro ⟨⟨_, e⟩, hy, rfl, hle⟩
      exact ⟨e, hy, hle⟩
    . rintro ⟨e, he, hle⟩
      exact ⟨(x.1, e), he, rfl, hle⟩

theorem mem_resources_iff_isDeepest : r ∈ q.resources ↔ ∃ d, q.IsDeepest r d := by
  constructor
  . intro h
    obtain ⟨⟨_, d⟩, hd, rfl⟩ := List.mem_map.1 h
    exact exists_isDeepest hd
  . rintro ⟨d, hd⟩
    exact List.mem_map.2 ⟨(r, d), hd.1, rfl⟩

namespace Equivalent

theorem mem_resources (h : q.Equivalent q') : r ∈ q.resources ↔ r ∈ q'.resources := by
  cases hr : r.isContainer with
  | false => exact h.files r hr
  | true =>
    rw [mem_resources_iff_isDeepest, mem_resources_iff_isDeepest]
    exact exists_congr fun d => h.folders r d hr

theorem ownedBy (h : q.Equivalent q') (m : Mappings) (p : Provider)
    : (q.ownedBy m p).Equivalent (q'.ownedBy m p) where
  files r _ := by
    rw [mem_resources_ownedBy, mem_resources_ownedBy, h.mem_resources]
  folders r d hr := by
    rw [isDeepest_ownedBy, isDeepest_ownedBy, h.folders r d hr]

theorem files_perm (h : q.Equivalent q') : q.files.Perm q'.files := by
  rw [List.perm_ext_iff_of_nodup q.nodup_files q'.nodup_files]
  intro r
  rw [mem_files, mem_files, h.mem_resources]

theorem foldersAt_perm (h : q.Equivalent q') (d : Depth) : (q.foldersAt d).Perm (q'.foldersAt d) := by
  rw [List.perm_ext_iff_of_nodup (q.nodup_foldersAt d) (q'.nodup_foldersAt d)]
  intro r
  rw [mem_foldersAt, mem_foldersAt]
  exact and_congr_right (h.folders r d)

end Equivalent

namespace Includes

theorem append (h : q.Includes x) (more : Requests) : Includes (q ++ more) x := by
  refine ⟨?_, ?_⟩
  . unfold resources
    rw [List.map_append]
    exact List.mem_append_left _ h.1
  . intro hx
    obtain ⟨e, he, hle⟩ := h.2 hx
    exact ⟨e, List.mem_append_left _ he, hle⟩

theorem ownedBy {m : Mappings} {p : Provider} (h : q.Includes x) (hp : m.resolve x.1 = some p)
    : (q.ownedBy m p).Includes x := by
  refine ⟨mem_resources_ownedBy.2 ⟨h.1, hp⟩, ?_⟩
  intro hx
  obtain ⟨e, he, hle⟩ := h.2 hx
  exact ⟨e, mem_ownedBy.2 ⟨he, hp⟩, hle⟩

theorem files_concat (h : q.Includes x) : files (q ++ [x]) = q.files := by
  cases hx : x.1.isContainer with
  | true => exact files_concat_of_container hx
  | false => rw [files_concat_of_file hx, if_pos (mem_files.2 ⟨h.1, hx⟩)]

theorem foldersAt_concat (h : q.Includes x) (d : Depth) : foldersAt (q ++ [x]) d = q.foldersAt d := by
  apply foldersAt_concat_of_idle
  cases hx : x.1.isContainer with
  | false => exact .inl rfl
  | true =>
    obtain ⟨e, he, hle⟩ := h.2 hx
    obtain ⟨f, hf⟩ := exists_isDeepest he
    exact .inr ⟨f, hf, Depth.le_trans hle (hf.2 e he)⟩

end Includes

theorem files_append (h : ∀ x ∈ more, q.Includes x) : files (q ++ more) = q.files := by
  induction more using List.reverseRecOn with
  | nil => rw [List.append_nil]
  | append_singleton more x ih =>
    obtain ⟨hmore, hx⟩ := List.forall_mem_append.1 h
    rw [← List.append_assoc, ((hx x List.mem_cons_self).append more).files_concat, ih hmore]

theorem foldersAt_append (h : ∀ x ∈ more, q.Includes x) (d : Depth)
    : foldersAt (q ++ more) d = q.foldersAt d := by
  induction more using List.reverseRecOn with
  | nil => rw [List.append_nil]
  | append_singleton more x ih =>
    obtain ⟨hmore, hx⟩ := List.forall_mem_append.1 h
    rw [← List.append_assoc, ((hx x List.mem_cons_self).append more).foldersAt_concat, ih hmore]

theorem ownedBy_append (m : Mappings) (p : Provider)
    : ownedBy m p (q ++ more) = q.ownedBy m p ++ more.ownedBy m p :=
  List.filter_append _ _

end Requests

structure Batch.Alike (b b' : Batch) : Prop where
  kind : b.kind = b'.kind
  units : b.units = b'.units
  resources : b.resources.Perm b'.resources

namespace Selection

structure Alike (s s' : Selection) : Prop where
  files : s.files.Perm s'.files
  folders : ∀ d, (s.foldersAt d).Perm (s'.foldersAt d)

variable {s s' : Selection} {q q' more : Requests}

theorem Covers.unique (h : s.Covers q) (h' : s'.Covers q) : s = s' := by
  have hfolders : ∀ d, s.foldersAt d = s'.foldersAt d := fun d => (h.folders d).trans (h'.folders d).symm
  have hitem := hfolders .item
  have hone := hfolders .oneLevel
  have hfull := hfolders .fullSubtree
  have hfiles := h.files.trans h'.files.symm
  cases s
  cases s'
  cases hitem
  cases hone
  cases hfull
  cases hfiles
  rfl

theorem Covers.of_append (h : s.Covers (q ++ more)) (hmore : ∀ x ∈ more, q.Includes x) : s.Covers q where
  files := h.files.trans (Requests.files_append hmore)
  folders d := (h.folders d).trans (Requests.foldersAt_append hmore d)

theorem Covers.alike (h : s.Covers q) (h' : s'.Covers q') (hq : q.Equivalent q') : s.Alike s' where
  files := by
    rw [h.files, h'.files]
    exact hq.files_perm
  folders d := by
    rw [h.folders, h'.folders]
    exact hq.foldersAt_perm d

namespace Alike

theorem foldersAt_eq_nil_iff (h : s.Alike s') (d : Depth) : s.foldersAt d = [] ↔ s'.foldersAt d = [] := by
  rw [← List.length_eq_zero_iff, ← List.length_eq_zero_iff, (h.folders d).length_eq]

theorem oneLevelFolders (h : s.Alike s') : s.oneLevelFolders.Perm s'.oneLevelFolders :=
  h.folders .oneLevel

theorem fullDepthFolders (h : s.Alike s') : s.fullDepthFolders.Perm s'.fullDepthFolders :=
  h.folders .fullSubtree

theorem oneLevelFolders_eq_nil_iff (h : s.Alike s') : s.oneLevelFolders = [] ↔ s'.oneLevelFolders = [] :=
  h.foldersAt_eq_nil_iff .oneLevel

theorem fullDepthFolders_eq_nil_iff (h : s.Alike s') : s.fullDepthFolders = [] ↔ s'.fullDepthFolders = [] :=
  h.foldersAt_eq_nil_iff .fullSubtree

theorem deep (h : s.Alike s') : s.deep.Perm s'.deep := by
  unfold Selection.deep
  simp only [h.fullDepthFolders_eq_nil_iff, h.oneLevelFolders_eq_nil_iff]
  split
  . exact .nil
  . split
    . exact h.fullDepthFolders.append h.files
    . exact h.fullDepthFolders

theorem shallow (h : s.Alike s') : s.shallow.Perm s'.shallow := by
  unfold Selection.shallow
  simp only [h.fullDepthFolders_eq_nil_iff, h.oneLevelFolders_eq_nil_iff]
  split
  . exact h.files
  . split
    . exact .nil
    . exact h.oneLevelFolders.append h.files

theorem batches (h : s.Alike s') (c : DispatchConfig)
    : List.Forall₂ Batch.Alike (s.batches c) (s'.batches c) := by
  unfold Selection.batches
  apply List.rel_filter
  . intro b b' hb
    have hnil : b.resources = [] ↔ b'.resources = [] := by
      rw [← List.length_eq_zero_iff, ← List.length_eq_zero_iff, hb.resources.length_eq]
    simp [hnil]
  . exact .cons ⟨rfl, rfl, h.deep⟩ (.cons ⟨rfl, rfl, h.shallow⟩
      (.cons ⟨rfl, rfl, h.folders .item⟩ .nil))

end Alike
end Selection

structure ProviderRun.Alike (run run' : ProviderRun) : Prop where
  provider : run.provider = run'.provider
  batches : List.Forall₂ Batch.Alike run.batches run'.batches

namespace Groups

variable {m : Mappings} {q q' more : Requests} {g g' : Groups} {p : Provider} {s : Selection}

theorem Sorts.exists_find? (h : Sorts m q g) (h' : Sorts m q' g')
    (hq : ∀ r ∈ q.resources, r ∈ q'.resources) {k : ProviderKey} (hk : g.find? k = some (p, s))
    : ∃ s', g'.find? k = some (p, s') ∧ s.Covers (q.ownedBy m p) ∧ s'.Covers (q'.ownedBy m p) := by
  obtain ⟨r, hr, hp⟩ := h.exists_mem_of_find? hk
  obtain ⟨⟨_, d⟩, hd, rfl⟩ := List.mem_map.1 (hq r hr)
  obtain ⟨s', hs'⟩ := h'.complete hd hp
  rw [h.key hk] at hs'
  exact ⟨s', hs', h.covers hk, h'.covers hs'⟩

theorem Sorts.forall₂_values (h : Sorts m q g) (h' : Sorts m q' g') (hq : q.Equivalent q')
    : List.Forall₂ (fun e e' => e.1 = e'.1 ∧ e.2.Alike e'.2) g.values g'.values := by
  apply OrderedMap.forall₂_values
  intro k
  cases hk : g.find? k with
  | some e =>
    obtain ⟨s', hs', hc, hc'⟩ := h.exists_find? h' (fun _ => hq.mem_resources.1) hk
    rw [hs']
    exact .some ⟨rfl, hc.alike hc' (hq.ownedBy m e.1)⟩
  | none =>
    cases hk' : g'.find? k with
    | none => exact .none
    | some e =>
      obtain ⟨s, hs, _⟩ := h'.exists_find? h (fun _ => hq.mem_resources.2) hk'
      rw [hk] at hs
      contradiction

theorem Sorts.eq_of_append (h : Sorts m q g) (h' : Sorts m (q ++ more) g')
    (hmore : ∀ x ∈ more, q.Includes x) : g' = g := by
  have hq : ∀ r, r ∈ (q ++ more).resources ↔ r ∈ q.resources := by
    intro r
    unfold Requests.resources
    rw [List.map_append, List.mem_append]
    constructor
    . rintro (hr | hr)
      . exact hr
      . obtain ⟨x, hx, rfl⟩ := List.mem_map.1 hr
        exact (hmore x hx).1
    . exact .inl
  apply OrderedMap.ext_find?
  intro k
  cases hk : g.find? k with
  | some e =>
    obtain ⟨s', hs', hc, hc'⟩ := h.exists_find? h' (fun r => (hq r).2) hk
    rw [Requests.ownedBy_append] at hc'
    have hc' := hc'.of_append <| by
      rintro ⟨r, d⟩ hx
      obtain ⟨hx, hp⟩ := Requests.mem_ownedBy.1 hx
      exact (hmore _ hx).ownedBy hp
    obtain rfl := hc.unique hc'
    exact hs'
  | none =>
    cases hk' : g'.find? k with
    | none => rfl
    | some e =>
      obtain ⟨s, hs, _⟩ := h'.exists_find? h (fun r => (hq r).1) hk'
      rw [hk] at hs
      contradiction

theorem forall₂_plan (h : List.Forall₂ (fun e e' => e.1 = e'.1 ∧ Selection.Alike e.2 e'.2) g.values g'.values)
    (c : DispatchConfig) : List.Forall₂ ProviderRun.Alike (g.plan c) (g'.plan c) := by
  unfold plan
  rw [List.forall₂_map_left_iff, List.forall₂_map_right_iff]
  apply h.imp
  intro e e' he
  exact ⟨he.1, he.2.batches c⟩

theorem ofTraversals_append (hm : m.Faithful) {ts more : List Traversal}
    (h : ∀ x ∈ requests more, Requests.Includes (requests ts) x)
    : ofTraversals m (ts ++ more) = ofTraversals m ts := by
  have hts := ofTraversals_sorts hm ts
  have happend := ofTraversals_sorts hm (ts ++ more)
  have hrequests : requests (ts ++ more) = requests ts ++ requests more := List.flatMap_append
  rw [hrequests] at happend
  exact hts.eq_of_append happend h

end Groups

namespace Dispatch

variable {E : Interface} {op : Operation E} {c : DispatchConfig} {g : Groups}
variable {es es' : List (Event (Progress.calls.sum (calls E)))} {r r' : Except Failure DispatchReport}

def announced (es : List (Event (Progress.calls.sum (calls E)))) : List (String × Nat) :=
  es.filterMap fun
    | ⟨.inl (.beginTask name total), _⟩ => some (name, total)
    | _ => none

theorem announced_append : announced (es ++ es') = announced es ++ announced es' :=
  List.filterMap_append

theorem announced_of_quiet (h : ∀ e ∈ es, Quiet e) : announced es = [] := by
  apply List.filterMap_eq_nil_iff.2
  rintro ⟨x | x, _⟩ he
  . cases x with
    | beginTask => exact (h _ he).elim
    | _ => rfl
  . rfl

structure Unimpeded (es : List (Event (Progress.calls.sum (calls E)))) : Prop where
  willing : ¬ Hindered es
  succeeded : ∀ a ∈ answers es, a = .ok ()

structure Fulfils (name : String) (c : DispatchConfig) (g : Groups)
    (es : List (Event (Progress.calls.sum (calls E)))) (r : Except Failure DispatchReport) : Prop where
  result : r = .ok (g.plan c)
  starts : starts es = DispatchReport.steps (g.plan c)
  announced : announced es = [(name, g.size * c.providerBudget.toNat)]
  charged : charged es = g.size * c.providerBudget.toNat

theorem ok_of_unimpeded (hg : g.Proper) (h : (execute c op g).Run es r) (hu : Unimpeded es)
    : r = .ok (g.plan c) ∧ starts es = DispatchReport.steps (g.plan c) := by
  obtain ⟨⟨made, hc, hd⟩, hreport⟩ := follows_execute hg h
  have hok : ∀ k ∈ made, k.result = .ok () := by
    intro k hk
    apply hu.succeeded
    rw [answers_eq hd]
    exact List.mem_map_of_mem hk
  have hr : outcome r = .ok () := by
    cases ho : outcome r with
    | ok => rfl
    | error e =>
      rcases hc.cause_of_error ho with ⟨k, hk, he⟩ | ⟨_, hh⟩
      . rw [hok k (List.mem_of_getLast? hk)] at he
        contradiction
      . exact absurd hh hu.willing
  obtain ⟨report, rfl⟩ := outcome_eq_ok_iff.1 hr
  cases hreport report rfl
  refine ⟨rfl, (starts_eq hd).trans ?_⟩
  apply hc.isPrefix.eq_of_length
  rw [List.length_map]
  exact (hc.ok_iff.1 hr).1

theorem exists_run_runProviders (h : (execute c op g).Run es r)
    : ∃ mid, es = ⟨.inl (.beginTask op.name (g.size * c.providerBudget.toNat)), ()⟩
          :: (mid ++ [⟨.inl .done, ()⟩]) ∧
        (runProviders op c.providerBudget.toNat (g.plan c)).Run mid r := by
  unfold execute at h
  obtain ⟨⟨⟩, es, rfl, h₁⟩ := run_call_bind h
  obtain ⟨mid, last, r', rfl, h₂, h₃⟩ := run_bind_iff.1 h₁
  obtain ⟨⟨⟩, last, rfl, h₄⟩ := run_call_bind h₃
  cases h₄
  exact ⟨mid, rfl, h₂⟩

theorem fulfils_of_unimpeded (hg : g.Proper) (h : (execute c op g).Run es r) (hu : Unimpeded es)
    : Fulfils op.name c g es r := by
  obtain ⟨rfl, hstarts⟩ := ok_of_unimpeded hg h hu
  obtain ⟨mid, rfl, hmid⟩ := exists_run_runProviders h
  obtain ⟨hmetered, hquiet, _, hturns⟩ := metered_runProviders hmid
  have hsize : (turns mid).length = g.size := by
    rw [hturns _ rfl]
    simp [Groups.plan, OrderedMap.values, OrderedMap.size]
  refine ⟨rfl, hstarts, ?_, ?_⟩
  . show (op.name, _) :: announced (mid ++ _) = _
    rw [announced_append, announced_of_quiet hquiet]
    rfl
  . show 0 + charged (mid ++ _) = _
    rw [charged_append, hmetered.exact, hsize, Nat.mul_comm, Nat.zero_add]
    rfl

/--
Two dispatches do the same: for the same providers in the same order, in batches that are alike, at the
same cost.
-/
structure Alike (es es' : List (Event (Progress.calls.sum (calls E))))
    (r r' : Except Failure DispatchReport) : Prop where
  reports : ∃ runs runs', r = .ok runs ∧ r' = .ok runs' ∧ List.Forall₂ ProviderRun.Alike runs runs'
  starts : List.Forall₂ (fun x x' => x.1 = x'.1 ∧ x.2.Alike x'.2) (starts es) (starts es')
  announced : announced es = announced es'
  charged : charged es = charged es'

theorem forall₂_steps {runs runs' : DispatchReport} (h : List.Forall₂ ProviderRun.Alike runs runs')
    : List.Forall₂ (fun x x' => x.1 = x'.1 ∧ x.2.Alike x'.2) runs.steps runs'.steps := by
  apply List.rel_flatMap h
  intro run run' hrun
  rw [List.forall₂_map_left_iff, List.forall₂_map_right_iff]
  apply hrun.batches.imp
  intro b b' hb
  exact ⟨hrun.provider, hb⟩

theorem Fulfils.alike {name : String} {g' : Groups} (h : Fulfils name c g es r)
    (h' : Fulfils name c g' es' r')
    (hg : List.Forall₂ (fun e e' => e.1 = e'.1 ∧ Selection.Alike e.2 e'.2) g.values g'.values)
    : Alike es es' r r' := by
  have hplan := Groups.forall₂_plan hg c
  have hsize : g.size = g'.size := by
    have hlength := hg.length_eq
    unfold OrderedMap.values at hlength
    rwa [List.length_map, List.length_map] at hlength
  refine ⟨⟨_, _, h.result, h'.result, hplan⟩, ?_, ?_, ?_⟩
  . rw [h.starts, h'.starts]
    exact forall₂_steps hplan
  . rw [h.announced, h'.announced, hsize]
  . rw [h.charged, h'.charged, hsize]

/--
What a dispatch does, if nothing goes wrong, depends on what is asked for and not on how it is put. What is
asked for again, at no greater depth, makes no difference at all.
-/
theorem execute_alike {N : Type} {registry : Registry N} (hr : registry.Reachable)
    : (∀ ts ts', Requests.Equivalent (Groups.requests ts) (Groups.requests ts') →
        ∀ {E : Interface} (c : DispatchConfig) (op : Operation E) es es' r r',
        (execute c op (Groups.ofTraversals registry.mappings ts)).Run es r →
        (execute c op (Groups.ofTraversals registry.mappings ts')).Run es' r' →
        Unimpeded es → Unimpeded es' → Alike es es' r r') ∧
      ∀ ts more, (∀ x ∈ Groups.requests more, Requests.Includes (Groups.requests ts) x) →
        Groups.ofTraversals registry.mappings (ts ++ more) = Groups.ofTraversals registry.mappings ts := by
  have hm := hr.faithful
  refine ⟨?_, fun ts more => Groups.ofTraversals_append hm⟩
  intro ts ts' hq E c op es es' r r' h h' hu hu'
  have hts := fulfils_of_unimpeded (Groups.ofTraversals_proper _ _) h hu
  have hts' := fulfils_of_unimpeded (Groups.ofTraversals_proper _ _) h' hu'
  apply hts.alike hts'
  exact (Groups.ofTraversals_sorts hm ts).forall₂_values (Groups.ofTraversals_sorts hm ts') hq

/--
A folder that is asked for twice, in one way or the other, and files in different traversals.
-/
theorem execute_alike_shuffled
    : let provider : ProjectName → Provider := fun project => ⟨"git", project, "host", "/"⟩
      let registry : Registry Unit :=
        Registry.setProvider (Registry.setProvider {} (provider "notes")) (provider "website")
      let ts : List Traversal :=
        [⟨[.file "website" "readme", .folder "website" "src", .folder "website" "docs"], .oneLevel⟩,
          ⟨[.folder "notes" "drafts"], .item⟩,
          ⟨[.folder "website" "src", .file "website" "faq"], .fullSubtree⟩]
      let ts' : List Traversal :=
        [⟨[.folder "website" "src"], .fullSubtree⟩, ⟨[.folder "website" "docs"], .oneLevel⟩,
          ⟨[.file "website" "faq", .folder "website" "src", .folder "notes" "drafts",
            .file "website" "readme"], .item⟩]
      let more : List Traversal := [⟨[.folder "website" "src", .file "website" "faq"], .oneLevel⟩]
      let op : Operation .empty :=
        { name := "visit"
          taskName := Provider.display
          executeBatch := fun _ _ _ => return .ok () }
      let around : Surroundings (Progress.calls.sum (calls .empty)) Unit := fun _ => fun
        | .inl c => (c.reply false, ())
        | .inr (.acquire _) => (true, ())
        | .inr (.ofOperation c) => c.elim
        | .inr (.release _) | .inr (.turn _) | .inr (.started _ _) | .inr (.finished _ _ _) => ((), ())
      let groups := Groups.ofTraversals registry.mappings
      let d := fun ts => execute {} op (groups ts)
      let es := fun ts => ((d ts).eventsIn around ()).map Prod.snd
      let r := fun ts => (d ts).resultIn around ()
      registry.Reachable ∧ Requests.Equivalent (Groups.requests ts) (Groups.requests ts') ∧
        groups ts ≠ groups ts' ∧ Unimpeded (es ts) ∧ Unimpeded (es ts') ∧
        Alike (es ts) (es ts') (r ts) (r ts') ∧
        (starts (es ts)).map (fun x => (x.2.kind, x.2.resources))
          =
        [(.nontraversed, [.folder "notes" "drafts"]), (.deep, [.folder "website" "src"]),
          (.shallow, [.folder "website" "docs", .file "website" "readme", .file "website" "faq"])] ∧
        (∀ x ∈ Groups.requests more, Requests.Includes (Groups.requests ts) x) ∧
        groups (ts ++ more) = groups ts := by
  intro provider registry ts ts' more op around groups d es r
  have hr : registry.Reachable := .setProvider (.setProvider .empty _) _
  have hequivalent : Requests.Equivalent (Groups.requests ts) (Groups.requests ts') := by
    decide +kernel
  have hmore : ∀ x ∈ Groups.requests more, Requests.Includes (Groups.requests ts) x := by
    decide +kernel
  have hwilling : ∀ ts, ¬ Hindered (es ts) := by
    intro ts
    apply not_hindered_of_smooth (K := fun _ => True)
    apply forall_mem_eventsIn
    rintro _ (c | c)
    . cases c <;> trivial
    . cases c with
      | acquire => rfl
      | ofOperation c => exact c.elim
      | _ => trivial
  have hu : Unimpeded (es ts) := ⟨hwilling ts, by decide +kernel⟩
  have hu' : Unimpeded (es ts') := ⟨hwilling ts', by decide +kernel⟩
  obtain ⟨halike, happend⟩ := execute_alike hr
  have halike := halike ts ts' hequivalent {} op (es ts) (es ts') (r ts) (r ts')
    ((d ts).run_in around ()) ((d ts').run_in around ()) hu hu'
  exact ⟨hr, hequivalent, by decide +kernel, hu, hu', halike, by decide +kernel, hmore,
    happend ts more hmore⟩

end Dispatch
end SharedWorkspace
