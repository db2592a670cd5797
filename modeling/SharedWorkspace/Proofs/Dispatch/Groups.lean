import SharedWorkspace.Proofs.Dispatch.Selection
import SharedWorkspace.Proofs.Registry.Reachable

/-!
How requests are sorted by the providers of their resources. The main statement is
`ofTraversals_splitsUp`: nothing that has a provider is lost, nothing is kept twice, and each group
holds exactly what was asked of its provider.
-/

namespace SharedWorkspace

def Mappings.Faithful (m : Mappings) : Prop :=
  ∀ project p, m.find? project = some p → p.project = project

theorem Registry.Reachable.faithful {N : Type} {r : Registry N} (h : r.Reachable)
    : r.mappings.Faithful := by
  intro project p hp
  exact h.project_eq hp

theorem Mappings.Faithful.resolve_inj {m : Mappings} (hm : m.Faithful) {r x : Resource}
    {p p' : Provider} (hr : m.resolve r = some p) (hx : m.resolve x = some p') (h : p.key = p'.key)
    : p = p' := by
  have hrx : r.project = x.project := by
    rw [← hm _ _ hr, ← hm _ _ hx]
    exact congrArg ProviderKey.project h
  have : some p = some p' := by
    rw [← hr, ← hx]
    unfold resolve
    rw [hrx]
  exact Option.some.inj this

namespace Requests

def ownedBy (m : Mappings) (p : Provider) (q : Requests) : Requests :=
  q.filter fun x => m.resolve x.1 = some p

variable {m : Mappings} {p : Provider} {q : Requests} {r : Resource} {d : Depth}

theorem mem_ownedBy : (r, d) ∈ q.ownedBy m p ↔ (r, d) ∈ q ∧ m.resolve r = some p := by
  simp [ownedBy]

theorem mem_resources_ownedBy
    : r ∈ (q.ownedBy m p).resources ↔ r ∈ q.resources ∧ m.resolve r = some p := by
  unfold resources
  constructor
  . intro h
    obtain ⟨⟨_, d⟩, hm, rfl⟩ := List.mem_map.1 h
    rw [mem_ownedBy] at hm
    exact ⟨List.mem_map.2 ⟨_, hm.1, rfl⟩, hm.2⟩
  . rintro ⟨h, hp⟩
    obtain ⟨⟨_, d⟩, hm, rfl⟩ := List.mem_map.1 h
    exact List.mem_map.2 ⟨_, mem_ownedBy.2 ⟨hm, hp⟩, rfl⟩

theorem ownedBy_concat (h : m.resolve r = some p)
    : ownedBy m p (q ++ [(r, d)]) = q.ownedBy m p ++ [(r, d)] := by
  simp [ownedBy, h]

theorem ownedBy_concat_of_ne (h : m.resolve r ≠ some p)
    : ownedBy m p (q ++ [(r, d)]) = q.ownedBy m p := by
  simp [ownedBy, h]

end Requests

namespace Groups

/--
The groups `g` are the requests `q`, sorted by the providers of their resources. What is said of a
group is said of the provider that stands in it, and it stands where it is looked for.
-/
structure Sorts (m : Mappings) (q : Requests) (g : Groups) : Prop where
  key : ∀ {k p s}, g.find? k = some (p, s) → p.key = k
  asked : ∀ {k p s}, g.find? k = some (p, s) → q.ownedBy m p ≠ []
  covers : ∀ {k p s}, g.find? k = some (p, s) → s.Covers (q.ownedBy m p)
  complete : ∀ {r d p}, (r, d) ∈ q → m.resolve r = some p → ∃ s, g.find? p.key = some (p, s)

namespace Sorts

variable {m : Mappings} {q : Requests} {g : Groups} {r : Resource} {d : Depth} {p : Provider}

theorem empty : Sorts m [] .empty where
  key h := by simp at h
  asked h := by simp at h
  covers h := by simp at h
  complete h := by simp at h

theorem exists_mem_of_find? {k : ProviderKey} {s : Selection} (h : Sorts m q g)
    (hk : g.find? k = some (p, s)) : ∃ x, x ∈ q.resources ∧ m.resolve x = some p := by
  obtain ⟨⟨x, e⟩, hx⟩ := List.exists_mem_of_ne_nil _ (h.asked hk)
  rw [Requests.mem_ownedBy] at hx
  exact ⟨x, List.mem_map.2 ⟨_, hx.1, rfl⟩, hx.2⟩

theorem getD_find? (h : Sorts m q g) (hm : m.Faithful) (hp : m.resolve r = some p)
    : ∃ s, (g.find? p.key).getD (p, {}) = (p, s) ∧ s.Covers (q.ownedBy m p) := by
  cases hg : g.find? p.key with
  | none =>
    refine ⟨{}, rfl, ?_⟩
    have : q.ownedBy m p = [] := by
      apply List.eq_nil_iff_forall_not_mem.2
      rintro ⟨x, e⟩ hx
      rw [Requests.mem_ownedBy] at hx
      obtain ⟨s, hs⟩ := h.complete hx.1 hx.2
      rw [hs] at hg
      contradiction
    rw [this]
    exact Selection.Covers.nil
  | some e =>
    obtain ⟨p', s⟩ := e
    obtain ⟨x, _, hx⟩ := h.exists_mem_of_find? hg
    have : p' = p := hm.resolve_inj hx hp (h.key hg)
    subst this
    exact ⟨s, rfl, h.covers hg⟩

theorem concat_of_none (h : Sorts m q g) (hr : m.resolve r = none)
    : Sorts m (q ++ [(r, d)]) g := by
  have hq : ∀ p, Requests.ownedBy m p (q ++ [(r, d)]) = q.ownedBy m p := by
    intro p
    apply Requests.ownedBy_concat_of_ne
    rw [hr]
    nofun
  refine ⟨h.key, fun hk => hq _ ▸ h.asked hk, fun hk => hq _ ▸ h.covers hk, ?_⟩
  intro x e p hx hxp
  rcases List.mem_append.1 hx with hx | hx
  . exact h.complete hx hxp
  . cases List.mem_singleton.1 hx
    rw [hr] at hxp
    contradiction

theorem ownedBy_concat (h : Sorts m q g) (hr : m.resolve r = some p) {k : ProviderKey}
    {p' : Provider} {s : Selection} (hkp : k ≠ p.key) (hk : g.find? k = some (p', s))
    : Requests.ownedBy m p' (q ++ [(r, d)]) = q.ownedBy m p' := by
  apply Requests.ownedBy_concat_of_ne
  intro hp'
  apply hkp
  rw [← h.key hk, Option.some.inj (hr.symm.trans hp')]

theorem concat_of_some (h : Sorts m q g) (hm : m.Faithful) (hr : m.resolve r = some p)
    {s : Selection} (hs : s.Covers (q.ownedBy m p))
    : Sorts m (q ++ [(r, d)]) (OrderedMap.insert g p.key (p, s.add r d)) := by
  have hcases : ∀ {k p' s'}, (OrderedMap.insert g p.key (p, s.add r d)).find? k = some (p', s') →
      (k = p.key ∧ p' = p ∧ s' = s.add r d) ∨ (k ≠ p.key ∧ g.find? k = some (p', s')) := by
    intro k p' s' hk
    by_cases hkp : k = p.key
    . subst hkp
      rw [OrderedMap.find?_insert_self] at hk
      cases hk
      exact .inl ⟨rfl, rfl, rfl⟩
    . rw [OrderedMap.find?_insert_of_ne _ _ hkp] at hk
      exact .inr ⟨hkp, hk⟩
  refine ⟨?_, ?_, ?_, ?_⟩
  . intro k p' s' hk
    rcases hcases hk with ⟨rfl, rfl, _⟩ | ⟨_, hk⟩
    . rfl
    . exact h.key hk
  . intro k p' s' hk
    rcases hcases hk with ⟨_, rfl, _⟩ | ⟨hkp, hk⟩
    . rw [Requests.ownedBy_concat hr]
      simp
    . rw [h.ownedBy_concat hr hkp hk]
      exact h.asked hk
  . intro k p' s' hk
    rcases hcases hk with ⟨_, rfl, rfl⟩ | ⟨hkp, hk⟩
    . rw [Requests.ownedBy_concat hr]
      exact hs.add
    . rw [h.ownedBy_concat hr hkp hk]
      exact h.covers hk
  . intro x e p' hx hxp
    by_cases hkp : p'.key = p.key
    . have : p' = p := hm.resolve_inj hxp hr hkp
      subst this
      exact ⟨_, OrderedMap.find?_insert_self _ _ _⟩
    . rw [OrderedMap.find?_insert_of_ne _ _ hkp]
      rcases List.mem_append.1 hx with hx | hx
      . exact h.complete hx hxp
      . cases List.mem_singleton.1 hx
        exact absurd (congrArg Provider.key (Option.some.inj (hxp.symm.trans hr))) hkp

theorem add (h : Sorts m q g) (hm : m.Faithful) : Sorts m (q ++ [(r, d)]) (g.add m (r, d)) := by
  unfold Groups.add
  cases hr : m.resolve r with
  | none => exact h.concat_of_none hr
  | some p =>
    obtain ⟨s, hs, hc⟩ := h.getD_find? hm hr
    dsimp
    rw [hs]
    exact h.concat_of_some hm hr hc

end Sorts

theorem ofTraversals_sorts {m : Mappings} (hm : m.Faithful) (ts : List Traversal)
    : Sorts m (requests ts) (ofTraversals m ts) := by
  unfold ofTraversals
  generalize requests ts = q
  induction q using List.reverseRecOn with
  | nil => exact Sorts.empty
  | append_singleton q x ih =>
    rw [List.foldl_append]
    exact ih.add hm

structure SplitsUp (m : Mappings) (q : Requests) (g : Groups) : Prop where
  providers : ∀ p, (∃ s, (p, s) ∈ g.values) ↔ ∃ r ∈ q.resources, m.resolve r = some p
  ordered : (g.values.map fun e => e.1.key).Pairwise fun a b => compare a b = .lt
  nonempty : ∀ p s, (p, s) ∈ g.values → s.resources ≠ []
  project : ∀ p s, (p, s) ∈ g.values → ∀ r ∈ s.resources, r.project = p.project
  disjoint : ∀ p s p' s', (p, s) ∈ g.values → (p', s') ∈ g.values →
    ∀ r, r ∈ s.resources → r ∈ s'.resources → (p, s) = (p', s')
  omitted : ∀ r ∈ q.resources,
    (∀ p s, (p, s) ∈ g.values → r ∉ s.resources) ↔ m.find? r.project = none
  covers : ∀ p s, (p, s) ∈ g.values → s.Covers (q.ownedBy m p)
  sharesOut : ∀ p s, (p, s) ∈ g.values → s.SharesOut (q.ownedBy m p)

theorem mem_values {g : Groups} {p : Provider} {s : Selection}
    : (p, s) ∈ g.values ↔ ∃ k, g.find? k = some (p, s) := by
  unfold OrderedMap.values
  constructor
  . intro h
    obtain ⟨⟨k, _⟩, hk, rfl⟩ := List.mem_map.1 h
    exact ⟨k, OrderedMap.find?_eq_some_iff.2 hk⟩
  . rintro ⟨k, hk⟩
    exact List.mem_map.2 ⟨(k, (p, s)), OrderedMap.find?_eq_some_iff.1 hk, rfl⟩

theorem ordered {g : Groups} (h : ∀ {k p s}, g.find? k = some (p, s) → p.key = k)
    : (g.values.map fun e => e.1.key).Pairwise fun a b => compare a b = .lt := by
  unfold OrderedMap.values
  rw [List.map_map, List.pairwise_map]
  apply g.sorted.imp_of_mem
  intro a b ha hb hab
  dsimp
  rw [h (OrderedMap.find?_eq_some_iff.2 ha), h (OrderedMap.find?_eq_some_iff.2 hb)]
  exact hab

structure Proper (g : Groups) : Prop where
  key : ∀ {k p s}, g.find? k = some (p, s) → p.key = k
  nonempty : ∀ {k p s}, g.find? k = some (p, s) → s.isEmpty = false

theorem Proper.add {g : Groups} (h : Proper g) (m : Mappings) (x : Resource × Depth)
    : Proper (g.add m x) := by
  unfold Groups.add
  split
  . exact h
  . next p _ =>
    generalize hg : (g.find? p.key).getD (p, {}) = e
    obtain ⟨p', s⟩ := e
    have hp : p'.key = p.key := by
      cases hf : g.find? p.key with
      | none =>
        rw [hf] at hg
        cases hg
        rfl
      | some e =>
        rw [hf] at hg
        cases hg
        exact h.key hf
    constructor
    . intro k q t hk
      rw [OrderedMap.find?_insert] at hk
      split at hk
      . next hkp =>
        cases hk
        exact (Std.LawfulEqCmp.eq_of_compare hkp).symm
      . exact h.key hk
    . intro k q t hk
      rw [OrderedMap.find?_insert] at hk
      split at hk
      . cases hk
        exact s.isEmpty_add _ _
      . exact h.nonempty hk

theorem ofTraversals_proper (m : Mappings) (ts : List Traversal) : Proper (ofTraversals m ts) := by
  unfold ofTraversals
  generalize requests ts = q
  induction q using List.reverseRecOn with
  | nil => exact ⟨by simp, by simp⟩
  | append_singleton q x ih =>
    rw [List.foldl_append]
    exact ih.add m x

theorem resources_ne_nil {g : Groups} {c : DispatchConfig} {run : ProviderRun} (h : run ∈ g.plan c)
    : ∀ b ∈ run.batches, b.resources ≠ [] := by
  intro b hb
  obtain ⟨⟨p, s⟩, _, rfl⟩ := List.mem_map.1 h
  simpa using (List.mem_filter.1 hb).2

theorem Proper.batches_ne_nil {g : Groups} (h : Proper g) (c : DispatchConfig)
    : ∀ run ∈ g.plan c, run.batches ≠ [] := by
  intro run hrun
  obtain ⟨⟨p, s⟩, hs, rfl⟩ := List.mem_map.1 hrun
  obtain ⟨k, hk⟩ := mem_values.1 hs
  exact Selection.batches_ne_nil (h.nonempty hk) c

namespace Sorts

variable {m : Mappings} {q : Requests} {g : Groups} {p p' : Provider} {s s' : Selection}

theorem mem_resources_iff (h : Sorts m q g) (hs : (p, s) ∈ g.values) {r : Resource}
    : r ∈ s.resources ↔ r ∈ q.resources ∧ m.resolve r = some p := by
  obtain ⟨k, hk⟩ := mem_values.1 hs
  rw [(h.covers hk).mem_resources, Requests.mem_resources_ownedBy]

theorem exists_group (h : Sorts m q g) {r : Resource} (hr : r ∈ q.resources)
    (hp : m.resolve r = some p) : ∃ s, (p, s) ∈ g.values ∧ r ∈ s.resources := by
  obtain ⟨⟨_, d⟩, hd, rfl⟩ := List.mem_map.1 hr
  obtain ⟨s, hs⟩ := h.complete hd hp
  have hs := mem_values.2 ⟨_, hs⟩
  exact ⟨s, hs, (h.mem_resources_iff hs).2 ⟨hr, hp⟩⟩

theorem splitsUp (h : Sorts m q g) (hm : m.Faithful) : SplitsUp m q g where
  providers p := by
    constructor
    . rintro ⟨s, hs⟩
      obtain ⟨k, hk⟩ := mem_values.1 hs
      exact h.exists_mem_of_find? hk
    . rintro ⟨r, hr, hp⟩
      obtain ⟨s, hs, _⟩ := h.exists_group hr hp
      exact ⟨s, hs⟩
  ordered := ordered h.key
  nonempty p s hs := by
    obtain ⟨k, hk⟩ := mem_values.1 hs
    obtain ⟨r, hr, hp⟩ := h.exists_mem_of_find? hk
    apply List.ne_nil_of_mem
    exact (h.mem_resources_iff hs).2 ⟨hr, hp⟩
  project p s hs r hr := by
    symm
    apply hm
    exact ((h.mem_resources_iff hs).1 hr).2
  disjoint p s p' s' hs hs' r hr hr' := by
    have hp := ((h.mem_resources_iff hs).1 hr).2
    have hp' := ((h.mem_resources_iff hs').1 hr').2
    have : p = p' := Option.some.inj (hp.symm.trans hp')
    subst this
    obtain ⟨k, hk⟩ := mem_values.1 hs
    obtain ⟨k', hk'⟩ := mem_values.1 hs'
    rw [← h.key hk, h.key hk', hk'] at hk
    exact (Option.some.inj hk).symm
  omitted r hr := by
    constructor
    . intro hn
      apply Option.eq_none_iff_forall_ne_some.2
      intro p hp
      obtain ⟨s, hs, hrs⟩ := h.exists_group hr hp
      exact hn p s hs hrs
    . intro hn p s hs hrs
      have hp : m.find? r.project = some p := ((h.mem_resources_iff hs).1 hrs).2
      rw [hn] at hp
      contradiction
  covers p s hs := by
    obtain ⟨k, hk⟩ := mem_values.1 hs
    exact h.covers hk
  sharesOut p s hs := by
    obtain ⟨k, hk⟩ := mem_values.1 hs
    exact (h.covers hk).sharesOut

end Sorts

/--
Sorting the requests of traversals by providers loses nothing, keeps nothing twice and keeps each
folder at the greatest depth that it is asked for.
-/
theorem ofTraversals_splitsUp {N : Type} {r : Registry N} (h : r.Reachable) (ts : List Traversal)
    : SplitsUp r.mappings (requests ts) (ofTraversals r.mappings ts) := by
  have hm := h.faithful
  exact (ofTraversals_sorts hm ts).splitsUp hm

/--
A folder that is asked for twice, and another whose project has no provider.
-/
theorem ofTraversals_splitsUp_website
    : let r : Registry Unit := Registry.setProvider {} ⟨"git", "website", "host", "/"⟩
      let ts : List Traversal := [⟨[.folder "website" "src", .file "website" "readme"], .oneLevel⟩,
        ⟨[.folder "notes" "drafts"], .item⟩, ⟨[.folder "website" "src"], .fullSubtree⟩]
      r.Reachable ∧ SplitsUp r.mappings (requests ts) (ofTraversals r.mappings ts) ∧
        (ofTraversals r.mappings ts).values.map Prod.snd
          =
        [{ files := [.file "website" "readme"], fullDepthFolders := [.folder "website" "src"] }] := by
  intro r ts
  have h : r.Reachable := .setProvider .empty _
  refine ⟨h, ofTraversals_splitsUp h ts, ?_⟩
  rfl

end Groups
end SharedWorkspace
