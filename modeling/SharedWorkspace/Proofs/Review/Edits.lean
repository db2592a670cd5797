import Mathlib.Data.List.Nodup
import Mathlib.Data.Set.List
import SharedWorkspace.Proofs.Review.History

/-!
Who hears of an edit (`history_delivers`). After any history of a review whose viewers only listen, it is the
nodes that have the editor below them with a hunk that does not match, and those who listen to these nodes,
each once.
-/

namespace SharedWorkspace
namespace Review

variable {as : List Deed} {r : Review} {e : EditorId} {depth : Nat} {told : List (ChannelId × Listener)}

def Reaches (as : List Deed) (r : Review) (e : EditorId) (told : List (ChannelId × Listener)) : Prop :=
  ∃ (ns : List NodeId) (vs : NodeId → List ViewerId),
    told = (ns.flatMap fun n => (.editor e, .node n) :: (vs n).map fun v => (.node n, .viewer v)) ∧
    ns.Nodup ∧ (∀ n, n ∈ ns ↔ r.Hangs n e) ∧
    ∀ n ∈ ns, (vs n).Nodup ∧
      ∀ v, v ∈ vs n ↔ r.viewers.contains v = true ∧ subscribed n v as = true

theorem Reaches.eq_nil (h : Reaches as r e told) (hnone : ∀ n, ¬ r.Hangs n e) : told = [] := by
  obtain ⟨ns, vs, rfl, -, hns, -⟩ := h
  have hnil : ns = [] := List.eq_nil_iff_forall_not_mem.2 fun n hn => hnone n ((hns n).1 hn)
  rw [hnil]
  rfl

theorem Hangs.contains {n : NodeId} (h : r.Hangs n e) : r.nodes.contains n = true := by
  obtain ⟨x, hx, -⟩ := h
  rw [nodes_contains_eq_isSome_look, hx]
  rfl

theorem Tidy.reaches (h : Tidy as r) (he : r.editors.contains e = true)
    : Reaches as r e ((r.hearers (.editor e)).flatMap fun l => (.editor e, l) :: r.onward l) := by
  have hnodes : ∃ ns : List NodeId, ns.map Listener.node = r.hearers (.editor e) := by
    rw [← Set.mem_range, Set.range_list_map]
    intro l hl
    obtain ⟨n, rfl⟩ := h.layered.editor e l hl
    exact ⟨n, rfl⟩
  have hviewers : ∀ n, ∃ vs : List ViewerId, vs.map Listener.viewer = r.hearers (.node n) := by
    intro n
    rw [← Set.mem_range, Set.range_list_map]
    intro l hl
    obtain ⟨v, rfl⟩ := h.layered.node n l hl
    exact ⟨v, rfl⟩
  obtain ⟨ns, hns⟩ := hnodes
  choose vs hvs using hviewers
  have hopen : r.isOpen (.editor e) = true := he
  have mem_ns : ∀ n, n ∈ ns ↔ r.Hangs n e := by
    intro n
    rw [← List.mem_map_of_injective fun _ _ => Listener.node.inj, hns, h.mem_hearers_iff hopen]
    exact and_iff_right_of_imp Hangs.contains
  refine ⟨ns, vs, ?_, ?_, mem_ns, ?_⟩
  . rw [← hns, List.flatMap_map]
    simp only [onward, ← hvs, List.map_map, Function.comp_def]
  . refine List.Nodup.of_map Listener.node ?_
    rw [hns]
    exact h.nodup_hearers hopen
  . intro n hn
    have hopen : r.isOpen (.node n) = true := ((mem_ns n).1 hn).contains
    refine ⟨?_, ?_⟩
    . refine List.Nodup.of_map Listener.viewer ?_
      rw [hvs]
      exact h.nodup_hearers hopen
    . intro v
      rw [← List.mem_map_of_injective fun _ _ => Listener.viewer.inj, hvs, h.mem_hearers_iff hopen]
      rfl

/--
An edit reaches those nodes and viewers that it should, each once, and nobody if there are no such nodes; it
changes the classification of no node. And a node that is made with the hunks of a diff has just these below
it, in order, those with an editor that do not match.
-/
theorem history_delivers (h : History depth as r) (hd : 2 ≤ depth)
    : (∀ e text, r.editors.contains e = true →
          ∃ s told, r.setText depth e text = some s ∧ s.journal = r.journal ++ told ∧
            Reaches as r e told ∧ ((∀ n, ¬ r.Hangs n e) → told = []) ∧
            ∀ n, s.classify? n = r.classify? n) ∧
        ∀ m, ∃ node, (r.addNodeWithHunks m).2.nodes.find? (r.addNodeWithHunks m).1 = some node ∧
          node.matching = m ∧
          node.children.map (fun k => (k.hunk, k.editor.isSome))
            = m.diff.hunks.zipIdx.map fun (h, i) => (h, !m.isMatched i) := by
  have htidy := tidy_of_history h hd
  obtain ⟨d, rfl⟩ := Nat.exists_eq_add_of_le' hd
  refine ⟨?_, ?_⟩
  . intro e text he
    obtain ⟨s, hs, hpasses⟩ := exists_passes_setText htidy.layered he d text
    have hreaches := htidy.reaches he
    exact ⟨s, _, hs, hpasses.journal, hreaches, hreaches.eq_nil, hpasses.classify?⟩
  . intro m
    obtain ⟨ks, -, hlook, hks⟩ := htidy.exists_look_addNodeWithHunks m
    obtain ⟨node, hnode, heq⟩ := Option.map_eq_some_iff.1 hlook
    cases heq
    exact ⟨node, hnode, rfl, hks⟩

/--
An edit of the hunk that does not match, which hangs below a second node too, twice, and below a third one that
is gone; one viewer listens to both nodes, another one has ceased to.
-/
theorem history_delivers_shared
    : let h : Hunk := ⟨1, 1, [⟨.added, "line"⟩]⟩
      let m : Matching := ⟨⟨none, some ⟨"file"⟩, false, [h, h]⟩, false, [true, false], none⟩
      let as : List Deed :=
        [.addNodeWithHunks m, .addNode m, .addNode m, .attach 2 ⟨h, false, some 1⟩,
          .attach 2 ⟨h, false, some 1⟩, .attach 3 ⟨h, false, some 1⟩, .addViewer, .addViewer,
          .subscribe 0 4, .subscribe 2 4, .subscribe 2 4, .subscribe 2 5, .unsubscribe 2 5, .dropNode 3]
      ∃ r s, History 2 as r ∧ r.setText 2 1 "line" = some s ∧ Reaches as r 1 s.journal ∧
        s.journal
          = [(.editor 1, .node 0), (.node 0, .viewer 4), (.editor 1, .node 2), (.node 2, .viewer 4)] := by
  intro h m as
  have hrun : ((run? 2 {} as).map fun r => (r.journal, r.editors.contains 1)) = some ([], true) := by
    decide +kernel
  obtain ⟨r, hr, heq⟩ := Option.map_eq_some_iff.1 hrun
  obtain ⟨hjournal, he⟩ := Prod.mk.inj heq
  have hhistory : History 2 as r := History.nil.run? as r hr
  obtain ⟨s, told, hs, htold, hreaches, -⟩ := (history_delivers hhistory (Nat.le_refl 2)).1 1 "line" he
  rw [hjournal, List.nil_append] at htold
  refine ⟨r, s, hhistory, hs, htold ▸ hreaches, ?_⟩
  have hedit : (((run? 2 {} as).bind (·.setText 2 1 "line")).map journal)
      = some [(.editor 1, .node 0), (.node 0, .viewer 4), (.editor 1, .node 2), (.node 2, .viewer 4)] := by
    decide +kernel
  rw [hr, Option.bind_some, hs, Option.map_some] at hedit
  exact Option.some.inj hedit

end Review
end SharedWorkspace
