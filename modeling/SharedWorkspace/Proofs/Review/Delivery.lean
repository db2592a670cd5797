import SharedWorkspace.Review.Basic

/-!
What becomes of a change that is told on a channel, where nodes listen to editors and viewers to nodes. It
reaches those who listen and are still there, each once, and passes through a node to those who listen to it;
nothing else comes of it (`exists_passes_setText`).
-/

namespace SharedWorkspace

namespace Channel

variable {ι : Type}

theorem prune_prune (c : Channel ι) (alive : ι → Bool) : (c.prune alive).prune alive = c.prune alive := by
  unfold prune
  rw [List.filter_filter]
  simp only [Bool.and_self]

variable [DecidableEq ι]

theorem mem_subscribe {c : Channel ι} {k l : ι}
    : k ∈ (c.subscribe l).subscribers ↔ k ∈ c.subscribers ∨ k = l := by
  unfold subscribe
  split
  . next hl =>
    refine ⟨.inl, ?_⟩
    rintro (hk | rfl)
    . exact hk
    . exact hl
  . rw [List.mem_append, List.mem_singleton]

theorem mem_unsubscribe {c : Channel ι} {k l : ι}
    : k ∈ (c.unsubscribe l).subscribers ↔ k ∈ c.subscribers ∧ k ≠ l := by
  unfold unsubscribe
  rw [List.mem_filter, decide_eq_true_iff]

end Channel

namespace Review

variable {r s t : Review} {told told' : List (ChannelId × Listener)} {n : NodeId} {e : EditorId}
variable {id id' : ChannelId} {l : Listener} {text : String} {depth : Nat}

def isOpen (r : Review) : ChannelId → Bool
  | .node n => r.nodes.contains n
  | .editor e => r.editors.contains e

theorem channel_setChannel (h : r.isOpen id = true) (c : Channel Listener) (id' : ChannelId)
    : (r.setChannel id c).channel id' = if id' = id then c else r.channel id' := by
  cases id with
  | node n =>
    obtain ⟨node, hn⟩ := Option.isSome_iff_exists.1 h
    unfold setChannel
    dsimp
    rw [hn]
    cases id' with
    | node m =>
      by_cases hm : m = n
      . subst hm
        simp [channel, OrderedMap.find?_insert_self]
      . simp [channel, hm, OrderedMap.find?_insert_of_ne]
    | editor => simp [channel]
  | editor e =>
    obtain ⟨editor, he⟩ := Option.isSome_iff_exists.1 h
    unfold setChannel
    dsimp
    rw [he]
    cases id' with
    | node => simp [channel]
    | editor e' =>
      by_cases hm : e' = e
      . subst hm
        simp [channel, OrderedMap.find?_insert_self]
      . simp [channel, hm, OrderedMap.find?_insert_of_ne]

def look (r : Review) (n : NodeId) : Option (Matching × List HunkNode) :=
  (r.nodes.find? n).map fun node => (node.matching, node.children)

structure Agrees (r s : Review) : Prop where
  look : s.look = r.look
  editors : s.editors.contains = r.editors.contains
  viewers : s.viewers = r.viewers
  nextId : s.nextId = r.nextId
  cache : s.cache = r.cache

namespace Agrees

theorem refl (r : Review) : Agrees r r := ⟨rfl, rfl, rfl, rfl, rfl⟩

theorem trans (h : Agrees r s) (h' : Agrees s t) : Agrees r t where
  look := h'.look.trans h.look
  editors := h'.editors.trans h.editors
  viewers := h'.viewers.trans h.viewers
  nextId := h'.nextId.trans h.nextId
  cache := h'.cache.trans h.cache

theorem contains (h : Agrees r s) (n : NodeId) : s.nodes.contains n = r.nodes.contains n := by
  have hn := congrFun h.look n
  unfold Review.look at hn
  unfold OrderedMap.contains
  rw [← Option.isSome_map, hn, Option.isSome_map]

theorem isAlive (h : Agrees r s) : s.isAlive = r.isAlive := by
  funext l
  cases l with
  | node n => exact h.contains n
  | viewer v =>
    show s.viewers.contains v = r.viewers.contains v
    rw [h.viewers]

theorem isOpen (h : Agrees r s) : s.isOpen = r.isOpen := by
  funext id
  cases id with
  | node n => exact h.contains n
  | editor e => exact congrFun h.editors e

theorem classify? (h : Agrees r s) (n : NodeId) : s.classify? n = r.classify? n := by
  have hn := congrArg (Option.map fun x => x.1.classify r.cache) (congrFun h.look n)
  unfold Review.look at hn
  rw [Option.map_map, Option.map_map] at hn
  unfold Review.classify?
  rw [h.cache]
  exact hn

end Agrees

theorem agrees_setChannel (r : Review) (id : ChannelId) (c : Channel Listener)
    : Agrees r (r.setChannel id c) := by
  unfold setChannel
  cases id with
  | node n =>
    dsimp
    split
    . next node hn =>
      refine ⟨?_, rfl, rfl, rfl, rfl⟩
      funext m
      unfold look
      dsimp
      rw [OrderedMap.find?_insert]
      split
      . next hm => rw [Std.LawfulEqCmp.eq_of_compare hm, hn]; rfl
      . rfl
    . exact .refl r
  | editor e =>
    dsimp
    split
    . next editor he =>
      refine ⟨rfl, ?_, rfl, rfl, rfl⟩
      funext m
      unfold OrderedMap.contains
      dsimp
      rw [OrderedMap.find?_insert]
      split
      . next hm => rw [Std.LawfulEqCmp.eq_of_compare hm, he]; rfl
      . rfl
    . exact .refl r

def hearers (r : Review) (id : ChannelId) : List Listener :=
  ((r.channel id).prune r.isAlive).subscribers

/--
From `r` to `s` nothing has happened but that those in `told` were told of changes, and that some channels
have been cleared of those who are gone.
-/
structure Passes (r s : Review) (told : List (ChannelId × Listener)) : Prop extends Agrees r s where
  channel : ∀ id, s.channel id = r.channel id ∨ s.channel id = (r.channel id).prune r.isAlive
  journal : s.journal = r.journal ++ told

namespace Passes

theorem hearers_eq (h : Passes r s told) (id : ChannelId) : s.hearers id = r.hearers id := by
  unfold hearers
  rw [h.isAlive]
  rcases h.channel id with heq | heq
  . rw [heq]
  . rw [heq, Channel.prune_prune]

theorem trans (h : Passes r s told) (h' : Passes s t told') : Passes r t (told ++ told') where
  toAgrees := h.toAgrees.trans h'.toAgrees
  channel id := by
    rw [← h.isAlive]
    rcases h'.channel id with heq' | heq' <;> rcases h.channel id with heq | heq
    . exact .inl (heq'.trans heq)
    . exact .inr (by rw [heq', heq, h.isAlive])
    . exact .inr (by rw [heq', heq])
    . exact .inr (by rw [heq', heq, h.isAlive, Channel.prune_prune])
  journal := by rw [h'.journal, h.journal, List.append_assoc]

theorem note (r : Review) (x : ChannelId × Listener)
    : Passes r { r with journal := r.journal ++ [x] } [x] where
  toAgrees := ⟨rfl, rfl, rfl, rfl, rfl⟩
  channel _ := .inl rfl
  journal := rfl

theorem clear (r : Review) (id : ChannelId)
    : Passes r (r.setChannel id ((r.channel id).prune r.isAlive)) [] where
  toAgrees := agrees_setChannel r id _
  channel id' := by
    by_cases ho : r.isOpen id = true
    . rw [channel_setChannel ho]
      split
      . next heq => exact .inr (by rw [heq])
      . exact .inl rfl
    . have hid : r.setChannel id ((r.channel id).prune r.isAlive) = r := by
        unfold setChannel
        cases id with
        | node n =>
          have hn : r.nodes.find? n = none := by simpa [isOpen, OrderedMap.contains] using ho
          dsimp
          rw [hn]
        | editor e =>
          have he : r.editors.find? e = none := by simpa [isOpen, OrderedMap.contains] using ho
          dsimp
          rw [he]
      exact .inl (by rw [hid])
  journal := by
    rw [List.append_nil]
    unfold setChannel
    cases id <;> dsimp <;> split <;> rfl

end Passes

theorem exists_passes_foldlM {f : Review → Listener → Option Review}
    {g : Listener → List (ChannelId × Listener)} (ls : List Listener)
    (hf : ∀ l ∈ ls, ∀ s told, Passes r s told → ∃ t, f s l = some t ∧ Passes s t (g l))
    : ∀ s told, Passes r s told → ∃ t, ls.foldlM f s = some t ∧ Passes s t (ls.flatMap g) := by
  induction ls with
  | nil =>
    intro s told _
    exact ⟨s, rfl, .refl s, fun _ => .inl rfl, (List.append_nil _).symm⟩
  | cons l ls ih =>
    intro s told hs
    obtain ⟨t, ht, hst⟩ := hf l List.mem_cons_self s told hs
    obtain ⟨u, hu, htu⟩ := ih (fun k hk => hf k (List.mem_cons_of_mem l hk)) t _ (hs.trans hst)
    refine ⟨u, ?_, hst.trans htu⟩
    rw [List.foldlM_cons, ht]
    exact hu

def Quiet (r : Review) : Prop :=
  ∀ v, (r.viewers.find? v).getD [] = []

theorem exists_passes_tell_viewer (hq : r.Quiet) (pass : ChannelId → Review → Option Review)
    (id : ChannelId) (v : ViewerId)
    : ∃ s, tell pass id r (.viewer v) = some s ∧ Passes r s [(id, .viewer v)] := by
  refine ⟨_, ?_, .note r _⟩
  show some (((r.viewers.find? v).getD []).foldl _ _) = _
  rw [hq v]
  rfl

structure Layered (r : Review) : Prop where
  quiet : r.Quiet
  editor : ∀ e, ∀ l ∈ r.hearers (.editor e), ∃ n, l = .node n
  node : ∀ n, ∀ l ∈ r.hearers (.node n), ∃ v, l = .viewer v

theorem Layered.of_passes (h : r.Layered) (hp : Passes r s told) : s.Layered where
  quiet v := by rw [hp.viewers]; exact h.quiet v
  editor e := by rw [hp.hearers_eq]; exact h.editor e
  node n := by rw [hp.hearers_eq]; exact h.node n

theorem exists_passes_notify_node (h : r.Layered) (depth : Nat) (n : NodeId)
    : ∃ s, notify (depth + 1) (.node n) r = some s ∧
        Passes r s ((r.hearers (.node n)).map (ChannelId.node n, ·)) := by
  unfold notify
  have hfold := exists_passes_foldlM (r := r) (f := tell (notify depth) (.node n))
    (g := fun l => [(ChannelId.node n, l)]) (r.hearers (.node n)) ?_
  . obtain ⟨s, hs, hp⟩ := hfold _ _ (Passes.clear r (.node n))
    refine ⟨s, hs, ?_⟩
    rw [List.map_eq_flatMap]
    exact (Passes.clear r (.node n)).trans hp
  . intro l hl s told hs
    obtain ⟨v, rfl⟩ := h.node n l hl
    exact exists_passes_tell_viewer (h.of_passes hs).quiet _ _ v

def onward (r : Review) : Listener → List (ChannelId × Listener)
  | .node n => (r.hearers (.node n)).map (ChannelId.node n, ·)
  | .viewer _ => []

theorem exists_passes_notify_editor (h : r.Layered) (depth : Nat) (e : EditorId)
    : ∃ s, notify (depth + 2) (.editor e) r = some s ∧
        Passes r s ((r.hearers (.editor e)).flatMap fun l => (.editor e, l) :: r.onward l) := by
  unfold notify
  have hfold := exists_passes_foldlM (r := r) (f := tell (notify (depth + 1)) (.editor e))
    (g := fun l => (.editor e, l) :: r.onward l) (r.hearers (.editor e)) ?_
  . obtain ⟨s, hs, hp⟩ := hfold _ _ (Passes.clear r (.editor e))
    exact ⟨s, hs, (Passes.clear r (.editor e)).trans hp⟩
  . intro l hl s told hs
    obtain ⟨n, rfl⟩ := h.editor e l hl
    -- The node is told first; its own listeners are those it had before anybody was told.
    have hn := Passes.note s (.editor e, .node n)
    obtain ⟨t, ht, hp⟩ := exists_passes_notify_node ((h.of_passes hs).of_passes hn) depth n
    rw [hn.hearers_eq, hs.hearers_eq] at hp
    exact ⟨t, ht, hn.trans hp⟩

theorem passes_insert_editor {editor : Editor} (he : r.editors.find? e = some editor) (text : String)
    : Passes r { r with editors := r.editors.insert e { editor with text } } [] where
  look := rfl
  editors := by
    funext e'
    unfold OrderedMap.contains
    dsimp
    rw [OrderedMap.find?_insert]
    split
    . next heq => rw [Std.LawfulEqCmp.eq_of_compare heq, he]; rfl
    . rfl
  viewers := rfl
  nextId := rfl
  cache := rfl
  channel id := by
    refine .inl ?_
    cases id with
    | node => rfl
    | editor e' =>
      unfold channel
      dsimp
      rw [OrderedMap.find?_insert]
      split
      . next heq => rw [Std.LawfulEqCmp.eq_of_compare heq, he]; rfl
      . rfl
  journal := (List.append_nil _).symm

theorem exists_passes_setText (h : r.Layered) (he : r.editors.contains e = true) (depth : Nat)
    (text : String)
    : ∃ s, r.setText (depth + 2) e text = some s ∧
        Passes r s ((r.hearers (.editor e)).flatMap fun l => (.editor e, l) :: r.onward l) := by
  obtain ⟨editor, he⟩ := Option.isSome_iff_exists.1 he
  have hr := passes_insert_editor he text
  obtain ⟨s, hs, hp⟩ := exists_passes_notify_editor (h.of_passes hr) depth e
  refine ⟨s, ?_, ?_⟩
  . unfold setText
    rw [he]
    exact hs
  . have honward : ∀ l, onward { r with editors := r.editors.insert e { editor with text } } l
        = r.onward l := by
      intro l
      cases l with
      | node n =>
        unfold onward
        dsimp
        rw [hr.hearers_eq]
      | viewer => rfl
    rw [hr.hearers_eq] at hp
    simp only [honward] at hp
    exact hr.trans hp

theorem agrees_react (id : ChannelId) (rs : List Reaction) (r : Review)
    : Agrees r (rs.foldl (react id) r) := by
  induction rs generalizing r with
  | nil => exact .refl r
  | cons a rs ih =>
    have ha : Agrees r (react id r a) := by
      cases a <;> exact agrees_setChannel r id _
    exact ha.trans (ih _)

theorem agrees_foldlM {f : Review → Listener → Option Review}
    (hf : ∀ l r s, f r l = some s → Agrees r s) (ls : List Listener) (h : ls.foldlM f r = some s)
    : Agrees r s := by
  induction ls generalizing r with
  | nil =>
    cases h
    exact .refl _
  | cons l ls ih =>
    rw [List.foldlM_cons] at h
    obtain ⟨t, ht, hs⟩ := Option.bind_eq_some_iff.1 h
    exact (hf l r t ht).trans (ih hs)

theorem agrees_notify (h : notify depth id r = some s) : Agrees r s := by
  induction depth generalizing id r s with
  | zero => contradiction
  | succ depth ih =>
    unfold notify at h
    refine (agrees_setChannel r id _).trans (agrees_foldlM ?_ _ h)
    intro l r s hl
    have hnote := (Passes.note r (id, l)).toAgrees
    cases l with
    | node => exact hnote.trans (ih hl)
    | viewer =>
      cases hl
      exact hnote.trans (agrees_react id _ _)

theorem agrees_setText (h : r.setText depth e text = some s) : Agrees r s := by
  unfold setText at h
  split at h
  . cases h
    exact .refl _
  . next he => exact (passes_insert_editor he text).toAgrees.trans (agrees_notify h)

end Review
end SharedWorkspace
