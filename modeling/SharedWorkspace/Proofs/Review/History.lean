import SharedWorkspace.Proofs.Review.Delivery

/-!
Histories of a review whose viewers only listen, and who is found on the channels at any time: on that of an
editor the nodes that have it below them with a hunk that does not match, on that of a node the viewers that
have subscribed to it (`tidy_of_history`).
-/

namespace SharedWorkspace

def Listener.number : Listener → Nat
  | .node n => n
  | .viewer v => v

namespace Review

/--
What may happen to a review. Viewers are made without reactions: they only listen.
-/
inductive Deed where
  | addNode (m : Matching)
  | addNodeWithHunks (m : Matching)
  | addEditor (h : Hunk)
  | attach (n : NodeId) (h : HunkNode)
  | setText (e : EditorId) (text : String)
  | subscribe (n : NodeId) (v : ViewerId)
  | unsubscribe (n : NodeId) (v : ViewerId)
  | dropNode (n : NodeId)
  | addViewer
  | dropViewer (v : ViewerId)
  | keep (c : EditCache)

namespace Deed

def Possible (r : Review) : Deed → Prop
  | addNode _ | addNodeWithHunks _ | addEditor _ | addViewer | keep _ => True
  | attach n h => r.nodes.contains n = true ∧ ∀ e ∈ h.editor, r.editors.contains e = true
  | setText e _ => r.editors.contains e = true
  | subscribe n v | unsubscribe n v => r.nodes.contains n = true ∧ r.viewers.contains v = true
  | dropNode n => r.nodes.contains n = true
  | dropViewer v => r.viewers.contains v = true

instance (r : Review) (a : Deed) : Decidable (a.Possible r) := by
  cases a <;> unfold Possible <;> infer_instance

def perform (depth : Nat) (r : Review) : Deed → Option Review
  | addNode m => some (r.addNode m).2
  | addNodeWithHunks m => some (r.addNodeWithHunks m).2
  | addEditor h => some (r.addEditor h).2
  | attach n h => some (r.attach n h)
  | setText e text => r.setText depth e text
  | subscribe n v => some (r.subscribe (.node n) (.viewer v))
  | unsubscribe n v => some (r.unsubscribe (.node n) (.viewer v))
  | dropNode n => some (r.dropNode n)
  | addViewer => some (r.addViewer fun _ => []).2
  | dropViewer v => some (r.dropViewer v)
  | keep c => some { r with cache := c }

def subscription (n : NodeId) (v : ViewerId) (before : Bool) : Deed → Bool
  | subscribe n' v' => before || (n' = n && v' = v)
  | unsubscribe n' v' => before && !(n' = n && v' = v)
  | _ => before

end Deed

def subscribed (n : NodeId) (v : ViewerId) (as : List Deed) : Bool :=
  as.foldl (Deed.subscription n v) false

inductive History (depth : Nat) : List Deed → Review → Prop where
  | nil : History depth [] {}
  | concat {as : List Deed} {r s : Review} {a : Deed} (h : History depth as r) (hp : a.Possible r)
      (ha : a.perform depth r = some s) : History depth (as ++ [a]) s

def run? (depth : Nat) (r : Review) (as : List Deed) : Option Review :=
  as.foldlM (fun r a => if a.Possible r then a.perform depth r else none) r

def Hangs (r : Review) (n : NodeId) (e : EditorId) : Prop :=
  ∃ x, r.look n = some x ∧ ∃ h ∈ x.2, h.matched = false ∧ h.editor = some e

def Listens (as : List Deed) (r : Review) : ChannelId → Listener → Prop
  | .editor e, .node n => r.Hangs n e
  | .node n, .viewer v => subscribed n v as = true
  | _, _ => False

structure Fits (as : List Deed) (r : Review) (id : ChannelId) (c : Channel Listener) : Prop where
  nodup : c.subscribers.Nodup
  known : ∀ l ∈ c.subscribers, l.number < r.nextId
  iff : ∀ l, r.isAlive l = true → (l ∈ c.subscribers ↔ Listens as r id l)

structure Tidy (as : List Deed) (r : Review) : Prop where
  alive : ∀ l, r.isAlive l = true → l.number < r.nextId
  editors : ∀ e, r.editors.contains e = true → e < r.nextId
  hangs : ∀ n e, r.Hangs n e → r.editors.contains e = true
  subscribed : ∀ n v, subscribed n v as = true → n < r.nextId ∧ v < r.nextId
  quiet : r.Quiet
  fits : ∀ id, r.isOpen id = true → Fits as r id (r.channel id)

variable {as as' : List Deed} {r s : Review} {id : ChannelId} {c : Channel Listener} {n : NodeId}
variable {e : EditorId} {v : ViewerId} {l : Listener} {depth : Nat}

@[simp]
theorem subscribed_concat (n : NodeId) (v : ViewerId) (as : List Deed) (a : Deed)
    : subscribed n v (as ++ [a]) = a.subscription n v (subscribed n v as) := by
  unfold subscribed
  rw [List.foldl_append]
  rfl

namespace Fits

theorem empty (h : ∀ l, r.isAlive l = true → ¬ Listens as r id l) : Fits as r id {} where
  nodup := .nil
  known := nofun
  iff l hl := ⟨nofun, fun h' => absurd h' (h l hl)⟩

theorem later (h : Fits as r id c) (hn : r.nextId ≤ s.nextId)
    (hl : ∀ l, s.isAlive l = true →
      (r.isAlive l = true ∧ (Listens as' s id l ↔ Listens as r id l)) ∨
        (r.nextId ≤ l.number ∧ ¬ Listens as' s id l))
    : Fits as' s id c where
  nodup := h.nodup
  known l hc := Nat.lt_of_lt_of_le (h.known l hc) hn
  iff l hs := by
    rcases hl l hs with ⟨hr, hiff⟩ | ⟨hnew, hnot⟩
    . rw [h.iff l hr, hiff]
    . refine ⟨fun hc => ?_, fun h' => absurd h' hnot⟩
      have := h.known l hc
      omega

theorem prune (h : Fits as r id c) : Fits as r id (c.prune r.isAlive) where
  nodup := Channel.nodup_prune h.nodup _
  known l hc := h.known l (List.mem_filter.1 hc).1
  iff l hl := by
    rw [← h.iff l hl]
    unfold Channel.prune
    rw [List.mem_filter]
    exact and_iff_left hl

end Fits

namespace Tidy

theorem of_passes {told : List (ChannelId × Listener)} (h : Tidy as r) (hp : Passes r s told)
    : Tidy as s where
  alive l hl := by
    rw [hp.nextId]
    exact h.alive l (by rwa [← hp.isAlive])
  editors e he := by
    rw [hp.nextId]
    exact h.editors e (by rwa [← hp.editors])
  hangs n e hh := by
    rw [hp.editors]
    refine h.hangs n e ?_
    unfold Hangs at hh
    rwa [hp.look] at hh
  subscribed n v hs := by
    rw [hp.nextId]
    exact h.subscribed n v hs
  quiet v := by
    rw [hp.viewers]
    exact h.quiet v
  fits id ho := by
    rw [hp.isOpen] at ho
    have hsame : ∀ {c}, Fits as r id c → Fits as s id c := by
      intro c hc
      refine hc.later (Nat.le_of_eq hp.nextId.symm) ?_
      intro l hl
      rw [hp.isAlive] at hl
      refine .inl ⟨hl, ?_⟩
      unfold Listens Hangs
      rw [hp.look]
    rcases hp.channel id with heq | heq
    . rw [heq]
      exact hsame (h.fits id ho)
    . rw [heq]
      exact hsame (h.fits id ho).prune

theorem concat (h : Tidy as r) {a : Deed} (ha : ∀ n v b, a.subscription n v b = b)
    : Tidy (as ++ [a]) r where
  alive := h.alive
  editors := h.editors
  hangs := h.hangs
  subscribed n v hs := by
    rw [subscribed_concat, ha] at hs
    exact h.subscribed n v hs
  quiet := h.quiet
  fits id ho := by
    refine (h.fits id ho).later (Nat.le_refl _) ?_
    intro l hl
    refine .inl ⟨hl, ?_⟩
    unfold Listens
    simp only [subscribed_concat, ha]

theorem addEditor (h : Tidy as r) (k : Hunk) : Tidy as (r.addEditor k).2 where
  alive l hl := Nat.lt_succ_of_lt (h.alive l hl)
  editors e he := by
    rcases OrderedMap.eq_or_contains_of_contains_insert he with rfl | he
    . exact Nat.lt_succ_self _
    . exact Nat.lt_succ_of_lt (h.editors e he)
  hangs n e hh := by
    unfold Review.addEditor OrderedMap.contains
    dsimp
    rw [OrderedMap.find?_insert]
    split
    . rfl
    . exact h.hangs n e hh
  subscribed n v hs := by
    obtain ⟨hn, hv⟩ := h.subscribed n v hs
    exact ⟨Nat.lt_succ_of_lt hn, Nat.lt_succ_of_lt hv⟩
  quiet := h.quiet
  fits id ho := by
    have hkept : ∀ {id c}, Fits as r id c → Fits as (r.addEditor k).2 id c := by
      intro id c hc
      exact hc.later (Nat.le_succ _) fun l hl => .inl ⟨hl, Iff.rfl⟩
    cases id with
    | node n => exact hkept (h.fits (.node n) ho)
    | editor e =>
      by_cases he : e = r.nextId
      . have hchannel : (r.addEditor k).2.channel (.editor e) = {} := by
          unfold Review.addEditor Review.channel
          dsimp
          rw [he, OrderedMap.find?_insert_self]
          rfl
        rw [hchannel]
        refine .empty ?_
        intro l hl hlistens
        -- No hunk hangs anywhere yet with an editor that is new.
        cases l with
        | viewer => exact hlistens
        | node n => exact absurd he (Nat.ne_of_lt (h.editors e (h.hangs n e hlistens)))
      . have hchannel : (r.addEditor k).2.channel (.editor e) = r.channel (.editor e) := by
          unfold Review.addEditor Review.channel
          dsimp
          rw [OrderedMap.find?_insert_of_ne _ _ he]
        rw [hchannel]
        refine hkept (h.fits (.editor e) ?_)
        unfold Review.isOpen Review.addEditor OrderedMap.contains at ho
        dsimp at ho
        rwa [OrderedMap.find?_insert_of_ne _ _ he] at ho

theorem addNode (h : Tidy as r) (m : Matching) : Tidy as (r.addNode m).2 := by
  have hlook : ∀ n, (r.addNode m).2.look n = if n = r.nextId then some (m, []) else r.look n := by
    intro n
    unfold look Review.addNode
    dsimp
    rw [OrderedMap.find?_insert_eq_ite]
    split <;> rfl
  have hcontains : ∀ n, (r.addNode m).2.nodes.contains n = true →
      n = r.nextId ∨ r.nodes.contains n = true :=
    fun _ => OrderedMap.eq_or_contains_of_contains_insert
  -- Below the new node there is nothing yet.
  have hhangs : ∀ n e, (r.addNode m).2.Hangs n e → n ≠ r.nextId ∧ r.Hangs n e := by
    rintro n e ⟨x, hx, k, hk, hke⟩
    rw [hlook] at hx
    split at hx
    . cases hx
      contradiction
    . next hn => exact ⟨hn, x, hx, k, hk, hke⟩
  have hangs_of : ∀ n e, n ≠ r.nextId → r.Hangs n e → (r.addNode m).2.Hangs n e := by
    rintro n e hn ⟨x, hx, hk⟩
    refine ⟨x, ?_, hk⟩
    rw [hlook, if_neg hn]
    exact hx
  refine ⟨?_, ?_, ?_, ?_, h.quiet, ?_⟩
  . intro l hl
    cases l with
    | node n =>
      rcases hcontains n hl with rfl | hn
      . exact Nat.lt_succ_self _
      . exact Nat.lt_succ_of_lt (h.alive (.node n) hn)
    | viewer v => exact Nat.lt_succ_of_lt (h.alive (.viewer v) hl)
  . intro e he
    exact Nat.lt_succ_of_lt (h.editors e he)
  . intro n e hh
    exact h.hangs n e (hhangs n e hh).2
  . intro n v hs
    obtain ⟨hn, hv⟩ := h.subscribed n v hs
    exact ⟨Nat.lt_succ_of_lt hn, Nat.lt_succ_of_lt hv⟩
  . intro id ho
    have hkept : ∀ {id c}, Fits as r id c → Fits as (r.addNode m).2 id c := by
      intro id c hc
      refine hc.later (Nat.le_succ _) ?_
      intro l hl
      cases l with
      | viewer v =>
        refine .inl ⟨hl, ?_⟩
        cases id <;> exact Iff.rfl
      | node n =>
        by_cases hn : n = r.nextId
        . refine .inr ⟨Nat.le_of_eq hn.symm, ?_⟩
          intro hlistens
          cases id with
          | node => exact hlistens
          | editor e => exact (hhangs n e hlistens).1 hn
        . refine .inl ⟨(hcontains n hl).resolve_left hn, ?_⟩
          cases id with
          | node => exact Iff.rfl
          | editor e => exact ⟨fun hh => (hhangs n e hh).2, hangs_of n e hn⟩
    cases id with
    | editor e => exact hkept (h.fits (.editor e) ho)
    | node n =>
      by_cases hn : n = r.nextId
      . have hchannel : (r.addNode m).2.channel (.node n) = {} := by
          unfold Review.addNode Review.channel
          dsimp
          rw [hn, OrderedMap.find?_insert_self]
          rfl
        rw [hchannel]
        refine .empty ?_
        intro l _ hlistens
        cases l with
        | node => exact hlistens
        | viewer v => exact absurd hn (Nat.ne_of_lt (h.subscribed n v hlistens).1)
      . have hchannel : (r.addNode m).2.channel (.node n) = r.channel (.node n) := by
          unfold Review.addNode Review.channel
          dsimp
          rw [OrderedMap.find?_insert_of_ne _ _ hn]
        rw [hchannel]
        exact hkept (h.fits (.node n) ((hcontains n ho).resolve_left hn))

theorem addViewer (h : Tidy as r) : Tidy as (r.addViewer fun _ => []).2 := by
  have hcontains : ∀ v, (r.addViewer fun _ => []).2.viewers.contains v = true →
      v = r.nextId ∨ r.viewers.contains v = true :=
    fun _ => OrderedMap.eq_or_contains_of_contains_insert
  refine ⟨?_, ?_, h.hangs, ?_, ?_, ?_⟩
  . intro l hl
    cases l with
    | node n => exact Nat.lt_succ_of_lt (h.alive (.node n) hl)
    | viewer v =>
      rcases hcontains v hl with rfl | hv
      . exact Nat.lt_succ_self _
      . exact Nat.lt_succ_of_lt (h.alive (.viewer v) hv)
  . intro e he
    exact Nat.lt_succ_of_lt (h.editors e he)
  . intro n v hs
    obtain ⟨hn, hv⟩ := h.subscribed n v hs
    exact ⟨Nat.lt_succ_of_lt hn, Nat.lt_succ_of_lt hv⟩
  . intro v
    unfold Review.addViewer
    dsimp
    rw [OrderedMap.find?_insert]
    split
    . rfl
    . exact h.quiet v
  . intro id ho
    refine (h.fits id ho).later (Nat.le_succ _) ?_
    intro l hl
    cases l with
    | node n => exact .inl ⟨hl, Iff.rfl⟩
    | viewer v =>
      by_cases hv : v = r.nextId
      . refine .inr ⟨Nat.le_of_eq hv.symm, ?_⟩
        intro hlistens
        cases id with
        | editor => exact hlistens
        | node n => exact absurd hv (Nat.ne_of_lt (h.subscribed n v hlistens).2)
      . exact .inl ⟨(hcontains v hl).resolve_left hv, Iff.rfl⟩

theorem dropNode (h : Tidy as r) (n : NodeId) : Tidy as (r.dropNode n) := by
  have hfind : ∀ m, (r.dropNode n).nodes.find? m = if m = n then none else r.nodes.find? m := by
    intro m
    unfold Review.dropNode
    exact OrderedMap.find?_erase_eq_ite ..
  have hcontains : ∀ m, (r.dropNode n).nodes.contains m = true → m ≠ n ∧ r.nodes.contains m = true := by
    intro m hm
    unfold OrderedMap.contains at hm ⊢
    rw [hfind] at hm
    split at hm
    . contradiction
    . next hne => exact ⟨hne, hm⟩
  have hlook : ∀ m, m ≠ n → (r.dropNode n).look m = r.look m := by
    intro m hm
    unfold look
    rw [hfind, if_neg hm]
  refine ⟨?_, h.editors, ?_, h.subscribed, h.quiet, ?_⟩
  . intro l hl
    cases l with
    | node m => exact h.alive (.node m) (hcontains m hl).2
    | viewer v => exact h.alive (.viewer v) hl
  . rintro m e ⟨x, hx, hk⟩
    refine h.hangs m e ⟨x, ?_, hk⟩
    rw [← hlook m]
    . exact hx
    . rintro rfl
      unfold look at hx
      rw [hfind, if_pos rfl] at hx
      contradiction
  . intro id ho
    have hkept : ∀ {id c}, Fits as r id c → Fits as (r.dropNode n) id c := by
      intro id c hc
      refine hc.later (Nat.le_refl _) ?_
      intro l hl
      cases l with
      | viewer v =>
        refine .inl ⟨hl, ?_⟩
        cases id <;> exact Iff.rfl
      | node m =>
        obtain ⟨hne, hm⟩ := hcontains m hl
        refine .inl ⟨hm, ?_⟩
        cases id with
        | node => exact Iff.rfl
        | editor e =>
          unfold Listens Hangs
          dsimp
          rw [hlook m hne]
    cases id with
    | editor e => exact hkept (h.fits (.editor e) ho)
    | node m =>
      obtain ⟨hne, hm⟩ := hcontains m ho
      have hchannel : (r.dropNode n).channel (.node m) = r.channel (.node m) := by
        unfold Review.channel
        dsimp
        rw [hfind, if_neg hne]
      rw [hchannel]
      exact hkept (h.fits (.node m) hm)

theorem dropViewer (h : Tidy as r) (v : ViewerId) : Tidy as (r.dropViewer v) := by
  have hfind : ∀ w, (r.dropViewer v).viewers.find? w = if w = v then none else r.viewers.find? w := by
    intro w
    unfold Review.dropViewer
    exact OrderedMap.find?_erase_eq_ite ..
  have halive : ∀ l, (r.dropViewer v).isAlive l = true → r.isAlive l = true := by
    intro l hl
    cases l with
    | node => exact hl
    | viewer w =>
      unfold isAlive OrderedMap.contains at hl ⊢
      dsimp at hl ⊢
      rw [hfind] at hl
      split at hl
      . contradiction
      . exact hl
  refine ⟨fun l hl => h.alive l (halive l hl), h.editors, h.hangs, h.subscribed, ?_, ?_⟩
  . intro w
    rw [hfind]
    split
    . rfl
    . exact h.quiet w
  . intro id ho
    exact (h.fits id ho).later (Nat.le_refl _) fun l hl => .inl ⟨halive l hl, Iff.rfl⟩

end Tidy

section Attach

variable {k : HunkNode} {m : NodeId}

def hang (r : Review) (n : NodeId) (k : HunkNode) : Review :=
  match r.nodes.find? n with
  | some node => { r with nodes := r.nodes.insert n { node with children := node.children ++ [k] } }
  | none => r

theorem attach_eq_or (r : Review) (n : NodeId) (k : HunkNode)
    : (∃ e, k.matched = false ∧ k.editor = some e ∧
          r.attach n k = (r.subscribe (.editor e) (.node n)).hang n k) ∨
        ((∀ e, ¬ (k.matched = false ∧ k.editor = some e)) ∧ r.attach n k = r.hang n k) := by
  obtain ⟨hunk, matched, editor⟩ := k
  cases matched with
  | true => exact .inr ⟨nofun, rfl⟩
  | false =>
    cases editor with
    | none => exact .inr ⟨nofun, rfl⟩
    | some e => exact .inl ⟨e, rfl, rfl, rfl⟩

theorem look_hang (r : Review) (n : NodeId) (k : HunkNode) (m : NodeId)
    : (r.hang n k).look m
        = if m = n then (r.look n).map fun x => (x.1, x.2 ++ [k]) else r.look m := by
  unfold look hang
  split
  . next node hn =>
    dsimp
    rw [OrderedMap.find?_insert, hn]
    by_cases hm : m = n <;> simp [hm]
  . next hn =>
    split
    . next hm => rw [hm, hn]; rfl
    . rfl

theorem channel_hang (r : Review) (n : NodeId) (k : HunkNode) (id : ChannelId)
    : (r.hang n k).channel id = r.channel id := by
  unfold hang
  split
  . next node hn =>
    cases id with
    | editor => rfl
    | node m =>
      unfold Review.channel
      dsimp
      rw [OrderedMap.find?_insert]
      split
      . next heq => rw [Std.LawfulEqCmp.eq_of_compare heq, hn]; rfl
      . rfl
  . rfl

theorem nodes_contains_eq_isSome_look (r : Review) (n : NodeId)
    : r.nodes.contains n = (r.look n).isSome := by
  unfold OrderedMap.contains look
  rw [Option.isSome_map]

structure Hung (n : NodeId) (k : HunkNode) (r s : Review) : Prop where
  look : ∀ m, s.look m = if m = n then (r.look n).map fun x => (x.1, x.2 ++ [k]) else r.look m
  channel : ∀ id, r.isOpen id = true → s.channel id =
    if k.matched = false ∧ k.editor.map ChannelId.editor = some id then (r.channel id).subscribe (.node n)
    else r.channel id
  editors : s.editors.contains = r.editors.contains
  viewers : s.viewers = r.viewers
  nextId : s.nextId = r.nextId

theorem hung_attach (he : ∀ e, k.editor = some e → r.editors.contains e = true)
    : Hung n k r (r.attach n k) := by
  have hkept : ∀ s : Review, (s.hang n k).editors = s.editors ∧ (s.hang n k).viewers = s.viewers ∧
      (s.hang n k).nextId = s.nextId := by
    intro s
    unfold hang
    split <;> exact ⟨rfl, rfl, rfl⟩
  rcases attach_eq_or r n k with ⟨e, hm, hk, heq⟩ | ⟨hnot, heq⟩
  . have hagrees := agrees_setChannel r (.editor e) ((r.channel (.editor e)).subscribe (.node n))
    obtain ⟨heditors, hviewers, hnextId⟩ := hkept (r.subscribe (.editor e) (.node n))
    rw [heq]
    refine ⟨?_, ?_, ?_, hviewers.trans hagrees.viewers, hnextId.trans hagrees.nextId⟩
    . intro m
      rw [look_hang]
      exact hagrees.look ▸ rfl
    . intro id ho
      rw [channel_hang]
      unfold Review.subscribe
      have hopen : r.isOpen (.editor e) = true := he e hk
      rw [channel_setChannel hopen, hk, hm]
      by_cases hid : id = .editor e
      . subst hid
        simp
      . rw [if_neg hid, if_neg]
        rintro ⟨_, h⟩
        exact hid (Option.some.inj h).symm
    . rw [heditors]
      exact hagrees.editors
  . obtain ⟨heditors, hviewers, hnextId⟩ := hkept r
    rw [heq]
    refine ⟨look_hang r n k, ?_, by rw [heditors], hviewers, hnextId⟩
    intro id _
    rw [channel_hang, if_neg]
    rintro ⟨hm, hid⟩
    obtain ⟨e, hk, -⟩ := Option.map_eq_some_iff.1 hid
    exact hnot e ⟨hm, hk⟩

namespace Hung

theorem contains (h : Hung n k r s) (m : NodeId) : s.nodes.contains m = r.nodes.contains m := by
  rw [nodes_contains_eq_isSome_look, nodes_contains_eq_isSome_look, h.look]
  split
  . next hm => rw [hm, Option.isSome_map]
  . rfl

theorem isAlive (h : Hung n k r s) : s.isAlive = r.isAlive := by
  funext l
  cases l with
  | node m => exact h.contains m
  | viewer v =>
    show s.viewers.contains v = r.viewers.contains v
    rw [h.viewers]

theorem isOpen (h : Hung n k r s) : s.isOpen = r.isOpen := by
  funext id
  cases id with
  | node m => exact h.contains m
  | editor e => exact congrFun h.editors e

theorem hangs_iff (h : Hung n k r s) (hn : r.nodes.contains n = true)
    : s.Hangs m e ↔ r.Hangs m e ∨ (m = n ∧ k.matched = false ∧ k.editor = some e) := by
  unfold Hangs
  rw [h.look]
  split
  . next hm =>
    subst hm
    rw [nodes_contains_eq_isSome_look] at hn
    obtain ⟨x, hx⟩ := Option.isSome_iff_exists.1 hn
    rw [hx]
    simp [or_and_right, exists_or]
  . next hm => simp [hm]

end Hung

end Attach

namespace Tidy

theorem attach {k : HunkNode} (h : Tidy as r) (hn : r.nodes.contains n = true)
    (he : ∀ e, k.editor = some e → r.editors.contains e = true) : Tidy as (r.attach n k) := by
  have hung : Hung n k r (r.attach n k) := hung_attach he
  have hangs_iff : ∀ m e, _ := fun m e => hung.hangs_iff (m := m) (e := e) hn
  refine ⟨?_, ?_, ?_, ?_, ?_, ?_⟩
  . rw [hung.isAlive, hung.nextId]
    exact h.alive
  . rw [hung.editors, hung.nextId]
    exact h.editors
  . intro m e hh
    rw [hung.editors]
    rcases (hangs_iff m e).1 hh with hh | ⟨_, _, hk⟩
    . exact h.hangs m e hh
    . exact he e hk
  . rw [hung.nextId]
    exact h.subscribed
  . unfold Quiet
    rw [hung.viewers]
    exact h.quiet
  . intro id ho
    rw [hung.isOpen] at ho
    have hfits := h.fits id ho
    rw [hung.channel id ho]
    split
    . next hid =>
      obtain ⟨hm, hid⟩ := hid
      obtain ⟨e, hk, rfl⟩ := Option.map_eq_some_iff.1 hid
      refine ⟨Channel.nodup_subscribe hfits.nodup _, ?_, ?_⟩
      . intro l hl
        rw [hung.nextId]
        rcases Channel.mem_subscribe.1 hl with hl | rfl
        . exact hfits.known l hl
        . exact h.alive (.node n) hn
      . intro l hl
        rw [hung.isAlive] at hl
        rw [Channel.mem_subscribe, hfits.iff l hl]
        cases l with
        | node m =>
          show r.Hangs m e ∨ _ ↔ (r.attach n k).Hangs m e
          rw [hangs_iff, hm, hk]
          simp
        | viewer => simp [Listens]
    . next hid =>
      refine hfits.later (Nat.le_of_eq hung.nextId.symm) ?_
      intro l hl
      rw [hung.isAlive] at hl
      refine .inl ⟨hl, ?_⟩
      cases id with
      | node => cases l <;> exact Iff.rfl
      | editor e =>
        cases l with
        | viewer => exact Iff.rfl
        | node m =>
          show (r.attach n k).Hangs m e ↔ r.Hangs m e
          rw [hangs_iff]
          refine or_iff_left ?_
          rintro ⟨_, hm, hk⟩
          exact hid ⟨hm, by rw [hk]; rfl⟩

theorem setChannel_node {a : Deed} {c : Channel Listener} (h : Tidy as r)
    (hn : r.nodes.contains n = true) (hnodup : c.subscribers.Nodup)
    (hknown : ∀ l ∈ c.subscribers, l.number < r.nextId)
    (hc : ∀ l, l ∈ c.subscribers ↔ match l with
      | .node _ => l ∈ (r.channel (.node n)).subscribers
      | .viewer v =>
        a.subscription n v (decide (l ∈ (r.channel (.node n)).subscribers)) = true)
    (ha : ∀ m w b, m ≠ n → a.subscription m w b = b)
    (hs : ∀ m w, a.subscription m w (Review.subscribed m w as) = true → m < r.nextId ∧ w < r.nextId)
    : Tidy (as ++ [a]) (r.setChannel (.node n) c) := by
  have hagrees := agrees_setChannel r (.node n) c
  refine ⟨?_, ?_, ?_, ?_, ?_, ?_⟩
  . rw [hagrees.isAlive, hagrees.nextId]
    exact h.alive
  . rw [hagrees.editors, hagrees.nextId]
    exact h.editors
  . intro m e hh
    rw [hagrees.editors]
    refine h.hangs m e ?_
    unfold Hangs at hh
    rwa [hagrees.look] at hh
  . intro m w hs'
    rw [subscribed_concat] at hs'
    rw [hagrees.nextId]
    exact hs m w hs'
  . unfold Quiet
    rw [hagrees.viewers]
    exact h.quiet
  . intro id ho
    rw [hagrees.isOpen] at ho
    have hfits := h.fits id ho
    have hopen : r.isOpen (.node n) = true := hn
    rw [channel_setChannel hopen]
    split
    . next hid =>
      subst hid
      refine ⟨hnodup, ?_, ?_⟩
      . rw [hagrees.nextId]
        exact hknown
      . intro l hl
        rw [hagrees.isAlive] at hl
        rw [hc]
        cases l with
        | node m => exact hfits.iff (.node m) hl
        | viewer v =>
          dsimp [Listens]
          rw [subscribed_concat, Bool.eq_iff_iff.2 (decide_eq_true_iff.trans (hfits.iff (.viewer v) hl))]
    . next hid =>
      refine hfits.later (Nat.le_of_eq hagrees.nextId.symm) ?_
      intro l hl
      rw [hagrees.isAlive] at hl
      refine .inl ⟨hl, ?_⟩
      unfold Listens Hangs
      rw [hagrees.look]
      cases id with
      | editor => cases l <;> rfl
      | node m =>
        cases l with
        | node => rfl
        | viewer w =>
          dsimp
          rw [subscribed_concat, ha m w _ fun hm => hid (congrArg _ hm)]

theorem subscribe (h : Tidy as r) (hn : r.nodes.contains n = true) (hv : r.viewers.contains v = true)
    : Tidy (as ++ [.subscribe n v]) (r.subscribe (.node n) (.viewer v)) := by
  have hfits := h.fits (.node n) hn
  refine h.setChannel_node hn (Channel.nodup_subscribe hfits.nodup _) ?_ ?_ ?_ ?_
  . intro l hl
    rcases Channel.mem_subscribe.1 hl with hl | rfl
    . exact hfits.known l hl
    . exact h.alive (.viewer v) hv
  . intro l
    rw [Channel.mem_subscribe]
    cases l with
    | node => simp
    | viewer w => simp [Deed.subscription, eq_comm (a := v)]
  . intro m w b hm
    simp [Deed.subscription, Ne.symm hm]
  . intro m w hs
    simp only [Deed.subscription, Bool.or_eq_true, Bool.and_eq_true, decide_eq_true_eq] at hs
    rcases hs with hs | ⟨rfl, rfl⟩
    . exact h.subscribed m w hs
    . exact ⟨h.alive (.node n) hn, h.alive (.viewer v) hv⟩

theorem unsubscribe (h : Tidy as r) (hn : r.nodes.contains n = true)
    : Tidy (as ++ [.unsubscribe n v]) (r.unsubscribe (.node n) (.viewer v)) := by
  have hfits := h.fits (.node n) hn
  refine h.setChannel_node hn (Channel.nodup_unsubscribe hfits.nodup _) ?_ ?_ ?_ ?_
  . intro l hl
    exact hfits.known l (Channel.mem_unsubscribe.1 hl).1
  . intro l
    rw [Channel.mem_unsubscribe]
    cases l with
    | node => simp
    | viewer w => simp [Deed.subscription, eq_comm (a := v)]
  . intro m w b hm
    simp [Deed.subscription, Ne.symm hm]
  . intro m w hs
    exact h.subscribed m w (Bool.and_eq_true_iff.1 hs).1

theorem keep (h : Tidy as r) (c : EditCache) : Tidy as { r with cache := c } where
  alive := h.alive
  editors := h.editors
  hangs := h.hangs
  subscribed := h.subscribed
  quiet := h.quiet
  fits id ho := (h.fits id ho).later (Nat.le_refl _) fun _ hl => .inl ⟨hl, Iff.rfl⟩

theorem attachHunk (h : Tidy as r) (hn : r.nodes.contains n = true) (k : Hunk) (b : Bool)
    : Tidy as (attachHunk n r k b) := by
  unfold Review.attachHunk
  split
  . exact h.attach hn nofun
  . refine (h.addEditor k).attach hn ?_
    rintro e ⟨⟩
    unfold Review.addEditor OrderedMap.contains
    dsimp
    rw [OrderedMap.find?_insert_self]
    rfl

end Tidy

theorem look_attachHunk (r : Review) (n : NodeId) (k : Hunk) (b : Bool)
    : (attachHunk n r k b).look n
        = (r.look n).map fun x => (x.1, x.2 ++ [⟨k, b, if b then none else some r.nextId⟩]) := by
  unfold attachHunk
  split
  . next hb =>
    subst hb
    rw [(hung_attach (k := ⟨k, true, none⟩) nofun).look, if_pos rfl]
  . next hb =>
    rw [Bool.of_not_eq_true hb, (hung_attach ?_).look, if_pos rfl]
    . rfl
    . rintro e ⟨⟩
      unfold addEditor OrderedMap.contains
      dsimp
      rw [OrderedMap.find?_insert_self]
      rfl

namespace Tidy

theorem empty : Tidy [] {} where
  alive l hl := by cases l <;> exact Bool.noConfusion hl
  editors := nofun
  hangs := nofun
  subscribed := nofun
  quiet _ := rfl
  fits id ho := by cases id <;> exact Bool.noConfusion ho

theorem mem_hearers_iff (h : Tidy as r) (ho : r.isOpen id = true)
    : l ∈ r.hearers id ↔ r.isAlive l = true ∧ Listens as r id l := by
  unfold hearers Channel.prune
  rw [List.mem_filter, and_comm]
  exact and_congr_right fun hl => (h.fits id ho).iff l hl

theorem nodup_hearers (h : Tidy as r) (ho : r.isOpen id = true) : (r.hearers id).Nodup :=
  Channel.nodup_prune (h.fits id ho).nodup _

theorem hearers_eq_nil (ho : r.isOpen id = false) : r.hearers id = [] := by
  have hchannel : r.channel id = {} := by
    cases id with
    | node n =>
      have hn : r.nodes.find? n = none := by simpa [isOpen, OrderedMap.contains] using ho
      unfold Review.channel
      dsimp
      rw [hn]
      rfl
    | editor e =>
      have he : r.editors.find? e = none := by simpa [isOpen, OrderedMap.contains] using ho
      unfold Review.channel
      dsimp
      rw [he]
      rfl
  unfold hearers
  rw [hchannel]
  rfl

theorem layered (h : Tidy as r) : r.Layered := by
  have hlistens : ∀ id, ∀ l ∈ r.hearers id, Listens as r id l := by
    intro id l hl
    cases ho : r.isOpen id with
    | true => exact ((h.mem_hearers_iff ho).1 hl).2
    | false =>
      rw [hearers_eq_nil ho] at hl
      contradiction
  refine ⟨h.quiet, ?_, ?_⟩
  . intro e l hl
    cases l with
    | node n => exact ⟨n, rfl⟩
    | viewer v => exact absurd (hlistens _ _ hl) id
  . intro n l hl
    cases l with
    | node => exact absurd (hlistens _ _ hl) id
    | viewer v => exact ⟨v, rfl⟩

theorem exists_look_foldl_attachHunk (ps : List (Hunk × Nat)) (b : Nat → Bool)
    : ∀ r : Review, Tidy as r → ∀ x, r.look n = some x →
        ∃ ks, Tidy as (ps.foldl (fun r (h, i) => Review.attachHunk n r h (b i)) r) ∧
          (ps.foldl (fun r (h, i) => Review.attachHunk n r h (b i)) r).look n = some (x.1, x.2 ++ ks) ∧
          ks.map (fun k => (k.hunk, k.editor.isSome)) = ps.map fun (h, i) => (h, !b i) := by
  induction ps with
  | nil =>
    intro r h x hx
    refine ⟨[], h, ?_, rfl⟩
    rw [List.append_nil]
    exact hx
  | cons p ps ih =>
    obtain ⟨k, i⟩ := p
    intro r h x hx
    have hn : r.nodes.contains n = true := by
      rw [nodes_contains_eq_isSome_look, hx]
      rfl
    have hlook := look_attachHunk r n k (b i)
    rw [hx] at hlook
    obtain ⟨ks, htidy, hks, hmap⟩ := ih _ (h.attachHunk hn k (b i)) _ hlook
    refine ⟨⟨k, b i, if b i then none else some r.nextId⟩ :: ks, htidy, ?_, ?_⟩
    . rw [List.foldl_cons, hks, List.append_assoc]
      rfl
    . rw [List.map_cons, List.map_cons, hmap]
      dsimp only
      cases b i <;> rfl

theorem exists_look_addNodeWithHunks (h : Tidy as r) (m : Matching)
    : ∃ ks, Tidy as (r.addNodeWithHunks m).2 ∧
        (r.addNodeWithHunks m).2.look (r.addNodeWithHunks m).1 = some (m, ks) ∧
        ks.map (fun k => (k.hunk, k.editor.isSome))
          = m.diff.hunks.zipIdx.map fun (h, i) => (h, !m.isMatched i) := by
  refine exists_look_foldl_attachHunk m.diff.hunks.zipIdx m.isMatched _ (h.addNode m) (m, []) ?_
  unfold look Review.addNode
  dsimp
  rw [OrderedMap.find?_insert_self]
  rfl

theorem perform {a : Deed} (h : Tidy as r) (hd : 2 ≤ depth) (hp : a.Possible r)
    (ha : a.perform depth r = some s) : Tidy (as ++ [a]) s := by
  obtain ⟨d, rfl⟩ := Nat.exists_eq_add_of_le' hd
  cases a with
  | setText e text =>
    obtain ⟨t, ht, hpasses⟩ := exists_passes_setText h.layered hp d text
    cases ht.symm.trans ha
    exact (h.of_passes hpasses).concat fun _ _ _ => rfl
  | addNode m =>
    cases ha
    exact (h.addNode m).concat fun _ _ _ => rfl
  | addNodeWithHunks m =>
    cases ha
    obtain ⟨_, htidy, _⟩ := h.exists_look_addNodeWithHunks m
    exact htidy.concat fun _ _ _ => rfl
  | addEditor k =>
    cases ha
    exact (h.addEditor k).concat fun _ _ _ => rfl
  | attach n k =>
    cases ha
    exact (h.attach hp.1 hp.2).concat fun _ _ _ => rfl
  | subscribe n v =>
    cases ha
    exact h.subscribe hp.1 hp.2
  | unsubscribe n v =>
    cases ha
    exact h.unsubscribe hp.1
  | dropNode n =>
    cases ha
    exact (h.dropNode n).concat fun _ _ _ => rfl
  | addViewer =>
    cases ha
    exact h.addViewer.concat fun _ _ _ => rfl
  | dropViewer v =>
    cases ha
    exact (h.dropViewer v).concat fun _ _ _ => rfl
  | keep c =>
    cases ha
    exact (h.keep c).concat fun _ _ _ => rfl

end Tidy

theorem History.run? (as' : List Deed) {as : List Deed} {r : Review} (h : History depth as r)
    : ∀ s ∈ run? depth r as', History depth (as ++ as') s := by
  induction as' generalizing as r with
  | nil =>
    intro s hs
    cases hs
    rwa [List.append_nil]
  | cons a as' ih =>
    intro s hs
    obtain ⟨t, ht, hs⟩ := Option.bind_eq_some_iff.1 hs
    dsimp only at ht
    by_cases hp : a.Possible r
    . rw [if_pos hp] at ht
      rw [List.append_cons]
      exact ih (h.concat hp ht) s hs
    . rw [if_neg hp] at ht
      contradiction

theorem tidy_of_history (h : History depth as r) (hd : 2 ≤ depth) : Tidy as r := by
  induction h with
  | nil => exact .empty
  | concat _ hp ha ih => exact ih.perform hd hp ha

end Review
end SharedWorkspace
