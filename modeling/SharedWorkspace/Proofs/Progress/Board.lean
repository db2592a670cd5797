import SharedWorkspace.Proofs.Progress.Messages

/-!
The monitors of a board, each by itself. Whatever the tree that they make up, and whoever tells them something
in whatever order, each share becomes what a lone share becomes that is told the same, and passes on the same
(`History.linked`).
-/

namespace SharedWorkspace
namespace Progress
namespace Board

variable {b : Board} {i : Nat} {c : Call} {m : Monitor}

inductive Fresh (b : Board) : Monitor → Prop where
  | recording (token : Nat) : Fresh b (.recording token {})
  | quiet (token : Nat) : Fresh b (.quiet token)
  | share {parent : Nat} (hp : parent < b.monitors.length) (units : Nat)
      : Fresh b (.share parent { allotment := units })

inductive History : Board → List Message → Board → Prop where
  | nil (b : Board) : History b [] b
  | add {b b' : Board} {m : Monitor} {ms : List Message} (hm : b.Fresh m)
      (h : History (b.add m) ms b') : History b ms b'
  | tell {b b' : Board} {i : Nat} {ms : List Message} (hi : i < b.monitors.length) (c : Call)
      (h : History (b.tell i c) ms b') : History b (b.messages none i c ++ ms) b'

def callsTo (i : Nat) (ms : List Message) : List Call :=
  ms.filterMap fun m => if m.receiver = i then some m.call else none

def callsFrom (i : Nat) (ms : List Message) : List Call :=
  ms.filterMap fun m => if m.sender = some i then some m.call else none

/--
The monitors of a board have heard the messages `heard`, and its shares have sent the messages `sent`: as each
of them would have done by itself.
-/
structure Linked (b : Board) (heard sent : List Message) : Prop where
  rooted : b.Rooted
  receivers : ∀ m ∈ heard, m.receiver < b.monitors.length
  senders : ∀ m ∈ sent, ∀ i, m.sender = some i →
    ∃ s, b.monitors[i]? = some (Monitor.share m.receiver s)
  shares : ∀ i parent s, b.monitors[i]? = some (Monitor.share parent s) →
    s = (callsTo i heard).foldl Share.hear { allotment := s.allotment } ∧
      callsFrom i sent = Share.passes { allotment := s.allotment } (callsTo i heard)
  recordings : ∀ i token r, b.monitors[i]? = some (Monitor.recording token r) →
    r = (callsTo i heard).foldl Record.hear {}

theorem length_hear (b : Board) (i : Nat) (c : Call)
    : (b.hear i c).monitors.length = b.monitors.length := by
  unfold hear
  split
  . exact List.length_set
  . rfl

theorem getElem?_hear_share_iff {j parent : Nat} {t : Share}
    : (b.hear i c).monitors[j]? = some (.share parent t) ↔
        ∃ s, b.monitors[j]? = some (.share parent s) ∧ t = if j = i then s.hear c else s := by
  rw [getElem?_hear]
  split
  . rw [Option.map_eq_some_iff]
    constructor
    . rintro ⟨m, hm, h⟩
      obtain ⟨s, rfl, rfl⟩ := Monitor.hear_eq_share_iff.1 h
      exact ⟨s, hm, rfl⟩
    . rintro ⟨s, hm, rfl⟩
      exact ⟨_, hm, rfl⟩
  . constructor
    . exact fun h => ⟨t, h, rfl⟩
    . rintro ⟨s, hm, rfl⟩
      exact hm

theorem exists_share_hearAll {j parent : Nat} {s : Share} (hs : b.monitors[j]? = some (.share parent s))
    (ms : List Message)
    : ∃ t, (b.hearAll ms).monitors[j]? = some (.share parent t) ∧ t.allotment = s.allotment := by
  induction ms generalizing b s with
  | nil => exact ⟨s, hs, rfl⟩
  | cons m ms ih =>
    have hnext := (getElem?_hear_share_iff (i := m.receiver) (c := m.call)).2 ⟨s, hs, rfl⟩
    obtain ⟨t, ht, hallotment⟩ := ih hnext
    refine ⟨t, ht, hallotment.trans ?_⟩
    split
    . exact s.hear_allotment m.call
    . rfl

theorem exists_of_getElem?_hear_recording {j token : Nat} {r : Record}
    (h : (b.hear i c).monitors[j]? = some (.recording token r))
    : ∃ r', b.monitors[j]? = some (.recording token r') ∧ r = if j = i then r'.hear c else r' := by
  rw [getElem?_hear] at h
  split at h
  . next hj =>
    obtain ⟨m, hm, h⟩ := Option.map_eq_some_iff.1 h
    obtain ⟨r', rfl, rfl⟩ := Monitor.hear_eq_recording_iff.1 h
    exact ⟨r', hm, (if_pos hj).symm⟩
  . next hj => exact ⟨r, h, (if_neg hj).symm⟩

theorem getElem?_add_iff {j : Nat} {x : Monitor}
    : (b.add m).monitors[j]? = some x ↔
        b.monitors[j]? = some x ∨ j = b.monitors.length ∧ x = m := by
  unfold add
  rw [List.getElem?_append]
  split
  . next hj => simp [Nat.ne_of_lt hj]
  . next hj =>
    rw [List.getElem?_singleton, List.getElem?_eq_none (Nat.not_lt.1 hj)]
    split
    . next h => simp [Nat.le_antisymm (Nat.le_of_sub_eq_zero h) (Nat.not_lt.1 hj), eq_comm]
    . next h => simp; omega

theorem exists_of_passed? {parent : Nat} {c' : Call} (h : b.passed? i c = some (parent, c'))
    : ∃ s, b.monitors[i]? = some (.share parent s) ∧ s.passOn? c = some c' := by
  obtain ⟨m, hm, h⟩ := Option.bind_eq_some_iff.1 h
  cases m with
  | share p s =>
    obtain ⟨c'', hs, heq⟩ := Option.map_eq_some_iff.1 h
    cases heq
    exact ⟨s, hm, hs⟩
  | _ => cases h

section Calls

variable {ms : List Message} {x : Message}

@[simp]
theorem callsTo_append (i : Nat) (ms xs : List Message)
    : callsTo i (ms ++ xs) = callsTo i ms ++ callsTo i xs :=
  List.filterMap_append

@[simp]
theorem callsFrom_append (i : Nat) (ms xs : List Message)
    : callsFrom i (ms ++ xs) = callsFrom i ms ++ callsFrom i xs :=
  List.filterMap_append

theorem callsTo_singleton (i : Nat) (x : Message)
    : callsTo i [x] = if x.receiver = i then [x.call] else [] := by
  unfold callsTo
  split <;> simp [*]

theorem callsFrom_singleton (i : Nat) (x : Message)
    : callsFrom i [x] = if x.sender = some i then [x.call] else [] := by
  unfold callsFrom
  split <;> simp [*]

theorem callsTo_eq_nil (h : ∀ m ∈ ms, m.receiver ≠ i) : callsTo i ms = [] := by
  simpa [callsTo] using h

theorem callsFrom_eq_nil (h : ∀ m ∈ ms, m.sender ≠ some i) : callsFrom i ms = [] := by
  simpa [callsFrom] using h

end Calls

def reply (b : Board) (i : Nat) (c : Call) : List Message :=
  ((b.passed? i c).map fun (parent, c') => ⟨some i, parent, c'⟩).toList

theorem callsFrom_reply_self {parent : Nat} {s : Share}
    (hs : b.monitors[i]? = some (.share parent s)) : callsFrom i (b.reply i c) = (s.passOn? c).toList := by
  unfold reply passed?
  rw [hs, Option.bind_some]
  unfold Monitor.passOn?
  dsimp only
  cases s.passOn? c with
  | none => rfl
  | some c' =>
    show callsFrom i [_] = _
    rw [callsFrom_singleton, if_pos rfl]
    rfl

theorem callsFrom_reply_of_ne {j : Nat} (hj : j ≠ i) : callsFrom j (b.reply i c) = [] := by
  apply callsFrom_eq_nil
  intro m hm
  obtain ⟨_, _, rfl⟩ := Option.map_eq_some_iff.1 (Option.mem_toList.1 hm)
  simpa using hj.symm

namespace Linked

variable {b' : Board} {past heard sent ms : List Message} {x : Message}

theorem congr (h : Linked b heard sent) (hb : b'.monitors = b.monitors) : Linked b' heard sent := by
  obtain ⟨hrooted, hreceivers, hsenders, hshares, hrecordings⟩ := h
  unfold Rooted at hrooted
  rw [← hb] at hrooted hreceivers hsenders hshares hrecordings
  exact ⟨hrooted, hreceivers, hsenders, hshares, hrecordings⟩

theorem callsTo_length (h : Linked b heard sent) : callsTo b.monitors.length heard = [] := by
  apply callsTo_eq_nil
  intro m hm
  exact Nat.ne_of_lt (h.receivers m hm)

theorem callsFrom_length (h : Linked b heard sent) : callsFrom b.monitors.length sent = [] := by
  apply callsFrom_eq_nil
  intro m hm hsender
  obtain ⟨s, hs⟩ := h.senders m hm _ hsender
  rw [List.getElem?_eq_none (Nat.le_refl _)] at hs
  cases hs

theorem empty : Linked {} [] [] where
  rooted := by simp [Rooted]
  receivers := by simp
  senders := by simp
  shares := by simp
  recordings := by simp

theorem hear (h : Linked b past (past ++ [x])) (hx : x.receiver < b.monitors.length)
    : Linked (b.hear x.receiver x.call) (past ++ [x])
        (past ++ [x] ++ b.reply x.receiver x.call) where
  rooted := by
    intro j parent t ht
    obtain ⟨s, hs, _⟩ := getElem?_hear_share_iff.1 ht
    exact h.rooted j parent s hs
  receivers := by
    intro m hm
    rw [length_hear]
    rcases List.mem_append.1 hm with hm | hm
    . exact h.receivers m hm
    . rw [List.mem_singleton.1 hm]
      exact hx
  senders := by
    intro m hm j hj
    have hbefore : ∃ s, b.monitors[j]? = some (.share m.receiver s) := by
      rcases List.mem_append.1 hm with hm | hm
      . exact h.senders m hm j hj
      . obtain ⟨⟨parent, c'⟩, hp, rfl⟩ := Option.map_eq_some_iff.1 (Option.mem_toList.1 hm)
        obtain ⟨s, hs, _⟩ := exists_of_passed? hp
        cases hj
        exact ⟨s, hs⟩
    obtain ⟨s, hs⟩ := hbefore
    exact ⟨_, getElem?_hear_share_iff.2 ⟨s, hs, rfl⟩⟩
  shares := by
    intro j parent t ht
    obtain ⟨s, hs, rfl⟩ := getElem?_hear_share_iff.1 ht
    obtain ⟨hstate, hsent⟩ := h.shares j parent s hs
    by_cases hj : j = x.receiver
    . subst hj
      rw [if_pos rfl, s.hear_allotment, callsTo_append, callsTo_singleton, if_pos rfl, List.foldl_append,
        ← hstate, callsFrom_append, hsent, callsFrom_reply_self hs, Share.passes_append, ← hstate]
      refine ⟨rfl, ?_⟩
      rw [Share.passes, Share.passes, List.append_nil]
    . rw [if_neg hj, callsTo_append, callsTo_singleton, if_neg (Ne.symm hj), List.append_nil,
        callsFrom_append, callsFrom_reply_of_ne hj, List.append_nil]
      exact ⟨hstate, hsent⟩
  recordings := by
    intro j token r hr
    obtain ⟨r', hr', rfl⟩ := exists_of_getElem?_hear_recording hr
    rw [callsTo_append, callsTo_singleton]
    by_cases hj : j = x.receiver
    . rw [if_pos hj, if_pos hj.symm, List.foldl_append, ← h.recordings j token r' hr']
      rfl
    . rw [if_neg hj, if_neg (Ne.symm hj), List.append_nil]
      exact h.recordings j token r' hr'

theorem hearAll {sender : Option Nat} (h : Linked b past (past ++ [⟨sender, i, c⟩]))
    (hi : i < b.monitors.length)
    : Linked (b.hearAll (b.messages sender i c)) (past ++ b.messages sender i c)
        (past ++ b.messages sender i c) := by
  induction i using Nat.strongRecOn generalizing b past sender c with
  | _ i ih =>
    have hnext := h.hear hi
    unfold reply at hnext
    rw [messages]
    cases hp : b.passed? i c with
    | none =>
      rw [hp, Option.map_none, Option.toList_none, List.append_nil] at hnext
      exact hnext
    | some p =>
      obtain ⟨parent, c'⟩ := p
      rw [hp, Option.map_some, Option.toList_some] at hnext
      obtain ⟨s, hs, _⟩ := exists_of_passed? hp
      have hparent : parent < i := h.rooted i parent s hs
      have hlast := ih parent hparent hnext (by rw [length_hear]; exact Nat.lt_trans hparent hi)
      dsimp only
      rw [if_pos hparent]
      rw [List.append_assoc] at hlast
      exact hlast

theorem tell (h : Linked b ms ms) (hi : i < b.monitors.length) (c : Call)
    : Linked (b.tell i c) (ms ++ b.messages none i c) (ms ++ b.messages none i c) := by
  have houtside : Linked b ms (ms ++ [⟨none, i, c⟩]) := by
    refine ⟨h.rooted, h.receivers, ?_, ?_, h.recordings⟩
    . intro m hm j hj
      rcases List.mem_append.1 hm with hm | hm
      . exact h.senders m hm j hj
      . rw [List.mem_singleton.1 hm] at hj
        cases hj
    . intro j parent s hs
      rw [callsFrom_append, callsFrom_singleton, if_neg nofun, List.append_nil]
      exact h.shares j parent s hs
  exact (houtside.hearAll hi).congr (monitors_tell h.rooted none i c)

theorem add (h : Linked b ms ms) (hm : b.Fresh m) : Linked (b.add m) ms ms where
  rooted := by
    intro j parent s hs
    rcases getElem?_add_iff.1 hs with hs | ⟨rfl, rfl⟩
    . exact h.rooted j parent s hs
    . cases hm with
      | share hp units => exact hp
  receivers := by
    intro x hx
    unfold Board.add
    rw [List.length_append]
    exact Nat.lt_succ_of_lt (h.receivers x hx)
  senders := by
    intro x hx j hj
    obtain ⟨s, hs⟩ := h.senders x hx j hj
    exact ⟨s, getElem?_add_iff.2 (.inl hs)⟩
  shares := by
    intro j parent s hs
    rcases getElem?_add_iff.1 hs with hs | ⟨rfl, rfl⟩
    . exact h.shares j parent s hs
    . rw [h.callsTo_length, h.callsFrom_length]
      cases hm with
      | share hp units => exact ⟨rfl, rfl⟩
  recordings := by
    intro j token r hr
    rcases getElem?_add_iff.1 hr with hr | ⟨rfl, rfl⟩
    . exact h.recordings j token r hr
    . rw [h.callsTo_length]
      cases hm with
      | recording token => rfl

end Linked

namespace History

variable {b' b'' : Board} {ms ns past : List Message}

theorem append (h : History b ms b') (h' : History b' ns b'') : History b (ms ++ ns) b'' := by
  induction h with
  | nil => exact h'
  | add hm _ ih => exact .add hm (ih h')
  | tell hi c _ ih =>
    rw [List.append_assoc]
    exact .tell hi c (ih h')

theorem linked (h : History b ms b') (hb : Linked b past past)
    : Linked b' (past ++ ms) (past ++ ms) := by
  induction h generalizing past with
  | nil =>
    rw [List.append_nil]
    exact hb
  | add hm _ ih => exact ih (hb.add hm)
  | tell hi c _ ih =>
    rw [← List.append_assoc]
    exact ih (hb.tell hi c)

theorem exists_share {parent : Nat} {s : Share} (h : History b ms b') (hb : Linked b past past)
    (hs : b.monitors[i]? = some (.share parent s))
    : ∃ t, b'.monitors[i]? = some (.share parent t) ∧ t.allotment = s.allotment := by
  induction h generalizing past s with
  | nil => exact ⟨s, hs, rfl⟩
  | add hm _ ih => exact ih (hb.add hm) (getElem?_add_iff.2 (.inl hs))
  | @tell b _ j _ hj c _ ih =>
    obtain ⟨t, ht, hallotment⟩ := exists_share_hearAll hs (b.messages none j c)
    rw [← monitors_tell hb.rooted] at ht
    obtain ⟨u, hu, hallotment'⟩ := ih (hb.tell hj c) ht
    exact ⟨u, hu, hallotment'.trans hallotment⟩

end History

end Board
end Progress
end SharedWorkspace
