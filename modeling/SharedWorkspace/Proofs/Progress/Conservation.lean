import Mathlib.Algebra.BigOperators.Group.Finset.Piecewise
import Mathlib.Algebra.Order.BigOperators.Group.Finset
import SharedWorkspace.Proofs.Progress.Board

/-!
Nested progress is conserved. Whatever the tree of shares over a monitor, and in whatever order they are told
whatever, no share passes on more than its allotment, nothing before there is a task with something to do,
and the allotment exactly once it is done (`history_conserves`). What a recording monitor has at the root is
what it was told directly and what its own shares have passed on.
-/

namespace SharedWorkspace

open Progress

namespace Progress
namespace Call

def units : Call → Nat
  | worked n => n
  | _ => 0

def total : List Call → Nat
  | [] => 0
  | c :: cs => c.units + total cs

def Wakes : Call → Prop
  | beginTask _ total => total ≠ 0
  | done => True
  | _ => False

@[simp]
theorem total_nil : total [] = 0 := rfl

@[simp]
theorem total_cons (c : Call) (cs : List Call) : total (c :: cs) = c.units + total cs := rfl

@[simp]
theorem total_append (cs ds : List Call) : total (cs ++ ds) = total cs + total ds := by
  induction cs with
  | nil => exact (Nat.zero_add _).symm
  | cons c cs ih => rw [List.cons_append, total_cons, ih, total_cons, Nat.add_assoc]

theorem total_report? (n : Nat) : total (report? n).toList = n := by
  unfold report?
  split
  . next h => exact h.symm
  . rfl

end Call
end Progress

namespace Share

variable {s : Share} {c : Call} {cs : List Call}

theorem hear_reported (s : Share) (c : Call)
    : (s.hear c).reported = s.reported + Call.total (s.passOn? c).toList := by
  cases c with
  | worked n => exact (s.work_reported n).trans (by rw [← Call.total_report? (s.work n).1]; rfl)
  | done => exact s.finish_reported_eq_add.trans (by rw [← Call.total_report? s.finish.1]; rfl)
  | _ => rfl

theorem foldl_hear_reported (s : Share) (cs : List Call)
    : (cs.foldl hear s).reported = s.reported + Call.total (s.passes cs) := by
  induction cs generalizing s with
  | nil => rfl
  | cons c cs ih => rw [List.foldl_cons, ih, hear_reported, passes, Call.total_append, Nat.add_assoc]

theorem Steady.hear (h : s.Steady) (c : Call) : (s.hear c).Steady := by
  cases c with
  | beginTask _ total => exact h.beginTask total
  | worked n => exact h.work n
  | done => exact h.finish
  | _ => exact h

theorem Steady.after (h : s.Steady) (cs : List Call) : (cs.foldl Share.hear s).Steady := by
  induction cs generalizing s with
  | nil => exact h
  | cons c cs ih => exact ih (h.hear c)

theorem foldl_hear_allotment (s : Share) (cs : List Call)
    : (cs.foldl hear s).allotment = s.allotment := by
  induction cs generalizing s with
  | nil => rfl
  | cons c cs ih => exact (ih _).trans (s.hear_allotment c)

theorem finished_hear (h : s.finished = true) (c : Call) : (s.hear c).finished = true := by
  cases c with
  | worked n =>
    unfold hear work
    dsimp only
    rw [if_pos h]
    exact h
  | done =>
    unfold hear finish
    dsimp only
    rw [if_pos h]
    exact h
  | _ => exact h

theorem finished_hear_done (s : Share) : (s.hear .done).finished = true := by
  unfold hear finish
  dsimp only
  split
  . assumption
  . rfl

theorem finished_foldl_hear (h : s.finished = true ∨ .done ∈ cs)
    : (cs.foldl hear s).finished = true := by
  induction cs generalizing s with
  | nil => simpa using h
  | cons c cs ih =>
    apply ih
    rcases h with h | h
    . exact .inl (finished_hear h c)
    . rcases List.mem_cons.1 h with rfl | h
      . exact .inl s.finished_hear_done
      . exact .inr h

structure Idle (s : Share) : Prop where
  total : s.total = 0
  reported : s.reported = 0
  finished : s.finished = false

theorem Idle.hear (h : s.Idle) (hc : ¬ c.Wakes) : (s.hear c).Idle := by
  obtain ⟨htotal, hreported, hfinished⟩ := h
  cases c with
  | beginTask _ total => exact ⟨Decidable.not_not.1 hc, hreported, hfinished⟩
  | worked n =>
    unfold Share.hear work
    dsimp only
    rw [if_neg (by simp [hfinished])]
    refine ⟨htotal, ?_, hfinished⟩
    unfold settle target
    simp [htotal, hreported, hfinished]
  | done => exact absurd trivial hc
  | _ => exact ⟨htotal, hreported, hfinished⟩

theorem Idle.after (h : s.Idle) (hcs : ∀ c ∈ cs, ¬ c.Wakes) : (cs.foldl Share.hear s).Idle := by
  induction cs generalizing s with
  | nil => exact h
  | cons c cs ih =>
    obtain ⟨hc, hcs⟩ := List.forall_mem_cons.1 hcs
    exact ih (h.hear hc) hcs

section Total

variable (n : Nat)

theorem total_passes (cs : List Call)
    : Call.total (passes { allotment := n } cs) = (cs.foldl hear { allotment := n }).reported := by
  rw [foldl_hear_reported, Nat.zero_add]

theorem total_passes_le (cs : List Call) : Call.total (passes { allotment := n } cs) ≤ n := by
  rw [total_passes]
  have h := ((steady_new n).after cs).reported_le_allotment
  rwa [foldl_hear_allotment] at h

theorem total_passes_of_done (h : .done ∈ cs) : Call.total (passes { allotment := n } cs) = n := by
  rw [total_passes, ((steady_new n).after cs).paid (finished_foldl_hear (.inr h)),
    foldl_hear_allotment]

theorem total_passes_of_idle (h : ∀ c ∈ cs, ¬ c.Wakes)
    : Call.total (passes { allotment := n } cs) = 0 := by
  rw [total_passes]
  have hnew : Idle { allotment := n } := ⟨rfl, rfl, rfl⟩
  exact (hnew.after h).reported

end Total

end Share

namespace Progress

theorem Record.worked_hear (r : Record) (c : Call) : (r.hear c).worked = r.worked + c.units := by
  cases c <;> rfl

theorem Record.worked_foldl_hear (r : Record) (cs : List Call)
    : (cs.foldl hear r).worked = r.worked + Call.total cs := by
  induction cs generalizing r with
  | nil => rfl
  | cons c cs ih => rw [List.foldl_cons, ih, worked_hear, Call.total_cons, Nat.add_assoc]

namespace Board

variable {b b' : Board} {i root : Nat} {ms before after : List Message}

def passed (i : Nat) (ms : List Message) : Nat :=
  Call.total (callsFrom i ms)

def direct (i : Nat) (ms : List Message) : Nat :=
  Call.total (callsTo i (ms.filter (·.sender = none)))

def parent? (b : Board) (i : Nat) : Option Nat :=
  match b.monitors[i]? with
  | some (.share parent _) => some parent
  | _ => none

def allotment (b : Board) (i : Nat) : Nat :=
  match b.monitors[i]? with
  | some (.share _ s) => s.allotment
  | _ => 0

def sharesOf (b : Board) (parent : Nat) : Finset Nat :=
  (Finset.range b.monitors.length).filter fun i => b.parent? i = some parent

theorem mem_sharesOf_iff {parent : Nat}
    : i ∈ b.sharesOf parent ↔ ∃ s, b.monitors[i]? = some (.share parent s) := by
  unfold sharesOf parent?
  rw [Finset.mem_filter, Finset.mem_range]
  constructor
  . rintro ⟨_, h⟩
    split at h
    . next s hs =>
      cases h
      exact ⟨s, hs⟩
    . cases h
  . rintro ⟨s, hs⟩
    rw [hs]
    exact ⟨(List.getElem?_eq_some_iff.1 hs).1, rfl⟩

theorem mem_sharesOf_iff_eq {parent : Nat} (h : i ∈ b.sharesOf parent) (root : Nat)
    : i ∈ b.sharesOf root ↔ parent = root := by
  constructor
  . intro h'
    obtain ⟨s, hs⟩ := mem_sharesOf_iff.1 h
    obtain ⟨t, ht⟩ := mem_sharesOf_iff.1 h'
    cases hs.symm.trans ht
    rfl
  . rintro rfl
    exact h

theorem total_callsTo_cons (i : Nat) (m : Message) (ms : List Message)
    : Call.total (callsTo i (m :: ms))
        =
      (if m.receiver = i then m.call.units else 0) + Call.total (callsTo i ms) := by
  rw [← List.singleton_append, callsTo_append, Call.total_append, callsTo_singleton]
  split <;> rfl

theorem passed_cons (i : Nat) (m : Message) (ms : List Message)
    : passed i (m :: ms) = (if m.sender = some i then m.call.units else 0) + passed i ms := by
  unfold passed
  rw [← List.singleton_append, callsFrom_append, Call.total_append, callsFrom_singleton]
  split <;> rfl

theorem direct_cons (i : Nat) (m : Message) (ms : List Message)
    : direct i (m :: ms)
        =
      (if m.sender = none ∧ m.receiver = i then m.call.units else 0) + direct i ms := by
  unfold direct
  by_cases hm : m.sender = none
  . rw [List.filter_cons_of_pos (by simpa using hm), total_callsTo_cons]
    simp [hm]
  . rw [List.filter_cons_of_neg (by simpa using hm)]
    simp [hm]

theorem total_callsTo_eq (hms : ∀ m ∈ ms, ∀ i, m.sender = some i → i ∈ b.sharesOf m.receiver)
    (root : Nat)
    : Call.total (callsTo root ms) = direct root ms + ∑ i ∈ b.sharesOf root, passed i ms := by
  induction ms with
  | nil => simp [callsTo, direct, passed, callsFrom]
  | cons m ms ih =>
    obtain ⟨hm, hms⟩ := List.forall_mem_cons.1 hms
    simp only [total_callsTo_cons, direct_cons, passed_cons, Finset.sum_add_distrib, ih hms]
    cases hsender : m.sender with
    | none => simp [Nat.add_assoc]
    | some j =>
      have hj := mem_sharesOf_iff_eq (hm j hsender) root
      simp [hj]
      omega

/--
What the share at `i`, of `units` of the monitor at `parent`, makes of the messages `before`, which have led
to the board `b`, and of those `after` them, which lead to `b'`.
-/
structure Conserves (b b' : Board) (i parent units : Nat) (before after : List Message) : Prop where
  alone : b.monitors[i]?
    = some (.share parent ((callsTo i before).foldl Share.hear { allotment := units }))
  charged : ∀ s, b.monitors[i]? = some (.share parent s) → s.reported = passed i before
  stays : ∃ s, b'.monitors[i]? = some (.share parent s) ∧ s.allotment = units
  upward : ∀ m ∈ before ++ after, m.sender = some i → m.receiver = parent
  grows : passed i before ≤ passed i (before ++ after)
  bounded : passed i (before ++ after) ≤ units
  idle : (∀ c ∈ callsTo i before, ¬ c.Wakes) → passed i before = 0
  paid : .done ∈ callsTo i before → passed i before = units ∧ passed i (before ++ after) = units
  begins : ∀ name total,
    b.messages none i (.beginTask name total) = [⟨none, i, .beginTask name total⟩] ∧
      ∀ j, j ≠ i → (b.beginTask i name total).monitors[j]? = b.monitors[j]?

structure Balances (b : Board) (root recorded : Nat) (ms : List Message) : Prop where
  balanced : recorded = direct root ms + ∑ i ∈ b.sharesOf root, passed i ms
  bounded : recorded ≤ direct root ms + ∑ i ∈ b.sharesOf root, b.allotment i
  settled : (∀ i ∈ b.sharesOf root, .done ∈ callsTo i ms) →
    recorded = direct root ms + ∑ i ∈ b.sharesOf root, b.allotment i

theorem passed_append (i : Nat) (ms ns : List Message)
    : passed i (ms ++ ns) = passed i ms + passed i ns := by
  unfold passed
  rw [callsFrom_append, Call.total_append]

theorem Linked.passed_eq {heard sent : List Message} {parent : Nat} {s : Share}
    (h : Linked b heard sent) (hs : b.monitors[i]? = some (.share parent s))
    : passed i sent = Call.total (Share.passes { allotment := s.allotment } (callsTo i heard)) := by
  unfold passed
  rw [(h.shares i parent s hs).2]

theorem Linked.conserves (h : Linked b before before) (h' : History b after b') {parent : Nat} {s : Share}
    (hs : b.monitors[i]? = some (.share parent s)) : Conserves b b' i parent s.allotment before after := by
  have hlater : Linked b' (before ++ after) (before ++ after) := h'.linked h
  obtain ⟨t, ht, hallotment⟩ := h'.exists_share h hs
  have hpassed := hlater.passed_eq ht
  rw [hallotment] at hpassed
  refine ⟨?_, ?_, ⟨t, ht, hallotment⟩, ?_, ?_, ?_, ?_, ?_, ?_⟩
  . rw [← (h.shares i parent s hs).1]
    exact hs
  . intro u hu
    cases hs.symm.trans hu
    rw [h.passed_eq hs]
    conv_lhs => rw [(h.shares i parent s hs).1]
    rw [Share.foldl_hear_reported, Nat.zero_add]
  . intro m hm hsender
    obtain ⟨u, hu⟩ := hlater.senders m hm i hsender
    cases ht.symm.trans hu
    rfl
  . rw [passed_append]
    exact Nat.le_add_right _ _
  . rw [hpassed]
    exact Share.total_passes_le _ _
  . intro hidle
    rw [h.passed_eq hs]
    exact Share.total_passes_of_idle _ hidle
  . intro hdone
    rw [h.passed_eq hs, hpassed]
    refine ⟨Share.total_passes_of_done _ hdone, Share.total_passes_of_done _ ?_⟩
    rw [callsTo_append]
    exact List.mem_append_left _ hdone
  . intro name total
    have hkept : b.passed? i (.beginTask name total) = none := by
      unfold passed?
      rw [hs]
      rfl
    refine ⟨by rw [messages, hkept], ?_⟩
    intro j hj
    unfold beginTask
    rw [hs]
    exact List.getElem?_set_ne (Ne.symm hj)

theorem allotment_eq {parent : Nat} {s : Share} (hs : b.monitors[i]? = some (.share parent s))
    : b.allotment i = s.allotment := by
  unfold allotment
  rw [hs]

theorem Linked.balances (h : Linked b ms ms) {r : Record} (hr : b.record? root = some r)
    : Balances b root r.worked ms := by
  have hbalanced : r.worked = direct root ms + ∑ i ∈ b.sharesOf root, passed i ms := by
    unfold record? at hr
    split at hr
    . next token r' hm =>
      cases hr
      rw [h.recordings root token r hm, Record.worked_foldl_hear, Nat.zero_add]
      apply total_callsTo_eq
      intro m hm i hsender
      exact mem_sharesOf_iff.2 (h.senders m hm i hsender)
    . cases hr
  refine ⟨hbalanced, ?_, ?_⟩
  . rw [hbalanced]
    apply Nat.add_le_add_left
    apply Finset.sum_le_sum
    intro i hi
    obtain ⟨s, hs⟩ := mem_sharesOf_iff.1 hi
    rw [h.passed_eq hs, allotment_eq hs]
    exact Share.total_passes_le _ _
  . intro hdone
    rw [hbalanced]
    congr 1
    apply Finset.sum_congr rfl
    intro i hi
    obtain ⟨s, hs⟩ := mem_sharesOf_iff.1 hi
    rw [h.passed_eq hs, allotment_eq hs]
    exact Share.total_passes_of_done _ (hdone i hi)

/--
After any history of a board on which there was nothing at first, each share has conserved what it was
allotted, and goes on to do so, and each recording monitor has recorded what it should.
-/
theorem history_conserves (h : History {} before b) (h' : History b after b')
    : (∀ i parent s, b.monitors[i]? = some (.share parent s) →
        Conserves b b' i parent s.allotment before after) ∧
      ∀ root r, b.record? root = some r → Balances b root r.worked before := by
  have hlinked : Linked b before before := h.linked .empty
  refine ⟨?_, ?_⟩
  . intro i parent s hs
    exact hlinked.conserves h' hs
  . intro root r hr
    exact hlinked.balances hr

/--
A share is done before a share of its own is, which has some units left to charge.
-/
theorem history_conserves_nested
    : let root := Board.add {} (.recording 0 {})
      let start := (root.add (.share 0 { allotment := 100 })).add (.share 1 { allotment := 50 })
      let outer := start.tell 1 (.beginTask "outer" 50)
      let inner := outer.tell 2 (.beginTask "inner" 3)
      let middle := inner.tell 2 (.worked 2)
      let b := middle.tell 1 .done
      let b' := b.tell 2 .done
      let before : List Message :=
        [⟨none, 1, .beginTask "outer" 50⟩, ⟨none, 2, .beginTask "inner" 3⟩, ⟨none, 2, .worked 2⟩,
          ⟨some 2, 1, .worked 33⟩, ⟨some 1, 0, .worked 66⟩, ⟨none, 1, .done⟩, ⟨some 1, 0, .worked 34⟩]
      let after : List Message := [⟨none, 2, .done⟩, ⟨some 2, 1, .worked 17⟩]
      History {} before b ∧ History b after b' ∧
        (∀ i parent s, b.monitors[i]? = some (.share parent s) →
          Conserves b b' i parent s.allotment before after) ∧
        ∀ root r, b.record? root = some r → Balances b root r.worked before := by
  intro root start outer inner middle b b' before after
  have hb : History {} (start.messages none 1 (.beginTask "outer" 50) ++
      (outer.messages none 2 (.beginTask "inner" 3) ++
        (inner.messages none 2 (.worked 2) ++ (middle.messages none 1 .done ++ [])))) b := by
    have h₀ : 0 < root.monitors.length := by decide
    have h₁ : 1 < (root.add (.share 0 { allotment := 100 })).monitors.length := by decide
    apply History.add (.recording 0)
    apply History.add (.share h₀ 100)
    apply History.add (.share h₁ 50)
    apply History.tell (by decide)
    apply History.tell (by decide +kernel)
    apply History.tell (by decide +kernel)
    apply History.tell (by decide +kernel)
    exact .nil b
  have hb' : History b (b.messages none 2 .done ++ []) b' := .tell (by decide +kernel) .done (.nil b')
  have hbefore : start.messages none 1 (.beginTask "outer" 50) ++
      (outer.messages none 2 (.beginTask "inner" 3) ++
        (inner.messages none 2 (.worked 2) ++ (middle.messages none 1 .done ++ []))) = before := by
    decide +kernel
  have hafter : b.messages none 2 .done ++ [] = after := by
    decide +kernel
  rw [hbefore] at hb
  rw [hafter] at hb'
  exact ⟨hb, hb', history_conserves hb hb'⟩

end Board
end Progress
end SharedWorkspace
