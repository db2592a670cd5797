import SharedWorkspace.Progress.Board
import SharedWorkspace.Proofs.Progress.Accounting

/-!
What a monitor is told is passed on from share to share. `Board.messages` lists all that is told on the way,
and to tell a board something is to tell its monitors these messages, each of which takes notice of its own
ones only (`monitors_tell`).
-/

namespace SharedWorkspace

open Progress

namespace Progress

def Call.report? (units : Nat) : Option Call :=
  if units = 0 then none else some (.worked units)

end Progress

namespace Share

def passOn? (s : Share) : Call → Option Call
  | .beginTask _ _ => none
  | .worked units => Call.report? (s.work units).1
  | .done => Call.report? s.finish.1
  | c => some c

def passes (s : Share) : List Call → List Call
  | [] => []
  | c :: cs => (s.passOn? c).toList ++ (s.hear c).passes cs

theorem hear_allotment (s : Share) (c : Call) : (s.hear c).allotment = s.allotment := by
  cases c with
  | worked units => exact s.work_allotment units
  | done => exact s.finish_allotment
  | _ => rfl

theorem passes_append (s : Share) (cs ds : List Call)
    : s.passes (cs ++ ds) = s.passes cs ++ (cs.foldl hear s).passes ds := by
  induction cs generalizing s with
  | nil => rfl
  | cons c cs ih => rw [List.cons_append, passes, ih, passes, List.append_assoc, List.foldl_cons]

end Share

namespace Progress

def Record.hear (r : Record) : Call → Record
  | .beginTask name total => r.beginTask name total
  | .setTaskName name => r.setTaskName name
  | .worked units => r.addWorked units
  | .done => r.finish
  | .isCancelled | .cancel => r

namespace Monitor

def hear : Monitor → Call → Monitor
  | .recording token r, c => .recording token (r.hear c)
  | .quiet token, _ => .quiet token
  | .share parent s, c => .share parent (s.hear c)

def passOn? : Monitor → Call → Option (Nat × Call)
  | .share parent s, c => (s.passOn? c).map (parent, ·)
  | _, _ => none

theorem hear_eq_share_iff {m : Monitor} {c : Call} {parent : Nat} {t : Share}
    : m.hear c = .share parent t ↔ ∃ s, m = .share parent s ∧ t = s.hear c := by
  constructor
  . intro h
    cases m <;> cases h
    exact ⟨_, rfl, rfl⟩
  . rintro ⟨s, rfl, rfl⟩
    rfl

theorem hear_eq_recording_iff {m : Monitor} {c : Call} {token : Nat} {r : Record}
    : m.hear c = .recording token r ↔ ∃ r', m = .recording token r' ∧ r = r'.hear c := by
  constructor
  . intro h
    cases m <;> cases h
    exact ⟨_, rfl, rfl⟩
  . rintro ⟨s, rfl, rfl⟩
    rfl

end Monitor

structure Message where
  sender : Option Nat
  receiver : Nat
  call : Call
  deriving DecidableEq

namespace Board

variable {b : Board} {i : Nat} {c : Call} {m : Monitor}

def tell (b : Board) (i : Nat) : Call → Board
  | .beginTask name total => b.beginTask i name total
  | .setTaskName name => b.setTaskName i name
  | .worked units => b.worked i units
  | .done => b.done i
  | .isCancelled => b
  | .cancel => b.cancel i

def hear (b : Board) (i : Nat) (c : Call) : Board :=
  match b.monitors[i]? with
  | some m => b.put i (m.hear c)
  | none => b

def hearAll (b : Board) (ms : List Message) : Board :=
  ms.foldl (fun b m => b.hear m.receiver m.call) b

def passed? (b : Board) (i : Nat) (c : Call) : Option (Nat × Call) :=
  b.monitors[i]?.bind (·.passOn? c)

def messages (b : Board) (sender : Option Nat) (i : Nat) (c : Call) : List Message :=
  ⟨sender, i, c⟩ ::
    match b.passed? i c with
    | some (parent, c') => if parent < i then messages (b.hear i c) (some i) parent c' else []
    | none => []
termination_by i

def Rooted (b : Board) : Prop :=
  ∀ i parent s, b.monitors[i]? = some (Monitor.share parent s) → parent < i

theorem hear_of_some (hm : b.monitors[i]? = some m) : b.hear i c = b.put i (m.hear c) := by
  unfold hear
  rw [hm]

theorem hear_of_none (hm : b.monitors[i]? = none) : b.hear i c = b := by
  unfold hear
  rw [hm]

theorem put_self (hm : b.monitors[i]? = some m) : b.put i m = b := by
  obtain ⟨_, rfl⟩ := List.getElem?_eq_some_iff.1 hm
  unfold put
  rw [List.set_getElem_self]

theorem getElem?_hear (b : Board) (i : Nat) (c : Call) (j : Nat)
    : (b.hear i c).monitors[j]? = if j = i then b.monitors[j]?.map (·.hear c) else b.monitors[j]? := by
  unfold hear
  split
  . next m hm =>
    obtain ⟨hi, _⟩ := List.getElem?_eq_some_iff.1 hm
    unfold put
    rw [List.getElem?_set]
    by_cases hj : j = i
    . subst hj
      rw [if_pos rfl, if_pos hi, if_pos rfl, hm]
      rfl
    . rw [if_neg (Ne.symm hj), if_neg hj]
  . next hm =>
    split
    . next hj => rw [hj, hm]; rfl
    . rfl

theorem hearAll_messages (b : Board) (sender : Option Nat) (i : Nat) (c : Call)
    : b.hearAll (b.messages sender i c)
        =
      match b.monitors[i]? with
      | some (.recording token r) => b.put i (.recording token (r.hear c))
      | some (.share parent s) =>
        let b := b.put i (.share parent (s.hear c))
        match s.passOn? c with
        | some c' => if parent < i then b.hearAll (b.messages (some i) parent c') else b
        | none => b
      | _ => b := by
  rw [messages]
  unfold passed?
  cases hm : b.monitors[i]? with
  | none => exact hear_of_none hm
  | some m =>
    have hhear := hear_of_some (c := c) hm
    cases m with
    | recording token r => exact hhear
    | quiet token => exact hhear.trans (put_self hm)
    | share parent s =>
      rw [Option.bind_some, hhear]
      unfold Monitor.passOn?
      dsimp only
      cases s.passOn? c with
      | none => exact hhear
      | some c' =>
        rw [Option.map_some]
        dsimp only
        split
        . rw [hearAll, List.foldl_cons, hhear]
          rfl
        . exact hhear

theorem worked_eq (b : Board) (sender : Option Nat) (i units : Nat)
    : b.worked i units = b.hearAll (b.messages sender i (.worked units)) := by
  induction i using Nat.strongRecOn generalizing b sender units with
  | _ i ih =>
    rw [hearAll_messages]
    unfold worked
    cases hm : b.monitors[i]? with
    | none => rfl
    | some m =>
      cases m with
      | share parent s =>
        unfold Share.passOn? Call.report? Share.hear
        dsimp only
        split
        . rfl
        . dsimp only
          split
          . next hp => exact ih parent hp _ _ _
          . rfl
      | _ => rfl

theorem done_eq (hb : b.Rooted) (sender : Option Nat) (i : Nat)
    : b.done i = b.hearAll (b.messages sender i .done) := by
  rw [hearAll_messages]
  unfold done
  cases hm : b.monitors[i]? with
  | none => rfl
  | some m =>
    cases m with
    | share parent s =>
      unfold Share.passOn? Call.report? Share.hear
      dsimp only
      split
      . rfl
      . rw [worked_eq _ (some i)]
        exact (if_pos (hb i parent s hm)).symm
    | _ => rfl

theorem setTaskName_eq (b : Board) (sender : Option Nat) (i : Nat) (name : String)
    : b.setTaskName i name = b.hearAll (b.messages sender i (.setTaskName name)) := by
  induction i using Nat.strongRecOn generalizing sender with
  | _ i ih =>
    rw [hearAll_messages]
    unfold setTaskName
    cases hm : b.monitors[i]? with
    | none => rfl
    | some m =>
      cases m with
      | share parent s =>
        unfold Share.passOn? Share.hear
        dsimp only
        rw [put_self hm]
        split
        . next hp => exact ih parent hp _
        . rfl
      | _ => rfl

theorem beginTask_eq (b : Board) (sender : Option Nat) (i : Nat) (name : String) (total : Nat)
    : b.beginTask i name total = b.hearAll (b.messages sender i (.beginTask name total)) := by
  rw [hearAll_messages]
  unfold beginTask
  cases hm : b.monitors[i]? with
  | none => rfl
  | some m => cases m <;> rfl

theorem hearAll_messages_of_wish (hc : c = .isCancelled ∨ c = .cancel) (b : Board) (sender : Option Nat)
    (i : Nat) : b.hearAll (b.messages sender i c) = b := by
  induction i using Nat.strongRecOn generalizing sender with
  | _ i ih =>
    have hrecord : ∀ r : Record, r.hear c = r := by rcases hc with rfl | rfl <;> exact fun _ => rfl
    have hshare : ∀ s : Share, s.hear c = s ∧ s.passOn? c = some c := by
      rcases hc with rfl | rfl <;> exact fun _ => ⟨rfl, rfl⟩
    rw [hearAll_messages]
    cases hm : b.monitors[i]? with
    | none => rfl
    | some m =>
      cases m with
      | recording token r =>
        dsimp only
        rw [hrecord, put_self hm]
      | quiet token => rfl
      | share parent s =>
        dsimp only
        rw [(hshare s).1, (hshare s).2, put_self hm]
        dsimp only
        split
        . next hp => exact ih parent hp _
        . rfl

theorem monitors_cancel (b : Board) (i : Nat) : (b.cancel i).monitors = b.monitors := by
  unfold cancel
  split <;> rfl

theorem monitors_tell (hb : b.Rooted) (sender : Option Nat) (i : Nat) (c : Call)
    : (b.tell i c).monitors = (b.hearAll (b.messages sender i c)).monitors := by
  cases c with
  | beginTask name total => exact congrArg monitors (b.beginTask_eq sender i name total)
  | setTaskName name => exact congrArg monitors (b.setTaskName_eq sender i name)
  | worked units => exact congrArg monitors (b.worked_eq sender i units)
  | done => exact congrArg monitors (done_eq hb sender i)
  | isCancelled =>
    rw [hearAll_messages_of_wish (.inl rfl)]
    rfl
  | cancel =>
    rw [hearAll_messages_of_wish (.inr rfl)]
    exact monitors_cancel b i

end Board
end Progress
end SharedWorkspace
