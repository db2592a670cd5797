import Mathlib.Data.Set.Card
import SharedWorkspace.Proofs.Review.Delivery

/-!
What can be seen of a channel whose listeners come and go, also while they are being told of a change. A
notification reaches those who are there and have a subscription that lasts, each once, in the order in which
the first of these was made, whatever they ask of the channel meanwhile (`run_exact`).
-/

namespace SharedWorkspace
namespace Channel

variable {ι : Type}

inductive Call (ι : Type) where
  | subscribe (l : ι)
  | unsubscribe (l : ι)
  | count

inductive Event (ι : Type) where
  | subscribed (l : ι)
  | unsubscribed (l : ι) (was : Bool)
  | counted (n : Nat)
  | told (l : ι)
  | dropped (l : ι)
  deriving DecidableEq

/--
The event `i` is a subscription of `l`, and it has not been undone since.
-/
def Lasts (log : List (Event ι)) (l : ι) (i : Nat) : Prop :=
  log[i]? = some (.subscribed l) ∧ ∀ j was, i < j → log[j]? ≠ some (.unsubscribed l was)

def Due (log : List (Event ι)) (l : ι) : Prop :=
  .dropped l ∉ log ∧ ∃ i, Lasts log l i

def Earlier (log : List (Event ι)) (k l : ι) : Prop :=
  ∃ i, Lasts log k i ∧ ∀ j, Lasts log l j → i < j

structure Reaches (log : List (Event ι)) (ls : List ι) : Prop where
  mem : ∀ l, l ∈ ls ↔ Due log l
  nodup : ls.Nodup
  ordered : ls.Pairwise (Earlier log)

def Event.IsRight (before : List (Event ι)) : Event ι → Prop
  -- Nothing can be asked for a listener who has gone.
  | .unsubscribed l was => .dropped l ∉ before → (was = true ↔ ∃ i, Lasts before l i)
  | .counted n => n = {l | Due before l}.ncard
  | .subscribed _ | .told _ | .dropped _ => True

inductive Call.Answered : Call ι → Event ι → Prop where
  | subscribe (l : ι) : Answered (.subscribe l) (.subscribed l)
  | unsubscribe (l : ι) (was : Bool) : Answered (.unsubscribe l) (.unsubscribed l was)
  | count (n : Nat) : Answered .count (.counted n)

/--
Those in a list are told one after another, and each asks what it will before the next is told.
-/
inductive Delivers (reactions : ι → List (Call ι)) : List ι → List (Event ι) → Prop where
  | nil : Delivers reactions [] []
  | cons {l : ι} {ls : List ι} {answers rest : List (Event ι)}
      (h : (reactions l).Forall₂ Call.Answered answers) (hs : Delivers reactions ls rest)
      : Delivers reactions (l :: ls) (.told l :: answers ++ rest)

variable {log log' : List (Event ι)} {e : Event ι} {k l : ι} {ls : List ι} {i : Nat}

theorem lasts_concat
    : Lasts (log ++ [e]) l i ↔
        (Lasts log l i ∧ ∀ was, e ≠ .unsubscribed l was) ∨ (i = log.length ∧ e = .subscribed l) := by
  have hend : (log ++ [e])[log.length]? = some e := List.getElem?_concat_length
  unfold Lasts
  constructor
  . rintro ⟨hi, hlast⟩
    obtain ⟨hlen, -⟩ := List.getElem?_eq_some_iff.1 hi
    rw [List.length_append, List.length_singleton] at hlen
    rcases Nat.lt_succ_iff_lt_or_eq.1 hlen with hlt | rfl
    . rw [List.getElem?_append_left hlt] at hi
      refine .inl ⟨⟨hi, fun j was hj hu => ?_⟩, fun was he => ?_⟩
      . obtain ⟨hjlen, -⟩ := List.getElem?_eq_some_iff.1 hu
        exact hlast j was hj (by rw [List.getElem?_append_left hjlen, hu])
      . exact hlast log.length was hlt (by rw [hend, he])
    . rw [hend] at hi
      exact .inr ⟨rfl, Option.some.inj hi⟩
  . rintro (⟨⟨hi, hlast⟩, he⟩ | ⟨rfl, rfl⟩)
    . obtain ⟨hlen, -⟩ := List.getElem?_eq_some_iff.1 hi
      rw [List.getElem?_append_left hlen]
      refine ⟨hi, fun j was hj => ?_⟩
      rcases Nat.lt_trichotomy j log.length with hlt | rfl | hgt
      . rw [List.getElem?_append_left hlt]
        exact hlast j was hj
      . rw [hend]
        exact fun hu => he was (Option.some.inj hu)
      . rw [List.getElem?_eq_none (by simpa using hgt)]
        exact nofun
    . refine ⟨hend, fun j was hj => ?_⟩
      rw [List.getElem?_eq_none (by simpa using hj)]
      exact nofun

theorem Lasts.lt_length (h : Lasts log l i) : i < log.length :=
  (List.getElem?_eq_some_iff.1 h.1).1

def Event.Spares (e : Event ι) (l : ι) : Prop :=
  e ≠ .subscribed l ∧ ∀ was, e ≠ .unsubscribed l was

theorem lasts_concat_of_spares (h : e.Spares l) : Lasts (log ++ [e]) l i ↔ Lasts log l i := by
  rw [lasts_concat]
  exact ⟨fun hor => hor.elim (·.1) fun heq => absurd heq.2 h.1, fun hi => .inl ⟨hi, h.2⟩⟩

theorem lasts_subscribed : Lasts (log ++ [.subscribed l]) l i ↔ Lasts log l i ∨ i = log.length := by
  rw [lasts_concat]
  exact or_congr (and_iff_left nofun) (and_iff_left rfl)

theorem not_lasts_unsubscribed {was : Bool} : ¬ Lasts (log ++ [.unsubscribed l was]) l i := by
  rw [lasts_concat]
  rintro (⟨-, h⟩ | ⟨-, h⟩)
  . exact h was rfl
  . contradiction

theorem Earlier.congr (hk : ∀ i, Lasts log' k i ↔ Lasts log k i) (hl : ∀ i, Lasts log' l i ↔ Lasts log l i)
    (h : Earlier log k l) : Earlier log' k l := by
  obtain ⟨i, hi, hlt⟩ := h
  exact ⟨i, (hk i).2 hi, fun j hj => hlt j ((hl j).1 hj)⟩

theorem Earlier.subscribed {m : ι} (h : Earlier log k l)
    : Earlier (log ++ [.subscribed m]) k l := by
  obtain ⟨i, hi, hlt⟩ := h
  refine ⟨i, lasts_concat.2 (.inl ⟨hi, nofun⟩), fun j hj => ?_⟩
  rcases lasts_concat.1 hj with ⟨hj, -⟩ | ⟨rfl, -⟩
  . exact hlt j hj
  . exact hi.lt_length

namespace Reaches

theorem congr (h : Reaches log ls) (hd : ∀ l, .dropped l ∈ log' ↔ .dropped l ∈ log)
    (hl : ∀ l, .dropped l ∉ log → ∀ i, Lasts log' l i ↔ Lasts log l i) : Reaches log' ls where
  mem l := by
    rw [h.mem, Due, Due, hd]
    exact and_congr_right fun hlive => exists_congr fun i => (hl l hlive i).symm
  nodup := h.nodup
  ordered := by
    refine h.ordered.imp_of_mem fun ha hb => ?_
    exact .congr (hl _ ((h.mem _).1 ha).1) (hl _ ((h.mem _).1 hb).1)

theorem length_eq (h : Reaches log ls) : ls.length = {l | Due log l}.ncard := by
  classical
  have hset : {l | Due log l} = (ls.toFinset : Set ι) := by
    ext l
    rw [Set.mem_ofPred_eq, Finset.mem_coe, List.mem_toFinset, h.mem]
  rw [hset, Set.ncard_coe_finset, List.toFinset_card_of_nodup h.nodup]

variable [DecidableEq ι] {c : Channel ι}

theorem subscribe (h : Reaches log c.subscribers) (hl : .dropped l ∉ log)
    : Reaches (log ++ [.subscribed l]) (c.subscribe l).subscribers where
  mem k := by
    have hd : .dropped k ∉ log ++ [.subscribed l] ↔ .dropped k ∉ log := by simp
    rw [mem_subscribe, h.mem, Due, Due, hd]
    by_cases hk : k = l
    . subst hk
      refine iff_of_true (.inr rfl) ⟨hl, log.length, ?_⟩
      rw [lasts_subscribed]
      exact .inr rfl
    . have hs : Event.Spares (.subscribed l) k := ⟨by simpa using Ne.symm hk, nofun⟩
      simp only [hk, or_false, lasts_concat_of_spares hs]
  nodup := nodup_subscribe h.nodup l
  ordered := by
    have hold : c.subscribers.Pairwise (Earlier (log ++ [.subscribed l])) := h.ordered.imp .subscribed
    unfold Channel.subscribe
    split
    . exact hold
    . next hnew =>
      refine List.pairwise_append.2 ⟨hold, List.pairwise_singleton _ _, fun k hk m hm => ?_⟩
      rw [List.mem_singleton.1 hm]
      obtain ⟨-, i, hi⟩ := (h.mem k).1 hk
      refine ⟨i, lasts_concat.2 (.inl ⟨hi, nofun⟩), fun j hj => ?_⟩
      rcases lasts_subscribed.1 hj with hj | rfl
      . exact absurd ((h.mem l).2 ⟨hl, j, hj⟩) hnew
      . exact hi.lt_length

theorem leave (h : Reaches log c.subscribers) (hdue : ∀ k, Due log' k ↔ Due log k ∧ k ≠ l)
    (hl : ∀ k, k ≠ l → ∀ i, Lasts log' k i ↔ Lasts log k i)
    : Reaches log' (c.unsubscribe l).subscribers where
  mem k := by rw [mem_unsubscribe, h.mem, hdue]
  nodup := nodup_unsubscribe h.nodup l
  ordered := by
    refine (h.ordered.filter _).imp_of_mem fun ha hb => ?_
    exact .congr (hl _ (mem_unsubscribe.1 ha).2) (hl _ (mem_unsubscribe.1 hb).2)

theorem unsubscribe (h : Reaches log c.subscribers) (was : Bool)
    : Reaches (log ++ [.unsubscribed l was]) (c.unsubscribe l).subscribers := by
  have hl : ∀ k, k ≠ l → ∀ i, Lasts (log ++ [.unsubscribed l was]) k i ↔ Lasts log k i := by
    intro k hk i
    exact lasts_concat_of_spares ⟨nofun, fun was' => by simp [Ne.symm hk]⟩
  refine h.leave (fun k => ?_) hl
  have hd : .dropped k ∉ log ++ [.unsubscribed l was] ↔ .dropped k ∉ log := by simp
  rw [Due, Due, hd]
  by_cases hk : k = l
  . subst hk
    simp [not_lasts_unsubscribed]
  . simp only [hl k hk, ne_eq, hk, not_false_eq_true, and_true]

theorem drop (h : Reaches log c.subscribers)
    : Reaches (log ++ [.dropped l]) (c.unsubscribe l).subscribers := by
  have hl : ∀ k i, Lasts (log ++ [.dropped l]) k i ↔ Lasts log k i :=
    fun _ _ => lasts_concat_of_spares ⟨nofun, nofun⟩
  refine h.leave (fun k => ?_) fun k _ => hl k
  simp only [Due, hl, List.mem_append, List.mem_singleton, Event.dropped.injEq, not_or]
  exact and_right_comm

end Reaches

variable [DecidableEq ι] {c : Channel ι} {p : ι → Bool}

theorem prune_unsubscribe : (c.unsubscribe l).prune p = (c.prune p).unsubscribe l := by
  unfold prune unsubscribe
  simp only [List.filter_filter, Bool.and_comm]

theorem prune_subscribe (h : p l = true) : (c.subscribe l).prune p = (c.prune p).subscribe l := by
  have hmem : l ∈ c.subscribers.filter p ↔ l ∈ c.subscribers := by
    rw [List.mem_filter]
    exact and_iff_left h
  unfold prune subscribe
  rw [apply_ite subscribers]
  simp only [hmem, apply_ite (List.filter p), List.filter_append, List.filter_singleton, h, cond_true]
  split <;> rfl

theorem prune_subscribe_of_not (h : p l = false) : (c.subscribe l).prune p = c.prune p := by
  unfold prune subscribe
  split
  . rfl
  . simp only [List.filter_append, List.filter_singleton, h, cond_false, List.append_nil]

structure Audience (ι : Type) where
  channel : Channel ι := {}
  log : List (Event ι) := []

namespace Audience

def isAlive (a : Audience ι) (l : ι) : Bool :=
  .dropped l ∉ a.log

def note (a : Audience ι) (e : Event ι) : Audience ι :=
  { a with log := a.log ++ [e] }

def call (a : Audience ι) : Call ι → Audience ι
  | .subscribe l => { a with channel := a.channel.subscribe l }.note (.subscribed l)
  | .unsubscribe l =>
    { a with channel := a.channel.unsubscribe l }.note (.unsubscribed l (a.channel.isSubscribed l))
  | .count => a.note (.counted (a.channel.count a.isAlive))

def tell (reactions : ι → List (Call ι)) (a : Audience ι) (l : ι) : Audience ι :=
  (reactions l).foldl call (a.note (.told l))

end Audience

inductive Act (ι : Type) where
  | call (c : Call ι)
  | drop (l : ι)
  | notify (reactions : ι → List (Call ι))

namespace Audience

def act (a : Audience ι) : Act ι → Audience ι
  | .call c => a.call c
  | .drop l => a.note (.dropped l)
  | .notify reactions =>
    let put c := { a with channel := c }
    Id.run <| a.channel.notify a.isAlive put fun a l => pure (a.tell reactions l)

def run (acts : List (Act ι)) : Audience ι :=
  acts.foldl act {}

structure Exact (a : Audience ι) : Prop where
  told : ∀ reactions, ∃ ls during, Reaches a.log ls ∧ Delivers reactions ls during ∧
    (a.act (.notify reactions)).log = a.log ++ during
  right : ∀ before e after, a.log = before ++ e :: after → e.IsRight before

structure Sound (a : Audience ι) : Prop where
  reaches : Reaches a.log (a.channel.prune a.isAlive).subscribers
  right : ∀ before e after, a.log = before ++ e :: after → e.IsRight before

variable {a : Audience ι} {reactions : ι → List (Call ι)}

theorem isAlive_iff : a.isAlive l = true ↔ .dropped l ∉ a.log := by
  unfold isAlive
  rw [decide_eq_true_iff]

theorem isAlive_note (h : ∀ l, e ≠ .dropped l) : (a.note e).isAlive = a.isAlive := by
  funext l
  rw [Bool.eq_iff_iff, isAlive_iff, isAlive_iff]
  simp [note, Ne.symm (h l)]

theorem isAlive_dropped : (a.note (.dropped l)).isAlive = fun k => decide (k ≠ l) && a.isAlive k := by
  funext k
  rw [Bool.eq_iff_iff, Bool.and_eq_true, isAlive_iff, isAlive_iff, decide_eq_true_iff]
  simp [note, and_comm]

namespace Sound

theorem right_concat (h : a.Sound) (he : e.IsRight a.log) (before : List (Event ι)) (f : Event ι)
    (after : List (Event ι)) (heq : a.log ++ [e] = before ++ f :: after) : f.IsRight before := by
  rcases List.eq_nil_or_concat after with rfl | ⟨after', g, rfl⟩
  . obtain ⟨rfl, hf⟩ := List.append_inj' heq rfl
    rw [← List.head_eq_of_cons_eq hf]
    exact he
  . rw [List.concat_eq_append, ← List.cons_append, ← List.append_assoc] at heq
    exact h.right before f after' (List.append_inj' heq rfl).1

theorem note (h : a.Sound) (he : e.IsRight a.log) (hs : ∀ l, e.Spares l) (hd : ∀ l, e ≠ .dropped l)
    : (a.note e).Sound where
  reaches := by
    rw [isAlive_note hd]
    refine h.reaches.congr (fun l => ?_) fun l _ i => lasts_concat_of_spares (hs l)
    simp [Audience.note, Ne.symm (hd l)]
  right := h.right_concat he

theorem subscribe (h : a.Sound) (l : ι) : (a.call (.subscribe l)).Sound where
  reaches := by
    unfold Audience.call
    rw [isAlive_note nofun]
    show Reaches _ ((a.channel.subscribe l).prune a.isAlive).subscribers
    by_cases hl : a.isAlive l = true
    . rw [prune_subscribe hl]
      exact h.reaches.subscribe (isAlive_iff.1 hl)
    . rw [prune_subscribe_of_not (Bool.eq_false_iff.2 hl)]
      refine h.reaches.congr (fun k => by simp [Audience.note]) fun k hk i => ?_
      -- It is somebody else who is still there.
      have hkl : l ≠ k := fun heq => hl (isAlive_iff.2 (heq ▸ hk))
      exact lasts_concat_of_spares ⟨by simpa using hkl, nofun⟩
  right := h.right_concat (e := .subscribed l) trivial

theorem unsubscribe (h : a.Sound) (l : ι) : (a.call (.unsubscribe l)).Sound where
  reaches := by
    unfold Audience.call
    rw [isAlive_note nofun]
    show Reaches _ ((a.channel.unsubscribe l).prune a.isAlive).subscribers
    rw [prune_unsubscribe]
    exact h.reaches.unsubscribe _
  right := by
    refine h.right_concat (e := .unsubscribed l _) fun hl => ?_
    have hmem := h.reaches.mem l
    unfold prune Due at hmem
    rw [List.mem_filter, and_iff_left (isAlive_iff.2 hl), and_iff_right hl] at hmem
    unfold isSubscribed
    rw [decide_eq_true_iff, hmem]

theorem call (h : a.Sound) (c : Call ι) : (a.call c).Sound := by
  cases c with
  | subscribe l => exact h.subscribe l
  | unsubscribe l => exact h.unsubscribe l
  | count => exact h.note h.reaches.length_eq (fun _ => ⟨nofun, nofun⟩) nofun

theorem foldl_call (h : a.Sound) (cs : List (Call ι)) : (cs.foldl Audience.call a).Sound := by
  induction cs generalizing a with
  | nil => exact h
  | cons c cs ih => exact ih (h.call c)

theorem tell (h : a.Sound) (reactions : ι → List (Call ι)) (l : ι) : (a.tell reactions l).Sound :=
  (h.note (e := .told l) trivial (fun _ => ⟨nofun, nofun⟩) nofun).foldl_call _

theorem foldl_tell (h : a.Sound) (reactions : ι → List (Call ι)) (ls : List ι)
    : (ls.foldl (Audience.tell reactions) a).Sound := by
  induction ls generalizing a with
  | nil => exact h
  | cons l ls ih => exact ih (h.tell reactions l)

theorem drop (h : a.Sound) (l : ι) : (a.act (.drop l)).Sound where
  reaches := by
    have hprune : a.channel.prune (a.note (.dropped l)).isAlive
        = (a.channel.prune a.isAlive).unsubscribe l := by
      rw [isAlive_dropped]
      unfold prune Channel.unsubscribe
      rw [List.filter_filter]
    show Reaches _ (a.channel.prune (a.note (.dropped l)).isAlive).subscribers
    rw [hprune]
    exact h.reaches.drop
  right := h.right_concat (e := .dropped l) trivial

end Sound

theorem act_notify
    : a.act (.notify reactions) = (a.channel.prune a.isAlive).subscribers.foldl (tell reactions)
        { a with channel := a.channel.prune a.isAlive } := by
  dsimp only [act, Channel.notify]
  rw [List.foldlM_pure]
  rfl

theorem Sound.act (h : a.Sound) (x : Act ι) : (a.act x).Sound := by
  cases x with
  | call c => exact h.call c
  | drop l => exact h.drop l
  | notify reactions =>
    rw [act_notify]
    have hp : { a with channel := a.channel.prune a.isAlive }.Sound := by
      refine ⟨?_, h.right⟩
      show Reaches a.log ((a.channel.prune a.isAlive).prune a.isAlive).subscribers
      rw [prune_prune]
      exact h.reaches
    exact hp.foldl_tell reactions _

theorem sound_run (acts : List (Act ι)) : (run acts).Sound := by
  have hstart : ({} : Audience ι).Sound := by
    refine ⟨⟨fun l => ?_, List.nodup_nil, List.Pairwise.nil⟩, fun before e after h => ?_⟩
    . refine iff_of_false List.not_mem_nil ?_
      rintro ⟨-, i, hi, -⟩
      contradiction
    . exact absurd h (by simp)
  unfold run
  induction acts using List.reverseRecOn with
  | nil => exact hstart
  | append_singleton acts x ih =>
    rw [List.foldl_concat]
    exact ih.act x

theorem exists_answered (a : Audience ι) (cs : List (Call ι))
    : ∃ answers, cs.Forall₂ Call.Answered answers ∧ (cs.foldl call a).log = a.log ++ answers := by
  induction cs generalizing a with
  | nil => exact ⟨[], .nil, (List.append_nil _).symm⟩
  | cons c cs ih =>
    have hc : ∃ e, c.Answered e ∧ (a.call c).log = a.log ++ [e] := by
      cases c with
      | subscribe l => exact ⟨_, .subscribe l, rfl⟩
      | unsubscribe l => exact ⟨_, .unsubscribe l _, rfl⟩
      | count => exact ⟨_, .count _, rfl⟩
    obtain ⟨e, he, hlog⟩ := hc
    obtain ⟨answers, hcs, hlog'⟩ := ih (a.call c)
    refine ⟨e :: answers, .cons he hcs, ?_⟩
    rw [List.foldl_cons, hlog', hlog, List.append_assoc, List.singleton_append]

theorem exists_delivers (a : Audience ι) (reactions : ι → List (Call ι)) (ls : List ι)
    : ∃ during, Delivers reactions ls during ∧ (ls.foldl (tell reactions) a).log = a.log ++ during := by
  induction ls generalizing a with
  | nil => exact ⟨[], .nil, (List.append_nil _).symm⟩
  | cons l ls ih =>
    obtain ⟨answers, hcs, hlog⟩ := exists_answered (a.note (.told l)) (reactions l)
    obtain ⟨rest, hls, hlog'⟩ := ih (a.tell reactions l)
    refine ⟨.told l :: answers ++ rest, .cons hcs hls, ?_⟩
    rw [List.foldl_cons, hlog', tell, hlog]
    simp [note]

/--
Whatever is done to a channel and its listeners, and whatever these ask of it when they are told.
-/
theorem run_exact (acts : List (Act ι)) : (run acts).Exact where
  told reactions := by
    obtain ⟨during, hd, hlog⟩ := exists_delivers
      { run acts with channel := (run acts).channel.prune (run acts).isAlive } reactions
      ((run acts).channel.prune (run acts).isAlive).subscribers
    exact ⟨_, during, (sound_run acts).reaches, hd, by rw [act_notify, hlog]⟩
  right := (sound_run acts).right

/--
Those who are told leave, and call in others, who are told the next time.
-/
example :
    (run [.call (.subscribe 0), .call (.subscribe 1), .call (.subscribe 0),
        .notify fun l => if l = 0 then [.unsubscribe 1, .subscribe 2, .unsubscribe 0] else [.count],
        .drop 1, .call (.subscribe 0), .notify fun _ => []]).log
      = [.subscribed 0, .subscribed 1, .subscribed 0,
          .told 0, .unsubscribed 1 true, .subscribed 2, .unsubscribed 0 true, .told 1, .counted 1,
          .dropped 1, .subscribed 0, .told 2, .told 0] := by
  decide

end Audience
end Channel
end SharedWorkspace
