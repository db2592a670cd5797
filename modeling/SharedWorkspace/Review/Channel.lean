/-!
Channels: lists of those who want to be told of changes. A channel does not keep its subscribers
alive. Those who have gone are no longer counted, and are struck off at the next notification.
-/

namespace SharedWorkspace

structure Channel (ι : Type) where
  subscribers : List ι := []

namespace Channel

variable {ι : Type} [DecidableEq ι]

def subscribe (c : Channel ι) (l : ι) : Channel ι :=
  if l ∈ c.subscribers then c else ⟨c.subscribers ++ [l]⟩

def isSubscribed (c : Channel ι) (l : ι) : Bool :=
  l ∈ c.subscribers

def unsubscribe (c : Channel ι) (l : ι) : Channel ι :=
  ⟨c.subscribers.filter (· ≠ l)⟩

def prune (alive : ι → Bool) (c : Channel ι) : Channel ι :=
  ⟨c.subscribers.filter alive⟩

def count (alive : ι → Bool) (c : Channel ι) : Nat :=
  (c.prune alive).subscribers.length

/--
Tell the subscribers of a change: those who are there when it begins, in the order of their subscriptions. The
others are struck off first. What the subscribers do when they are told cannot change who is told.
-/
def notify {m : Type → Type} [Monad m] {σ : Type} (alive : ι → Bool) (c : Channel ι) (put : Channel ι → σ)
    (tell : σ → ι → m σ) : m σ :=
  let c := c.prune alive
  c.subscribers.foldlM tell (put c)

theorem nodup_subscribe {c : Channel ι} (h : c.subscribers.Nodup) (l : ι) :
    (c.subscribe l).subscribers.Nodup := by
  unfold subscribe
  split
  . exact h
  . rename_i hl
    rw [List.nodup_append]
    refine ⟨h, by simp, fun a ha b hb => ?_⟩
    rw [List.mem_singleton] at hb
    exact fun hab => hl (hb ▸ hab ▸ ha)

theorem nodup_unsubscribe {c : Channel ι} (h : c.subscribers.Nodup) (l : ι) :
    (c.unsubscribe l).subscribers.Nodup :=
  h.filter _

omit [DecidableEq ι] in
theorem nodup_prune {c : Channel ι} (h : c.subscribers.Nodup) (alive : ι → Bool) :
    (c.prune alive).subscribers.Nodup :=
  h.filter _

end Channel
end SharedWorkspace
