import SharedWorkspace.Dialogue

/-!
Dialogues in surroundings that have a state. Each event of a run may change the state, and rules say
which calls are in order in which state. `Obeys.of_run` is what makes a proof about a dialogue, taken
apart call by call, one about all of its runs.
-/

namespace SharedWorkspace
namespace Dialogue

variable {I : Interface} {σ α β : Type}

theorem run_call_bind {c : I.Call} {f : I.Answer c → Dialogue I α} {es : List (Event I)} {a : α}
    (h : (ask c result >>= f).Run es a) : ∃ x fs, es = ⟨c, x⟩ :: fs ∧ (f x).Run fs a := by
  cases h with
  | ask x h => exact ⟨x, _, rfl, h⟩

/--
Events, each together with the state in which it happens: from the first state to the second.
-/
inductive Timeline (step : σ → Event I → σ → Prop) : σ → List (σ × Event I) → σ → Prop where
  | nil (s : σ) : Timeline step s [] s
  | cons {s t u : σ} {e : Event I} {es : List (σ × Event I)} (h : step s e t)
      (h' : Timeline step t es u) : Timeline step s ((s, e) :: es) u

namespace Timeline

variable {step : σ → Event I → σ → Prop} {s t u : σ} {es fs : List (σ × Event I)}

theorem append (h : Timeline step s es t) (h' : Timeline step t fs u)
    : Timeline step s (es ++ fs) u := by
  induction h with
  | nil => exact h'
  | cons h _ ih => exact .cons h (ih h')

theorem at_mem {m : σ × Event I} (h : Timeline step s (es ++ m :: fs) u)
    : Timeline step s es m.1 ∧ ∃ t, step m.1 m.2 t ∧ Timeline step t fs u := by
  induction es generalizing s with
  | nil =>
    cases h with
    | cons hs h => exact ⟨.nil _, _, hs, h⟩
  | cons e es ih =>
    cases h with
    | cons hs h =>
      obtain ⟨hes, hm⟩ := ih h
      exact ⟨.cons hs hes, hm⟩

theorem keeps {K : σ → Prop} (h : Timeline step s es t)
    (hk : ∀ m ∈ es, ∀ u, step m.1 m.2 u → K m.1 → K u) (hs : K s) : (∀ m ∈ es, K m.1) ∧ K t := by
  induction h with
  | nil => exact ⟨by simp, hs⟩
  | cons hstep _ ih =>
    obtain ⟨hm, hes⟩ := List.forall_mem_cons.1 hk
    obtain ⟨hall, ht⟩ := ih hes (hm _ hstep hs)
    exact ⟨List.forall_mem_cons.2 ⟨hs, hall⟩, ht⟩

end Timeline

/--
Which calls are in order in a state, and which state an event may lead to.
-/
structure Rules (I : Interface) (σ : Type) where
  allows : σ → I.Call → Prop
  step : σ → Event I → σ → Prop

/--
From a state on, only calls that are in order are made, and `Q` holds in the end.
-/
def Obeys (R : Rules I σ) (Q : σ → α → Prop) : Dialogue I α → σ → Prop
  | result a => fun s => Q s a
  | ask c k => fun s => R.allows s c ∧ ∀ x t, R.step s ⟨c, x⟩ t → Obeys R Q (k x) t

variable {R : Rules I σ} {P Q : σ → α → Prop} {s t : σ}

theorem Obeys.mono {d : Dialogue I α} (h : d.Obeys R P s) (hPQ : ∀ s a, P s a → Q s a)
    : d.Obeys R Q s := by
  induction d generalizing s with
  | result a => exact hPQ s a h
  | ask c k ih =>
    refine ⟨h.1, ?_⟩
    intro x t ht
    exact ih x (h.2 x t ht)

theorem Obeys.bind {d : Dialogue I α} {f : α → Dialogue I β} {Q : σ → β → Prop}
    (h : d.Obeys R (fun s a => (f a).Obeys R Q s) s) : (d >>= f).Obeys R Q s := by
  induction d generalizing s with
  | result a => exact h
  | ask c k ih =>
    refine ⟨h.1, ?_⟩
    intro x t ht
    exact ih x (h.2 x t ht)

theorem obeys_of_keeps {K : σ → Prop} (ha : ∀ s c, K s → R.allows s c)
    (hk : ∀ s e t, K s → R.step s e t → K t) (d : Dialogue I α) (hs : K s)
    : d.Obeys R (fun t _ => K t) s := by
  induction d generalizing s with
  | result a => exact hs
  | ask c k ih =>
    refine ⟨ha s c hs, ?_⟩
    intro x t ht
    exact ih x (hk s _ t hs ht)

theorem Obeys.of_run {d : Dialogue I α} {es : List (σ × Event I)} {a : α} (h : d.Obeys R Q s)
    (hr : d.Run (es.map Prod.snd) a) (ht : Timeline R.step s es t)
    : (∀ m ∈ es, R.allows m.1 m.2.1) ∧ Q t a := by
  induction ht generalizing d with
  | nil s =>
    cases hr
    exact ⟨by simp, h⟩
  | cons hs _ ih =>
    cases hr with
    | ask x hr =>
      obtain ⟨hall, hq⟩ := ih (h.2 _ _ hs) hr
      refine ⟨?_, hq⟩
      intro m hm
      rcases List.mem_cons.1 hm with rfl | hm
      . exact h.1
      . exact hall m hm

def stateless (P : I.Call → Prop) (K : Event I → Prop) : Rules I Unit where
  allows _ c := P c
  step _ e _ := K e

theorem Obeys.of_run_stateless {P : I.Call → Prop} {K : Event I → Prop} {Q : α → Prop}
    {d : Dialogue I α} {es : List (Event I)} {a : α}
    (h : d.Obeys (stateless P K) (fun _ a => Q a) ()) (hr : d.Run es a) (hK : ∀ e ∈ es, K e)
    : (∀ e ∈ es, P e.1) ∧ Q a := by
  induction hr with
  | result => exact ⟨by simp, h⟩
  | ask x _ ih =>
    obtain ⟨hx, hes⟩ := List.forall_mem_cons.1 hK
    obtain ⟨hall, hq⟩ := ih (h.2 x () hx) hes
    exact ⟨List.forall_mem_cons.2 ⟨h.1, hall⟩, hq⟩

abbrev Surroundings (I : Interface) (σ : Type) := σ → (c : I.Call) → I.Answer c × σ

section Surroundings

variable (h : Surroundings I σ)

def eventsIn : Dialogue I α → σ → List (σ × Event I)
  | result _, _ => []
  | ask c k, s => (s, ⟨c, (h s c).1⟩) :: (k (h s c).1).eventsIn (h s c).2

def endIn : Dialogue I α → σ → σ
  | result _, s => s
  | ask c k, s => (k (h s c).1).endIn (h s c).2

def resultIn : Dialogue I α → σ → α
  | result a, _ => a
  | ask c k, s => (k (h s c).1).resultIn (h s c).2

theorem run_in (d : Dialogue I α) (s : σ)
    : d.Run ((d.eventsIn h s).map Prod.snd) (d.resultIn h s) := by
  induction d generalizing s with
  | result a => exact .result a
  | ask c k ih => exact .ask _ (ih _ _)

theorem forall_mem_eventsIn {K : Event I → Prop} (hK : ∀ s c, K ⟨c, (h s c).1⟩) (d : Dialogue I α)
    (s : σ) : ∀ e ∈ (d.eventsIn h s).map Prod.snd, K e := by
  induction d generalizing s with
  | result a => simp [eventsIn]
  | ask c k ih => exact List.forall_mem_cons.2 ⟨hK s c, ih _ _⟩

theorem timeline_in {step : σ → Event I → σ → Prop} (hs : ∀ s c, step s ⟨c, (h s c).1⟩ (h s c).2)
    (d : Dialogue I α) (s : σ) : Timeline step s (d.eventsIn h s) (d.endIn h s) := by
  induction d generalizing s with
  | result a => exact .nil s
  | ask c k ih => exact .cons (hs s c) (ih _ _)

end Surroundings

end Dialogue
end SharedWorkspace
