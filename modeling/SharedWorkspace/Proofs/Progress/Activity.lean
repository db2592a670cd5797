import SharedWorkspace.Progress.Share
import SharedWorkspace.Proofs.Dialogue

/-!
What becomes of an activity that runs on a share of the progress, or as a part of another activity.
The monitor sees of a share what is relayed to it (`run_share_relay`). Reports reach it in another form or
not at all; all else happens as it would by itself, in the same order (`run_share`, `run_embed`). Rules that
take all reports alike are obeyed on a share if they are obeyed without one (`obeys_share`).
-/

namespace SharedWorkspace

def Progress.Call.reply (cancelled : Bool) : (c : Progress.Call) → c.Answer
  | isCancelled => cancelled
  | beginTask _ _ | setTaskName _ | worked _ | done | cancel => ()

namespace Share

open Progress

def hear (s : Share) : Call → Share
  | .beginTask _ total => s.beginTask total
  | .worked units => (s.work units).2
  | .done => s.finish.2
  | _ => s

end Share

namespace Activity

open Dialogue

variable {E F : Interface} {α σ : Type}

def effects (es : List (Event (Progress.calls.sum E))) : List (Event E) :=
  es.filterMap fun
    | ⟨.inl _, _⟩ => none
    | ⟨.inr c, x⟩ => some ⟨c, x⟩

section Effects

variable {es fs : List (Event (Progress.calls.sum E))}

@[simp]
theorem effects_nil : effects ([] : List (Event (Progress.calls.sum E))) = [] := rfl

@[simp]
theorem effects_append : effects (es ++ fs) = effects es ++ effects fs :=
  List.filterMap_append

theorem mem_of_mem_effects {c : E.Call} {x : E.Answer c} (h : ⟨c, x⟩ ∈ effects es)
    : ⟨.inr c, x⟩ ∈ es := by
  obtain ⟨⟨c', y⟩, hm, he⟩ := List.mem_filterMap.1 h
  cases c' with
  | inl => cases he
  | inr c' =>
    cases he
    exact hm

def polls (es : List (Event (Progress.calls.sum E))) : List Bool :=
  es.filterMap fun
    | ⟨.inl .isCancelled, b⟩ => some b
    | _ => none

@[simp]
theorem polls_append : polls (es ++ fs) = polls es ++ polls fs :=
  List.filterMap_append

def Resembles (es fs : List (Event (Progress.calls.sum E))) : Prop :=
  effects es = effects fs ∧ polls es = polls fs

theorem Resembles.append {es' fs' : List (Event (Progress.calls.sum E))} (h : Resembles es fs)
    (h' : Resembles es' fs') : Resembles (es ++ es') (fs ++ fs') := by
  refine ⟨?_, ?_⟩
  . rw [effects_append, effects_append, h.1, h'.1]
  . rw [polls_append, polls_append, h.2, h'.2]

end Effects

theorem run_perform {c : E.Call} {es : List (Event (Progress.calls.sum E))} {x : E.Answer c}
    (h : (perform c).Run es x) : es = [⟨.inr c, x⟩] := by
  cases h with
  | ask x h =>
    cases h
    rfl

def charges (n : Nat) : List (Event (Progress.calls.sum E)) :=
  if n = 0 then [] else [⟨.inl (.worked n), ()⟩]

theorem resembles_charges (n : Nat)
    : Resembles (E := E) [] (charges n) := by
  unfold charges
  split <;> exact ⟨rfl, rfl⟩

theorem exists_of_run_charge {n : Nat} {d : Activity E α} {es : List (Event (Progress.calls.sum E))}
    {a : α} (h : (charge n d).Run es a) : ∃ fs, d.Run fs a ∧ es = charges n ++ fs := by
  unfold charge at h
  unfold charges
  by_cases hn : n = 0
  . rw [if_pos hn] at h ⊢
    exact ⟨es, h, rfl⟩
  . rw [if_neg hn] at h ⊢
    cases h with
    | ask x h => exact ⟨_, h, rfl⟩

def heed (s : Share) : Event (Progress.calls.sum E) → Share
  | ⟨.inl c, _⟩ => s.hear c
  | ⟨.inr _, _⟩ => s

/--
What the monitor of a share sees of an event of the work on it.
-/
def relayed (s : Share) : Event (Progress.calls.sum E) → List (Event (Progress.calls.sum E))
  | ⟨.inl (.beginTask _ _), _⟩ => []
  | ⟨.inl (.worked n), _⟩ => charges (s.work n).1
  | ⟨.inl .done, _⟩ => charges s.finish.1
  | e => [e]

def relay (s : Share) : List (Event (Progress.calls.sum E)) → List (Event (Progress.calls.sum E))
  | [] => []
  | e :: es => relayed s e ++ relay (heed s e) es

theorem relay_append (s : Share) (es fs : List (Event (Progress.calls.sum E)))
    : relay s (es ++ fs) = relay s es ++ relay (es.foldl heed s) fs := by
  induction es generalizing s with
  | nil => rfl
  | cons e es ih => rw [List.cons_append, relay, relay, ih, List.append_assoc, List.foldl_cons]

theorem relayed_eq_nil_or_singleton (s : Share) (e : Event (Progress.calls.sum E))
    : relayed s e = [] ∨ ∃ f, relayed s e = [f] := by
  have hcharges : ∀ n, charges (E := E) n = [] ∨ ∃ f, charges (E := E) n = [f] := by
    intro n
    unfold charges
    split
    . exact .inl rfl
    . exact .inr ⟨_, rfl⟩
  obtain ⟨c, x⟩ := e
  cases c with
  | inl c =>
    cases c with
    | beginTask => exact .inl rfl
    | worked n => exact hcharges _
    | done => exact hcharges _
    | _ => exact .inr ⟨_, rfl⟩
  | inr c => exact .inr ⟨_, rfl⟩

theorem exists_prefix_of_relay {s : Share} {before es : List (Event (Progress.calls.sum E))}
    (h : before <+: relay s es) : ∃ es', es' <+: es ∧ before = relay s es' := by
  induction es generalizing s before with
  | nil => exact ⟨[], List.prefix_rfl, List.prefix_nil.1 h⟩
  | cons e es ih =>
    rw [relay] at h
    rcases relayed_eq_nil_or_singleton s e with he | ⟨f, he⟩
    . rw [he, List.nil_append] at h
      obtain ⟨es', hprefix, rfl⟩ := ih h
      refine ⟨e :: es', (List.prefix_cons_inj e).2 hprefix, ?_⟩
      rw [relay, he, List.nil_append]
    . rw [he, List.singleton_append, List.prefix_cons_iff] at h
      rcases h with rfl | ⟨rest, rfl, h⟩
      . exact ⟨[], List.nil_prefix, rfl⟩
      . obtain ⟨es', hprefix, rfl⟩ := ih h
        refine ⟨e :: es', (List.prefix_cons_inj e).2 hprefix, ?_⟩
        rw [relay, he, List.singleton_append]

theorem resembles_relayed (s : Share) (e : Event (Progress.calls.sum E)) : Resembles [e] (relayed s e) := by
  obtain ⟨c, x⟩ := e
  cases c with
  | inl c =>
    cases c with
    | worked n => exact resembles_charges _
    | done => exact resembles_charges _
    | _ => exact ⟨rfl, rfl⟩
  | inr c => exact ⟨rfl, rfl⟩

theorem resembles_relay (s : Share) (es : List (Event (Progress.calls.sum E)))
    : Resembles es (relay s es) := by
  induction es generalizing s with
  | nil => exact ⟨rfl, rfl⟩
  | cons e es ih => exact (resembles_relayed s e).append (ih _)

theorem resembles_relay_charges (s : Share) (es : List (Event (Progress.calls.sum E))) (n : Nat)
    : Resembles es (relay s es ++ charges n) := by
  have hsame := (resembles_relay s es).append (resembles_charges n)
  rwa [List.append_nil] at hsame

theorem run_onShare_relay {s : Share} {d : Activity E α} {es : List (Event (Progress.calls.sum E))}
    {x : α × Share} (h : (onShare s d).Run es x)
    : ∃ fs, d.Run fs x.1 ∧ es = relay s fs ∧ x.2 = fs.foldl heed s := by
  induction d generalizing s es with
  | result a =>
    cases h
    exact ⟨[], .result a, rfl, rfl⟩
  | ask c k ih =>
    cases c with
    | inl c =>
      cases c with
      -- A share keeps totals to itself, so that there is no event to take apart.
      | beginTask name total =>
        obtain ⟨fs, hr, rfl, hs⟩ := ih () h
        exact ⟨_, .ask () hr, rfl, hs⟩
      | worked units =>
        obtain ⟨gs, h₁, rfl⟩ := exists_of_run_charge h
        obtain ⟨fs, hr, rfl, hs⟩ := ih () h₁
        exact ⟨_, .ask () hr, rfl, hs⟩
      | done =>
        obtain ⟨gs, h₁, rfl⟩ := exists_of_run_charge h
        obtain ⟨fs, hr, rfl, hs⟩ := ih () h₁
        exact ⟨_, .ask () hr, rfl, hs⟩
      | _ =>
        cases h with
        | ask x h =>
          obtain ⟨fs, hr, rfl, hs⟩ := ih x h
          exact ⟨_, .ask x hr, rfl, hs⟩
    | inr c =>
      cases h with
      | ask x h =>
        obtain ⟨fs, hr, rfl, hs⟩ := ih x h
        exact ⟨_, .ask x hr, rfl, hs⟩

theorem run_share_relay {n : Nat} {d : Activity E α} {es : List (Event (Progress.calls.sum E))} {a : α}
    (h : (share n d).Run es a)
    : ∃ fs, d.Run fs a ∧
        es = relay { allotment := n } fs ++ charges (fs.foldl heed { allotment := n }).finish.1 := by
  unfold share at h
  obtain ⟨es, gs, ⟨a', s⟩, rfl, h₁, h₂⟩ := run_bind_iff.1 h
  obtain ⟨fs, hr, rfl, rfl⟩ := run_onShare_relay h₁
  obtain ⟨gs, h₃, rfl⟩ := exists_of_run_charge h₂
  cases h₃
  exact ⟨fs, hr, by rw [List.append_nil]⟩

theorem run_share {n : Nat} {d : Activity E α} {es : List (Event (Progress.calls.sum E))} {a : α}
    (h : (share n d).Run es a) : ∃ fs, d.Run fs a ∧ Resembles fs es := by
  obtain ⟨fs, hr, rfl⟩ := run_share_relay h
  exact ⟨fs, hr, resembles_relay_charges _ fs _⟩

theorem run_embed {f : (c : E.Call) → Activity F (E.Answer c)} {g : Event E → Event F}
    (hf : ∀ c es x, (f c).Run es x → effects es = [g ⟨c, x⟩]) {d : Activity E α}
    {es : List (Event (Progress.calls.sum F))} {a : α} (h : (embed f d).Run es a)
    : ∃ fs, d.Run fs a ∧ effects es = (effects fs).map g := by
  unfold embed at h
  induction d generalizing es with
  | result a =>
    cases h
    exact ⟨[], .result a, rfl⟩
  | ask c k ih =>
    obtain ⟨gs, hs, x, rfl, h₁, h₂⟩ := run_bind_iff.1 h
    obtain ⟨fs, hr, he⟩ := ih x h₂
    refine ⟨_, .ask x hr, ?_⟩
    cases c with
    | inl c =>
      cases h₁ with
      | ask y h₁ =>
        cases h₁
        exact he
    | inr c =>
      rw [effects_append, hf c gs x h₁, he]
      rfl

/--
Rules that take all reports alike: any of them may be made at any time, and leads from a state to
those that it may drift to by itself.
-/
structure Alike (R : Rules (Progress.calls.sum E) σ) (drift : σ → σ → Prop) : Prop where
  allows : ∀ s c, R.allows s (.inl c)
  refl : ∀ s, drift s s
  beginTask : ∀ {s name total x t}, R.step s ⟨.inl (.beginTask name total), x⟩ t ↔ drift s t
  setTaskName : ∀ {s name x t}, R.step s ⟨.inl (.setTaskName name), x⟩ t ↔ drift s t
  worked : ∀ {s n x t}, R.step s ⟨.inl (.worked n), x⟩ t ↔ drift s t
  done : ∀ {s x t}, R.step s ⟨.inl .done, x⟩ t ↔ drift s t

section Obeys

variable {R : Rules (Progress.calls.sum E) σ} {drift : σ → σ → Prop} {Q : σ → α → Prop} {s : σ}
variable {d : Activity E α}

theorem obeys_charge (hR : Alike R drift) {n : Nat} (h : ∀ t, drift s t → d.Obeys R Q t)
    : (charge n d).Obeys R Q s := by
  unfold charge
  split
  . exact h s (hR.refl s)
  . refine ⟨hR.allows _ _, ?_⟩
    intro x t ht
    exact h t (hR.worked.1 ht)

theorem obeys_onShare (hR : Alike R drift) {sh : Share} (h : d.Obeys R Q s)
    : (onShare sh d).Obeys R (fun t x => Q t x.1) s := by
  induction d generalizing sh s with
  | result a => exact h
  | ask c k ih =>
    obtain ⟨hc, h⟩ := h
    cases c with
    | inl c =>
      cases c with
      | beginTask name total => exact ih () (h () s (hR.beginTask.2 (hR.refl s)))
      | setTaskName name => exact ⟨hc, fun x t ht => ih x (h x t ht)⟩
      | worked units =>
        apply obeys_charge hR
        intro t ht
        exact ih () (h () t (hR.worked.2 ht))
      | done =>
        apply obeys_charge hR
        intro t ht
        exact ih () (h () t (hR.done.2 ht))
      | isCancelled => exact ⟨hc, fun x t ht => ih x (h x t ht)⟩
      | cancel => exact ⟨hc, fun x t ht => ih x (h x t ht)⟩
    | inr c => exact ⟨hc, fun x t ht => ih x (h x t ht)⟩

theorem obeys_share (hR : Alike R drift) {n : Nat} (hQ : ∀ t a u, Q t a → drift t u → Q u a)
    (h : d.Obeys R Q s) : (share n d).Obeys R Q s := by
  unfold share
  apply Obeys.bind
  apply (obeys_onShare hR h).mono
  intro t x hx
  apply obeys_charge hR
  intro u hu
  exact hQ t x.1 u hx hu

theorem obeys_embed {R' : Rules (Progress.calls.sum F) σ}
    {f : (c : E.Call) → Activity F (E.Answer c)}
    (hl : ∀ s c, R.allows s (.inl c) → R'.allows s (.inl c))
    (hs : ∀ s c x t, R'.step s ⟨.inl c, x⟩ t → R.step s ⟨.inl c, x⟩ t)
    (hr : ∀ s c, R.allows s (.inr c) → (f c).Obeys R' (fun t x => R.step s ⟨.inr c, x⟩ t) s)
    (h : d.Obeys R Q s) : (embed f d).Obeys R' Q s := by
  unfold embed
  induction d generalizing s with
  | result a => exact h
  | ask c k ih =>
    obtain ⟨hc, h⟩ := h
    apply Obeys.bind
    cases c with
    | inl c =>
      refine ⟨hl s c hc, ?_⟩
      intro x t ht
      exact ih x (h x t (hs s c x t ht))
    | inr c =>
      apply (hr s c hc).mono
      intro t x ht
      exact ih x (h x t ht)

theorem obeys_ofWork {K : σ → Prop} (ha : ∀ s c, K s → R.allows s (.inl c))
    (hk : ∀ s c x t, K s → R.step s ⟨.inl c, x⟩ t → K t) (w : Work α) (hs : K s)
    : (ofWork w : Activity E α).Obeys R (fun t _ => K t) s := by
  unfold ofWork embed
  induction w generalizing s with
  | result a => exact hs
  | ask c k ih =>
    cases c with
    | inl c =>
      apply Obeys.bind
      refine ⟨ha s c hs, ?_⟩
      intro x t ht
      exact ih x (hk s c x t hs ht)
    | inr c => exact Empty.elim c

theorem obeys_ofWork_of_run (ha : ∀ s c, R.allows s (.inl c)) {Q : α → Prop} {w : Work α}
    (hQ : ∀ ws a, w.Run ws a → Q a)
    : (ofWork w : Activity E α).Obeys R (fun _ a => Q a) s := by
  unfold ofWork embed
  induction w generalizing s with
  | result a => exact hQ [] a (.result a)
  | ask c k ih =>
    cases c with
    | inl c =>
      apply Obeys.bind
      refine ⟨ha s c, ?_⟩
      intro x t _
      apply ih x
      intro ws a h
      exact hQ _ a (.ask (I := Progress.calls.sum .empty) (c := .inl c) x h)
    | inr c => exact Empty.elim c

end Obeys

end Activity
end SharedWorkspace
