import SharedWorkspace.Proofs.Registry.Acts

/-!
What is the case whenever a registry does something, however deep those who are called back are nested: a
subscriber that is announced is there, and so it is when a listener is told of it (`Plays.due`). It is shown for
one act after another, since what was there before a call is there after it.
-/

namespace SharedWorkspace
namespace Registry

open Dialogue

variable {N σ α : Type} {E : Interface}
variable {b : Behaviour N E} {outside : (c : E.Call) → StateM σ (E.Answer c)} {inner : Enactment N E}

def Act.Due (b : Behaviour N E) (w : World N σ) : Act N E → Prop
  | .announce id listeners => listeners = w.registry.listeners ∧ w.registry.Knows id
  | .tell _ id => w.registry.Knows id
  | .lookedUp id (some s) =>
    w.registry.Knows s.id ∧ (s.id = id ∨ ∃ factory es, (b.create factory id).Run es (.ok (some s)))
  | _ => True

def dues (b : Behaviour N E) (outside : (c : E.Call) → StateM σ (E.Answer c))
    : Rules (acts N E) (World N σ) where
  allows w a := a.Due b w
  step := Acted outside

abbrev Dutiful (b : Behaviour N E) (outside : (c : E.Call) → StateM σ (E.Answer c)) (Q : World N σ → α → Prop)
    (d : Dialogue (acts N E) α) (w : World N σ) : Prop :=
  d.Obeys (dues b outside) (fun t a => Grows w.registry t.registry ∧ Q t a) w

namespace Dutiful

theorem result {Q : World N σ → α → Prop} {w : World N σ} {a : α} (h : Q w a)
    : Dutiful b outside Q (result a) w :=
  ⟨Grows.refl _, h⟩

theorem bind {β : Type} {P : World N σ → α → Prop} {Q : World N σ → β → Prop} {d : Dialogue (acts N E) α}
    {f : α → Dialogue (acts N E) β} {w : World N σ} (hd : Dutiful b outside P d w)
    (hf : ∀ t a, Grows w.registry t.registry → P t a → Dutiful b outside Q (f a) t)
    : Dutiful b outside Q (d >>= f) w := by
  apply Obeys.bind
  apply hd.mono
  rintro t a ⟨ht, ha⟩
  apply (hf t a ht ha).mono
  rintro u c ⟨hu, hc⟩
  exact ⟨ht.trans hu, hc⟩

theorem act_bind {Q : World N σ → α → Prop} {a : Act N E} {f : a.Answer → Dialogue (acts N E) α}
    {w : World N σ} (h : a.Due b w) (hf : ∀ t x, Acted outside w ⟨a, x⟩ t → Dutiful b outside Q (f x) t)
    : Dutiful b outside Q (act a >>= f) w := by
  refine ⟨h, ?_⟩
  intro x t ht
  apply (hf t x ht).mono
  rintro u c ⟨hu, hc⟩
  exact ⟨ht.grows.trans hu, hc⟩

theorem act {a : Act N E} {w : World N σ} (h : a.Due b w) : Dutiful b outside (fun _ _ => True) (act a) w :=
  ⟨h, fun _ _ ht => ⟨ht.grows, trivial⟩⟩

theorem mono {P Q : World N σ → α → Prop} {d : Dialogue (acts N E) α} {w : World N σ}
    (hd : Dutiful b outside P d w) (h : ∀ t a, Grows w.registry t.registry → P t a → Q t a)
    : Dutiful b outside Q d w :=
  Obeys.mono hd fun t a ht => ⟨ht.1, h t a ht.1 ht.2⟩

end Dutiful

def Reliable (b : Behaviour N E) (outside : (c : E.Call) → StateM σ (E.Answer c)) (inner : Enactment N E)
    : Prop :=
  ∀ c (w : World N σ), w.registry.Named → Dutiful b outside (fun _ _ => True) (inner c) w

namespace Reliable

variable {w : World N σ}

theorem translate (hi : Reliable b outside inner) (p : Program N E α) (hw : w.registry.Named)
    : Dutiful b outside (fun _ a => ∃ es, p.Run es a) (p.translate inner) w := by
  induction p generalizing w with
  | result a => exact .result ⟨[], .result a⟩
  | ask c k ih =>
    apply Dutiful.bind (hi c w hw)
    intro t x ht _
    apply (ih x (ht.named hw)).mono
    rintro u a _ ⟨es, hr⟩
    exact ⟨_, .ask x hr⟩

theorem enactMap (hi : Reliable b outside inner) (p : Provider) (hw : w.registry.Named)
    : Dutiful b outside (fun _ _ => True) (enactMap b inner p) w := by
  unfold Registry.enactMap
  apply Dutiful.act_bind
  . trivial
  intro t r ht
  split
  . exact .result trivial
  apply Dutiful.act_bind
  . trivial
  intro u _ hu
  apply Dutiful.bind (hi.translate _ (hu.grows.named (ht.grows.named hw)))
  intro v result _ _
  split
  . exact .result trivial
  apply Dutiful.act_bind
  . trivial
  intro _ _ _
  exact .result trivial

theorem enactTell (hi : Reliable b outside inner) {id : SubscriberId} (listeners : List (ListenerId × N))
    (hw : w.registry.Named) (hid : w.registry.Knows id)
    : Dutiful b outside (fun _ _ => True) (enactTell b inner id listeners) w := by
  induction listeners generalizing w with
  | nil => exact .result trivial
  | cons listener rest ih =>
    unfold Registry.enactTell
    apply Dutiful.act_bind
    . exact hid
    intro t _ ht
    apply Dutiful.bind (hi.translate _ (ht.grows.named hw))
    intro u _ hu _
    have hwu := ht.grows.trans hu
    exact ih (hwu.named hw) (hwu.knows id hid)

theorem enactRegister (hi : Reliable b outside inner) (s : Subscriber) (hw : w.registry.Named)
    : Dutiful b outside (fun t _ => t.registry.Knows s.id) (enactRegister b inner s) w := by
  unfold Registry.enactRegister
  apply Dutiful.act_bind
  . trivial
  intro t _ hentered
  have ht := hentered.grows
  have hs : t.registry.Knows s.id := by
    cases hentered
    apply knows_enterSubscriber
  apply Dutiful.act_bind
  . trivial
  intro u r hlooked
  cases hlooked
  apply Dutiful.act_bind
  . exact ⟨rfl, hs⟩
  intro v _ hannounced
  have hv := hannounced.grows
  apply Dutiful.bind (hi.enactTell _ ((ht.trans hv).named hw) (hv.knows _ hs))
  intro x _ hx _
  have hdone : (Act.delivered s.id : Act N E).Due b x := trivial
  apply (Dutiful.act hdone).mono
  intro y _ hy _
  exact (hv.trans (hx.trans hy)).knows _ hs

theorem enactFind (hi : Reliable b outside inner) (id : SubscriberId) (hw : w.registry.Named)
    : Dutiful b outside (fun t result => (Act.lookedUp id result : Act N E).Due b t)
        (enactFind b inner id) w := by
  unfold Registry.enactFind
  apply Dutiful.act_bind
  . trivial
  intro t r hlooked
  cases hlooked
  split
  . next s hs =>
    have hid := hw id s hs
    refine .result ⟨?_, .inl hid⟩
    unfold Knows
    rw [hid, hs]
    rfl
  split
  . exact .result trivial
  apply Dutiful.act_bind
  . trivial
  intro u _ hasked
  have hu := hasked.grows
  apply Dutiful.bind (hi.translate _ (hu.named hw))
  rintro v result hv ⟨es, hcreated⟩
  split
  . next s =>
    apply Dutiful.bind (hi.enactRegister s ((hu.trans hv).named hw))
    intro x _ _ hs
    exact .result ⟨hs, .inr ⟨_, es, hcreated⟩⟩
  . exact .result trivial
  . exact .result trivial

theorem enactLookup (hi : Reliable b outside inner) (id : SubscriberId) (hw : w.registry.Named)
    : Dutiful b outside (fun _ _ => True) (enactLookup b inner id) w := by
  unfold Registry.enactLookup
  apply Dutiful.bind (hi.enactFind id hw)
  intro t result _ hdue
  apply Dutiful.act_bind hdue
  intro _ _ _
  exact .result trivial

end Reliable

theorem reliable_enact (b : Behaviour N E) (outside : (c : E.Call) → StateM σ (E.Answer c)) (depth : Nat)
    : Reliable b outside (enact b depth) := by
  induction depth with
  | zero =>
    intro c w hw
    exact ⟨trivial, fun x => x.elim⟩
  | succ depth ih =>
    intro c w hw
    cases c with
    | inr c => exact .act trivial
    | inl c =>
      cases c with
      | map project typeId location rootPath => exact ih.enactMap _ hw
      | registerSubscriber s => exact (ih.enactRegister s hw).mono fun _ _ _ _ => trivial
      | subscriber id => exact ih.enactLookup id hw
      | _ => exact Dutiful.act trivial

theorem Plays.due {depth : Nat} {p : Program N E α} {w w' : World N σ}
    {es : List (World N σ × Event (acts N E))} {a : α} (h : Plays b outside depth p w es a w')
    (hw : w.registry.Named) : ∀ m ∈ es, m.2.1.Due b m.1 :=
  (((reliable_enact b outside depth).translate p hw).of_run h.run h.timeline).1

theorem perform_subscriber (b : Behaviour N E) (outside : (c : E.Call) → StateM σ (E.Answer c)) {w : World N σ}
    {id : SubscriberId} (hw : w.registry.Named) (hid : w.registry.Knows id)
    : ∃ s, s.id = id ∧ ∀ depth, perform b outside (depth + 1) (.inl (.subscriber id)) w = some (some s, w) := by
  obtain ⟨s, hs⟩ := Option.isSome_iff_exists.1 hid
  refine ⟨s, hw id s hs, ?_⟩
  intro depth
  show performLookup b (perform b outside depth) id w = _
  unfold performLookup
  rw [get_bind_apply, hs]
  rfl

theorem grows_of_timeline {w w' : World N σ} {es : List (World N σ × Event (acts N E))}
    (h : Timeline (Acted outside) w es w')
    : (∀ m ∈ es, Grows w.registry m.1.registry) ∧ Grows w.registry w'.registry :=
  h.keeps (K := fun v => Grows w.registry v.registry) (fun _ _ _ hs hm => hm.trans hs.grows) (Grows.refl _)

end Registry
end SharedWorkspace
