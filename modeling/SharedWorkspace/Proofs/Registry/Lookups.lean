import SharedWorkspace.Proofs.Registry.Dues
import SharedWorkspace.Proofs.Registry.Mapping

/-!
Looking up subscribers. One that has been found is found from then on, at no cost (`Finds.lasting`), and one that
is created when it is looked up is announced once (`announcements_eq`), provided that whoever creates it gives it
the name that it was looked up by. Otherwise it is created, and announced, each time
(`created_under_another_name`).
-/

namespace SharedWorkspace
namespace Registry

open Dialogue

variable {N σ α β : Type} {E : Interface}

def Behaviour.Honest (b : Behaviour N E) : Prop :=
  ∀ factory id es s, (b.create factory id).Run es (.ok (some s)) → s.id = id

def Behaviour.Discreet (b : Behaviour N E) : Prop :=
  ∀ factory id, (b.create factory id).Within Idle

def Omits (id : SubscriberId) : ((calls N).sum E).Call → Prop
  | .inl (.registerSubscriber s) => s.id ≠ id
  | _ => True

def Deed.announces (id : SubscriberId) : Deed → Bool
  | announced id' _ => id' = id
  | _ => false

def announcements (id : SubscriberId) (journal : List Deed) : Nat :=
  journal.countP (Deed.announces id)

namespace World

def noting (w : World N σ) (deed : Deed) : World N σ :=
  { w with journal := w.journal ++ [deed] }

def announcing (w : World N σ) (s : Subscriber) : World N σ :=
  { w with registry := w.registry.enterSubscriber s }.noting (.announced s.id (w.registry.listeners.map Prod.fst))

end World

/--
How much more often the subscriber was announced than it is there.
-/
def surplus (id : SubscriberId) (w : World N σ) : Int :=
  announcements id w.journal - (if w.registry.Knows id then 1 else 0)

theorem surplus_noting {id : SubscriberId} {deed : Deed} (hd : deed.announces id = false) (w : World N σ)
    : surplus id (w.noting deed) = surplus id w := by
  unfold surplus announcements World.noting
  rw [List.countP_append, List.countP_singleton, hd]
  rfl

theorem surplus_congr {id : SubscriberId} {w w' : World N σ} (hj : w'.journal = w.journal)
    (hr : w'.registry.subscriber? id = w.registry.subscriber? id) : surplus id w' = surplus id w := by
  have hknows : w'.registry.Knows id ↔ w.registry.Knows id := by
    unfold Knows
    rw [hr]
  unfold surplus
  simp only [hj, hknows]

def Levels (id : SubscriberId) (c : Change N σ α) : Prop :=
  ∀ w a w', c w = some (a, w') → surplus id w' = surplus id w

namespace Levels

variable {id : SubscriberId}

theorem bind {c : Change N σ α} {f : α → Change N σ β} (hc : Levels id c) (hf : ∀ a, Levels id (f a))
    : Levels id (c >>= f) := by
  intro w x w' h
  obtain ⟨⟨a, v⟩, hv, h⟩ := Option.bind_eq_some_iff.1 h
  exact (hf a v x w' h).trans (hc w a v hv)

theorem note {deed : Deed} (hd : deed.announces id = false)
    : Levels id (World.note deed : Change N σ Unit) := by
  intro w a w' h
  cases h
  exact surplus_noting hd w

theorem runM {inner : Handler N σ E} (hi : ∀ c, Omits id c → Levels id (inner c)) {p : Program N E α}
    (hp : p.Within (Omits id)) : Levels id (p.runM inner) := by
  induction p with
  | result a =>
    intro w x w' h
    cases h
    rfl
  | ask c k ih => exact bind (hi c hp.1) fun x => ih x (hp.2 x)

end Levels

theorem surplus_announcing {id : SubscriberId} {s : Subscriber} {w : World N σ}
    (h : s.id = id → ¬ w.registry.Knows id) : surplus id (w.announcing s) = surplus id w := by
  by_cases hs : s.id = id
  . subst hs
    have hknows : (w.announcing s).registry.Knows s.id := knows_enterSubscriber _ s
    unfold surplus
    rw [if_pos hknows, if_neg (h rfl)]
    unfold World.announcing World.noting announcements
    rw [List.countP_append, List.countP_singleton]
    simp [Deed.announces]
  . unfold World.announcing
    rw [surplus_noting (by simp [Deed.announces, hs])]
    apply surplus_congr
    . rfl
    . show (w.registry.enterSubscriber s).subscriber? id = _
      rw [subscriber?_enterSubscriber, if_neg (Ne.symm hs)]

section Perform

variable {b : Behaviour N E} {outside : (c : E.Call) → StateM σ (E.Answer c)} {inner : Handler N σ E}
variable {depth : Nat} {id : SubscriberId} {w w' : World N σ}

theorem lookup_cases {result : Option Subscriber} (h : performLookup b inner id w = some (result, w'))
    : (w.registry.subscriber? id = result ∧ result.isSome ∧ w' = w) ∨
      (w.registry.subscriber? id = none ∧ w.registry.factoryFor? id = none ∧ result = none ∧ w' = w) ∨
      ∃ factory made v, w.registry.subscriber? id = none ∧ w.registry.factoryFor? id = some factory ∧
        (b.create factory id).runM inner (w.noting (.asked id.qualifier id)) = some (made, v) ∧
        ((∃ s, made = .ok (some s) ∧ result = some s ∧ performRegister b inner s v = some ((), w')) ∨
          (∀ s, made ≠ .ok (some s)) ∧ result = none ∧ w' = v) := by
  unfold performLookup at h
  rw [get_bind_apply] at h
  cases hs : w.registry.subscriber? id with
  | some s =>
    rw [hs] at h
    cases h
    exact .inl ⟨rfl, rfl, rfl⟩
  | none =>
    rw [hs] at h
    dsimp only at h
    cases hf : w.registry.factoryFor? id with
    | none =>
      rw [hf] at h
      cases h
      exact .inr (.inl ⟨rfl, rfl, rfl, rfl⟩)
    | some factory =>
      rw [hf] at h
      obtain ⟨⟨made, v⟩, hv, h⟩ := Option.bind_eq_some_iff.1
        (h : ((b.create factory id).runM inner (w.noting (.asked id.qualifier id))).bind _ = _)
      refine .inr (.inr ⟨factory, made, v, rfl, rfl, hv, ?_⟩)
      obtain e | _ | s := made
      . cases h
        exact .inr ⟨nofun, rfl, rfl⟩
      . cases h
        exact .inr ⟨nofun, rfl, rfl⟩
      . obtain ⟨⟨⟨⟩, v'⟩, hv', h⟩ := Option.bind_eq_some_iff.1 (h : (performRegister b inner s v).bind _ = _)
        cases h
        exact .inl ⟨s, rfl, rfl, hv'⟩

theorem eq_of_run_of_idle {p : Program N E α} {a : α} (hp : p.Within Idle)
    (h : run b outside depth p w = some (a, w')) : ∃ s, w' = { w with surroundings := s } := by
  obtain ⟨a', s, h'⟩ := exists_run_of_idle b outside depth hp w
  rw [run_mono b outside (Nat.le_succ depth) p h] at h'
  cases h'
  exact ⟨s, rfl⟩

theorem levels_tell (hb : b.Within (Omits id)) (hi : ∀ c, Omits id c → Levels id (inner c))
    (id' : SubscriberId) (listeners : List (ListenerId × N)) : Levels id (tell b inner id' listeners) := by
  induction listeners with
  | nil =>
    intro w x w' h
    cases h
    rfl
  | cons l rest ih =>
    have hhear : (b.hear l.2 id').Within (Omits id) := hb.hear _ _ (.inr ⟨id, trivial⟩)
    exact .bind (.note rfl) fun _ => .bind (.runM hi hhear) fun _ => ih

theorem performRegister_eq (b : Behaviour N E) (inner : Handler N σ E) (s : Subscriber) (w : World N σ)
    : performRegister b inner s w
        =
      (tell b inner s.id w.registry.listeners (w.announcing s)).map
        fun x => ((), x.2.noting (.delivered s.id)) := by
  show (tell b inner s.id _ _).bind _ = _
  rw [Option.map_eq_bind]
  rfl

theorem surplus_of_performRegister (hb : b.Within (Omits id)) (hi : ∀ c, Omits id c → Levels id (inner c))
    {s : Subscriber} {u : Unit} (hs : s.id = id → ¬ w.registry.Knows id)
    (h : performRegister b inner s w = some (u, w')) : surplus id w' = surplus id w := by
  rw [performRegister_eq] at h
  obtain ⟨⟨⟨⟩, v⟩, hv, h⟩ := Option.map_eq_some_iff.1 h
  cases h
  rw [surplus_noting rfl, levels_tell hb hi _ _ _ _ _ hv, surplus_announcing hs]

theorem levels_performMap (hb : b.Within (Omits id)) (hi : ∀ c, Omits id c → Levels id (inner c))
    (p : Provider) : Levels id (performMap b inner p) := by
  intro w x w' h
  rw [performMap_eq] at h
  cases htype : w.registry.providerType? p.typeId with
  | none =>
    rw [htype] at h
    cases h
    rfl
  | some type =>
    rw [htype] at h
    obtain ⟨⟨made, v⟩, hv, h⟩ := Option.map_eq_some_iff.1 h
    have hlevel := Levels.runM hi (hb.configure type p trivial) (w.mapped p) made v hv
    cases made with
    | ok =>
      cases h
      exact hlevel
    | error e =>
      cases h
      apply Eq.trans _ hlevel
      apply surplus_congr
      . rfl
      . show (Registry.restoreProvider _ _ _).subscriber? id = _
        unfold Registry.restoreProvider
        split <;> rfl

theorem levels_performLookup (hhonest : b.Honest) (hdiscreet : b.Discreet) (hb : b.Within (Omits id))
    (hi : ∀ c, Omits id c → Levels id (perform b outside depth c)) (id' : SubscriberId)
    : Levels id (performLookup b (perform b outside depth) id') := by
  intro w x w' h
  rcases lookup_cases h with ⟨_, _, rfl⟩ | ⟨_, _, _, rfl⟩ | ⟨factory, made, v, hnone, _, hv, hmade⟩
  . rfl
  . rfl
  obtain ⟨t, rfl⟩ := eq_of_run_of_idle (hdiscreet factory id') hv
  have hasked : surplus id { w.noting (.asked id'.qualifier id') with surroundings := t } = surplus id w :=
    surplus_noting rfl w
  rcases hmade with ⟨s, rfl, _, hregister⟩ | ⟨_, _, rfl⟩
  . rw [← hasked]
    apply surplus_of_performRegister hb hi _ hregister
    rintro rfl hknows
    obtain ⟨es, hcreated, _⟩ := runM_eq_some_iff.1 hv
    rw [hhonest factory id' _ s hcreated] at hknows
    have hknows : (w.registry.subscriber? id').isSome := hknows
    rw [hnone] at hknows
    contradiction
  . exact hasked

theorem levels_perform (hhonest : b.Honest) (hdiscreet : b.Discreet) (hb : b.Within (Omits id))
    (outside : (c : E.Call) → StateM σ (E.Answer c)) (depth : Nat) (c : ((calls N).sum E).Call)
    (hc : Omits id c) : Levels id (perform b outside depth c) := by
  induction depth generalizing c with
  | zero =>
    intro w x w' h
    contradiction
  | succ depth ih =>
    cases c with
    | inr c =>
      intro w x w' h
      cases h
      rfl
    | inl c =>
      cases c with
      | map project typeId location rootPath => exact levels_performMap hb ih _
      | registerSubscriber s =>
        intro w x w' h
        exact surplus_of_performRegister hb ih (fun hs => absurd hs hc) h
      | subscriber id' => exact levels_performLookup hhonest hdiscreet hb ih id'
      | _ =>
        intro w x w' h
        cases h
        exact surplus_congr rfl rfl

theorem announcements_eq (hhonest : b.Honest) (hdiscreet : b.Discreet) {p : Program N E α} {a : α}
    (hp : p.Within (Omits id)) (hb : b.Within (Omits id)) (h : run b outside depth p w = some (a, w'))
    (hknown : w.registry.Knows id → w'.registry.Knows id)
    : announcements id w'.journal
        =
      announcements id w.journal + if w'.registry.Knows id ∧ ¬ w.registry.Knows id then 1 else 0 := by
  have hlevel := Levels.runM (levels_perform hhonest hdiscreet hb outside depth) hp w a w' h
  unfold surplus at hlevel
  by_cases hw : w.registry.Knows id
  . have hw' := hknown hw
    rw [if_pos hw, if_pos hw'] at hlevel
    rw [if_neg (fun hn => hn.2 hw)]
    omega
  . by_cases hw' : w'.registry.Knows id
    . rw [if_neg hw, if_pos hw'] at hlevel
      rw [if_pos ⟨hw', hw⟩]
      omega
    . rw [if_neg hw, if_neg hw'] at hlevel
      rw [if_neg (fun hn => hw' hn.1)]
      omega

end Perform

structure Finds (b : Behaviour N E) (outside : (c : E.Call) → StateM σ (E.Answer c))
    (es : List (World N σ × Event (acts N E))) (w' : World N σ) : Prop where
  named : ∀ v id s, (v, ⟨.lookedUp id (some s), ()⟩) ∈ es →
    s.id = id ∨ ∃ factory fs, (b.create factory id).Run fs (.ok (some s))
  lasting : ∀ before v id s after, es = before ++ (v, ⟨.lookedUp id (some s), ()⟩) :: after → s.id = id →
    ∀ u, u = w' ∨ u ∈ after.map Prod.fst →
      ∃ s', s'.id = id ∧ ∀ depth, perform b outside (depth + 1) (.inl (.subscriber id)) u = some (some s', u)

theorem Plays.finds {b : Behaviour N E} {outside : (c : E.Call) → StateM σ (E.Answer c)} {depth : Nat}
    {p : Program N E α} {w w' : World N σ} {es : List (World N σ × Event (acts N E))} {a : α}
    (h : Plays b outside depth p w es a w') (hw : w.registry.Named) : Finds b outside es w' := by
  have hdue := h.due hw
  constructor
  case named =>
    intro v id s hm
    exact (hdue _ hm).2
  case lasting =>
    rintro before v id s after rfl hs u hu
    have hknows : v.registry.Knows id := by
      rw [← hs]
      exact (hdue (v, ⟨.lookedUp id (some s), ()⟩) (by simp)).1
    obtain ⟨hbefore, t, ht, hafter⟩ := h.timeline.at_mem
    have hv : v.registry.Named := (grows_of_timeline hbefore).2.named hw
    obtain ⟨hall, hend⟩ := grows_of_timeline hafter
    have hgrows : Grows v.registry u.registry := by
      apply ht.grows.trans
      rcases hu with rfl | hu
      . exact hend
      . obtain ⟨m, hm, rfl⟩ := List.mem_map.1 hu
        exact hall m hm
    exact perform_subscriber b outside (hgrows.named hv) (hgrows.knows id hknows)

def Declined (b : Behaviour N E) (outside : (c : E.Call) → StateM σ (E.Answer c)) (depth : Nat) (id : SubscriberId)
    (w w' : World N σ) : Prop :=
  (w.registry.factoryFor? id = none ∧ w' = w) ∨
    ∃ factory made, w.registry.factoryFor? id = some factory ∧ (∀ s, made ≠ .ok (some s)) ∧
      run b outside depth (b.create factory id) (w.noting (.asked id.qualifier id)) = some (made, w') ∧
      ((b.create factory id).Within Idle → w'.registry = w.registry ∧
        ∀ id', announcements id' w'.journal = announcements id' w.journal)

theorem exists_declined {b : Behaviour N E} {outside : (c : E.Call) → StateM σ (E.Answer c)} {depth : Nat}
    {id : SubscriberId} {w w' : World N σ}
    (h : perform b outside depth (.inl (.subscriber id)) w = some (none, w'))
    : ∃ depth', Declined b outside depth' id w w' := by
  cases depth with
  | zero => contradiction
  | succ depth =>
    refine ⟨depth, ?_⟩
    have h : performLookup b (perform b outside depth) id w = some (none, w') := h
    rcases lookup_cases h with
      ⟨_, hn, _⟩ | ⟨_, hf, _, rfl⟩ | ⟨factory, made, v, _, hf, hv, ⟨_, _, hn, _⟩ | ⟨hmade, _, rfl⟩⟩
    . contradiction
    . exact .inl ⟨hf, rfl⟩
    . contradiction
    . refine .inr ⟨factory, made, hf, hmade, hv, ?_⟩
      intro hidle
      obtain ⟨t, rfl⟩ := eq_of_run_of_idle hidle hv
      refine ⟨rfl, ?_⟩
      intro id'
      show announcements id' (w.journal ++ [_]) = _
      unfold announcements
      rw [List.countP_append, List.countP_singleton]
      rfl

/--
Whoever was found by the name that it was looked up by is found from then on, without a factory or a listener being
called. Who is created in look-ups is announced once, if factories keep to the names and to themselves; and nobody
is announced if nobody is created.
-/
theorem lookups_create_once (b : Behaviour N E) (outside : (c : E.Call) → StateM σ (E.Answer c)) {depth : Nat}
    {p : Program N E α} {w w' : World N σ} {a : α} (hr : w.registry.Reachable)
    (h : run b outside depth p w = some (a, w'))
    : ((∃ es, Plays b outside depth p w es a w') ∧
          ∀ es, Plays b outside depth p w es a w' → Finds b outside es w') ∧
        (b.Honest → b.Discreet → ∀ id, p.Within (Omits id) → b.Within (Omits id) →
          announcements id w'.journal
            =
          announcements id w.journal + if w'.registry.Knows id ∧ ¬ w.registry.Knows id then 1 else 0) ∧
        ∀ depth id v v', perform b outside depth (.inl (.subscriber id)) v = some (none, v') →
          ∃ depth', Declined b outside depth' id v v' := by
  have hplays := (run_eq_some_iff b outside).1 h
  refine ⟨⟨hplays, fun _ hes => hes.finds hr.named⟩, ?_, fun _ _ _ _ => exists_declined⟩
  intro hhonest hdiscreet id hp hb
  obtain ⟨es, hes⟩ := hplays
  exact announcements_eq hhonest hdiscreet hp hb h ((grows_of_timeline hes.timeline).2.knows id)

/--
A listener that looks the subscriber up again when it is told of it, and a factory that knows it
alone.
-/
theorem lookups_create_once_site
    : let site : SubscriberId := ⟨"git", "site"⟩
      let create : Nat → SubscriberId → Program Nat .empty (Except Failure (Option Subscriber)) := fun _ id =>
        return .ok (if id = site then some ⟨id, fun _ => .ok none⟩ else none)
      let hear : Nat → SubscriberId → Program Nat .empty Unit := fun _ id => do
        let _ ← deal (.subscriber id)
        return ()
      let b : Behaviour Nat .empty := ⟨fun _ _ => return .ok (), create, hear⟩
      let outside : (c : Interface.empty.Call) → StateM Unit (Interface.empty.Answer c) := fun c => c.elim
      let p : Program Nat .empty (List (Option SubscriberId)) := do
        let first ← deal (.subscriber site)
        let second ← deal (.subscriber site)
        let other ← deal (.subscriber ⟨"git", "notes"⟩)
        return [first.map Subscriber.id, second.map Subscriber.id, other.map Subscriber.id]
      let r : Registry Nat := ((({} : Registry Nat).registerFactory "git" 0).addListener 7).2
      let w : World Nat Unit := { registry := r, surroundings := () }
      ∃ w', w.registry.Reachable ∧ run b outside 2 p w = some ([some site, some site, none], w') ∧
        (∃ es, Plays b outside 2 p w es [some site, some site, none] w' ∧ Finds b outside es w') ∧
        w'.journal
          =
        [.asked "git" site, .announced site [0], .told 0 site, .delivered site, .asked "git" ⟨"git", "notes"⟩] ∧
        announcements site w'.journal = 0 + if w'.registry.Knows site ∧ ¬ w.registry.Knows site then 1 else 0 := by
  intro site create hear b outside p r w
  have hr : w.registry.Reachable := .addListener (.registerFactory .empty _ _) _
  have hresult : (run b outside 2 p w).map (fun x => (x.1, x.2.journal))
      = some ([some site, some site, none], [.asked "git" site, .announced site [0], .told 0 site,
          .delivered site, .asked "git" ⟨"git", "notes"⟩]) := by
    decide +kernel
  have hhonest : b.Honest := by
    intro factory id es s h
    generalize hmade : (Except.ok (some s) : Except Failure (Option Subscriber)) = made at h
    cases h
    have hs := Except.ok.inj hmade
    split at hs
    . cases hs
      rfl
    . contradiction
  have hdiscreet : b.Discreet := fun _ _ => trivial
  have hp : p.Within (Omits site) := ⟨trivial, fun _ => ⟨trivial, fun _ => ⟨trivial, fun _ => trivial⟩⟩⟩
  have hb : b.Within (Omits site) :=
    ⟨fun _ _ _ => trivial, fun _ _ _ => trivial, fun _ _ _ => ⟨trivial, fun _ => trivial⟩⟩
  obtain ⟨⟨answer, w'⟩, hrun, hx⟩ := Option.map_eq_some_iff.1 hresult
  obtain ⟨rfl, hjournal⟩ := Prod.mk.inj hx
  obtain ⟨⟨⟨es, hes⟩, hfinds⟩, honce, _⟩ := lookups_create_once b outside hr hrun
  exact ⟨w', hr, hrun, ⟨es, hes, hfinds es hes⟩, hjournal, honce hhonest hdiscreet site hp hb⟩

/--
A factory that gives what it creates another name than the one that it was asked for: what is found has the wrong
name, and is created and announced again when it is looked up again.
-/
theorem created_under_another_name
    : let site : SubscriberId := ⟨"git", "site"⟩
      let mirror : SubscriberId := ⟨"git", "mirror"⟩
      let create : Nat → SubscriberId → Program Nat .empty (Except Failure (Option Subscriber)) := fun _ _ =>
        return .ok (some ⟨mirror, fun _ => .ok none⟩)
      let b : Behaviour Nat .empty := ⟨fun _ _ => return .ok (), create, fun _ _ => return ()⟩
      let outside : (c : Interface.empty.Call) → StateM Unit (Interface.empty.Answer c) := fun c => c.elim
      let r : Registry Nat := ((({} : Registry Nat).registerFactory "git" 0).addListener 7).2
      let w : World Nat Unit := { registry := r, surroundings := () }
      ∃ s v s' v', w.registry.Reachable ∧ perform b outside 1 (.inl (.subscriber site)) w = some (some s, v) ∧
        s.id ≠ site ∧ perform b outside 1 (.inl (.subscriber site)) v = some (some s', v') ∧
        v.journal = [.asked "git" site, .announced mirror [0], .told 0 mirror, .delivered mirror] ∧
        v'.journal = v.journal ++ v.journal := by
  intro site mirror create b outside r w
  have hr : w.registry.Reachable := .addListener (.registerFactory .empty _ _) _
  let s : Subscriber := ⟨mirror, fun _ => .ok none⟩
  let lookedUp : World Nat Unit → World Nat Unit := fun u =>
    (((u.noting (.asked "git" site)).announcing s).noting (.told 0 mirror)).noting (.delivered mirror)
  -- What was created is not found by the name that it was looked up by.
  have hlookup : ∀ u : World Nat Unit, u.registry.subscriber? site = none → u.registry.factoryFor? site = some 0 →
      u.registry.listeners = [(0, 7)] →
      perform b outside 1 (.inl (.subscriber site)) u = some (some s, lookedUp u) := by
    intro u hnone hfactory hlisteners
    have hregister : performRegister b (perform b outside 0) s (u.noting (.asked "git" site))
        = some ((), lookedUp u) := by
      rw [performRegister_eq]
      show (tell b _ _ u.registry.listeners _).map _ = _
      rw [hlisteners]
      rfl
    show performLookup b (perform b outside 0) site u = _
    unfold performLookup
    rw [get_bind_apply, hnone, hfactory]
    show (performRegister b (perform b outside 0) s (u.noting (.asked "git" site))).bind _ = _
    rw [hregister]
    rfl
  have hfactory : w.registry.factoryFor? site = some 0 := by decide +kernel
  have hnone : (lookedUp w).registry.subscriber? site = none := by
    show (w.registry.enterSubscriber s).subscriber? site = none
    rw [subscriber?_enterSubscriber, if_neg (by decide)]
    rfl
  exact ⟨s, lookedUp w, s, lookedUp (lookedUp w), hr, hlookup w rfl hfactory rfl, (by decide : mirror ≠ site),
    hlookup _ hnone hfactory rfl, rfl, rfl⟩

end Registry
end SharedWorkspace
