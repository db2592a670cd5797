import SharedWorkspace.Proofs.Dialogue
import SharedWorkspace.Proofs.Registry.Reachable

/-!
Dealings with a registry, taken apart. What a call comes to, together with those who are called back and all
that they do in turn, is a dialogue of single acts, each of which changes the world once (`perform_eq`). Thus
the run of a program is a list of acts, one after another (`run_eq_some_iff`).
-/

namespace SharedWorkspace

namespace Dialogue

variable {I J : Interface} {σ α β : Type}

section Lawful

variable {m : Type → Type} [Monad m] [LawfulMonad m]

theorem runM_bind (h : (c : I.Call) → m (I.Answer c)) (d : Dialogue I α) (f : α → Dialogue I β)
    : (d >>= f).runM h = d.runM h >>= fun a => (f a).runM h := by
  induction d with
  | result a =>
    symm
    exact LawfulMonad.pure_bind a fun a => (f a).runM h
  | ask c k ih =>
    show (h c >>= fun x => (k x >>= f).runM h) = (h c >>= fun x => (k x).runM h) >>= _
    simp only [ih, LawfulMonad.bind_assoc]

theorem runM_translate (h : (c : J.Call) → m (J.Answer c)) (f : (c : I.Call) → Dialogue J (I.Answer c))
    (d : Dialogue I α) : (d.translate f).runM h = d.runM fun c => (f c).runM h := by
  induction d with
  | result => rfl
  | ask c k ih =>
    show (f c >>= fun x => (k x).translate f).runM h = _
    rw [runM_bind]
    congr 1
    funext x
    exact ih x

end Lawful

theorem runM_eq_some_iff {h : (c : I.Call) → StateT σ Option (I.Answer c)} {d : Dialogue I α} {s t : σ} {a : α}
    : d.runM h s = some (a, t)
        ↔ ∃ es, d.Run (es.map Prod.snd) a ∧ Timeline (fun s e t => h e.1 s = some (e.2, t)) s es t := by
  constructor
  . intro hd
    induction d generalizing s with
    | result b =>
      cases hd
      exact ⟨[], .result _, .nil _⟩
    | ask c k ih =>
      obtain ⟨⟨x, u⟩, hx, hu⟩ := Option.bind_eq_some_iff.1 hd
      obtain ⟨es, hr, ht⟩ := ih x hu
      exact ⟨(s, ⟨c, x⟩) :: es, .ask x hr, .cons hx ht⟩
  . rintro ⟨es, hr, ht⟩
    induction ht generalizing d with
    | nil =>
      cases hr
      rfl
    | cons hs _ ih =>
      cases hr with
      | ask x hr => exact Option.bind_eq_some_iff.2 ⟨_, hs, ih hr⟩

end Dialogue

namespace Registry

open Dialogue

/--
What is done at once, by a registry or around it.
-/
inductive Act (N : Type) (E : Interface) where
  | look
  | registerType (id : ProviderTypeId) (type : N)
  | setProvider (p : Provider)
  | restoreProvider (project : ProjectName) (previous : Option Provider)
  | unmap (project : ProjectName)
  | registerFactory (qualifier : String) (factory : N)
  | addListener (listener : N)
  | removeListener (id : ListenerId)
  | enter (s : Subscriber)
  | ask (qualifier : String) (id : SubscriberId)
  | announce (id : SubscriberId) (listeners : List (ListenerId × N))
  | tell (listener : ListenerId × N) (id : SubscriberId)
  | delivered (id : SubscriberId)
  | lookedUp (id : SubscriberId) (result : Option Subscriber)
  | outside (c : E.Call)
  | giveUp

@[reducible]
def Act.Answer {N : Type} {E : Interface} : Act N E → Type
  | look => Registry N
  | unmap _ => Option Provider
  | addListener _ => ListenerId
  | removeListener _ => Bool
  | outside c => E.Answer c
  | giveUp => Empty
  | _ => Unit

abbrev acts (N : Type) (E : Interface) : Interface where
  Call := Act N E
  Answer := Act.Answer

variable {N σ α : Type} {E : Interface}

def act (a : Act N E) : Dialogue (acts N E) a.Answer :=
  call (I := acts N E) a

def carryOut (outside : (c : E.Call) → StateM σ (E.Answer c)) : (a : Act N E) → Change N σ a.Answer
  | .look => do return (← get).registry
  | .registerType id type => World.change fun r => ((), r.registerType id type)
  | .setProvider p => World.change fun r => ((), r.setProvider p)
  | .restoreProvider project previous => World.change fun r => ((), r.restoreProvider project previous)
  | .unmap project => World.change fun r => r.unmap project
  | .registerFactory qualifier factory => World.change fun r => ((), r.registerFactory qualifier factory)
  | .addListener listener => World.change fun r => r.addListener listener
  | .removeListener id => World.change fun r => r.removeListener id
  | .enter s => World.change fun r => ((), r.enterSubscriber s)
  | .ask qualifier id => World.note (.asked qualifier id)
  | .announce id listeners => World.note (.announced id (listeners.map Prod.fst))
  | .tell listener id => World.note (.told listener.1 id)
  | .delivered id => World.note (.delivered id)
  | .lookedUp _ _ => return ()
  | .outside c => modifyGet fun w =>
      ((outside c w.surroundings).1, { w with surroundings := (outside c w.surroundings).2 })
  | .giveUp => failure

abbrev Enactment (N : Type) (E : Interface) :=
  (c : ((calls N).sum E).Call) → Dialogue (acts N E) (((calls N).sum E).Answer c)

def enactMap (b : Behaviour N E) (inner : Enactment N E) (p : Provider)
    : Dialogue (acts N E) (Except Failure Provider) := do
  let r ← act .look
  match r.providerType? p.typeId with
  | none => return .error (.unknownProviderType p.typeId)
  | some type =>
    act (.setProvider p)
    match ← (b.configure type p).translate inner with
    | .ok () => return .ok p
    | .error e =>
      act (.restoreProvider p.project (r.providerFor p.project))
      return .error (.configure p.project e)

def enactTell (b : Behaviour N E) (inner : Enactment N E) (id : SubscriberId)
    : List (ListenerId × N) → Dialogue (acts N E) Unit
  | [] => return ()
  | listener :: rest => do
    act (.tell listener id)
    (b.hear listener.2 id).translate inner
    enactTell b inner id rest

def enactRegister (b : Behaviour N E) (inner : Enactment N E) (s : Subscriber)
    : Dialogue (acts N E) Unit := do
  act (.enter s)
  let r ← act .look
  act (.announce s.id r.listeners)
  enactTell b inner s.id r.listeners
  act (.delivered s.id)

def enactFind (b : Behaviour N E) (inner : Enactment N E) (id : SubscriberId)
    : Dialogue (acts N E) (Option Subscriber) := do
  let r ← act .look
  match r.subscriber? id with
  | some s => return some s
  | none =>
    match r.factoryFor? id with
    | none => return none
    | some factory =>
      act (.ask id.qualifier id)
      match ← (b.create factory id).translate inner with
      | .ok (some s) =>
        enactRegister b inner s
        return some s
      | .ok none => return none
      | .error _ => return none

def enactLookup (b : Behaviour N E) (inner : Enactment N E) (id : SubscriberId)
    : Dialogue (acts N E) (Option Subscriber) := do
  let result ← enactFind b inner id
  act (.lookedUp id result)
  return result

def enactWith (b : Behaviour N E) (inner : Enactment N E) : Enactment N E
  | .inr c => act (.outside c)
  | .inl .look => act .look
  | .inl (.registerType id type) => act (.registerType id type)
  | .inl (.map project typeId location rootPath) => enactMap b inner { typeId, project, location, rootPath }
  | .inl (.unmap project) => act (.unmap project)
  | .inl (.registerFactory qualifier factory) => act (.registerFactory qualifier factory)
  | .inl (.registerSubscriber s) => enactRegister b inner s
  | .inl (.subscriber id) => enactLookup b inner id
  | .inl (.addListener listener) => act (.addListener listener)
  | .inl (.removeListener id) => act (.removeListener id)

def enact (b : Behaviour N E) : (depth : Nat) → Enactment N E
  | 0 => fun _ => act .giveUp >>= Empty.elim
  | depth + 1 => enactWith b (enact b depth)

section Perform

variable (b : Behaviour N E) (outside : (c : E.Call) → StateM σ (E.Answer c)) (inner : Enactment N E)

def carryOutAll (d : Dialogue (acts N E) α) : Change N σ α :=
  d.runM (carryOut outside)

def handlerOf : Handler N σ E :=
  fun c => carryOutAll outside (inner c)

theorem carryOutAll_bind {β : Type} (d : Dialogue (acts N E) α) (f : α → Dialogue (acts N E) β)
    (w : World N σ)
    : carryOutAll outside (d >>= f) w
        = (carryOutAll outside d w).bind fun x => carryOutAll outside (f x.1) x.2 := by
  unfold carryOutAll
  rw [runM_bind]
  rfl

theorem carryOutAll_look_bind (f : Registry N → Dialogue (acts N E) α) (w : World N σ)
    : carryOutAll outside (act .look >>= f) w = carryOutAll outside (f w.registry) w := rfl

theorem carryOutAll_translate (p : Program N E α)
    : carryOutAll outside (p.translate inner) = p.runM (handlerOf outside inner) :=
  runM_translate _ _ p

theorem carryOutAll_act (a : Act N E) : carryOutAll outside (act a) = carryOut outside a :=
  bind_pure (carryOut outside a)

theorem performMap_eq_carryOutAll (p : Provider)
    : performMap b (handlerOf outside inner) p = carryOutAll outside (enactMap b inner p) := by
  funext w
  rw [performMap_eq]
  unfold enactMap
  rw [carryOutAll_look_bind]
  cases w.registry.providerType? p.typeId with
  | none => rfl
  | some type =>
    dsimp only
    show _ = carryOutAll outside ((b.configure type p).translate inner >>= _) (w.mapped p)
    rw [carryOutAll_bind, carryOutAll_translate]
    cases (b.configure type p).runM (handlerOf outside inner) (w.mapped p) with
    | none => rfl
    | some x =>
      obtain ⟨_ | _, v⟩ := x <;> rfl

theorem tell_eq_carryOutAll (id : SubscriberId) (listeners : List (ListenerId × N))
    : tell b (handlerOf outside inner) id listeners = carryOutAll outside (enactTell b inner id listeners) := by
  induction listeners with
  | nil => rfl
  | cons listener rest ih =>
    funext w
    unfold tell enactTell
    rw [ih, carryOutAll_bind, carryOutAll_act]
    show _ = carryOutAll outside ((b.hear listener.2 id).translate inner >>= _) _
    rw [carryOutAll_bind, carryOutAll_translate]
    rfl

theorem performRegister_eq_carryOutAll (s : Subscriber)
    : performRegister b (handlerOf outside inner) s = carryOutAll outside (enactRegister b inner s) := by
  funext w
  show (tell b (handlerOf outside inner) s.id _ _).bind _ = carryOutAll outside (enactTell b inner s.id _ >>= _) _
  rw [tell_eq_carryOutAll, carryOutAll_bind]
  rfl

theorem carryOutAll_enactLookup (id : SubscriberId)
    : carryOutAll outside (enactLookup b inner id) = carryOutAll outside (enactFind b inner id) := by
  funext w
  unfold enactLookup
  rw [carryOutAll_bind]
  cases carryOutAll outside (enactFind b inner id) w <;> rfl

theorem performLookup_eq_carryOutAll (id : SubscriberId)
    : performLookup b (handlerOf outside inner) id = carryOutAll outside (enactLookup b inner id) := by
  rw [carryOutAll_enactLookup]
  funext w
  unfold performLookup enactFind
  rw [get_bind_apply, carryOutAll_look_bind]
  cases w.registry.subscriber? id with
  | some s => rfl
  | none =>
    dsimp only
    cases w.registry.factoryFor? id with
    | none => rfl
    | some factory =>
      show ((b.create factory id).runM (handlerOf outside inner) _).bind _
        = carryOutAll outside ((b.create factory id).translate inner >>= _) _
      rw [carryOutAll_bind, carryOutAll_translate]
      congr 1
      funext x
      obtain ⟨_ | _ | s, v⟩ := x
      . rfl
      . rfl
      . show (performRegister b (handlerOf outside inner) s v).bind _
          = carryOutAll outside (enactRegister b inner s >>= _) v
        rw [performRegister_eq_carryOutAll, carryOutAll_bind]
        rfl

theorem performWith_eq_carryOutAll (c : ((calls N).sum E).Call)
    : performWith b (handlerOf outside inner) outside c = carryOutAll outside (enactWith b inner c) := by
  cases c with
  | inr c => exact (carryOutAll_act outside (.outside c)).symm
  | inl c =>
    cases c with
    | look => exact (carryOutAll_act outside .look).symm
    | registerType id type => exact (carryOutAll_act outside (.registerType id type)).symm
    | map project typeId location rootPath => exact performMap_eq_carryOutAll b outside inner _
    | unmap project => exact (carryOutAll_act outside (.unmap project)).symm
    | registerFactory q f => exact (carryOutAll_act outside (.registerFactory q f)).symm
    | registerSubscriber s => exact performRegister_eq_carryOutAll b outside inner s
    | subscriber id => exact performLookup_eq_carryOutAll b outside inner id
    | addListener l => exact (carryOutAll_act outside (.addListener l)).symm
    | removeListener id => exact (carryOutAll_act outside (.removeListener id)).symm

theorem perform_eq (depth : Nat) : perform b outside depth = handlerOf outside (enact b depth) := by
  induction depth with
  | zero => rfl
  | succ depth ih =>
    funext c
    unfold perform
    rw [ih]
    exact performWith_eq_carryOutAll b outside (enact b depth) c

def Acted (w : World N σ) (e : Event (acts N E)) (w' : World N σ) : Prop :=
  carryOut outside e.1 w = some (e.2, w')

structure Plays (depth : Nat) (p : Program N E α) (w : World N σ) (es : List (World N σ × Event (acts N E)))
    (a : α) (w' : World N σ) : Prop where
  run : (p.translate (enact b depth)).Run (es.map Prod.snd) a
  timeline : Timeline (Acted outside) w es w'

theorem run_eq_some_iff {depth : Nat} {p : Program N E α} {w w' : World N σ} {a : α}
    : run b outside depth p w = some (a, w') ↔ ∃ es, Plays b outside depth p w es a w' := by
  unfold run
  rw [perform_eq, ← carryOutAll_translate]
  unfold carryOutAll
  rw [runM_eq_some_iff]
  constructor
  . rintro ⟨es, hr, ht⟩
    exact ⟨es, hr, ht⟩
  . rintro ⟨es, hr, ht⟩
    exact ⟨es, hr, ht⟩

end Perform

section Subscribers

def Named (r : Registry N) : Prop :=
  ∀ id s, r.subscriber? id = some s → s.id = id

def Knows (r : Registry N) (id : SubscriberId) : Prop :=
  (r.subscriber? id).isSome

instance (r : Registry N) (id : SubscriberId) : Decidable (r.Knows id) :=
  inferInstanceAs (Decidable ((r.subscriber? id).isSome = true))

theorem subscriber?_enterSubscriber (r : Registry N) (s : Subscriber) (id : SubscriberId)
    : (r.enterSubscriber s).subscriber? id = if id = s.id then some s else r.subscriber? id :=
  OrderedMap.find?_insert_eq_ite _ _ _ _

theorem knows_enterSubscriber (r : Registry N) (s : Subscriber) : (r.enterSubscriber s).Knows s.id := by
  unfold Knows
  rw [subscriber?_enterSubscriber, if_pos rfl]
  rfl

theorem Named.enterSubscriber {r : Registry N} (h : r.Named) (s : Subscriber)
    : (r.enterSubscriber s).Named := by
  intro id s' hs'
  rw [subscriber?_enterSubscriber] at hs'
  split at hs'
  . next hid =>
    cases hs'
    exact hid.symm
  . exact h id s' hs'

theorem Reachable.named {r : Registry N} (h : r.Reachable) : r.Named := by
  induction h with
  | empty =>
    intro id s hs
    contradiction
  | enterSubscriber _ s ih => exact ih.enterSubscriber s
  | restoreProvider _ _ project ih =>
    unfold Registry.restoreProvider
    split <;> exact ih
  | _ => assumption

structure Grows (r r' : Registry N) : Prop where
  named : r.Named → r'.Named
  knows : ∀ id, r.Knows id → r'.Knows id

namespace Grows

theorem refl (r : Registry N) : Grows r r :=
  ⟨id, fun _ => id⟩

theorem trans {r s t : Registry N} (h : Grows r s) (h' : Grows s t) : Grows r t :=
  ⟨fun hr => h'.named (h.named hr), fun id hr => h'.knows id (h.knows id hr)⟩

theorem of_eq {r r' : Registry N} (h : r'.subscribers = r.subscribers) : Grows r r' := by
  have hsubscriber : ∀ id, r'.subscriber? id = r.subscriber? id := by
    intro id
    unfold subscriber?
    rw [h]
  refine ⟨?_, ?_⟩
  . intro hr id s hs
    rw [hsubscriber] at hs
    exact hr id s hs
  . intro id hr
    unfold Knows at hr ⊢
    rwa [hsubscriber]

theorem enterSubscriber (r : Registry N) (s : Subscriber) : Grows r (r.enterSubscriber s) where
  named h := h.enterSubscriber s
  knows id h := by
    unfold Knows at h ⊢
    rw [subscriber?_enterSubscriber]
    split
    . rfl
    . exact h

end Grows

variable {outside : (c : E.Call) → StateM σ (E.Answer c)} {w w' : World N σ} {e : Event (acts N E)}

theorem Acted.subscribers_eq (h : Acted outside w e w') (he : ∀ s, e.1 ≠ .enter s)
    : w'.registry.subscribers = w.registry.subscribers := by
  obtain ⟨a, x⟩ := e
  cases a with
  | enter s => exact absurd rfl (he s)
  | restoreProvider project previous =>
    cases h
    unfold Registry.restoreProvider
    split <;> rfl
  | giveUp => exact x.elim
  | _ =>
    cases h
    rfl

theorem Acted.grows (h : Acted outside w e w') : Grows w.registry w'.registry := by
  by_cases he : ∃ s, e.1 = .enter s
  . obtain ⟨a, x⟩ := e
    obtain ⟨s, rfl⟩ := he
    cases h
    exact Grows.enterSubscriber _ s
  . exact Grows.of_eq (h.subscribers_eq fun s hs => he ⟨s, hs⟩)

end Subscribers

end Registry
end SharedWorkspace
