import SharedWorkspace.Proofs.Registry.Dues

/-!
Who is told of a new subscriber, and when. Listeners may change who listens, and may cause further announcements,
while they are told. Each announcement is delivered to those who listen when it is made, and is delivered before
anything else goes on (`run_fansOut`).
-/

namespace SharedWorkspace
namespace Registry

open Dialogue

variable {N σ α : Type} {E : Interface}

def enroll (listeners : List (ListenerId × N)) : Event (acts N E) → List (ListenerId × N)
  | ⟨.addListener listener, id⟩ => listeners ++ [(id, listener)]
  | ⟨.removeListener id, _⟩ => listeners.filter (·.1 ≠ id)
  | _ => listeners

def enrolled (es : List (Event (acts N E))) : List (ListenerId × N) :=
  es.foldl enroll []

def listening (r : Registry N) : List ListenerId :=
  r.listeners.map Prod.fst

structure Numbered (r : Registry N) : Prop where
  nodup : r.listening.Nodup
  lt : ∀ id ∈ r.listening, id < r.nextListener

def Retired (id : ListenerId) (r : Registry N) : Prop :=
  id < r.nextListener ∧ id ∉ r.listening

theorem removeListener_fst (r : Registry N) (id : ListenerId)
    : (r.removeListener id).1 = decide (id ∈ r.listening) := by
  unfold removeListener listening
  rw [Bool.eq_iff_iff]
  simp

theorem mem_listening_removeListener {r : Registry N} {id id' : ListenerId}
    : id' ∈ (r.removeListener id).2.listening ↔ id' ∈ r.listening ∧ id' ≠ id := by
  unfold removeListener listening
  simp

theorem listening_addListener (r : Registry N) (listener : N)
    : (r.addListener listener).2.listening = r.listening ++ [r.nextListener] := by
  unfold addListener listening
  simp

theorem Numbered.addListener {r : Registry N} (h : r.Numbered) (listener : N)
    : (r.addListener listener).2.Numbered where
  nodup := by
    rw [listening_addListener, List.nodup_append]
    refine ⟨h.nodup, by simp, ?_⟩
    intro id hid next hnext
    have hlt := h.lt id hid
    rw [List.mem_singleton.1 hnext]
    exact Nat.ne_of_lt hlt
  lt id hid := by
    rw [listening_addListener, List.mem_append, List.mem_singleton] at hid
    show id < r.nextListener + 1
    rcases hid with hid | rfl
    . exact Nat.lt_succ_of_lt (h.lt id hid)
    . exact Nat.lt_succ_self _

theorem Numbered.removeListener {r : Registry N} (h : r.Numbered) (id : ListenerId)
    : (r.removeListener id).2.Numbered where
  nodup := h.nodup.sublist (List.filter_sublist.map _)
  lt id' hid' := h.lt id' (mem_listening_removeListener.1 hid').1

namespace Acted

variable {outside : (c : E.Call) → StateM σ (E.Answer c)} {w w' : World N σ} {e : Event (acts N E)}

theorem listeners_cases (h : Acted outside w e w')
    : (∃ listener, e = ⟨.addListener listener, w.registry.nextListener⟩ ∧
        w'.registry = (w.registry.addListener listener).2) ∨
      (∃ id, e = ⟨.removeListener id, decide (id ∈ w.registry.listening)⟩ ∧
        w'.registry = (w.registry.removeListener id).2) ∨
      ((∀ listener, e.1 ≠ .addListener listener) ∧ (∀ id, e.1 ≠ .removeListener id) ∧
        w'.registry.listeners = w.registry.listeners ∧ w'.registry.nextListener = w.registry.nextListener) := by
  obtain ⟨a, x⟩ := e
  cases a with
  | addListener listener =>
    cases h
    exact .inl ⟨listener, rfl, rfl⟩
  | removeListener id =>
    cases h
    exact .inr (.inl ⟨id, congrArg (Sigma.mk _) (w.registry.removeListener_fst id), rfl⟩)
  | restoreProvider project previous =>
    cases h
    refine .inr (.inr ⟨nofun, nofun, ?_, ?_⟩) <;>
      (unfold Registry.restoreProvider
       split <;> rfl)
  | giveUp => exact x.elim
  | _ =>
    cases h
    exact .inr (.inr ⟨nofun, nofun, rfl, rfl⟩)

theorem listeners_eq (h : Acted outside w e w') : w'.registry.listeners = enroll w.registry.listeners e := by
  rcases h.listeners_cases with ⟨_, rfl, hr⟩ | ⟨_, rfl, hr⟩ | ⟨hadd, hremove, hr, _⟩
  . rw [hr]
    rfl
  . rw [hr]
    rfl
  . rw [hr]
    obtain ⟨a, x⟩ := e
    cases a with
    | addListener listener => exact absurd rfl (hadd listener)
    | removeListener id => exact absurd rfl (hremove id)
    | _ => rfl

theorem numbered (h : Acted outside w e w') (hw : w.registry.Numbered) : w'.registry.Numbered := by
  rcases h.listeners_cases with ⟨listener, _, hr⟩ | ⟨id, _, hr⟩ | ⟨_, _, hr, hn⟩
  . rw [hr]
    exact hw.addListener listener
  . rw [hr]
    exact hw.removeListener id
  . refine ⟨?_, ?_⟩
    . unfold listening
      rw [hr]
      exact hw.nodup
    . unfold listening
      rw [hr, hn]
      exact hw.lt

theorem retired {id : ListenerId} (h : Acted outside w e w') (hw : Retired id w.registry)
    : Retired id w'.registry := by
  unfold Retired at hw ⊢
  rcases h.listeners_cases with ⟨listener, _, hr⟩ | ⟨id', _, hr⟩ | ⟨_, _, hr, hn⟩
  . rw [hr, listening_addListener]
    refine ⟨Nat.lt_succ_of_lt hw.1, ?_⟩
    rw [List.mem_append, List.mem_singleton]
    rintro (hid | rfl)
    . exact hw.2 hid
    . exact Nat.lt_irrefl _ hw.1
  . rw [hr]
    refine ⟨hw.1, ?_⟩
    intro hid
    exact hw.2 (mem_listening_removeListener.1 hid).1
  . unfold listening
    rw [hr, hn]
    exact hw

theorem mem_listening {id : ListenerId} (h : Acted outside w e w') (hid : id ∈ w.registry.listening)
    (he : e.1 ≠ .removeListener id) : id ∈ w'.registry.listening := by
  rcases h.listeners_cases with ⟨listener, _, hr⟩ | ⟨id', rfl, hr⟩ | ⟨_, _, hr, _⟩
  . rw [hr, listening_addListener]
    exact List.mem_append_left _ hid
  . rw [hr, mem_listening_removeListener]
    refine ⟨hid, ?_⟩
    rintro rfl
    exact he rfl
  . unfold listening
    rw [hr]
    exact hid

theorem nextListener_le (h : Acted outside w e w')
    : w.registry.nextListener ≤ w'.registry.nextListener := by
  rcases h.listeners_cases with ⟨_, _, hr⟩ | ⟨_, _, hr⟩ | ⟨_, _, _, hn⟩
  . rw [hr]
    exact Nat.le_succ _
  . rw [hr]
    exact Nat.le_refl _
  . exact Nat.le_of_eq hn.symm

theorem answer_of_added {listener : N} {id : ListenerId}
    (h : Acted outside w ⟨.addListener listener, id⟩ w') : id = w.registry.nextListener := by
  cases h
  rfl

theorem answer_of_removed {id : ListenerId} {answer : Bool}
    (h : Acted outside w ⟨.removeListener id, answer⟩ w') : answer = decide (id ∈ w.registry.listening) := by
  cases h
  exact w.registry.removeListener_fst id

theorem retired_of_removed {id : ListenerId} (h : Acted outside w e w') (he : e.1 = .removeListener id)
    (hid : id < w.registry.nextListener) : Retired id w'.registry := by
  obtain ⟨a, x⟩ := e
  cases he
  cases h
  refine ⟨hid, ?_⟩
  rw [mem_listening_removeListener]
  simp

end Acted

section Timeline

variable {outside : (c : E.Call) → StateM σ (E.Answer c)} {w w' : World N σ}
variable {es : List (World N σ × Event (acts N E))}

theorem listeners_eq_of_timeline (h : Timeline (Acted outside) w es w')
    : w'.registry.listeners = (es.map Prod.snd).foldl enroll w.registry.listeners := by
  induction h with
  | nil => rfl
  | cons hs _ ih =>
    rw [ih, hs.listeners_eq]
    rfl

theorem retired_of_timeline {id : ListenerId} (h : Timeline (Acted outside) w es w')
    (hw : Retired id w.registry) : (∀ m ∈ es, Retired id m.1.registry) ∧ Retired id w'.registry :=
  h.keeps (K := fun w => Retired id w.registry) (fun _ _ _ hs => hs.retired) hw

end Timeline

structure Telling (N : Type) (E : Interface) where
  listener : ListenerId × N
  events : List (Event (acts N E))

namespace Telling

def all (id : SubscriberId) (t : Telling N E) : List (Event (acts N E)) :=
  ⟨.tell t.listener id, ()⟩ :: t.events

def IsOf (b : Behaviour N E) (id : SubscriberId) (t : Telling N E) : Prop :=
  ∃ depth, ((b.hear t.listener.2 id).translate (enact b depth)).Run t.events ()

end Telling

def Act.isDelivery : Act N E → Bool
  | announce _ _ | tell _ _ | delivered _ => true
  | _ => false

/--
Each announcement is delivered at once, to all whom it is for and in their order. What a listener does when it is
told is over, with all announcements that it causes, before the next one is told.
-/
inductive Balanced (b : Behaviour N E) : List (Event (acts N E)) → Prop where
  | nil : Balanced b []
  | cons {e : Event (acts N E)} {es : List (Event (acts N E))} (he : e.1.isDelivery = false)
      (h : Balanced b es) : Balanced b (e :: es)
  | announcement {id : SubscriberId} {ts : List (Telling N E)} {es : List (Event (acts N E))}
      (hts : ∀ t ∈ ts, Balanced b t.events) (hof : ∀ t ∈ ts, t.IsOf b id) (h : Balanced b es)
      : Balanced b (⟨.announce id (ts.map Telling.listener), ()⟩
          :: (ts.flatMap (Telling.all id) ++ ⟨.delivered id, ()⟩ :: es))

namespace Balanced

variable {b : Behaviour N E} {es fs : List (Event (acts N E))}

theorem append (h : Balanced b es) (h' : Balanced b fs) : Balanced b (es ++ fs) := by
  induction h with
  | nil => exact h'
  | cons he _ ih => exact .cons he ih
  | announcement hts hof _ _ ih =>
    rw [List.cons_append, List.append_assoc]
    exact .announcement hts hof ih

end Balanced

def Delivered (b : Behaviour N E) (id : SubscriberId) (listeners : List (ListenerId × N))
    (after : List (Event (acts N E))) : Prop :=
  ∃ (ts : List (Telling N E)) (rest : List (Event (acts N E))), ts.map Telling.listener = listeners ∧
    after = ts.flatMap (Telling.all id) ++ ⟨.delivered id, ()⟩ :: rest ∧
    ∀ t ∈ ts, Balanced b t.events ∧ t.IsOf b id

def Delivers (b : Behaviour N E) (es : List (Event (acts N E))) : Prop :=
  ∀ before id listeners after, es = before ++ ⟨.announce id listeners, ()⟩ :: after →
    Delivered b id listeners after

namespace Delivers

variable {b : Behaviour N E} {es fs : List (Event (acts N E))}

theorem append (h : Delivers b es) (h' : Delivers b fs) : Delivers b (es ++ fs) := by
  intro before id listeners after he
  rcases List.append_eq_append_iff.1 he with ⟨gs, _, hfs⟩ | ⟨gs, hes, hafter⟩
  . exact h' gs id listeners after hfs
  . cases gs with
    | nil => exact h' [] id listeners after hafter.symm
    | cons g gs =>
      cases hafter
      obtain ⟨ts, rest, hts, rfl, hof⟩ := h before id listeners gs hes
      exact ⟨ts, rest ++ fs, hts, by simp, hof⟩

theorem singleton {e : Event (acts N E)} (he : ∀ id listeners, e.1 ≠ .announce id listeners)
    : Delivers b [e] := by
  intro before id listeners after h
  cases before with
  | nil =>
    cases h
    exact absurd rfl (he id listeners)
  | cons => simp at h

theorem flatMap {id : SubscriberId} {ts : List (Telling N E)} (h : ∀ t ∈ ts, Delivers b t.events)
    : Delivers b (ts.flatMap (Telling.all id)) := by
  induction ts with
  | nil =>
    intro before _ _ _ he
    simp at he
  | cons t ts ih =>
    obtain ⟨ht, hts⟩ := List.forall_mem_cons.1 h
    have hall : Delivers b (t.all id) := append (singleton (e := ⟨.tell t.listener id, ()⟩) nofun) ht
    exact hall.append (ih hts)

end Delivers

theorem Balanced.delivers {b : Behaviour N E} {es : List (Event (acts N E))} (h : Balanced b es)
    : Delivers b es := by
  induction h with
  | nil =>
    intro before _ _ _ he
    simp at he
  | @cons e es he _ ih =>
    apply Delivers.append (Delivers.singleton (e := e) _) ih
    intro id listeners ha
    rw [ha] at he
    contradiction
  | @announcement id ts es hts hof h ih ih' =>
    have hrest : Delivers b (ts.flatMap (Telling.all id) ++ ⟨.delivered id, ()⟩ :: es) :=
      (Delivers.flatMap ih).append ((Delivers.singleton (e := ⟨.delivered id, ()⟩) nofun).append ih')
    intro before id' listeners after he
    cases before with
    | nil =>
      cases he
      exact ⟨ts, es, rfl, rfl, fun t ht => ⟨hts t ht, hof t ht⟩⟩
    | cons _ before => exact hrest before id' listeners after (List.cons.inj he).2

def Balances (b : Behaviour N E) (d : Dialogue (acts N E) α) : Prop :=
  ∀ es a, d.Run es a → Balanced b es

section Balances

variable {b : Behaviour N E} {depth : Nat}

theorem balances_result (a : α) : Balances b (result a) := by
  rintro _ _ ⟨⟩
  exact .nil

theorem balances_bind {β : Type} {d : Dialogue (acts N E) α} {f : α → Dialogue (acts N E) β}
    (hd : Balances b d) (hf : ∀ a, Balances b (f a)) : Balances b (d >>= f) := by
  intro es c h
  obtain ⟨fs, gs, a, rfl, h₁, h₂⟩ := run_bind_iff.1 h
  exact (hd fs a h₁).append (hf a gs c h₂)

theorem balances_act {a : Act N E} (ha : a.isDelivery = false) : Balances b (act a) := by
  intro es x h
  cases h with
  | ask x h =>
    cases h
    exact .cons ha .nil

theorem balances_translate (hi : ∀ c, Balances b (enact b depth c)) (p : Program N E α)
    : Balances b (p.translate (enact b depth)) := by
  induction p with
  | result a => exact balances_result a
  | ask c k ih => exact balances_bind (hi c) ih

theorem balances_enactMap (hi : ∀ c, Balances b (enact b depth c)) (p : Provider)
    : Balances b (enactMap b (enact b depth) p) := by
  unfold enactMap
  apply balances_bind (balances_act rfl)
  intro r
  split
  . exact balances_result _
  apply balances_bind (balances_act rfl)
  intro _
  apply balances_bind (balances_translate hi _)
  intro result
  split
  . exact balances_result _
  . exact balances_bind (balances_act rfl) fun _ => balances_result _

theorem exists_tellings_of_run (hi : ∀ c, Balances b (enact b depth c)) {id : SubscriberId}
    {listeners : List (ListenerId × N)} {es : List (Event (acts N E))} {u : Unit}
    (h : (enactTell b (enact b depth) id listeners).Run es u)
    : ∃ ts : List (Telling N E), ts.map Telling.listener = listeners ∧ es = ts.flatMap (Telling.all id) ∧
        ∀ t ∈ ts, Balanced b t.events ∧ t.IsOf b id := by
  induction listeners generalizing es with
  | nil =>
    cases h
    exact ⟨[], rfl, rfl, by simp⟩
  | cons listener rest ih =>
    unfold enactTell at h
    obtain ⟨⟨⟩, es, rfl, h₁⟩ := run_call_bind h
    obtain ⟨es, fs, ⟨⟩, rfl, h₂, h₃⟩ := run_bind_iff.1 h₁
    obtain ⟨ts, rfl, rfl, hts⟩ := ih h₃
    refine ⟨⟨listener, es⟩ :: ts, rfl, rfl, ?_⟩
    exact List.forall_mem_cons.2 ⟨⟨balances_translate hi _ es () h₂, depth, h₂⟩, hts⟩

theorem balances_enactRegister (hi : ∀ c, Balances b (enact b depth c)) (s : Subscriber)
    : Balances b (enactRegister b (enact b depth) s) := by
  intro es u h
  unfold enactRegister at h
  obtain ⟨⟨⟩, es, rfl, h₁⟩ := run_call_bind h
  obtain ⟨r, es, rfl, h₂⟩ := run_call_bind h₁
  obtain ⟨⟨⟩, es, rfl, h₃⟩ := run_call_bind h₂
  obtain ⟨es, fs, ⟨⟩, rfl, h₄, h₅⟩ := run_bind_iff.1 h₃
  obtain ⟨ts, hlisteners, rfl, hts⟩ := exists_tellings_of_run hi h₄
  cases h₅ with
  | ask _ h₅ =>
    cases h₅
    rw [← hlisteners]
    apply Balanced.cons rfl
    apply Balanced.cons rfl
    exact .announcement (fun t ht => (hts t ht).1) (fun t ht => (hts t ht).2) .nil

theorem balances_enactLookup (hi : ∀ c, Balances b (enact b depth c)) (id : SubscriberId)
    : Balances b (enactLookup b (enact b depth) id) := by
  have hfind : Balances b (enactFind b (enact b depth) id) := by
    unfold enactFind
    apply balances_bind (balances_act rfl)
    intro r
    split
    . exact balances_result _
    split
    . exact balances_result _
    apply balances_bind (balances_act rfl)
    intro _
    apply balances_bind (balances_translate hi _)
    intro result
    split
    . exact balances_bind (balances_enactRegister hi _) fun _ => balances_result _
    . exact balances_result _
    . exact balances_result _
  unfold enactLookup
  apply balances_bind hfind
  intro result
  exact balances_bind (balances_act rfl) fun _ => balances_result _

theorem balances_enact (b : Behaviour N E) (depth : Nat) (c : ((calls N).sum E).Call)
    : Balances b (enact b depth c) := by
  induction depth generalizing c with
  | zero =>
    intro es a h
    cases h with
    | ask x => exact x.elim
  | succ depth ih =>
    cases c with
    | inr c => exact balances_act rfl
    | inl c =>
      cases c with
      | map project typeId location rootPath => exact balances_enactMap ih _
      | registerSubscriber s => exact balances_enactRegister ih s
      | subscriber id => exact balances_enactLookup ih id
      | _ => exact balances_act rfl

end Balances

structure FansOut (b : Behaviour N E) (outside : (c : E.Call) → StateM σ (E.Answer c))
    (es : List (World N σ × Event (acts N E))) (w' : World N σ) : Prop where
  balanced : Balanced b (es.map Prod.snd)
  announced : ∀ before v id listeners after, es = before ++ (v, ⟨.announce id listeners, ()⟩) :: after →
    listeners = enrolled (before.map Prod.snd) ∧ (listeners.map Prod.fst).Nodup ∧
      Delivered b id listeners (after.map Prod.snd)
  heard : ∀ v listener id, (v, ⟨.tell listener id, ()⟩) ∈ es →
    ∃ s, s.id = id ∧ ∀ depth, perform b outside (depth + 1) (.inl (.subscriber id)) v = some (some s, v)
  kept : ∀ before v e after id, es = before ++ (v, e) :: after → v.registry.Knows id →
    (∀ m ∈ after, m.1.registry.Knows id) ∧ w'.registry.Knows id
  fresh : ∀ before v listener id mid v' listener' id' after,
    es = before ++ (v, ⟨.addListener listener, id⟩) :: (mid ++ (v', ⟨.addListener listener', id'⟩) :: after) →
    id ≠ id'
  removed : ∀ before v listener id mid v' answer after,
    es = before ++ (v, ⟨.addListener listener, id⟩) :: (mid ++ (v', ⟨.removeListener id, answer⟩) :: after) →
    (answer = true ↔ ∀ m ∈ mid, m.2.1 ≠ .removeListener id)
  silenced : ∀ before v id after, es = before ++ (v, ⟨.removeListener id, true⟩) :: after →
    ∀ m ∈ after, ∀ id' listeners, m.2.1 = .announce id' listeners → id ∉ listeners.map Prod.fst

section FansOut

variable {b : Behaviour N E} {outside : (c : E.Call) → StateM σ (E.Answer c)} {w w' v v' : World N σ}
variable {es mid after : List (World N σ × Event (acts N E))}

theorem numbered_of_timeline (h : Timeline (Acted outside) w es w') (hw : w.registry.Numbered)
    : (∀ m ∈ es, m.1.registry.Numbered) ∧ w'.registry.Numbered :=
  h.keeps (K := fun v => v.registry.Numbered) (fun _ _ _ hs => hs.numbered) hw

theorem nextListener_le_of_timeline (h : Timeline (Acted outside) w es w')
    : w.registry.nextListener ≤ w'.registry.nextListener :=
  (h.keeps (K := fun v => w.registry.nextListener ≤ v.registry.nextListener)
    (fun _ _ _ hs hm => Nat.le_trans hm hs.nextListener_le) (Nat.le_refl _)).2

theorem lt_nextListener_of_added {listener : N} {id : ListenerId}
    (h : Acted outside v ⟨.addListener listener, id⟩ w) (ht : Timeline (Acted outside) w mid v')
    : id < v'.registry.nextListener := by
  cases h
  exact nextListener_le_of_timeline ht

theorem mem_listening_iff_of_added {listener : N} {id : ListenerId}
    (h : Acted outside v ⟨.addListener listener, id⟩ w) (ht : Timeline (Acted outside) w mid v')
    : id ∈ v'.registry.listening ↔ ∀ m ∈ mid, m.2.1 ≠ .removeListener id := by
  constructor
  . intro hid m hm hremoved
    obtain ⟨before, after, rfl⟩ := List.append_of_mem hm
    obtain ⟨hbefore, u, hu, hafter⟩ := ht.at_mem
    have hretired := hu.retired_of_removed hremoved (lt_nextListener_of_added h hbefore)
    exact (retired_of_timeline hafter hretired).2.2 hid
  . intro hmid
    have hw : id ∈ w.registry.listening := by
      cases h
      rw [listening_addListener]
      simp
    exact (ht.keeps (K := fun u => id ∈ u.registry.listening)
      (fun m hm _ hs hid => hs.mem_listening hid (hmid m hm)) hw).2

theorem Plays.fansOut {depth : Nat} {p : Program N E α} {s : σ} {a : α}
    (h : Plays b outside depth p { registry := {}, surroundings := s } es a w') : FansOut b outside es w' := by
  have ht := h.timeline
  have hnamed : ∀ m ∈ es, m.1.registry.Named := by
    intro m hm
    exact ((grows_of_timeline ht).1 m hm).named Reachable.empty.named
  have hnumbered := (numbered_of_timeline ht ⟨.nil, by simp [listening]⟩).1
  have hdue := h.due Reachable.empty.named
  have hbalanced : Balanced b (es.map Prod.snd) :=
    balances_translate (balances_enact b depth) p _ a h.run
  constructor
  case balanced => exact hbalanced
  case announced =>
    rintro before v id listeners after rfl
    have hmem : (v, ⟨.announce id listeners, ()⟩) ∈ before ++ (v, ⟨.announce id listeners, ()⟩) :: after := by
      simp
    have hlisteners : listeners = v.registry.listeners := (hdue _ hmem).1
    refine ⟨hlisteners.trans (listeners_eq_of_timeline ht.at_mem.1), ?_, ?_⟩
    . rw [hlisteners]
      exact (hnumbered _ hmem).nodup
    . rw [List.map_append, List.map_cons] at hbalanced
      exact hbalanced.delivers _ id _ _ rfl
  case heard =>
    intro v listener id hm
    exact perform_subscriber b outside (hnamed _ hm) (hdue _ hm)
  case kept =>
    rintro before v e after id rfl hid
    obtain ⟨-, u, hu, hafter⟩ := ht.at_mem
    obtain ⟨hall, hend⟩ := grows_of_timeline hafter
    have hid := hu.grows.knows id hid
    exact ⟨fun m hm => (hall m hm).knows id hid, hend.knows id hid⟩
  case fresh =>
    rintro before v listener id mid v' listener' id' after rfl
    obtain ⟨-, u, hu, hmid⟩ := ht.at_mem
    obtain ⟨hmid, _, hv', -⟩ := hmid.at_mem
    rw [hv'.answer_of_added]
    exact Nat.ne_of_lt (lt_nextListener_of_added hu hmid)
  case removed =>
    rintro before v listener id mid v' answer after rfl
    obtain ⟨-, u, hu, hmid⟩ := ht.at_mem
    obtain ⟨hmid, _, hv', -⟩ := hmid.at_mem
    rw [hv'.answer_of_removed, decide_eq_true_iff]
    exact mem_listening_iff_of_added hu hmid
  case silenced =>
    rintro before v id after rfl m hm id' listeners hannounced
    obtain ⟨-, u, hu, hafter⟩ := ht.at_mem
    have hid : id ∈ v.registry.listening := of_decide_eq_true hu.answer_of_removed.symm
    have hretired := hu.retired_of_removed rfl ((hnumbered (v, _) (by simp)).lt id hid)
    have hdue := hdue m (by simp [hm])
    rw [hannounced] at hdue
    rw [hdue.1]
    exact ((retired_of_timeline hafter hretired).1 m hm).2

end FansOut

/--
Whatever is dealt with a registry, and whatever listeners do when they are told, each announcement reaches those
who listen when it is made, once and in their order, and is delivered before anything else goes on.
-/
theorem run_fansOut (b : Behaviour N E) (outside : (c : E.Call) → StateM σ (E.Answer c)) {depth : Nat}
    {p : Program N E α} {s : σ} {a : α} {w' : World N σ}
    (h : run b outside depth p { registry := {}, surroundings := s } = some (a, w'))
    : (∃ es, Plays b outside depth p { registry := {}, surroundings := s } es a w') ∧
        ∀ es, Plays b outside depth p { registry := {}, surroundings := s } es a w' →
          FansOut b outside es w' :=
  ⟨(run_eq_some_iff b outside).1 h, fun _ => Plays.fansOut⟩

/--
A listener that, when it is told of a subscriber, removes itself and the next one, adds another one, and looks up
a further subscriber.
-/
theorem run_fansOut_nested
    : let create : Nat → SubscriberId → Program Nat .empty (Except Failure (Option Subscriber)) := fun _ id =>
        return .ok (some ⟨id, fun _ => .ok none⟩)
      let outer : SubscriberId := ⟨"git", "outer"⟩
      let inner : SubscriberId := ⟨"git", "inner"⟩
      let hear : Nat → SubscriberId → Program Nat .empty Unit := fun listener _ => do
        if listener = 7 then
          let _ ← deal (.removeListener 0)
          let _ ← deal (.removeListener 1)
          let _ ← deal (.addListener 9)
          let _ ← deal (.subscriber inner)
      let b : Behaviour Nat .empty := ⟨fun _ _ => return .ok (), create, hear⟩
      let outside : (c : Interface.empty.Call) → StateM Unit (Interface.empty.Answer c) := fun c => c.elim
      let p : Program Nat .empty Bool := do
        let _ ← deal (.registerFactory "git" 0)
        let _ ← deal (.addListener 7)
        let _ ← deal (.addListener 8)
        let _ ← deal (.subscriber outer)
        deal (.removeListener 1)
      let w : World Nat Unit := { registry := {}, surroundings := () }
      ∃ w', run b outside 3 p w = some (false, w') ∧
        (∃ es, Plays b outside 3 p w es false w' ∧ FansOut b outside es w') ∧ w'.journal
          =
        [.asked "git" outer, .announced outer [0, 1], .told 0 outer, .asked "git" inner, .announced inner [2],
          .told 2 inner, .delivered inner, .told 1 outer, .delivered outer] := by
  intro create outer inner hear b outside p w
  have hresult : (run b outside 3 p w).map (fun x => (x.1, x.2.journal))
      = some (false, [.asked "git" outer, .announced outer [0, 1], .told 0 outer, .asked "git" inner,
          .announced inner [2], .told 2 inner, .delivered inner, .told 1 outer, .delivered outer]) := by
    decide +kernel
  obtain ⟨⟨answer, w'⟩, hrun, hx⟩ := Option.map_eq_some_iff.1 hresult
  obtain ⟨rfl, hjournal⟩ := Prod.mk.inj hx
  obtain ⟨⟨es, hes⟩, hfan⟩ := run_fansOut b outside hrun
  exact ⟨w', hrun, ⟨es, hes, hfan es hes⟩, hjournal⟩

end Registry
end SharedWorkspace
