import SharedWorkspace.Registry.Run

/-!
What all dealings with a registry have in common. If those who are called back change a registry in certain
ways only, then so does whoever calls them (`tracks_performWith`); it is enough to look at the single steps.
Two ways to perform calls are followed side by side, so that one of them may give up where the other does not.
-/

namespace SharedWorkspace

variable {N σ α β : Type} {E : Interface}

def Dialogue.Within {I : Interface} (M : I.Call → Prop) : Dialogue I α → Prop
  | .result _ => True
  | .ask c k => M c ∧ ∀ x, (k x).Within M

theorem Dialogue.within_of_forall {I : Interface} {M : I.Call → Prop} (hM : ∀ c, M c) (d : Dialogue I α)
    : d.Within M := by
  induction d with
  | result => trivial
  | ask c k ih => exact ⟨hM c, ih⟩

namespace Registry

structure Behaviour.Within (b : Behaviour N E) (M : ((calls N).sum E).Call → Prop) : Prop where
  configure : ∀ type p, M (.inl (.map p.project p.typeId p.location p.rootPath)) →
    (b.configure type p).Within M
  create : ∀ factory id, M (.inl (.subscriber id)) → (b.create factory id).Within M
  hear : ∀ listener id,
    (∃ s, M (.inl (.registerSubscriber s))) ∨ (∃ id, M (.inl (.subscriber id))) →
    (b.hear listener id).Within M

theorem Behaviour.within_of_forall (b : Behaviour N E) {M : ((calls N).sum E).Call → Prop} (hM : ∀ c, M c)
    : b.Within M where
  configure _ _ _ := Dialogue.within_of_forall hM _
  create _ _ _ := Dialogue.within_of_forall hM _
  hear _ _ _ := Dialogue.within_of_forall hM _

structure Lasting (R : Registry N → Registry N → Prop) : Prop where
  refl : ∀ r, R r r
  trans : ∀ {r s t}, R r s → R s t → R r t

theorem lasting_any : Lasting fun _ _ : Registry N => True :=
  ⟨fun _ => trivial, fun _ _ => trivial⟩

def Call.Leads (R : Registry N → Registry N → Prop) : Call N → Prop
  | .look => True
  | .registerType id type => ∀ r, R r (r.registerType id type)
  | .map project typeId location rootPath =>
    (∀ r, R r (r.setProvider { typeId, project, location, rootPath })) ∧
      ∀ r r', R r r' → R r (r'.restoreProvider project (r.providerFor project))
  | .unmap project => ∀ r, R r (r.unmap project).2
  | .registerFactory qualifier factory => ∀ r, R r (r.registerFactory qualifier factory)
  | .registerSubscriber _ | .subscriber _ => ∀ r s, R r (r.enterSubscriber s)
  | .addListener listener => ∀ r, R r (r.addListener listener).2
  | .removeListener id => ∀ r, R r (r.removeListener id).2

theorem Call.leads_any (c : Call N) : c.Leads fun _ _ => True := by
  cases c <;> simp [Leads]

/--
Whatever `c` comes to, `c'` comes to as well, and it changes the registry as `R` says.
-/
def Tracks (R : Registry N → Registry N → Prop) (c c' : Change N σ α) : Prop :=
  ∀ w a w', c w = some (a, w') → c' w = some (a, w') ∧ R w.registry w'.registry

variable {R : Registry N → Registry N → Prop} {M : ((calls N).sum E).Call → Prop}

namespace Tracks

variable {c c' : Change N σ α} {f f' : α → Change N σ β}

theorem pure (hR : Lasting R) (a : α) : Tracks R (pure a : Change N σ α) (pure a) := by
  intro w b w' h
  cases h
  exact ⟨rfl, hR.refl _⟩

theorem bind (hR : Lasting R) (hc : Tracks R c c') (hf : ∀ a, Tracks R (f a) (f' a))
    : Tracks R (c >>= f) (c' >>= f') := by
  intro w b w' h
  obtain ⟨⟨a, v⟩, hv, h⟩ := Option.bind_eq_some_iff.1 h
  obtain ⟨hv', hwv⟩ := hc w a v hv
  obtain ⟨h', hvw⟩ := hf a v b w' h
  exact ⟨Option.bind_eq_some_iff.2 ⟨(a, v), hv', h'⟩, hR.trans hwv hvw⟩

theorem get_bind {f f' : World N σ → Change N σ α} (hf : ∀ w, Tracks R (f w) (f' w))
    : Tracks R (get >>= f) (get >>= f') := by
  intro w b w' h
  exact hf w w b w' h

theorem note (hR : Lasting R) (deed : Deed)
    : Tracks R (World.note deed : Change N σ Unit) (World.note deed) := by
  intro w b w' h
  cases h
  exact ⟨rfl, hR.refl _⟩

theorem change {f : Registry N → α × Registry N} (hf : ∀ r, R r (f r).2)
    : Tracks R (World.change f : Change N σ α) (World.change f) := by
  intro w b w' h
  cases h
  exact ⟨rfl, hf _⟩

theorem runM (hR : Lasting R) {inner inner' : Handler N σ E}
    (hi : ∀ c, M c → Tracks R (inner c) (inner' c)) {p : Program N E α} (hp : p.Within M)
    : Tracks R (p.runM inner) (p.runM inner') := by
  induction p with
  | result a => exact pure hR a
  | ask c k ih => exact bind hR (hi c hp.1) fun x => ih x (hp.2 x)

end Tracks

namespace World

def mapped (w : World N σ) (p : Provider) : World N σ :=
  { w with registry := w.registry.setProvider p }

def settled (w : World N σ) (p : Provider)
    : Except Failure Unit × World N σ → Except Failure Provider × World N σ
  | (.ok (), v) => (.ok p, v)
  | (.error e, v) =>
    (.error (.configure p.project e),
      { v with registry := v.registry.restoreProvider p.project (w.registry.providerFor p.project) })

end World

variable {b : Behaviour N E} {inner inner' : Handler N σ E}

theorem get_bind_apply (f : World N σ → Change N σ α) (w : World N σ) : (get >>= f) w = f w w := rfl

theorem performMap_eq (b : Behaviour N E) (inner : Handler N σ E) (p : Provider) (w : World N σ)
    : performMap b inner p w
        =
      match w.registry.providerType? p.typeId with
      | none => some (.error (.unknownProviderType p.typeId), w)
      | some type => ((b.configure type p).runM inner (w.mapped p)).map (w.settled p) := by
  unfold performMap
  rw [get_bind_apply]
  dsimp only
  cases w.registry.providerType? p.typeId with
  | none => rfl
  | some type =>
    show ((b.configure type p).runM inner (w.mapped p)).bind _
      = ((b.configure type p).runM inner (w.mapped p)).map (w.settled p)
    cases (b.configure type p).runM inner (w.mapped p) with
    | none => rfl
    | some result =>
      obtain ⟨result, v⟩ := result
      cases result <;> rfl

theorem tracks_performMap (hR : Lasting R) (hb : b.Within M) (hi : ∀ c, M c → Tracks R (inner c) (inner' c))
    (p : Provider) (hM : M (.inl (.map p.project p.typeId p.location p.rootPath)))
    (hset : ∀ r, R r (r.setProvider p))
    (hrestore : ∀ r r', R r r' → R r (r'.restoreProvider p.project (r.providerFor p.project)))
    : Tracks R (performMap b inner p) (performMap b inner' p) := by
  intro w a w' h
  rw [performMap_eq] at h ⊢
  cases htype : w.registry.providerType? p.typeId with
  | none =>
    rw [htype] at h
    cases h
    exact ⟨rfl, hR.refl _⟩
  | some type =>
    rw [htype] at h
    obtain ⟨⟨result, v⟩, hv, h⟩ := Option.map_eq_some_iff.1 h
    obtain ⟨hv', hmapped⟩ := Tracks.runM hR hi (hb.configure type p hM) (w.mapped p) result v hv
    -- The provider type starts from the registry in which the project has its new provider.
    have hwv : R w.registry v.registry := hR.trans (hset _) hmapped
    refine ⟨Option.map_eq_some_iff.2 ⟨(result, v), hv', h⟩, ?_⟩
    cases result with
    | ok =>
      cases h
      exact hwv
    | error e =>
      cases h
      exact hrestore _ _ hwv

theorem tracks_tell (hR : Lasting R) (hi : ∀ c, M c → Tracks R (inner c) (inner' c)) (id : SubscriberId)
    (hhear : ∀ listener, (b.hear listener id).Within M) (listeners : List (ListenerId × N))
    : Tracks R (tell b inner id listeners) (tell b inner' id listeners) := by
  induction listeners with
  | nil => exact .pure hR _
  | cons l rest ih => exact .bind hR (.note hR _) fun _ => .bind hR (.runM hR hi (hhear _)) fun _ => ih

theorem tracks_performRegister (hR : Lasting R) (hi : ∀ c, M c → Tracks R (inner c) (inner' c))
    (s : Subscriber) (hhear : ∀ listener, (b.hear listener s.id).Within M)
    (henter : ∀ r, R r (r.enterSubscriber s))
    : Tracks R (performRegister b inner s) (performRegister b inner' s) := by
  unfold performRegister
  apply Tracks.bind hR (.change henter)
  intro _
  apply Tracks.get_bind
  intro w
  apply Tracks.bind hR (.note hR _)
  intro _
  exact .bind hR (tracks_tell hR hi s.id hhear _) fun _ => .note hR _

theorem tracks_performLookup (hR : Lasting R) (hb : b.Within M)
    (hi : ∀ c, M c → Tracks R (inner c) (inner' c)) (id : SubscriberId)
    (hM : M (.inl (.subscriber id))) (henter : ∀ r s, R r (r.enterSubscriber s))
    : Tracks R (performLookup b inner id) (performLookup b inner' id) := by
  unfold performLookup
  apply Tracks.get_bind
  intro w
  dsimp
  split
  . exact .pure hR _
  . split
    . exact .pure hR _
    . apply Tracks.bind hR (.note hR _)
      intro _
      apply Tracks.bind hR (.runM hR hi (hb.create _ _ hM))
      intro result
      split
      . have hhear : ∀ listener id', (b.hear listener id').Within M :=
          fun listener id' => hb.hear listener id' (.inr ⟨id, hM⟩)
        exact .bind hR (tracks_performRegister hR hi _ (hhear · _) (henter · _)) fun _ => .pure hR _
      . exact .pure hR _
      . exact .pure hR _

theorem tracks_performWith (hR : Lasting R) (hb : b.Within M)
    (hi : ∀ c, M c → Tracks R (inner c) (inner' c)) (outside : (c : E.Call) → StateM σ (E.Answer c))
    (c : ((calls N).sum E).Call) (hM : M c) (hc : ∀ c', c = .inl c' → c'.Leads R)
    : Tracks R (performWith b inner outside c) (performWith b inner' outside c) := by
  cases c with
  | inr c =>
    intro w a w' h
    cases h
    exact ⟨rfl, hR.refl _⟩
  | inl c =>
    have hc := hc c rfl
    cases c with
    | look => exact .get_bind fun _ => .pure hR _
    | registerType id type => exact Tracks.change (f := fun r => ((), r.registerType id type)) hc
    | map project typeId location rootPath =>
      exact tracks_performMap hR hb hi { typeId, project, location, rootPath } hM hc.1 hc.2
    | unmap project => exact .change hc
    | registerFactory q f => exact Tracks.change (f := fun r => ((), r.registerFactory q f)) hc
    | registerSubscriber s =>
      exact tracks_performRegister hR hi s (fun l => hb.hear l s.id (.inl ⟨s, hM⟩)) (hc · s)
    | subscriber id => exact tracks_performLookup hR hb hi id hM hc
    | addListener l => exact .change hc
    | removeListener id => exact .change hc

theorem tracks_perform (hR : Lasting R) (hc : ∀ c : Call N, c.Leads R) (b : Behaviour N E)
    (outside : (c : E.Call) → StateM σ (E.Answer c)) (depth k : Nat) (c : ((calls N).sum E).Call)
    : Tracks R (perform b outside depth c) (perform b outside (depth + k) c) := by
  induction depth generalizing c with
  | zero =>
    intro w a w' h
    contradiction
  | succ depth ih =>
    rw [Nat.add_right_comm]
    have hb := b.within_of_forall (M := fun _ => True) fun _ => trivial
    exact tracks_performWith hR hb (fun c _ => ih c) outside c trivial fun c' _ => hc c'

theorem run_mono (b : Behaviour N E) (outside : (c : E.Call) → StateM σ (E.Answer c)) {depth depth' : Nat}
    (hdepth : depth ≤ depth') (p : Program N E α) {w w' : World N σ} {a : α}
    (h : run b outside depth p w = some (a, w')) : run b outside depth' p w = some (a, w') := by
  obtain ⟨k, rfl⟩ := Nat.exists_eq_add_of_le hdepth
  have hp := Dialogue.within_of_forall (M := fun _ => True) (fun _ => trivial) p
  have hperform := tracks_perform lasting_any Call.leads_any b outside depth k
  exact (Tracks.runM lasting_any (fun c _ => hperform c) hp w a w' h).1

end Registry
end SharedWorkspace
