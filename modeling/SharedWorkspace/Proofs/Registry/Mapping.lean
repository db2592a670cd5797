import SharedWorkspace.Proofs.Registry.Reachable

/-!
Mapping a project to a provider. Provider types are called while the project has its new provider already, and
may map and unmap it again, with others being called in turn. If a type refuses in the end, all of this is
undone (`map_leaves_no_trace`), as long as nobody deals with other projects (`KeepsTo`).
-/

namespace SharedWorkspace
namespace Registry

variable {N σ α : Type} {E : Interface} {project : ProjectName}

def Concerns (project : ProjectName) : ((calls N).sum E).Call → Prop
  | .inl (.map q _ _ _) | .inl (.unmap q) => q = project
  | _ => True

instance (project : ProjectName) : DecidablePred (Concerns (N := N) (E := E) project)
  | .inl (.map q _ _ _) | .inl (.unmap q) => inferInstanceAs (Decidable (q = project))
  | .inr _ | .inl .look | .inl (.registerType _ _) | .inl (.registerFactory _ _)
  | .inl (.registerSubscriber _) | .inl (.subscriber _) | .inl (.addListener _)
  | .inl (.removeListener _) => inferInstanceAs (Decidable True)

def performWithin (project : ProjectName) (b : Behaviour N E)
    (outside : (c : E.Call) → StateM σ (E.Answer c)) : (depth : Nat) → Handler N σ E
  | 0 => fun _ => failure
  | depth + 1 => fun c =>
    if Concerns project c then performWith b (performWithin project b outside depth) outside c else failure

/--
Neither the call nor anybody who is called back changes the provider of another project.
-/
def KeepsTo (project : ProjectName) (b : Behaviour N E) (outside : (c : E.Call) → StateM σ (E.Answer c))
    (depth : Nat) (c : ((calls N).sum E).Call) (w : World N σ) : Prop :=
  (performWithin project b outside depth c w).isSome

def Spares (project : ProjectName) (r r' : Registry N) : Prop :=
  ∀ q, q ≠ project → r'.providerFor q = r.providerFor q

theorem lasting_spares (project : ProjectName) : Lasting (Spares (N := N) project) where
  refl _ _ _ := rfl
  trans h h' q hq := (h' q hq).trans (h q hq)

section Provider

variable {r r' : Registry N}

theorem providerFor_setProvider (r : Registry N) (p : Provider) (q : ProjectName)
    : (r.setProvider p).providerFor q = if q = p.project then some p else r.providerFor q := by
  unfold providerFor setProvider
  rw [OrderedMap.find?_insert]
  simp only [Std.LawfulEqCmp.compare_eq_iff_eq]

theorem providerFor_restoreProvider (r : Registry N) (project : ProjectName) (previous : Option Provider)
    (q : ProjectName)
    : (r.restoreProvider project previous).providerFor q
        =
      if q = project then previous else r.providerFor q := by
  unfold providerFor restoreProvider
  cases previous with
  | none =>
    dsimp only
    rw [OrderedMap.find?_erase]
    simp only [Std.LawfulEqCmp.compare_eq_iff_eq]
  | some p =>
    dsimp only
    rw [OrderedMap.find?_insert]
    simp only [Std.LawfulEqCmp.compare_eq_iff_eq]

theorem providerFor_unmap (r : Registry N) (project q : ProjectName)
    : (r.unmap project).2.providerFor q = if q = project then none else r.providerFor q :=
  providerFor_restoreProvider r project none q

end Provider

theorem leads_spares {c : Call N} (hc : Concerns (E := E) project (.inl c)) : c.Leads (Spares project) := by
  cases c with
  | look => trivial
  | map q =>
    subst hc
    refine ⟨?_, ?_⟩
    . intro r q hq
      rw [providerFor_setProvider, if_neg hq]
    . intro r r' h q hq
      rw [providerFor_restoreProvider, if_neg hq]
      exact h q hq
  | unmap q =>
    subst hc
    intro r q hq
    rw [providerFor_unmap, if_neg hq]
  | registerType => exact fun _ _ _ => rfl
  | registerFactory => exact fun _ _ _ => rfl
  | registerSubscriber => exact fun _ _ _ _ => rfl
  | subscriber => exact fun _ _ _ _ => rfl
  | addListener => exact fun _ _ _ => rfl
  | removeListener => exact fun _ _ _ => rfl

section Within

variable (b : Behaviour N E) (outside : (c : E.Call) → StateM σ (E.Answer c))

theorem tracks_performWithin (project : ProjectName) (depth : Nat) (c : ((calls N).sum E).Call)
    : Tracks (Spares project) (performWithin project b outside depth c) (perform b outside depth c) := by
  -- Both ways are followed together: where `performWithin` gives up, there is nothing to show.
  induction depth generalizing c with
  | zero =>
    intro w a w' h
    contradiction
  | succ depth ih =>
    unfold performWithin
    split
    . next hc =>
      have hb := b.within_of_forall (M := fun _ => True) fun _ => trivial
      apply tracks_performWith (lasting_spares project) hb (fun c _ => ih c) outside c trivial
      rintro c rfl
      exact leads_spares hc
    . intro w a w' h
      contradiction

def mapTo (p : Provider) : ((calls N).sum E).Call :=
  .inl (.map p.project p.typeId p.location p.rootPath)

theorem perform_mapTo (depth : Nat) (p : Provider) (w : World N σ)
    : perform b outside (depth + 1) (mapTo p) w
        =
      match w.registry.providerType? p.typeId with
      | none => some (.error (.unknownProviderType p.typeId), w)
      | some type => (run b outside depth (b.configure type p) (w.mapped p)).map (w.settled p) :=
  performMap_eq b (perform b outside depth) p w

def Idle : ((calls N).sum E).Call → Prop
  | .inr _ | .inl .look => True
  | _ => False

theorem exists_run_of_idle (depth : Nat) {d : Program N E α} (hd : d.Within Idle) (w : World N σ)
    : ∃ a s, run b outside (depth + 1) d w = some (a, { w with surroundings := s }) := by
  induction d generalizing w with
  | result a => exact ⟨a, w.surroundings, rfl⟩
  | ask c k ih =>
    obtain ⟨hc, hk⟩ := hd
    cases c with
    | inr c => exact ih _ (hk _) { w with surroundings := (outside c w.surroundings).2 }
    | inl c =>
      cases c with
      | look => exact ih _ (hk _) w
      | _ => contradiction

variable {b outside} {depth : Nat} {p : Provider} {w w' : World N σ} {e : Failure}

theorem mapTo_error (h : perform b outside depth (mapTo p) w = some (.error e, w'))
    : (w.registry.providerType? p.typeId = none ∧ e = .unknownProviderType p.typeId ∧ w' = w) ∨
      ∃ type depth' e' v, w.registry.providerType? p.typeId = some type ∧
        run b outside depth' (b.configure type p) (w.mapped p) = some (.error e', v) ∧
        e = .configure p.project e' ∧
        w'.registry = v.registry.restoreProvider p.project (w.registry.providerFor p.project) := by
  cases depth with
  | zero => contradiction
  | succ depth =>
    rw [perform_mapTo] at h
    cases htype : w.registry.providerType? p.typeId with
    | none =>
      rw [htype] at h
      cases h
      exact .inl ⟨rfl, rfl, rfl⟩
    | some type =>
      rw [htype] at h
      obtain ⟨⟨result, v⟩, hv, h⟩ := Option.map_eq_some_iff.1 h
      cases result with
      | ok => cases h
      | error e' =>
        cases h
        exact .inr ⟨type, depth, e', v, rfl, hv, rfl, rfl⟩

theorem mappings_eq_of_error (hk : KeepsTo p.project b outside depth (mapTo p) w)
    (h : perform b outside depth (mapTo p) w = some (.error e, w'))
    : w'.registry.mappings = w.registry.mappings := by
  obtain ⟨⟨r, v⟩, hv⟩ := Option.isSome_iff_exists.1 hk
  obtain ⟨hv', hspares⟩ := tracks_performWithin b outside p.project depth _ w r v hv
  cases Option.some.inj (h.symm.trans hv')
  apply OrderedMap.ext_find?
  intro q
  -- What was done to the project itself does not matter, since its provider is put back last.
  by_cases hq : q = p.project
  . subst hq
    rcases mapTo_error h with ⟨_, _, rfl⟩ | ⟨_, _, _, v, _, _, _, hw'⟩
    . rfl
    . have hproject := providerFor_restoreProvider v.registry p.project
        (w.registry.providerFor p.project) p.project
      rw [if_pos rfl, ← hw'] at hproject
      exact hproject
  . exact hspares q hq

end Within

structure Transacts (b : Behaviour N E) (outside : (c : E.Call) → StateM σ (E.Answer c)) (p : Provider)
    (w : World N σ) : Prop where
  undone : ∀ depth e w', KeepsTo p.project b outside depth (mapTo p) w →
    perform b outside depth (mapTo p) w = some (.error e, w') → w'.registry.mappings = w.registry.mappings
  reason : ∀ depth e w', perform b outside depth (mapTo p) w = some (.error e, w') →
    (w.registry.providerType? p.typeId = none ∧ e = .unknownProviderType p.typeId ∧ w' = w) ∨
      ∃ type depth' e' v, w.registry.providerType? p.typeId = some type ∧
        run b outside depth' (b.configure type p) (w.mapped p) = some (.error e', v) ∧
        e = .configure p.project e' ∧
        w'.registry = v.registry.restoreProvider p.project (w.registry.providerFor p.project)
  called : ∀ type depth, w.registry.providerType? p.typeId = some type →
    perform b outside (depth + 1) (mapTo p) w
      = (run b outside depth (b.configure type p) (w.mapped p)).map (w.settled p)
  mapped : ∀ q, (w.mapped p).registry.providerFor q
    = if q = p.project then some p else w.registry.providerFor q
  agreed : ∀ type depth, w.registry.providerType? p.typeId = some type → (b.configure type p).Within Idle →
    ∃ result s,
      run b outside (depth + 1) (b.configure type p) (w.mapped p)
        = some (result, { w.mapped p with surroundings := s }) ∧
      (result = .ok () →
        perform b outside (depth + 2) (mapTo p) w = some (.ok p, { w.mapped p with surroundings := s }))

theorem transacts (b : Behaviour N E) (outside : (c : E.Call) → StateM σ (E.Answer c)) (p : Provider)
    (w : World N σ) : Transacts b outside p w := by
  have hcalled : ∀ type depth, w.registry.providerType? p.typeId = some type →
      perform b outside (depth + 1) (mapTo p) w
        = (run b outside depth (b.configure type p) (w.mapped p)).map (w.settled p) := by
    intro type depth htype
    rw [perform_mapTo, htype]
    rfl
  constructor
  case undone => exact fun _ _ _ => mappings_eq_of_error
  case reason => exact fun _ _ _ => mapTo_error
  case called => exact hcalled
  case mapped => exact providerFor_setProvider w.registry p
  case agreed =>
    intro type depth htype hidle
    obtain ⟨result, s, hrun⟩ := exists_run_of_idle b outside depth hidle (w.mapped p)
    refine ⟨result, s, hrun, ?_⟩
    rintro rfl
    rw [hcalled type (depth + 1) htype, hrun]
    rfl

/--
A project that could not be mapped keeps the provider that it had, and so do all others, whatever the provider
type and those that are called back in turn have done to it before the type refused. In no registry, not even
in one that is only seen in between, does a project have the provider of another one.
-/
theorem map_leaves_no_trace (b : Behaviour N E) (outside : (c : E.Call) → StateM σ (E.Answer c))
    : (∀ p w, Transacts b outside p w) ∧
        ∀ r : Registry N, r.Reachable → ∀ q p, r.providerFor q = some p → p.project = q :=
  ⟨transacts b outside, fun _ hr _ _ => hr.project_eq⟩

/--
A type that maps the project to another one, which unmaps it and has no luck with a third; then the first one
unmaps it again and refuses.
-/
theorem map_leaves_no_trace_nested
    : let configure : Nat → Provider → Program Nat .empty (Except Failure Unit) := fun type p => do
        match type with
        | 0 =>
          let _ ← deal (.map p.project "inner" "elsewhere" "/x")
          let _ ← deal (.unmap p.project)
          return .error (.client "outer")
        | 1 =>
          let _ ← deal (.unmap p.project)
          let _ ← deal (.map p.project "innermost" "nowhere" "/y")
          return .ok ()
        | _ => return .error .cancelled
      let b : Behaviour Nat .empty := ⟨configure, fun _ _ => return .ok none, fun _ _ => return ()⟩
      let outside : (c : Interface.empty.Call) → StateM Unit (Interface.empty.Answer c) := fun c => c.elim
      let before : Provider := ⟨"git", "website", "host", "/"⟩
      let other : Provider := ⟨"git", "notes", "host", "/notes"⟩
      let r := (((({} : Registry Nat).registerType "outer" 0).registerType "inner" 1).registerType "innermost" 2)
      let w : World Nat Unit := { registry := (r.setProvider before).setProvider other, surroundings := () }
      let p : Provider := ⟨"outer", "website", "lost", "/"⟩
      KeepsTo "website" b outside 4 (mapTo p) w ∧
        ∃ w', perform b outside 4 (mapTo p) w = some (.error (.configure "website" (.client "outer")), w') ∧
          w'.registry.mappings = w.registry.mappings ∧ w'.registry.providerFor "website" = some before := by
  intro configure b outside before other r w p
  have hk : KeepsTo "website" b outside 4 (mapTo p) w := by
    unfold KeepsTo
    decide +kernel
  have hresult : (perform b outside 4 (mapTo p) w).map (fun x => match x.1 with | .ok _ => none | .error e => some e)
      = some (some (.configure "website" (.client "outer"))) := by
    decide +kernel
  obtain ⟨w', h⟩ : ∃ w', perform b outside 4 (mapTo p) w
      = some (.error (.configure "website" (.client "outer")), w') := by
    obtain ⟨⟨result, w'⟩, h, he⟩ := Option.map_eq_some_iff.1 hresult
    cases result with
    | ok => contradiction
    | error =>
      cases he
      exact ⟨w', h⟩
  have hmappings := ((map_leaves_no_trace b outside).1 p w).undone 4 _ w' hk h
  refine ⟨hk, w', h, hmappings, ?_⟩
  unfold providerFor
  rw [hmappings]
  decide +kernel

end Registry
end SharedWorkspace
