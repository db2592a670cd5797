import SharedWorkspace.Proofs.Remote.Exchange
import SharedWorkspace.Remote.Revision

/-!
The contents that handles of revisions keep. A handle that has them gives them out and asks nobody; one that
has none fetches them in a single exchange, and keeps them if and only if all went well (`run_fetch`). What is
kept after any history of uses can be told from the uses alone (`History.keeps`).
-/

namespace SharedWorkspace

open Dialogue Activity

namespace RemoteFolder

def Made (f : RemoteFolder) : Prop :=
  ∃ repository path tag, f = new repository path tag

theorem new_new (repository : RepositoryLocation) (path : String) (tag : Option Tag)
    : new repository (new repository path tag).path tag = new repository path tag := by
  unfold new
  rw [String.toList_ofList, Text.trimEnds_trimEnds]

theorem Made.new_eq {f : RemoteFolder} (h : f.Made) : new f.repository f.path f.tag = f := by
  obtain ⟨repository, path, tag, rfl⟩ := h
  exact new_new repository path tag

end RemoteFolder

namespace Revision

variable {r r' : Revision} {items : List ResponseItem} {es : List (Event (Progress.calls.sum Session.calls))}
variable {result : Except Failure Reader} {bytes : List UInt8}

def deliveries (name : String) (items : List ResponseItem) : List (Option (List UInt8)) :=
  items.filterMap fun
    | .contents name' bytes => if name' = name then some bytes else none
    | _ => none

def delivered? (name : String) (items : List ResponseItem) : Option (List UInt8) :=
  if deliveries name items = [] then
    none
  else
    some (((deliveries name items).filterMap id).getLast?.getD [])

def kept (cached bytes : Option (List UInt8)) : Option (List UInt8) :=
  bytes <|> cached <|> some []

theorem setContents_eq (r : Revision) (bytes : Option (List UInt8))
    : r.setContents bytes = { r with contents := kept r.contents bytes } := by
  obtain ⟨parent, info, state, contents⟩ := r
  cases bytes <;> cases contents <;> rfl

theorem takeContents_eq (r : Revision) (items : List ResponseItem)
    : r.takeContents items
        =
      { r with contents := (deliveries r.name items).foldl kept r.contents } := by
  unfold takeContents deliveries
  induction items generalizing r with
  | nil => rfl
  | cons item items ih =>
    rw [List.foldl_cons, ih]
    cases item with
    | contents name bytes =>
      by_cases h : name = r.name
      . simp [h, setContents_eq, Revision.name]
        rfl
      . simp [h]
    | _ => rfl

theorem foldl_kept (ds : List (Option (List UInt8))) (cached : Option (List UInt8)) (h : ds ≠ [])
    : ds.foldl kept cached = some ((ds.filterMap id).getLast?.getD (cached.getD [])) := by
  induction ds generalizing cached with
  | nil => contradiction
  | cons d ds ih =>
    rw [List.foldl_cons]
    -- What follows decides, unless nothing follows or there are no bytes in it.
    by_cases hds : ds = []
    . subst hds
      cases d <;> cases cached <;> rfl
    . rw [ih _ hds]
      cases d with
      | none => cases cached <;> rfl
      | some bytes =>
        rw [List.filterMap_cons_some (f := id) rfl, List.getLast?_cons]
        rfl

theorem takeContents_of_unfetched (h : r.contents = none)
    : r.takeContents items = { r with contents := delivered? r.name items } := by
  rw [takeContents_eq, h, delivered?]
  split
  . next hnil => rw [hnil, List.foldl_nil]
  . next hne => rw [foldl_kept _ _ hne, Option.getD_none]

def fetched (r : Revision) : Except Failure (List ResponseItem) → Except Failure Reader × Revision
  | .error e => (.error e, r)
  | .ok items =>
    match delivered? r.name items with
    | some bytes => (.ok { bytes }, { r with contents := some bytes })
    | none => (.error (.contentUnavailable r.location), r)

theorem fetch_of_contents (h : r.contents = some bytes) : r.fetch = pure (.ok { bytes }, r) := by
  unfold fetch
  rw [h]

theorem fetch_of_unfetched (hr : r.contents = none)
    : r.fetch
        =
      Session.exchange r.parent.repository r.parent r.contentsRequest >>= fun outcome =>
        pure (r.fetched outcome) := by
  unfold fetch
  rw [hr]
  dsimp only
  congr 1
  funext outcome
  cases outcome with
  | error e => rfl
  | ok items =>
    have hsame : { r with contents := none } = r := by rw [← hr]
    rw [fetched]
    dsimp only
    rw [takeContents_of_unfetched hr]
    cases delivered? r.name items with
    | none => rw [hsame, hr]
    | some bytes => rfl

theorem run_fetch (hr : r.contents = none) (h : r.fetch.Run es (result, r'))
    : ∃ outcome,
        Exchanged ⟨r.parent.repository, r.parent, r.contentsRequest⟩ (effects es) outcome ∧
        (result, r') = r.fetched outcome := by
  rw [fetch_of_unfetched hr] at h
  obtain ⟨es, _, outcome, rfl, hexchange, h⟩ := run_bind_iff.1 h
  refine ⟨outcome, ?_⟩
  generalize r.fetched outcome = settled at h ⊢
  cases h
  rw [effects_append, effects_nil, List.append_nil]
  exact ⟨Session.run_exchange hexchange, rfl⟩

inductive Settled (r : Revision) : Except Failure Reader → Revision → Prop where
  | ok (bytes : List UInt8) : Settled r (.ok { bytes }) { r with contents := some bytes }
  | error (e : Failure) (hr : r.contents = none) : Settled r (.error e) r

theorem settled_fetch (h : r.fetch.Run es (result, r')) : r.Settled result r' := by
  cases hr : r.contents with
  | some bytes =>
    rw [fetch_of_contents hr] at h
    cases h
    have hsame : { r with contents := some bytes } = r := by rw [← hr]
    exact hsame ▸ .ok bytes
  | none =>
    obtain ⟨outcome, _, heq⟩ := run_fetch hr h
    unfold fetched at heq
    split at heq
    . cases heq
      exact .error _ hr
    . split at heq <;> cases heq
      . exact .ok _
      . exact .error _ hr

inductive Use where
  | contents (es : List (Event (Progress.calls.sum Session.calls))) (result : Except Failure Reader)
  | log (es : List (Event (Progress.calls.sum Session.calls))) (result : Except Failure (List LogEntry))
  | setContents (bytes : Option (List UInt8))
  | clearContents
  | toRevision (revision : String)
  | clone

namespace Use

def keeps (cached : Option (List UInt8)) : Use → Option (List UInt8)
  | contents _ (.ok reader) => some reader.bytes
  | setContents bytes => kept cached bytes
  | clearContents => none
  | _ => cached

def Forgets : Use → Prop
  | setContents (some _) | clearContents => True
  | _ => False

end Use

inductive Uses (r : Revision) : Use → Revision → List Revision → Prop where
  | contents {es : List (Event (Progress.calls.sum Session.calls))} {result : Except Failure Reader}
      {r' : Revision} (h : r.fetch.Run es (result, r')) : Uses r (.contents es result) r' []
  | log {es : List (Event (Progress.calls.sum Session.calls))}
      {result : Except Failure (List LogEntry)} (h : r.log.Run es result) : Uses r (.log es result) r []
  | setContents (bytes : Option (List UInt8)) : Uses r (.setContents bytes) (r.setContents bytes) []
  | clearContents : Uses r .clearContents r.clearContents []
  | toRevision (revision : String) : Uses r (.toRevision revision) r [r.toRevision revision]
  | clone : Uses r .clone r [r]

variable {u : Use} {us vs : List (Nat × Use)} {i : Nat} {made start hs hs' : List Revision}

theorem Uses.eq (h : r.Uses u r' made) : r' = { r with contents := u.keeps r.contents } := by
  cases h with
  | contents h => cases settled_fetch h <;> rfl
  | setContents bytes => exact setContents_eq r bytes
  | _ => rfl

theorem Uses.of_kept (h : r.Uses u r' made) (hr : r.contents = some bytes) (hu : ¬ u.Forgets)
    : r' = r ∧ ∀ es result, u = .contents es result → es = [] ∧ result = .ok { bytes } := by
  cases h with
  | contents h =>
    rw [fetch_of_contents hr] at h
    cases h
    refine ⟨rfl, ?_⟩
    intro es result heq
    cases heq
    exact ⟨rfl, rfl⟩
  | setContents bytes' =>
    cases bytes' with
    | none =>
      refine ⟨?_, nofun⟩
      unfold Revision.setContents
      rw [hr]
    | some bytes' => exact absurd trivial hu
  | clearContents => exact absurd trivial hu
  | _ => exact ⟨rfl, nofun⟩

/--
Handles before and after uses, each of the handle with the given number. Those that are made get the next
numbers.
-/
inductive History : List Revision → List (Nat × Use) → List Revision → Prop where
  | nil (hs : List Revision) : History hs [] hs
  | cons {i : Nat} {u : Use} {r r' : Revision} {us : List (Nat × Use)} {made hs hs' : List Revision}
      (hr : hs[i]? = some r) (hu : r.Uses u r' made) (h : History (hs.set i r' ++ made) us hs')
      : History hs ((i, u) :: us) hs'

def usesOf (i : Nat) (us : List (Nat × Use)) : List Use :=
  us.filterMap fun (j, u) => if j = i then some u else none

theorem usesOf_cons_self (i : Nat) (u : Use) (us : List (Nat × Use))
    : usesOf i ((i, u) :: us) = u :: usesOf i us := by
  simp [usesOf]

theorem usesOf_cons_of_ne {j : Nat} (hj : j ≠ i) (u : Use) (us : List (Nat × Use))
    : usesOf i ((j, u) :: us) = usesOf i us := by
  simp [usesOf, hj]

namespace History

theorem append_iff : History hs (us ++ vs) hs' ↔ ∃ ms, History hs us ms ∧ History ms vs hs' := by
  constructor
  . intro h
    induction us generalizing hs with
    | nil => exact ⟨hs, .nil hs, h⟩
    | cons _ us ih =>
      cases h with
      | cons hr hu h =>
        obtain ⟨ms, h₁, h₂⟩ := ih h
        exact ⟨ms, .cons hr hu h₁, h₂⟩
  . rintro ⟨ms, h₁, h₂⟩
    induction h₁ with
    | nil => exact h₂
    | cons hr hu _ ih => exact .cons hr hu (ih h₂)

theorem getElem?_next (hr : hs[i]? = some r) (j : Nat) (t : Revision) (made : List Revision)
    : (hs.set j t ++ made)[i]? = some (if j = i then t else r) := by
  obtain ⟨hi, rfl⟩ := List.getElem?_eq_some_iff.1 hr
  rw [List.getElem?_append_left (by simpa using hi), List.getElem?_set]
  split
  . rw [if_pos (by omega)]
  . exact hr

theorem keeps (h : History hs us hs') (hr : hs[i]? = some r)
    : hs'[i]? = some { r with contents := (usesOf i us).foldl Use.keeps r.contents } := by
  -- Numbers are not given twice, so a use of another handle leaves this one in its place.
  induction h generalizing r with
  | nil => exact hr
  | @cons j u s s' us made _ _ hs hu _ ih =>
    rw [ih (getElem?_next hr j s' made)]
    split
    . next hj =>
      subst hj
      cases Option.some.inj (hs.symm.trans hr)
      rw [usesOf_cons_self, hu.eq]
      rfl
    . next hj => rw [usesOf_cons_of_ne hj]

theorem of_kept (h : History hs us hs') (hr : hs[i]? = some r) (hb : r.contents = some bytes)
    (hus : ∀ u ∈ usesOf i us, ¬ u.Forgets)
    : hs'[i]? = some r ∧
        ∀ es result, .contents es result ∈ usesOf i us → es = [] ∧ result = .ok { bytes } := by
  induction h with
  | nil => exact ⟨hr, nofun⟩
  | @cons j u s s' us made _ _ hs hu _ ih =>
    have hnext := getElem?_next hr j s' made
    by_cases hj : j = i
    . subst hj
      cases Option.some.inj (hs.symm.trans hr)
      rw [usesOf_cons_self] at hus ⊢
      obtain ⟨hkeep, hus⟩ := List.forall_mem_cons.1 hus
      obtain ⟨rfl, hcontents⟩ := hu.of_kept hb hkeep
      obtain ⟨hlast, hrest⟩ := ih (by simpa using hnext) hus
      refine ⟨hlast, ?_⟩
      intro es result hmem
      rcases List.mem_cons.1 hmem with heq | hmem
      . exact hcontents es result heq.symm
      . exact hrest es result hmem
    . rw [if_neg hj] at hnext
      rw [usesOf_cons_of_ne hj] at hus ⊢
      exact ih hnext hus

theorem parent_made (h : History hs us hs') (hhs : ∀ r ∈ hs, r.parent.Made)
    : ∀ r ∈ hs', r.parent.Made := by
  induction h with
  | nil => exact hhs
  | @cons j u s s' us made hs _ hsome hu _ ih =>
    have hs := hhs s (List.mem_of_getElem? hsome)
    apply ih
    intro t ht
    rcases List.mem_append.1 ht with hold | hmade
    . rcases List.mem_or_eq_of_mem_set hold with hold | rfl
      . exact hhs t hold
      . rw [hu.eq]
        exact hs
    . cases hu with
      | toRevision =>
        rw [List.mem_singleton.1 hmade]
        exact ⟨_, _, _, rfl⟩
      | clone =>
        rw [List.mem_singleton.1 hmade]
        exact hs
      | _ => contradiction

end History

theorem toRevision_eq (h : r.parent.Made) (v : String)
    : r.toRevision v
        =
      { parent := r.parent, info := .new r.name v none, workspaceState := r.workspaceState } := by
  unfold toRevision
  rw [h.new_eq]

theorem same_toRevision_iff (h : r.parent.Made) (v : String)
    : (r.toRevision v).same r = true ↔ v = r.revision := by
  rw [toRevision_eq h]
  unfold same
  simp [Revision.name, Revision.revision, SyncInfo.new]

structure Reliable (hs : List Revision) (i : Nat) (r : Revision) : Prop where
  fetched : ∀ bytes, r.contents = some bytes → r.fetch = pure (.ok { bytes }, r)
  asked : r.contents = none → ∀ es result r', r.fetch.Run es (result, r') →
    ∃ outcome, Exchanged ⟨r.parent.repository, r.parent, r.contentsRequest⟩ (effects es) outcome ∧
      (result, r') = r.fetched outcome
  settled : ∀ es result r', r.fetch.Run es (result, r') → r.Settled result r'
  size : r.size = (r.contents.map List.length).getD 0
  toRevision : ∀ v, r.toRevision v
    = { parent := r.parent, info := .new r.name v none, workspaceState := r.workspaceState }
  same : ∀ v, (r.toRevision v).same r = true ↔ v = r.revision
  keeps : ∀ us hs', History hs us hs' →
    hs'[i]? = some { r with contents := (usesOf i us).foldl Use.keeps r.contents }
  kept : ∀ bytes us hs', r.contents = some bytes → History hs us hs' →
    (∀ u ∈ usesOf i us, ¬ u.Forgets) →
    hs'[i]? = some r ∧
      ∀ es result, .contents es result ∈ usesOf i us → es = [] ∧ result = .ok { bytes }

theorem reliable (hr : hs[i]? = some r) (hparent : r.parent.Made) : Reliable hs i r where
  fetched _ hb := fetch_of_contents hb
  asked hnone _ _ _ h := run_fetch hnone h
  settled _ _ _ h := settled_fetch h
  size := by
    unfold Revision.size
    cases r.contents <;> rfl
  toRevision := toRevision_eq hparent
  same := same_toRevision_iff hparent
  keeps _ _ h := h.keeps hr
  kept _ _ _ hb h hus := h.of_kept hr hb hus

/--
After any history of any handles, each handle can be relied on; and from one use that gave out contents to
the next one, they are the same unless they were given up in between.
-/
theorem history_reliable (h : History start us hs) (hstart : ∀ r ∈ start, r.parent.Made)
    : (∀ i r, hs[i]? = some r → Reliable hs i r) ∧
        ∀ i before es reader between es' result after,
          us = before ++ (i, .contents es (.ok reader)) :: (between ++ (i, .contents es' result) :: after) →
          (∀ u ∈ usesOf i between, ¬ u.Forgets) → es' = [] ∧ result = .ok reader := by
  refine ⟨?_, ?_⟩
  . intro i r hr
    exact reliable hr (h.parent_made hstart r (List.mem_of_getElem? hr))
  . rintro i before es reader between es' result after rfl hkept
    -- The handle as the first of the two uses leaves it is followed up to the second one.
    obtain ⟨ms, _, h⟩ := History.append_iff.1 h
    cases h with
    | @cons _ _ r r' _ _ _ _ hr hu h =>
      cases hu with
      | contents hu =>
        obtain ⟨_, h, h'⟩ := History.append_iff.1 h
        have hnext : (ms.set i r' ++ [])[i]? = some r' := by
          simpa using History.getElem?_next hr i r' []
        cases settled_fetch hu with
        | ok bytes =>
          obtain ⟨hlast, _⟩ := h.of_kept hnext rfl hkept
          cases h' with
          | cons hr' hu' _ =>
            cases Option.some.inj (hlast.symm.trans hr')
            exact (hu'.of_kept rfl id).2 es' result rfl

/--
A server rejects the command although it has sent something, and is asked again; then there are a handle for
another revision, and a copy whose contents are given up.
-/
theorem history_reliable_rejected
    : let answer : Response → (c : Session.Call) → c.Answer := fun response => fun
        | .connect _ _ => pure (.ok 7)
        | .opened _ => ()
        | .execute _ _ => pure (.ok response)
        | .close _ => .ok ()
      let server : Response → Surroundings (Progress.calls.sum Session.calls) Unit := fun response _ => fun
        | .inl c => (c.reply false, ())
        | .inr c => (answer response c, ())
      let rejecting := server ⟨.serverError ⟨1, "unknown"⟩, [.contents "index" (some [1])]⟩
      let sending := server ⟨.ok, [.contents "index" (some [104, 105]), .contents "index" none]⟩
      let r := Revision.new (.new "host" "/website/" none) "index" "1.2" none
      let r' := { r with contents := some [104, 105] }
      let events := fun around => (r.fetch.eventsIn around ()).map Prod.snd
      let us : List (Nat × Use) :=
        [(0, .contents (events rejecting) (.error (.serverProtocol ⟨1, "unknown"⟩))),
          (0, .contents (events sending) (.ok { bytes := [104, 105] })),
          (0, .toRevision "1.3"), (0, .clone), (2, .clearContents), (0, .setContents none),
          (0, .contents [] (.ok { bytes := [104, 105] }))]
      History [r] us [r', r'.toRevision "1.3", r] ∧ (∀ s ∈ [r], s.parent.Made) ∧
        Reliable [r', r'.toRevision "1.3", r] 0 r' := by
  intro answer server rejecting sending r r' events us
  have hrejected : r.fetch.Run (events rejecting) (.error (.serverProtocol ⟨1, "unknown"⟩), r) := by
    have hresult : r.fetch.resultIn rejecting () = (.error (.serverProtocol ⟨1, "unknown"⟩), r) := by
      rfl
    rw [← hresult]
    exact run_in rejecting r.fetch ()
  have hsent : r.fetch.Run (events sending) (.ok { bytes := [104, 105] }, r') := by
    have hresult : r.fetch.resultIn sending () = (.ok { bytes := [104, 105] }, r') := by
      rfl
    rw [← hresult]
    exact run_in sending r.fetch ()
  have hkept : r'.fetch.Run [] (.ok { bytes := [104, 105] }, r') := .result _
  have h : History [r] us [r', r'.toRevision "1.3", r] :=
    .cons rfl (.contents hrejected) <| .cons rfl (.contents hsent) <| .cons rfl (.toRevision "1.3") <|
      .cons rfl .clone <| .cons rfl .clearContents <| .cons rfl (.setContents none) <|
      .cons rfl (.contents hkept) <| .nil _
  have hmade : ∀ s ∈ [r], s.parent.Made := by
    intro s hs
    rw [List.mem_singleton.1 hs]
    exact ⟨_, _, _, rfl⟩
  exact ⟨h, hmade, (history_reliable h hmade).1 0 r' rfl⟩

end Revision
end SharedWorkspace
