import SharedWorkspace.Json.Remote
import SharedWorkspace.Json.Workspace
import SharedWorkspace.Proofs.Instant
import SharedWorkspace.Proofs.Json.Layout

/-!
The encodings lose nothing: what is read from the text of a value is that value (`texts_read_back`). For each
type there is one lemma, which says that its values are `Faithful`.
-/

namespace SharedWorkspace

namespace OrderedMap

open Std

variable {κ α : Type} [Ord κ] [TransOrd κ] [LawfulEqOrd κ]

theorem find?_foldl_insert (es : List (κ × α)) (hes : es.Pairwise fun a b => compare a.1 b.1 = .lt)
    (m : OrderedMap κ α) (k : κ)
    : (es.foldl (fun m e => m.insert e.1 e.2) m).find? k = (find?.go k es).or (m.find? k) := by
  induction es generalizing m with
  | nil => rfl
  | cons e es ih =>
    obtain ⟨k', a⟩ := e
    rw [List.pairwise_cons] at hes
    rw [List.foldl_cons, ih hes.2, find?_insert]
    show _ = (if compare k k' = .eq then some a else find?.go k es).or (m.find? k)
    split
    . next heq =>
      -- The key does not occur again.
      cases hgo : find?.go k es with
      | none => rfl
      | some b =>
        have hlt := hes.1 (k, b) (find?.mem_of_go_eq_some hgo)
        rw [LawfulEqCmp.eq_of_compare heq] at hlt
        simp at hlt
    . rfl

theorem ofList_entries (m : OrderedMap κ α) : ofList m.entries = m := by
  refine ext_find? fun k => ?_
  unfold ofList
  rw [find?_foldl_insert _ m.sorted, find?_empty, Option.or_none]
  rfl

end OrderedMap

namespace JsonCodec

open Json

variable {α : Type} [JsonCodec α] {a : α}

structure Faithful (a : α) : Prop where
  plain : (encode a).Plain
  decode : decode? (encode a) = some a

theorem Faithful.ofText?_toText (h : Faithful a) : ofText? (toText a) = some a := by
  unfold ofText? toText
  rw [String.toList_ofList, Json.parse?_render h.plain]
  exact h.decode

theorem Faithful.ofText?_toIndentedText (h : Faithful a) : ofText? (toIndentedText a) = some a := by
  unfold ofText? toIndentedText
  rw [String.toList_ofList, Json.parse?_renderIndented h.plain]
  exact h.decode

theorem mapM_eq_some {α β : Type} {f : α → Option β} {g : α → β} {as : List α}
    (h : ∀ a ∈ as, f a = some (g a)) : as.mapM f = some (as.map g) := by
  induction as with
  | nil => rfl
  | cons a as ih =>
    rw [List.mapM_cons, h a List.mem_cons_self, ih fun b hb => h b (List.mem_cons_of_mem a hb)]
    rfl

theorem faithful_string (s : String) : Faithful s := ⟨.text s, rfl⟩

theorem faithful_list {as : List α} (h : ∀ a ∈ as, Faithful a) : Faithful as where
  plain := by
    refine .array ?_
    intro j hj
    obtain ⟨a, ha, rfl⟩ := List.mem_map.1 hj
    exact (h a ha).plain
  decode := by
    show (as.map encode).mapM decode? = some as
    have hmap : as.mapM (decode? ∘ encode) = some (as.map id) :=
      mapM_eq_some fun a ha => (h a ha).decode
    rw [List.mapM_map, hmap, List.map_id]

theorem faithful_uint64 (n : UInt64) : Faithful n where
  plain := .integer _
  decode := by
    show (if 0 ≤ (n.toNat : Int) ∧ (n.toNat : Int).toNat < UInt64.size then some (UInt64.ofNat n.toNat) else none)
      = some n
    rw [if_pos ⟨Int.natCast_nonneg _, n.toNat_lt⟩, UInt64.ofNat_toNat]

theorem faithful_int32 (n : Int32) : Faithful n where
  plain := .integer _
  decode := by
    show (if Int32.minValue.toInt ≤ n.toInt ∧ n.toInt ≤ Int32.maxValue.toInt then some (Int32.ofInt n.toInt)
      else none) = some n
    rw [if_pos ⟨n.minValue_le_toInt, n.toInt_le⟩, Int32.ofInt_toInt]

section Records

theorem plain_object {fields : List (Option String × Json)}
    (h : ∀ f ∈ fields, f.1.isSome = true ∧ f.2.Plain) : (Json.object fields).Plain :=
  .object (fun f hf => (h f hf).1) (fun f hf => (h f hf).2)

theorem required?_given (h : Faithful a) : (Slot.given (encode a)).required? = some a :=
  h.decode

theorem orElse?_given (h : Faithful a) (b : α) : (Slot.given (encode a)).orElse? b = some a :=
  h.decode

def slotOf (o : Option α) : Slot :=
  (o.map fun a => .given (encode a)).getD .absent

theorem optional?_slotOf {o : Option α} (h : ∀ a ∈ o, Faithful a) (hnull : ∀ a : α, encode a ≠ .null)
    : (slotOf o).optional? = some o := by
  cases o with
  | none => rfl
  | some a =>
    show (Slot.given (encode a)).optional? = some (some a)
    unfold Slot.optional?
    split
    . next heq => exact absurd (Slot.given.inj heq) (hnull a)
    . next heq =>
      cases heq
      rw [(h a rfl).decode]
      rfl
    . contradiction
    . contradiction

end Records

theorem faithful_depth (d : Depth) : Faithful d := by
  cases d <;> exact ⟨.text _, rfl⟩

theorem faithful_resourceKind (k : ResourceKind) : Faithful k := by
  cases k <;> exact ⟨.text _, rfl⟩

theorem faithful_resource (r : Resource) : Faithful r where
  plain := plain_object (by
    simp [(faithful_string _).plain, (faithful_resourceKind _).plain])
  decode := by
    show ((Slot.given (encode r.project)).required?.bind fun project =>
      (Slot.given (encode r.path)).required?.bind fun path =>
      (Slot.given (encode r.kind)).required?.bind fun kind => some ({ project, path, kind } : Resource)) = some r
    rw [required?_given (faithful_string _), required?_given (faithful_string _),
      required?_given (faithful_resourceKind _)]
    rfl

theorem faithful_traversal (t : Traversal) : Faithful t where
  plain := plain_object (by
    simp [(faithful_list fun r _ => faithful_resource r).plain, (faithful_depth _).plain])
  decode := by
    show ((Slot.given (encode t.resources)).required?.bind fun resources =>
      (Slot.given (encode t.depth)).required?.bind fun depth => some ({ resources, depth } : Traversal)) = some t
    rw [required?_given (faithful_list fun r _ => faithful_resource r), required?_given (faithful_depth _)]
    rfl

theorem faithful_serverStatus (s : ServerStatus) : Faithful s where
  plain := plain_object (by simp [(faithful_int32 _).plain, (faithful_string _).plain])
  decode := by
    show ((Slot.given (encode s.code)).required?.bind fun code =>
      (Slot.given (encode s.message)).required?.bind fun message =>
      some ({ code, message } : ServerStatus)) = some s
    rw [required?_given (faithful_int32 _), required?_given (faithful_string _)]
    rfl

theorem faithful_subscriberId (id : SubscriberId) : Faithful id where
  plain := plain_object (by simp [(faithful_string _).plain])
  decode := by
    show ((Slot.given (encode id.qualifier)).required?.bind fun qualifier =>
      (Slot.given (encode id.localName)).required?.bind fun localName =>
      some ({ qualifier, localName } : SubscriberId)) = some id
    rw [required?_given (faithful_string _), required?_given (faithful_string _)]
    rfl

theorem faithful_syncKind (k : SyncKind) : Faithful k := by
  cases k <;> exact ⟨.text _, rfl⟩

theorem faithful_dispatchConfig (c : DispatchConfig) : Faithful c where
  plain := plain_object (by simp [(faithful_uint64 _).plain])
  decode := by
    let d : DispatchConfig := {}
    show ((Slot.given (encode c.providerBudget)).orElse? d.providerBudget |>.bind fun providerBudget =>
      (Slot.given (encode c.batchUnits)).orElse? d.batchUnits |>.bind fun batchUnits =>
      (Slot.given (encode c.nontraversedUnits)).orElse? d.nontraversedUnits |>.bind fun nontraversedUnits =>
      (Slot.given (encode c.lockPollIntervalMs)).orElse? d.lockPollIntervalMs |>.bind fun lockPollIntervalMs =>
      some ({ providerBudget, batchUnits, nontraversedUnits, lockPollIntervalMs } : DispatchConfig)) = some c
    simp only [orElse?_given (faithful_uint64 _), Option.bind_some]

theorem faithful_tagKind (k : TagKind) : Faithful k := by
  cases k <;> exact ⟨.text _, rfl⟩

theorem faithful_tag (t : Tag) : Faithful t where
  plain := plain_object (by simp [(faithful_string _).plain, (faithful_tagKind _).plain])
  decode := by
    show ((Slot.given (encode t.name)).required?.bind fun name =>
      (Slot.given (encode t.kind)).required?.bind fun kind => some ({ name, kind } : Tag)) = some t
    rw [required?_given (faithful_string _), required?_given (faithful_tagKind _)]
    rfl

theorem faithful_instant {t : Instant} (h : t.IsValid) : Faithful t where
  plain := .text _
  decode := by
    show Instant.parse? (String.ofList t.render).toList = some t
    rw [String.toList_ofList]
    exact t.parse?_render h

theorem faithful_syncInfo {i : SyncInfo} (h : ∀ t ∈ i.timestamp, t.IsValid) : Faithful i where
  plain := by
    have htimestamp : ∀ t ∈ i.timestamp, (encode t).Plain := fun t ht => (faithful_instant (h t ht)).plain
    obtain ⟨name, revision, timestamp, keywordMode, tag⟩ := i
    refine plain_object ?_
    cases timestamp <;> cases tag <;>
      simp [(faithful_string _).plain, (faithful_tag _).plain, htimestamp]
  decode := by
    have hdecode : decode? (encode i) = ((Slot.given (encode i.name)).required?.bind fun name =>
        (Slot.given (encode i.revision)).required?.bind fun revision =>
        (slotOf i.timestamp).optional?.bind fun timestamp =>
        (Slot.given (encode i.keywordMode)).required?.bind fun keywordMode =>
        (slotOf i.tag).optional?.bind fun tag =>
        some ({ name, revision, timestamp, keywordMode, tag } : SyncInfo)) := by
      obtain ⟨name, revision, timestamp, keywordMode, tag⟩ := i
      cases timestamp <;> cases tag <;> rfl
    rw [hdecode, optional?_slotOf (fun t ht => faithful_instant (h t ht)) nofun,
      optional?_slotOf (fun t _ => faithful_tag t) nofun]
    simp only [required?_given (faithful_string _), Option.bind_some]

theorem faithful_logEntry {e : LogEntry} (h : e.date.IsValid) : Faithful e where
  plain := plain_object (by
    simp [(faithful_string _).plain, (faithful_instant h).plain, (faithful_list fun t _ => faithful_tag t).plain])
  decode := by
    show ((Slot.given (encode e.revision)).required?.bind fun revision =>
      (Slot.given (encode e.author)).required?.bind fun author =>
      (Slot.given (encode e.date)).required?.bind fun date =>
      (Slot.given (encode e.comment)).required?.bind fun comment =>
      (Slot.given (encode e.state)).required?.bind fun state =>
      ((Slot.given (encode e.tags)).orElse? []).bind fun tags =>
      some ({ revision, author, date, comment, state, tags } : LogEntry)) = some e
    rw [required?_given (faithful_instant h), orElse?_given (faithful_list fun t _ => faithful_tag t)]
    simp only [required?_given (faithful_string _), Option.bind_some]

theorem faithful_infos {m : OrderedMap String SyncInfo}
    (h : ∀ e ∈ m.entries, ∀ t ∈ e.2.timestamp, t.IsValid) : Faithful m where
  plain := by
    refine plain_object ?_
    intro f hf
    obtain ⟨e, he, rfl⟩ := List.mem_map.1 hf
    exact ⟨rfl, (faithful_syncInfo (h e he)).plain⟩
  decode := by
    have hentries : (m.entries.map fun e => (some e.1, encode e.2)).mapM (fun f =>
        f.1.bind fun k => (decode? f.2).bind fun i => some (k, i)) = some (m.entries.map id) := by
      rw [List.mapM_map]
      refine mapM_eq_some ?_
      intro e he
      show (decode? (encode e.2)).bind (fun i => some (e.1, i)) = _
      rw [(faithful_syncInfo (h e he)).decode]
      rfl
    have hdecode : decode? (encode m) = some (OrderedMap.ofList (m.entries.map id)) :=
      congrArg (Option.bind · fun entries => some (OrderedMap.ofList entries)) hentries
    rw [hdecode, List.map_id, OrderedMap.ofList_entries]

theorem faithful_entries {e : Entries} (hsynced : e.syncedAt.IsValid)
    (h : ∀ f ∈ e.infos.entries, ∀ t ∈ f.2.timestamp, t.IsValid) : Faithful e where
  plain := plain_object (by simp [(faithful_instant hsynced).plain, (faithful_infos h).plain])
  decode := by
    show ((Slot.given (encode e.syncedAt)).required?.bind fun syncedAt =>
      ((Slot.given (encode e.infos)).orElse? .empty).bind fun infos =>
      some ({ syncedAt, infos } : Entries)) = some e
    rw [required?_given (faithful_instant hsynced), orElse?_given (faithful_infos h)]
    rfl

/--
Whatever is written is read back, with all that it holds: texts of any characters, numbers within the bounds of
their type, fields that are left out, maps by any keys, and instants to the nanosecond.
-/
theorem texts_read_back
    : (∀ r : Resource, ofText? (toText r) = some r) ∧
        (∀ t : Traversal, ofText? (toText t) = some t) ∧
        (∀ d : Depth, ofText? (toText d) = some d) ∧
        (∀ s : ServerStatus, ofText? (toText s) = some s) ∧
        (∀ id : SubscriberId, ofText? (toText id) = some id) ∧
        (∀ k : SyncKind, ofText? (toText k) = some k) ∧
        (∀ c : DispatchConfig, ofText? (toText c) = some c) ∧
        (∀ t : Tag, ofText? (toText t) = some t) ∧
        (∀ i : SyncInfo, (∀ t ∈ i.timestamp, t.IsValid) → ofText? (toText i) = some i) ∧
        (∀ e : LogEntry, e.date.IsValid → ofText? (toText e) = some e) ∧
        ∀ e : Entries, e.syncedAt.IsValid → (∀ f ∈ e.infos.entries, ∀ t ∈ f.2.timestamp, t.IsValid) →
          ofText? (toText e) = some e :=
  ⟨fun r => (faithful_resource r).ofText?_toText, fun t => (faithful_traversal t).ofText?_toText,
    fun d => (faithful_depth d).ofText?_toText, fun s => (faithful_serverStatus s).ofText?_toText,
    fun id => (faithful_subscriberId id).ofText?_toText, fun k => (faithful_syncKind k).ofText?_toText,
    fun c => (faithful_dispatchConfig c).ofText?_toText, fun t => (faithful_tag t).ofText?_toText,
    fun _ h => (faithful_syncInfo h).ofText?_toText, fun _ h => (faithful_logEntry h).ofText?_toText,
    fun _ hsynced h => (faithful_entries hsynced h).ofText?_toText⟩

/--
Characters that are escaped, one beyond the basic plane, a leap second, and a map by a key of
blanks.
-/
theorem texts_read_back_escaped
    : let t : Instant := ⟨2016, 12, 31, 23, 59, 60, 120000000⟩
      let i : SyncInfo := ⟨"\x00\"\\\n😀", "1.2", some t, "", some (.branch "b")⟩
      let l : LogEntry := ⟨"1.2", "", ⟨0, 2, 29, 0, 0, 0, 1⟩, "\x1f\t", "dead", [.head]⟩
      let e : Entries := ⟨⟨9999, 12, 31, 23, 59, 59, 999999999⟩, OrderedMap.empty.insert " " i⟩
      JsonCodec.ofText? (JsonCodec.toText i) = some i ∧ JsonCodec.ofText? (JsonCodec.toText l) = some l ∧
        JsonCodec.ofText? (JsonCodec.toText e) = some e := by
  intro t i l e
  obtain ⟨-, -, -, -, -, -, -, -, hinfo, hlog, hentries⟩ := texts_read_back
  have ht : t.IsValid := by decide
  have hi : ∀ u ∈ i.timestamp, u.IsValid := by
    rintro _ ⟨⟩
    exact ht
  refine ⟨hinfo i hi, hlog l (by decide), hentries e (by decide) ?_⟩
  intro f hf
  rw [List.mem_singleton.1 hf]
  exact hi

end JsonCodec
end SharedWorkspace
