import Mathlib.Logic.Function.Basic
import SharedWorkspace.Proofs.Remote.Contents

/-!
What is made of the answer of a server. Of all that it sends only the items count that name the file: the
contents are the last bytes among them (`fetch_answers`), and the newest revision is the last one that is
reported, unless the file was removed (`latest_answers`). Which of several failures counts is the same for
both (`Scenario.exits`).
-/

namespace SharedWorkspace

open Dialogue Activity

section

variable {α β : Type} {f : α → Option β} {g : β → α}

theorem filterMap_eq_nil_iff_of_isPartialInv (hf : Function.IsPartialInv g f) (xs : List α)
    : xs.filterMap f = [] ↔ ∀ b, g b ∉ xs := by
  rw [List.filterMap_eq_nil_iff]
  constructor
  . intro h b hb
    have hnone := h _ hb
    rw [(hf _ _).2 rfl] at hnone
    cases hnone
  . intro h x hx
    rw [Option.eq_none_iff_forall_ne_some]
    intro b hb
    exact h b ((hf _ _).1 hb ▸ hx)

theorem getLast?_filterMap_eq_some_iff_of_isPartialInv (hf : Function.IsPartialInv g f) (xs : List α)
    (b : β)
    : (xs.filterMap f).getLast? = some b ↔
        ∃ before after, xs = before ++ g b :: after ∧ ∀ b', g b' ∉ after := by
  rw [List.getLast?_eq_some_iff]
  constructor
  . rintro ⟨bs, h⟩
    obtain ⟨before, rest, rfl, _, h⟩ := List.filterMap_eq_append_iff.1 h
    obtain ⟨between, x, after, rfl, _, hx, hafter⟩ := List.filterMap_eq_cons_iff.1 h
    obtain rfl := (hf _ _).1 hx
    refine ⟨before ++ between, after, ?_, (filterMap_eq_nil_iff_of_isPartialInv hf _).1 hafter⟩
    rw [List.append_assoc]
  . rintro ⟨before, after, rfl, h⟩
    refine ⟨before.filterMap f, ?_⟩
    rw [List.filterMap_append, List.filterMap_cons_some ((hf _ _).2 rfl),
      (filterMap_eq_nil_iff_of_isPartialInv hf _).2 h]

end

namespace Revision

variable {r r' : Revision} {name : String} {items : List ResponseItem} {s t : Scenario}
variable {result : Except Failure Reader}

inductive Supplied (name : String) (items : List ResponseItem) : Option (List UInt8) → Prop where
  | bytes {before after : List ResponseItem} {bytes : List UInt8}
      (h : items = before ++ .contents name (some bytes) :: after)
      (hlast : ∀ bytes', .contents name (some bytes') ∉ after) : Supplied name items (some bytes)
  | empty (h : .contents name none ∈ items) (hbytes : ∀ bytes, .contents name (some bytes) ∉ items)
      : Supplied name items (some [])
  | nothing (h : ∀ bytes, .contents name bytes ∉ items) : Supplied name items none

theorem mem_deliveries_iff {bytes : Option (List UInt8)}
    : bytes ∈ deliveries name items ↔ .contents name bytes ∈ items := by
  unfold deliveries
  rw [List.mem_filterMap]
  constructor
  . rintro ⟨item, hitem, h⟩
    split at h
    . split at h
      . next hname =>
        cases h
        exact hname ▸ hitem
      . cases h
    . cases h
  . intro h
    exact ⟨_, h, if_pos rfl⟩

def bytes? (name : String) : ResponseItem → Option (List UInt8)
  | .contents name' (some bytes) => if name' = name then some bytes else none
  | _ => none

theorem isPartialInv_bytes? (name : String)
    : Function.IsPartialInv (fun bytes => .contents name (some bytes)) (bytes? name) := by
  intro bytes item
  unfold bytes?
  split
  . next name' bytes' =>
    by_cases h : name' = name
    . simp [h, eq_comm]
    . simp [h, Ne.symm h]
  . next hitem =>
    constructor
    . nofun
    . rintro rfl
      exact absurd rfl (hitem _ _)

theorem filterMap_deliveries (name : String) (items : List ResponseItem)
    : (deliveries name items).filterMap id = items.filterMap (bytes? name) := by
  unfold deliveries
  rw [List.filterMap_filterMap]
  congr 1
  funext item
  cases item with
  | contents name' bytes =>
    unfold bytes?
    by_cases h : name' = name
    . cases bytes <;> simp [h]
    . cases bytes <;> simp [h]
  | _ => rfl

theorem supplied_delivered? (name : String) (items : List ResponseItem)
    : Supplied name items (delivered? name items) := by
  unfold delivered?
  rw [filterMap_deliveries]
  split
  . next hnil =>
    apply Supplied.nothing
    intro bytes h
    rw [← mem_deliveries_iff, hnil] at h
    cases h
  . next hne =>
    cases hlast : (items.filterMap (bytes? name)).getLast? with
    | none =>
      have hbytes := (filterMap_eq_nil_iff_of_isPartialInv (isPartialInv_bytes? name) _).1
        (List.getLast?_eq_none_iff.1 hlast)
      obtain ⟨bytes, h⟩ := List.exists_mem_of_ne_nil _ hne
      rw [mem_deliveries_iff] at h
      cases bytes with
      | none => exact .empty h hbytes
      | some bytes => exact absurd h (hbytes bytes)
    | some bytes =>
      obtain ⟨before, after, h, hafter⟩ :=
        (getLast?_filterMap_eq_some_iff_of_isPartialInv (isPartialInv_bytes? name) _ _).1 hlast
      exact .bytes h hafter

theorem Supplied.eq {found : Option (List UInt8)} (h : Supplied name items found)
    : found = delivered? name items := by
  have hne {bytes : Option (List UInt8)} (h : .contents name bytes ∈ items)
      : deliveries name items ≠ [] :=
    List.ne_nil_of_mem (mem_deliveries_iff.2 h)
  unfold delivered?
  rw [filterMap_deliveries]
  cases h with
  | @bytes before after bytes h hlast =>
    have hmem : .contents name (some bytes) ∈ items := h ▸ List.mem_append_right _ (.head _)
    have hget := (getLast?_filterMap_eq_some_iff_of_isPartialInv (isPartialInv_bytes? name) _ _).2
      ⟨before, after, h, hlast⟩
    rw [if_neg (hne hmem), hget, Option.getD_some]
  | empty h hbytes =>
    have hnone := (filterMap_eq_nil_iff_of_isPartialInv (isPartialInv_bytes? name) _).2 hbytes
    rw [if_neg (hne h), hnone, List.getLast?_nil, Option.getD_none]
  | nothing h =>
    rw [if_pos]
    rw [List.eq_nil_iff_forall_not_mem]
    intro bytes hmem
    exact h bytes (mem_deliveries_iff.1 hmem)

inductive Reports (r : Revision) (s : Scenario) : Except Failure Reader → Revision → Prop where
  | failed {e : Failure} (h : s.failure? = some e) : Reports r s (.error e) r
  | supplied {bytes : List UInt8} (h : s.failure? = none)
      (hbytes : Supplied r.name s.items (some bytes))
      : Reports r s (.ok { bytes }) { r with contents := some bytes }
  | unavailable (h : s.failure? = none) (hnothing : Supplied r.name s.items none)
      : Reports r s (.error (.contentUnavailable r.location)) r

theorem reports_iff : r.Reports s result r' ↔ (result, r') = r.fetched s.outcome := by
  unfold Scenario.outcome
  constructor
  . intro h
    cases h with
    | failed h => rw [h, fetched]
    | supplied h hbytes => rw [h, fetched, ← hbytes.eq]
    | unavailable h hnothing => rw [h, fetched, ← hnothing.eq]
  . intro h
    cases hfailure : s.failure? with
    | some e =>
      rw [hfailure] at h
      cases h
      exact .failed hfailure
    | none =>
      have hd := supplied_delivered? r.name s.items
      rw [hfailure, fetched] at h
      cases hfound : delivered? r.name s.items with
      | some bytes =>
        rw [hfound] at hd h
        cases h
        exact .supplied hfailure hd
      | none =>
        rw [hfound] at hd h
        cases h
        exact .unavailable hfailure hd

def isContents (name : String) : ResponseItem → Bool
  | .contents name' _ => name' = name
  | _ => false

theorem delivered?_filter (name : String) (items : List ResponseItem)
    : delivered? name (items.filter (isContents name)) = delivered? name items := by
  have heq : deliveries name (items.filter (isContents name)) = deliveries name items := by
    unfold deliveries
    rw [List.filterMap_filter]
    congr 1
    funext item
    cases item with
    | contents name' bytes => by_cases h : name' = name <;> simp [isContents, h]
    | _ => rfl
  unfold delivered?
  rw [heq]

structure Fetches (r : Revision) : Prop where
  runs : ∀ es result r', r.fetch.Run es (result, r') ↔
    ∃ s : Scenario, s.Genuine ∧
      es = s.events r.parent.repository r.parent
        { kind := .update
          localOptions := [.tag (.version r.revision), .ignoreLocalChanges]
          arguments := [r.name] } ∧
      r.Reports s result r'
  settled : ∀ s, ∃! x : Except Failure Reader × Revision, r.Reports s x.1 x.2
  unopened : ∀ s : Scenario, s.stops = true → ∀ location root request,
    effects (s.events location root request) = []
  foreign : ∀ s t : Scenario, s.failure? = t.failure? →
    s.items.filter (isContents r.name) = t.items.filter (isContents r.name) →
    ∀ result r', r.Reports s result r' ↔ r.Reports t result r'

theorem fetch_answers (hr : r.contents = none) : r.Fetches where
  runs es result r' := by
    rw [fetch_of_unfetched hr, Session.run_exchange_bind_iff]
    simp only [reports_iff]
    rfl
  settled s := by
    simp only [reports_iff]
    exact existsUnique_eq
  unopened s hs location root request := by
    rw [s.effects_events, if_pos hs]
  foreign s t hfailure hitems result r' := by
    rw [reports_iff, reports_iff]
    unfold Scenario.outcome
    rw [hfailure]
    cases t.failure? with
    | some e => rfl
    | none => rw [fetched, fetched, ← delivered?_filter, hitems, delivered?_filter]

/--
The server rejects the command although it has sent something, and then cannot close the session.
-/
theorem fetch_answers_rejected
    : let r := Revision.new (.new "host" "/website/" none) "index" "1.2" none
      let response : Response := ⟨.serverError ⟨1, "unknown"⟩, [.contents "index" (some [104, 105])]⟩
      let s : Scenario :=
        { stops := false
          opening := pure (.ok 7)
          opened := .ok 7
          running := pure (.ok response)
          response := .ok response
          closed := .error (.client "gone") }
      r.contents = none ∧
        r.fetch.Run (s.events "host" r.parent r.contentsRequest)
          (.error (.serverProtocol ⟨1, "unknown"⟩), r) := by
  intro r response s
  refine ⟨rfl, ((fetch_answers (r := r) rfl).runs _ _ _).2 ⟨s, ?_, rfl, .failed rfl⟩⟩
  exact ⟨.result _, .result _⟩

inductive Newest (name : String) (items : List ResponseItem) : Option String → Prop where
  | removed (h : .removed name ∈ items) : Newest name items none
  | unreported (h : ∀ revision, .revision name revision ∉ items) : Newest name items none
  | reported {before after : List ResponseItem} {revision : String} (hremoved : .removed name ∉ items)
      (h : items = before ++ .revision name revision :: after)
      (hlast : ∀ revision', .revision name revision' ∉ after) : Newest name items (some revision)

def revision? (name : String) : ResponseItem → Option String
  | .revision name' revision => if name' = name then some revision else none
  | _ => none

theorem isPartialInv_revision? (name : String)
    : Function.IsPartialInv (.revision name) (revision? name) := by
  intro revision item
  unfold revision?
  split
  . next name' revision' =>
    by_cases h : name' = name
    . simp [h, eq_comm]
    . simp [h, Ne.symm h]
  . next hitem =>
    constructor
    . nofun
    . rintro rfl
      exact absurd rfl (hitem _ _)

theorem reported?_go_eq (name : String) (items : List ResponseItem) (found : Option String)
    : reported?.go name found items
        =
      if .removed name ∈ items then
        none
      else
        (items.filterMap (revision? name)).getLast?.or found := by
  induction items generalizing found with
  | nil => rfl
  | cons item items ih =>
    cases item with
    | removed name' =>
      unfold reported?.go
      by_cases h : name' = name
      . simp [h]
      . simp [h, Ne.symm h, ih, revision?]
    | revision name' revision =>
      unfold reported?.go
      rw [ih]
      by_cases h : name' = name
      . simp [h, revision?, List.getLast?_cons]
      . simp [h, revision?]
    | _ =>
      unfold reported?.go
      rw [ih]
      simp [revision?]

theorem reported?_eq (name : String) (items : List ResponseItem)
    : reported? name items
        =
      if .removed name ∈ items then none else (items.filterMap (revision? name)).getLast? := by
  unfold reported?
  rw [reported?_go_eq, Option.or_none]

theorem newest_iff {found : Option String}
    : Newest name items found ↔ found = reported? name items := by
  have hnil := filterMap_eq_nil_iff_of_isPartialInv (isPartialInv_revision? name) items
  have hget := getLast?_filterMap_eq_some_iff_of_isPartialInv (isPartialInv_revision? name) items
  rw [reported?_eq]
  constructor
  . intro h
    cases h with
    | removed h => rw [if_pos h]
    | unreported h => rw [hnil.2 h, List.getLast?_nil, ite_self]
    | @reported before after revision hremoved h hlast =>
      rw [if_neg hremoved, (hget revision).2 ⟨before, after, h, hlast⟩]
  . rintro rfl
    split
    . next h => exact .removed h
    . next hremoved =>
      cases hfound : (items.filterMap (revision? name)).getLast? with
      | none => exact .unreported (hnil.1 (List.getLast?_eq_none_iff.1 hfound))
      | some revision =>
        obtain ⟨before, after, h, hlast⟩ := (hget revision).1 hfound
        exact .reported hremoved h hlast

theorem newest_none_iff
    : Newest name items none ↔
        .removed name ∈ items ∨ ∀ revision, .revision name revision ∉ items := by
  constructor
  . intro h
    cases h with
    | removed h => exact .inl h
    | unreported h => exact .inr h
  . rintro (h | h)
    . exact .removed h
    . exact .unreported h

def ofReport (parent : RemoteFolder) (info : SyncInfo) (tag : Option Tag) (revision : String)
    : Revision where
  parent
  info :=
    { name := info.name
      revision
      timestamp := info.timestamp
      keywordMode := info.keywordMode
      tag }
  workspaceState := .none
  contents := none

variable {parent : RemoteFolder} {info : SyncInfo} {tag : Option Tag}
variable {x : Except Failure (Option Revision)}

def Finds (parent : RemoteFolder) (info : SyncInfo) (tag : Option Tag) (s : Scenario)
    : Except Failure (Option Revision) → Prop :=
  s.Ends fun r => ∃ found, Newest info.name s.items found ∧ r = found.map (ofReport parent info tag)

def sought (parent : RemoteFolder) (info : SyncInfo) (tag : Option Tag)
    (outcome : Except Failure (List ResponseItem)) : Except Failure (Option Revision) :=
  outcome.map fun items => (reported? info.name items).map (ofReport parent info tag)

theorem finds_iff : Finds parent info tag s x ↔ x = sought parent info tag s.outcome := by
  apply Scenario.ends_iff
  intro r
  simp only [newest_iff, exists_eq_left]

theorem latest_of_added (h : info.isAdded = true) : latest parent info tag = pure (.ok none) := by
  unfold latest
  rw [if_pos h]

theorem latest_of_not_added (h : info.isAdded = false)
    : latest parent info tag
        =
      Session.exchange parent.repository parent (latestRequest info.name tag) >>= fun outcome =>
        pure (sought parent info tag outcome) := by
  unfold latest
  rw [h, if_neg Bool.false_ne_true]
  congr 1
  funext outcome
  cases outcome <;> rfl

def isNews (name : String) : ResponseItem → Bool
  | .removed name' | .revision name' _ => name' = name
  | _ => false

theorem reported?_filter (name : String) (items : List ResponseItem)
    : reported? name (items.filter (isNews name)) = reported? name items := by
  have hrevisions : (items.filter (isNews name)).filterMap (revision? name)
      = items.filterMap (revision? name) := by
    rw [List.filterMap_filter]
    congr 1
    funext item
    cases item with
    | revision name' revision => by_cases h : name' = name <;> simp [isNews, revision?, h]
    | _ => simp [revision?]
  rw [reported?_eq, reported?_eq, hrevisions]
  simp [isNews]

structure Seeks (parent : RemoteFolder) (info : SyncInfo) (tag : Option Tag) : Prop where
  added : info.isAdded = true → latest parent info tag = pure (.ok none)
  runs : info.isAdded = false → ∀ es x, (latest parent info tag).Run es x ↔
    ∃ s : Scenario, s.Genuine ∧
      es = s.events parent.repository parent
        { kind := .update
          globalOptions := [.doNotChangeFiles]
          localOptions := (tag.map LocalOption.tag).toList
          arguments := [info.name] } ∧
      Finds parent info tag s x
  settled : ∀ s, ∃! x, Finds parent info tag s x
  none_iff : ∀ s, Finds parent info tag s (.ok none) ↔
    s.failure? = none ∧
      (.removed info.name ∈ s.items ∨ ∀ revision, .revision info.name revision ∉ s.items)
  foreign : ∀ s t : Scenario, s.failure? = t.failure? →
    s.items.filter (isNews info.name) = t.items.filter (isNews info.name) →
    ∀ x, Finds parent info tag s x ↔ Finds parent info tag t x

theorem latest_answers (parent : RemoteFolder) (info : SyncInfo) (tag : Option Tag)
    : Seeks parent info tag where
  added := latest_of_added
  runs hadded es x := by
    rw [latest_of_not_added hadded, Session.run_exchange_bind_iff]
    simp only [finds_iff]
    rfl
  settled s := by
    simp only [finds_iff]
    exact existsUnique_eq
  none_iff s := by
    unfold Finds
    rw [Scenario.ends_ok_iff, ← newest_none_iff]
    apply and_congr_right'
    constructor
    . rintro ⟨found, hfound, h⟩
      cases found with
      | none => exact hfound
      | some => cases h
    . intro h
      exact ⟨none, h, rfl⟩
  foreign s t hfailure hitems x := by
    rw [finds_iff, finds_iff]
    unfold Scenario.outcome
    rw [hfailure]
    cases t.failure? with
    | some e => rfl
    | none =>
      unfold sought
      dsimp only [Except.map]
      rw [← reported?_filter, hitems, reported?_filter]

/--
There is news of the file twice, and of another one that was removed.
-/
theorem latest_answers_reported
    : let parent := RemoteFolder.new "host" "/website/" none
      let info : SyncInfo :=
        { name := "index"
          revision := "1.2"
          timestamp := none
          keywordMode := "kb"
          tag := some (.branch "old") }
      let response : Response :=
        ⟨.ok, [.revision "index" "1.3", .removed "about", .revision "index" "1.4", .revision "about" "1.5"]⟩
      let s : Scenario :=
        { stops := false
          opening := pure (.ok 7)
          opened := .ok 7
          running := pure (.ok response)
          response := .ok response }
      info.isAdded = false ∧
        (latest parent info (some .head)).Run
          (s.events "host" parent (latestRequest "index" (some .head)))
          (.ok (some (ofReport parent info (some .head) "1.4"))) := by
  intro parent info response s
  have hadded : info.isAdded = false := by decide
  have hnewest : Newest info.name s.items (some "1.4") :=
    @Newest.reported _ _ [.revision "index" "1.3", .removed "about"] [.revision "about" "1.5"] "1.4"
      (by decide) rfl (by simp [info])
  refine ⟨hadded, ((latest_answers parent info (some .head)).runs hadded _ _).2 ⟨s, ?_, rfl, ?_⟩⟩
  . exact ⟨.result _, .result _⟩
  . exact .answered rfl ⟨_, hnewest, rfl⟩

end Revision
end SharedWorkspace
