import SharedWorkspace.Handle
import SharedWorkspace.Proofs.FileTree.Steps
import SharedWorkspace.Proofs.Remote.Contents

/-!
Listings of folders of a repository, and walks down from a folder, one listing after another. A listing has
one member for each entry that the server sends (`Lists`), and what a walk comes to has an address that can be
told from the names on the way (`walk_addresses`).
-/

namespace SharedWorkspace

open Dialogue Activity

namespace Text

variable {ps : List String}

theorem intercalate_eq_empty_iff (h : ∀ p ∈ ps, p ≠ "") : "/".intercalate ps = "" ↔ ps = [] := by
  constructor
  . intro hps
    cases ps with
    | nil => rfl
    | cons p rest =>
      cases rest with
      | nil => simp_all
      | cons => simp at hps
  . rintro rfl
    exact String.intercalate_nil

end Text

namespace RemoteFolder

def IsName (name : String) : Prop :=
  name ≠ "" ∧ '/' ∉ name.toList

variable {f start : RemoteFolder} {name : String} {names ps : List String}

theorem joinPath_intercalate (h : ∀ p ∈ ps, p ≠ "") (name : String)
    : joinPath ("/".intercalate ps) name = "/".intercalate (ps ++ [name]) := by
  unfold joinPath
  simp only [Text.intercalate_eq_empty_iff h]
  split
  . next hps => rw [hps, List.nil_append, String.intercalate_singleton]
  . next hps =>
    rw [String.intercalate_append_of_ne_nil hps (List.cons_ne_nil _ _), String.intercalate_singleton]

theorem joinPath_ne_empty (h : name ≠ "") (parent : String) : joinPath parent name ≠ "" := by
  unfold joinPath
  split
  . exact h
  . simp

theorem getLast?_pieces_joinPath (h : '/' ∉ name.toList) (parent : String)
    : (Text.pieces '/' (joinPath parent name)).getLast? = some name := by
  unfold joinPath
  split
  . have hname := Text.pieces_joined (List.cons_ne_nil name []) (by simpa using h)
    rw [Text.joined_eq, String.intercalate_singleton] at hname
    rw [hname, List.getLast?_singleton]
  . have hne := Text.pieces_ne_nil '/' parent
    have hjoined : Text.joined '/' (Text.pieces '/' parent ++ [name]) = parent ++ "/" ++ name := by
      rw [Text.joined_eq, String.intercalate_append_of_ne_nil hne (List.cons_ne_nil _ _), ← Text.joined_eq,
        Text.joined_pieces, String.intercalate_singleton]
    rw [← hjoined, Text.pieces_joined (by simp)]
    . exact List.getLast?_concat
    . intro s hs
      rcases List.mem_append.1 hs with hs | hs
      . exact Text.not_mem_of_mem_pieces hs
      . rwa [List.mem_singleton.1 hs]

theorem Made.strips (h : f.Made) : ∃ cs, Text.Strips (· = '/') cs f.path.toList := by
  obtain ⟨repository, path, tag, rfl⟩ := h
  refine ⟨path.toList, ?_⟩
  rw [new, String.toList_ofList]
  exact Text.strips_trimEnds _ _

theorem not_slash_of_isName (h : IsName name) {c : Char} (hc : c ∈ name.toList)
    : decide (c = '/') = false := by
  rw [decide_eq_false_iff_not]
  rintro rfl
  exact h.2 hc

theorem child_path (hf : f.Made) (h : IsName name) : (f.child name).path = joinPath f.path name := by
  obtain ⟨_, hs⟩ := hf.strips
  have hne : name.toList ≠ [] := by simpa using h.1
  unfold child new joinPath
  dsimp only
  rw [Text.trimEnds_eq_self, String.ofList_toList]
  . intro c hc
    split at hc
    . exact not_slash_of_isName h (List.mem_of_head? hc)
    . next hpath =>
      rw [String.toList_append, String.toList_append, List.append_assoc,
        List.head?_append_of_ne_nil _ (by simpa using hpath)] at hc
      exact hs.head c hc
  . intro c hc
    split at hc
    . exact not_slash_of_isName h (List.mem_of_getLast? hc)
    . rw [String.toList_append, List.getLast?_append_of_ne_nil _ hne] at hc
      exact not_slash_of_isName h (List.mem_of_getLast? hc)

theorem location_append (f : RemoteFolder) (name : String)
    : f.location ++ "/" ++ name = f.repository ++ "/" ++ joinPath f.path name := by
  unfold location joinPath
  split
  . rfl
  . simp only [String.append_assoc]

theorem child_location (hf : f.Made) (h : IsName name)
    : (f.child name).location = f.repository ++ "/" ++ joinPath f.path name := by
  unfold location
  rw [child_path hf h, if_neg (joinPath_ne_empty h.1 _)]
  rfl

theorem child_name (hf : f.Made) (h : IsName name) : (f.child name).name = name := by
  unfold RemoteFolder.name
  rw [child_path hf h, getLast?_pieces_joinPath h.2, Option.getD_some]

def trail (f : RemoteFolder) : List String :=
  if f.path = "" then [] else [f.path]

theorem path_eq_trail (f : RemoteFolder) : f.path = "/".intercalate f.trail := by
  unfold trail
  split
  . next h => rw [h, String.intercalate_nil]
  . rw [String.intercalate_singleton]

theorem ne_empty_of_mem_trail {p : String} (h : p ∈ f.trail) : p ≠ "" := by
  unfold trail at h
  split at h
  . cases h
  . next hpath => rwa [List.mem_singleton.1 h]

theorem head?_intercalate (h : IsName name) (names : List String)
    : ("/".intercalate (name :: names)).toList.head? = name.toList.head? := by
  have hne : name.toList ≠ [] := by simpa using h.1
  cases names with
  | nil => rw [String.intercalate_singleton]
  | cons =>
    rw [String.intercalate_cons_cons, String.toList_append, String.toList_append, List.append_assoc,
      List.head?_append_of_ne_nil _ hne]

theorem head?_intercalate_ne (h : ∀ n ∈ names, IsName n) : ("/".intercalate names).toList.head? ≠ some '/' := by
  cases names with
  | nil => simp
  | cons name rest =>
    have hname := h name (.head _)
    rw [head?_intercalate hname]
    intro hhead
    exact hname.2 (List.mem_of_head? hhead)

theorem relativePath_below {path base rest : String} (h : base ≠ "")
    (hpath : path.toList = base.toList ++ '/' :: rest.toList) (hrest : rest.toList.head? ≠ some '/')
    : relativePath path base = rest := by
  unfold relativePath
  rw [if_neg h, Text.dropStart?_eq_some_iff.2 hpath]
  show String.ofList (rest.toList.dropWhile (· = '/')) = rest
  rw [Text.dropWhile_eq_self, String.ofList_toList]
  intro c hc
  rw [decide_eq_false_iff_not]
  rintro rfl
  exact hrest hc

theorem relativePath_trail (start : RemoteFolder) (hne : names ≠ []) (h : ∀ n ∈ names, IsName n)
    : relativePath ("/".intercalate (start.trail ++ names)) start.path = "/".intercalate names := by
  unfold trail
  split
  . next hpath => rw [relativePath, if_pos hpath, List.nil_append]
  . next hpath =>
    refine relativePath_below hpath ?_ (head?_intercalate_ne h)
    rw [List.singleton_append, String.intercalate_cons_of_ne_nil hne]
    simp

structure Entry where
  name : String
  isFolder : Bool
  revision : Option String
  deriving DecidableEq

namespace Entry

def ofItem? : ResponseItem → Option Entry
  | .entry name isFolder revision => some { name, isFolder, revision }
  | _ => none

def member (f : RemoteFolder) (e : Entry) : RemoteMember :=
  if e.isFolder then .folder (f.child e.name) else .file (.new f e.name (e.revision.getD "") none)

theorem member?_eq (f : RemoteFolder) (item : ResponseItem)
    : f.member? item = (ofItem? item).map (member f) := by
  cases item with
  | entry name isFolder revision => cases isFolder <;> rfl
  | _ => rfl

end Entry

def entries (items : List ResponseItem) : List Entry :=
  items.filterMap Entry.ofItem?

theorem filterMap_member? (f : RemoteFolder) (items : List ResponseItem)
    : items.filterMap f.member? = (entries items).map (Entry.member f) := by
  unfold entries
  rw [List.map_filterMap]
  congr 1
  funext item
  exact Entry.member?_eq f item

variable {s : Scenario} {es : List (Event (Progress.calls.sum Session.calls))}
variable {x : Except Failure (List RemoteMember)} {found : List Handle} {t : FileTree}

theorem ends_member_iff
    : s.Ends (· = (entries s.items).map (Entry.member f)) x ↔
        x = s.outcome.map fun items => (entries items).map (Entry.member f) :=
  Scenario.ends_iff fun _ => Iff.rfl

theorem run_members_iff
    : f.members.Run es x ↔
        ∃ s : Scenario, s.Genuine ∧ es = s.events f.repository f f.listRequest ∧
          s.Ends (· = (entries s.items).map (Entry.member f)) x := by
  have hmembers : f.members
      =
    Session.exchange f.repository f f.listRequest >>= fun outcome =>
      pure (outcome.map fun items => (entries items).map (Entry.member f)) := by
    unfold members
    congr 1
    funext outcome
    cases outcome with
    | error e => rfl
    | ok items =>
      dsimp only
      rw [filterMap_member?]
      rfl
  rw [hmembers, Session.run_exchange_bind_iff]
  simp only [ends_member_iff]

theorem run_children_iff {y : Except Failure (List Handle)}
    : (Handle.children t (.remoteFolder f)).Run es y ↔
        ∃ x, f.members.Run es x ∧ y = x.map (List.map Handle.ofMember) := by
  have hchildren : Handle.children t (.remoteFolder f)
      =
    f.members >>= fun x => pure (x.map (List.map Handle.ofMember)) := by
    show f.members >>= _ = f.members >>= _
    congr 1
    funext x
    cases x <;> rfl
  rw [hchildren, run_bind_iff]
  constructor
  . rintro ⟨es, fs, x, rfl, h, hy⟩
    cases hy
    exact ⟨x, (List.append_nil _).symm ▸ h, rfl⟩
  . rintro ⟨x, h, rfl⟩
    exact ⟨es, [], x, (List.append_nil _).symm, h, .result _⟩

structure Lists (f : RemoteFolder) : Prop where
  members : ∀ es x, f.members.Run es x ↔
    ∃ s : Scenario, s.Genuine ∧ es = s.events f.repository f f.listRequest ∧
      s.Ends (· = (entries s.items).map (Entry.member f)) x
  children : ∀ t es y, (Handle.children t (.remoteFolder f)).Run es y ↔
    ∃ x, f.members.Run es x ∧ y = x.map (List.map Handle.ofMember)

inductive Looks (f : RemoteFolder) (s : Scenario) : List Handle → Prop where
  | members {ms : List RemoteMember} (hs : s.Genuine)
      (h : f.members.Run (s.events f.repository f f.listRequest) (.ok ms))
      : Looks f s (ms.map Handle.ofMember)
  | children {t : FileTree} {found : List Handle} (hs : s.Genuine)
      (h : (Handle.children t (.remoteFolder f)).Run (s.events f.repository f f.listRequest) (.ok found))
      : Looks f s found

theorem members_eq_of_run {ms : List RemoteMember} (hs : s.Genuine)
    (h : f.members.Run (s.events f.repository f f.listRequest) (.ok ms))
    : ms = (entries s.items).map (Entry.member f) := by
  have heq := h.unique (run_members_iff.2 ⟨s, hs, rfl, ends_member_iff.2 rfl⟩)
  exact (Scenario.ends_ok_iff.1 (ends_member_iff.2 heq)).2

theorem Looks.eq (h : Looks f s found)
    : found = (entries s.items).map fun e => Handle.ofMember (e.member f) := by
  cases h with
  | members hs h =>
    rw [members_eq_of_run hs h, List.map_map]
    rfl
  | children hs h =>
    obtain ⟨x, hmembers, heq⟩ := run_children_iff.1 h
    cases x with
    | error e => cases heq
    | ok ms =>
      cases heq
      rw [members_eq_of_run hs hmembers, List.map_map]
      rfl

/--
Ways down from the folder `start`, each step into a member of the folder that was reached before; `names` are
those of the entries on the way.
-/
inductive Walk (start : RemoteFolder) : List String → Handle → Prop where
  | start : Walk start [] (.remoteFolder start)
  | step {names : List String} {f : RemoteFolder} {s : Scenario} {found : List Handle} {i : Nat} {e : Entry}
      {h : Handle} (hf : Walk start names (.remoteFolder f)) (hlook : Looks f s found)
      (he : (entries s.items)[i]? = some e) (hfound : found[i]? = some h)
      : Walk start (names ++ [e.name]) h

end RemoteFolder

structure Address where
  repository : RepositoryLocation
  tag : Option Tag
  path : String
  location : String
  name : String
  relative : String
  deriving DecidableEq

def Handle.address? (start : RemoteFolder) : Handle → Option Address
  | .remoteFile r =>
    some
      { repository := r.parent.repository
        tag := r.parent.tag
        path := r.repositoryPath
        location := r.location
        name := r.name
        relative := r.relativeTo start }
  | .remoteFolder f =>
    some
      { repository := f.repository
        tag := f.tag
        path := f.path
        location := f.location
        name := f.name
        relative := f.relativeTo start }
  | _ => none

namespace RemoteFolder

variable {f start : RemoteFolder} {name : String} {names : List String} {e : Entry} {h : Handle}

theorem address?_member (hf : f.Made) (he : IsName e.name) (start : RemoteFolder)
    : (Handle.ofMember (e.member f)).address? start
        =
      some
        { repository := f.repository
          tag := f.tag
          path := joinPath f.path e.name
          location := f.repository ++ "/" ++ joinPath f.path e.name
          name := e.name
          relative := relativePath (joinPath f.path e.name) start.path } := by
  unfold Entry.member
  split
  . show some (Address.mk _ _ (f.child e.name).path (f.child e.name).location (f.child e.name).name _) = _
    rw [child_location hf he, child_name hf he, relativeTo, child_path hf he]
    rfl
  . show some (Address.mk _ _ _ (f.location ++ "/" ++ e.name) _ _) = _
    rw [location_append]
    rfl

theorem Entry.eq_child (h : .remoteFolder f = Handle.ofMember (e.member start)) : f = start.child e.name := by
  unfold Entry.member at h
  split at h
  . exact Handle.remoteFolder.inj h
  . cases h

theorem Looks.eq_member {s : Scenario} {found : List Handle} {i : Nat} (hlook : Looks f s found)
    (he : (entries s.items)[i]? = some e) (hfound : found[i]? = some h) : h = .ofMember (e.member f) := by
  rw [hlook.eq, List.getElem?_map, he] at hfound
  exact (Option.some.inj hfound).symm

theorem Walk.last (hwalk : Walk start (names ++ [name]) h)
    : ∃ (f : RemoteFolder) (e : Entry),
        Walk start names (.remoteFolder f) ∧ e.name = name ∧ h = .ofMember (e.member f) := by
  generalize hns : names ++ [name] = ns at hwalk
  cases hwalk with
  | start => simp at hns
  | @step _ f _ _ _ e _ hf hlook he hfound =>
    obtain ⟨rfl, hname⟩ := List.append_inj' hns rfl
    exact ⟨f, e, hf, (List.cons.inj hname).1.symm, hlook.eq_member he hfound⟩

structure Reached (start : RemoteFolder) (names : List String) (f : RemoteFolder) : Prop where
  made : f.Made
  repository : f.repository = start.repository
  tag : f.tag = start.tag
  path : f.path = "/".intercalate (start.trail ++ names)

theorem Reached.joinPath_eq (hf : Reached start names f) (hnames : ∀ n ∈ names, IsName n) (name : String)
    : joinPath f.path name = "/".intercalate (start.trail ++ (names ++ [name])) := by
  rw [hf.path, joinPath_intercalate, List.append_assoc]
  intro p hp
  rcases List.mem_append.1 hp with hp | hp
  . exact ne_empty_of_mem_trail hp
  . exact (hnames p hp).1

theorem Walk.reached (hstart : start.Made) (hwalk : Walk start names h) (hh : h = .remoteFolder f)
    (hnames : ∀ n ∈ names, IsName n) : Reached start names f := by
  induction hwalk generalizing f with
  | start =>
    cases hh
    exact
      { made := hstart
        repository := rfl
        tag := rfl
        path := by rw [List.append_nil, ← path_eq_trail] }
  | @step names g _ _ _ e _ _ hlook he hfound ih =>
    obtain ⟨hbefore, hname⟩ := List.forall_mem_append.1 hnames
    have hg := ih rfl hbefore
    obtain rfl := Entry.eq_child (hh.symm.trans (hlook.eq_member he hfound))
    exact
      { made := ⟨_, _, _, rfl⟩
        repository := hg.repository
        tag := hg.tag
        path := by rw [child_path hg.made (hname _ (.head _)), hg.joinPath_eq hbefore] }

/--
However a walk goes down from a folder and whatever the servers answer, the names on the way settle where it
comes to, and each listing has a member for each entry and no others.
-/
theorem walk_addresses (repository : RepositoryLocation) (path : String) (tag : Option Tag)
    : let start := new repository path tag
      (∀ names name h, Walk start (names ++ [name]) h → (∀ n ∈ names ++ [name], IsName n) →
        let reached := "/".intercalate (start.trail ++ (names ++ [name]))
        h.address? start
            =
          some
            { repository
              tag
              path := reached
              location := repository ++ "/" ++ reached
              name
              relative := "/".intercalate (names ++ [name]) }) ∧
      ∀ f, Lists f := by
  intro start
  refine ⟨?_, fun f => ⟨fun _ _ => run_members_iff, fun _ _ _ => run_children_iff⟩⟩
  intro names name h hwalk hnames reached
  obtain ⟨hbefore, hname⟩ := List.forall_mem_append.1 hnames
  obtain ⟨f, e, hf, rfl, rfl⟩ := hwalk.last
  have hf := hf.reached ⟨repository, path, tag, rfl⟩ rfl hbefore
  rw [address?_member hf.made (hname _ (.head _)), hf.joinPath_eq hbefore,
    relativePath_trail start (by simp) hnames, hf.repository, hf.tag]
  rfl

/--
A file in a folder in a folder: the first one is listed by itself, the second one by a handle.
-/
theorem walk_addresses_nested
    : let start := new "host" "/website/" (some .head)
      let file := Handle.remoteFile (.new (start.child "docs") "index" "" none)
      Walk start ["docs", "index"] file ∧
        file.address? start
            =
          some
            { repository := "host"
              tag := some .head
              path := "website/docs/index"
              location := "host/website/docs/index"
              name := "index"
              relative := "docs/index" } := by
  intro start file
  let scenario (items : List ResponseItem) : Scenario :=
    { stops := false
      opening := pure (.ok 7)
      opened := .ok 7
      running := pure (.ok ⟨.ok, items⟩)
      response := .ok ⟨.ok, items⟩ }
  have hscenario (items : List ResponseItem) : (scenario items).Genuine := ⟨.result _, .result _⟩
  have hmembers (f : RemoteFolder) (items : List ResponseItem)
      : f.members.Run ((scenario items).events f.repository f f.listRequest)
          (.ok ((entries items).map (Entry.member f))) :=
    run_members_iff.2 ⟨scenario items, hscenario items, rfl, .answered rfl rfl⟩
  have hstart := Looks.members (hscenario [.message "reading", .entry "docs" true none]) (hmembers start _)
  have hdocs := Looks.children (t := {})
    (hscenario [.entry "about" false (some "1.1"), .entry "index" false none])
    (run_children_iff.2 ⟨_, hmembers (start.child "docs") _, rfl⟩)
  have hwalk : Walk start ["docs", "index"] file :=
    @Walk.step _ ["docs"] _ _ _ 1 _ _ (@Walk.step _ [] _ _ _ 0 _ _ .start hstart rfl rfl) hdocs rfl rfl
  refine ⟨hwalk, ?_⟩
  have hnames : ∀ n ∈ ["docs", "index"], IsName n := by
    simp [IsName]
  rw [(walk_addresses "host" "/website/" (some .head)).1 ["docs"] "index" file hwalk hnames]
  decide +kernel

end RemoteFolder
end SharedWorkspace
