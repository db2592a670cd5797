import Mathlib.Data.String.Basic
import SharedWorkspace.Proofs.Config.File
import SharedWorkspace.Proofs.FileTree.Store
import SharedWorkspace.Proofs.Json.Encodings
import SharedWorkspace.Remote.EntryStore
import SharedWorkspace.Remote.Revision

/-!
The entries of a folder: what they hold after edits (`Entries.get?_edited`), and that they are kept from one run
to the next, as the configuration is (`stores_reliable`).
-/

namespace SharedWorkspace

open FileTree

namespace Entries

def IsValid (e : Entries) : Prop :=
  e.syncedAt.IsValid ∧ ∀ f ∈ e.infos.entries, ∀ t ∈ f.2.timestamp, t.IsValid

inductive Edit where
  | insert (info : SyncInfo)
  | remove (name : String)

def Edit.name : Edit → String
  | insert info => info.name
  | remove name => name

def edit (e : Entries) : Edit → Entries
  | .insert info => e.insert info
  | .remove name => e.remove name

def edited (e : Entries) (edits : List Edit) : Entries :=
  edits.foldl edit e

theorem get?_edit (e : Entries) (ed : Edit) (name : String)
    : (e.edit ed).get? name
        =
      match ed with
      | .insert info => if name = info.name then some info else e.get? name
      | .remove n => if name = n then none else e.get? name := by
  cases ed with
  | insert info =>
    exact OrderedMap.find?_insert_eq_ite ..
  | remove n =>
    exact OrderedMap.find?_erase_eq_ite ..

def LastInserts (edits : List Edit) (name : String) (info : SyncInfo) : Prop :=
  info.name = name ∧ ∃ before after, edits = before ++ .insert info :: after ∧ ∀ ed ∈ after, ed.name ≠ name

theorem lastInserts_concat {edits : List Edit} {ed : Edit} {name : String} {info : SyncInfo}
    : LastInserts (edits ++ [ed]) name info ↔
        ed = .insert info ∧ info.name = name ∨ ed.name ≠ name ∧ LastInserts edits name info := by
  unfold LastInserts
  constructor
  . rintro ⟨hname, before, after, hedits, hafter⟩
    obtain rfl | ⟨after, last, rfl⟩ := List.eq_nil_or_concat' after
    . obtain ⟨-, heq⟩ := List.append_inj' hedits rfl
      exact .inl ⟨List.singleton_inj.1 heq, hname⟩
    . rw [← List.cons_append, ← List.append_assoc] at hedits
      obtain ⟨rfl, heq⟩ := List.append_inj' hedits rfl
      obtain rfl := List.singleton_inj.1 heq
      exact .inr ⟨hafter ed (by simp), hname, before, after, rfl, fun e he => hafter e (by simp [he])⟩
  . rintro (⟨rfl, hname⟩ | ⟨hne, hname, before, after, rfl, hafter⟩)
    . exact ⟨hname, edits, [], rfl, by simp⟩
    . refine ⟨hname, before, after ++ [ed], by simp, ?_⟩
      intro e he
      rcases List.mem_append.1 he with he | he
      . exact hafter e he
      . rwa [List.mem_singleton.1 he]

theorem get?_edited {now : Instant} {edits : List Edit} {name : String} {info : SyncInfo}
    : ((empty now).edited edits).get? name = some info ↔ LastInserts edits name info := by
  induction edits using List.reverseRecOn with
  | nil => simp [LastInserts, edited, empty, get?]
  | append_singleton edits ed ih =>
    have hlast : (empty now).edited (edits ++ [ed]) = ((empty now).edited edits).edit ed := by
      unfold edited
      rw [List.foldl_append]
      rfl
    rw [hlast, get?_edit, lastInserts_concat, ← ih]
    cases ed with
    | insert i =>
      by_cases h : name = i.name
      . subst h
        simp only [if_pos, Edit.name, Option.some.injEq, Edit.insert.injEq]
        grind
      . simp only [if_neg h, Edit.name, Edit.insert.injEq]
        grind
    | remove n =>
      by_cases h : name = n
      . simp [h, Edit.name]
      . simp [h, Edit.name, Ne.symm h]

end Entries

namespace EntryStore

def store (folder : Path) : Store Entries where
  path := path folder
  temporary := (path folder).withExtension "json.tmp"
  save t entries disk := save t folder entries disk
  load t now := load t now folder

theorem load_eq_empty {t : FileTree} {now : Instant} {folder : Path}
    (h : ∀ place n, t.resolve (path folder) ≠ .ok (.present place n))
    : load t now folder = .ok (.empty now) := by
  unfold load exists?
  split
  . next place n hpresent => exact absurd hpresent (h place n)
  . rfl

theorem byExtension (folder : Path)
    : (store folder).ByExtension "json.tmp" JsonCodec.toIndentedText Entries.IsValid (· ≠ "..") := by
  have hlost : ∀ t : FileTree, IsLost (t.resolve (path folder)) →
      ∀ place n, t.resolve (path folder) ≠ .ok (.present place n) := by
    intro t hlost place n hpresent
    rw [hpresent] at hlost
    exact hlost
  refine ⟨by decide, by decide, rfl, ?_, ?_, ?_, ?_, ?_, fun _ h => h⟩
  . intro t e disk
    dsimp only [store, save]
  . intro t t' now hsame
    change load t' now folder = load t now folder
    have hsame : t'.resolve (path folder) = t.resolve (path folder) := hsame
    unfold load exists? readText FileTree.read
    rw [hsame]
  . intro t now e place hvalid hresolve
    change load t now folder = .ok e
    have hresolve : t.resolve (path folder) = _ := hresolve
    unfold load exists?
    rw [hresolve, readText_of_resolve hresolve]
    dsimp only
    rw [if_pos rfl, (JsonCodec.faithful_entries hvalid.1 hvalid.2).ofText?_toIndentedText]
  . intro t t' now h h'
    exact (load_eq_empty (hlost t' h')).trans (load_eq_empty (hlost t h)).symm
  . intro t t' now r _ _ h h'
    refine (load_eq_empty ?_).trans (load_eq_empty (hlost t h)).symm
    intro place n hpresent
    have hlong : t'.resolve (path folder) = .error .nameTooLong := h'
    rw [hlong] at hpresent
    contradiction

end EntryStore

theorem Revision.base?_eq_none_iff {parent : RemoteFolder} {info : Option SyncInfo}
    : Revision.base? parent info = none ↔ ∀ i, info = some i → i.revision = SyncInfo.addedRevision := by
  cases info <;> simp [Revision.base?, SyncInfo.isAdded]

theorem Revision.base?_eq_some_iff {parent : RemoteFolder} {info : Option SyncInfo} {r : Revision}
    : Revision.base? parent info = some r ↔
        ∃ i, info = some i ∧ i.revision ≠ SyncInfo.addedRevision ∧ r = { parent, info := i } := by
  cases info <;> simp [Revision.base?, SyncInfo.isAdded, eq_comm]

/--
The entries of a folder and the configuration of a dispatch are kept by their files, whatever the tree looks
like, unless a path goes on with a step to the parent beyond the first name that is missing, or, for the
configuration, with a name that is too long. What is found in entries that were made by edits is what was
inserted last under the name, and it has a base unless it was only added.
-/
theorem stores_reliable
    : (∀ folder, (EntryStore.store folder).Reliable Entries.IsValid (· ≠ "..")) ∧
        (∀ p, (DispatchConfig.store p).Reliable (fun _ => True)
          fun s => s ≠ ".." ∧ s.utf8ByteSize ≤ longestName) ∧
        ∀ now edits name parent,
          let found := ((Entries.empty now).edited edits).get? name
          (∀ info, found = some info ↔ Entries.LastInserts edits name info) ∧
          (Revision.base? parent found = none ↔
            ∀ info, found = some info → info.revision = SyncInfo.addedRevision) ∧
          ∀ r, Revision.base? parent found = some r →
            r.parent = parent ∧ r.name = name ∧ ∃ info, found = some info ∧ r.revision = info.revision := by
  refine ⟨fun folder => (EntryStore.byExtension folder).reliable,
    fun p => (DispatchConfig.byExtension p).reliable, ?_⟩
  intro now edits name parent found
  refine ⟨fun info => Entries.get?_edited, Revision.base?_eq_none_iff, ?_⟩
  intro r hr
  obtain ⟨info, hfound, -, rfl⟩ := Revision.base?_eq_some_iff.1 hr
  have hname : info.name = name := (Entries.get?_edited.1 hfound).1
  exact ⟨rfl, hname, info, hfound, rfl⟩

/--
A directory stands where the temporary file would be, so the first save fails; then a stale file, and the second
one succeeds. After that the disk refuses to create directories, breaks off the writing of the temporary file, and
refuses to move it: three saves fail, and what is loaded is still what the second one has saved. The
configuration is saved in a directory that was missing.
-/
theorem stores_reliable_obstructed
    : let folder : Path := ⟨"f"⟩
      let now : Instant := ⟨2020, 1, 1, 0, 0, 0, 0⟩
      let e := (Entries.empty now).edited [.insert (SyncInfo.new "lib.rs" "1.4" none)]
      let temporary : Place := ["f", ".teamsync", "entries.json.tmp"]
      let denied : FileFault := .reported "permission denied"
      let full : FileFault := .reported "no space left on device"
      let locked : Disk := { createDirectory := fun _ _ => some denied, look := fun _ _ => some denied }
      let crammed : Disk := { write := fun _ _ => some (.cutOff 3 full) }
      let pinned : Disk := { rename := fun _ _ _ => some denied }
      let start : FileTree :=
        ⟨.ofList [(["f"], .directory), (["f", ".teamsync"], .directory), (temporary, .directory)], []⟩
      let first := EntryStore.save start folder e
      let second := EntryStore.save (start.put temporary (.file [])) folder e
      let third := EntryStore.save second.2 folder (.empty now) locked
      let fourth := EntryStore.save third.2 folder (.empty now) crammed
      let fifth := EntryStore.save fourth.2 folder (.empty now) pinned
      let p : Path := ⟨"conf/dispatch.yaml"⟩
      let c : DispatchConfig := { providerBudget := 500 }
      let configured := DispatchConfig.save start p c
      first.1 = .error (.file ⟨"f/.teamsync/entries.json.tmp"⟩ .isDirectory) ∧ second.1 = .ok () ∧
        third.1 = .error (.file ⟨"f/.teamsync"⟩ denied) ∧
        fourth.1 = .error (.file ⟨"f/.teamsync/entries.json.tmp"⟩ full) ∧
        fourth.2.node? temporary = some (.file (Text.utf8 "\x7b\n ")) ∧
        fifth.1 = .error (.file ⟨"f/.teamsync/entries.json"⟩ denied) ∧
        EntryStore.load first.2 now folder = EntryStore.load start now folder ∧
        EntryStore.load fifth.2 now folder = .ok e ∧
        configured.1 = .ok () ∧ DispatchConfig.load configured.2 p = .ok c := by
  intro folder now e temporary denied full locked crammed pinned start first second third fourth fifth p c configured
  have hwf : start.WellFormed := by decide +kernel
  have hfits : ∀ r ∈ start.beyond (EntryStore.store folder).path, r ≠ ".." := by decide +kernel
  have hvalid : e.IsValid := by
    refine ⟨by decide, ?_⟩
    intro f hf
    rw [List.mem_singleton.1 hf]
    exact nofun
  have hfirst : first.1 = .error (.file ⟨"f/.teamsync/entries.json.tmp"⟩ .isDirectory) := by
    decide +kernel
  have hsecond : second.1 = .ok () := by decide +kernel
  have hthird : third.1 = .error (.file ⟨"f/.teamsync"⟩ denied) := by decide +kernel
  have hfourth : fourth.1 = .error (.file ⟨"f/.teamsync/entries.json.tmp"⟩ full) := by decide +kernel
  have hpart : fourth.2.node? temporary = some (.file (Text.utf8 "\x7b\n ")) := by decide +kernel
  have hfifth : fifth.1 = .error (.file ⟨"f/.teamsync/entries.json"⟩ denied) := by decide +kernel
  have hcleared : (start.put temporary (.file [])).WellFormed ∧
      (start.put temporary (.file [])).resolve (EntryStore.store folder).path
        = first.2.resolve (EntryStore.store folder).path ∧
      (start.put temporary (.file [])).beyond (EntryStore.store folder).path = [] := by
    decide +kernel
  have hconfigured : configured.1 = .ok () := by decide +kernel
  let S := EntryStore.store folder
  have hfirst' : S.save start e {} = (_, first.2) := Prod.ext hfirst rfl
  have hsecond' : S.save (start.put temporary (.file [])) e {} = (_, second.2) := Prod.ext hsecond rfl
  have hthird' : S.save second.2 (.empty now) locked = (_, third.2) := Prod.ext hthird rfl
  have hfourth' : S.save third.2 (.empty now) crammed = (_, fourth.2) := Prod.ext hfourth rfl
  have hfifth' : S.save fourth.2 (.empty now) pinned = (_, fifth.2) := Prod.ext hfifth rfl
  have hconfigured' : (DispatchConfig.store p).save start c {} = (_, configured.2) := Prod.ext hconfigured rfl
  clear_value first second third fourth fifth configured locked crammed pinned start temporary e c folder p
  have hhistory : S.History Entries.IsValid start fifth.2 (some e) := by
    have h₁ : S.History Entries.IsValid start first.2 none := .failed _ _ _ _ _ _ .start hfirst'
    have h₂ := h₁.others _ _ _ hcleared.1 hcleared.2.1 (hcleared.2.2 ▸ List.nil_subset _)
    have h₃ := h₂.saved _ _ _ _ _ hvalid hsecond'
    have h₄ := h₃.failed _ _ _ _ _ _ hthird'
    have h₅ := h₄.failed _ _ _ _ _ _ hfourth'
    exact h₅.failed _ _ _ _ _ _ hfifth'
  refine ⟨hfirst, hsecond, hthird, hfourth, hpart, hfifth, ?_, ?_, hconfigured, ?_⟩
  . exact (stores_reliable.1 folder).failed start e _ _ _ hwf hfits hfirst' now
  . exact (stores_reliable.1 folder).kept start _ e hwf hhistory now
  . exact (stores_reliable.2.1 p).kept start _ c hwf (.saved _ _ _ c _ trivial .start hconfigured') now

/--
The condition on the path is needed. A save that fails may leave directories behind, through which the path then
leads on: back to entries that were not to be seen before, or to a name that no file can have.
-/
theorem failed_save_noticed
    : let now : Instant := ⟨1970, 1, 1, 0, 0, 0, 0⟩
      let old := Entries.empty ⟨2020, 1, 1, 0, 0, 0, 0⟩
      let t : FileTree :=
        ⟨.ofList [(["a"], .directory), (["a", ".teamsync"], .directory),
          (["a", ".teamsync", "entries.json"], .file (Text.utf8 (JsonCodec.toIndentedText old))),
          (["a", ".teamsync", "entries.json.tmp"], .directory)], []⟩
      let after := EntryStore.save t ⟨"a/b/.."⟩ (.empty now)
      let p : Path := ⟨"m/" ++ String.ofList (List.replicate 256 'x')⟩
      t.WellFormed ∧ after.1 = .error (.file ⟨"a/b/../.teamsync/entries.json.tmp"⟩ .isDirectory) ∧
        EntryStore.load t now ⟨"a/b/.."⟩ = .ok (.empty now) ∧
        EntryStore.load after.2 now ⟨"a/b/.."⟩ = .ok old ∧
        DispatchConfig.load {} p = .ok {} ∧
          ∃ e t', DispatchConfig.save {} p {} = (.error e, t') ∧
            DispatchConfig.load t' p = .error (.file p .nameTooLong) := by
  intro now old t after p
  have hlength : (String.ofList (List.replicate 256 'x')).length = 256 := by
    rw [String.length_ofList, List.length_replicate]
  have hsize : (String.ofList (List.replicate 256 'x')).utf8ByteSize = 256 := by
    rw [String.utf8ByteSize_ofList]
    decide +kernel
  have hfree : ∀ c, c ≠ 'x' → c ∉ (String.ofList (List.replicate 256 'x')).toList := by
    intro c hc hmem
    rw [String.toList_ofList] at hmem
    exact hc (List.eq_of_mem_replicate hmem)
  refine ⟨by decide +kernel, by decide +kernel, by decide +kernel, by decide +kernel, ?_⟩
  refine DispatchConfig.load_of_save_long ⟨decide_eq_false ?_, ?_⟩ (hfree _ (by decide)) (hfree _ (by decide))
    ?_ ?_
  . rintro (h | h) <;> rw [h] at hlength <;> contradiction
  . intro h
    rw [h] at hlength
    contradiction
  . rw [hsize]
    decide
  . rw [hsize]
    decide

end SharedWorkspace
