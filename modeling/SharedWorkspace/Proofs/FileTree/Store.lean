import SharedWorkspace.Instant
import SharedWorkspace.Proofs.FileTree.Save

/-!
Stores that keep one value in one file. A save does all of its work or none of it, as far as loads can tell,
over any history of saves that succeed and saves that fail, wherever the disk breaks them off
(`Store.Reliable`). Stores that save by way of a
file with another extension are such (`Store.ByExtension.reliable`).
-/

namespace SharedWorkspace

open FileTree

structure Store (α : Type) where
  path : Path
  temporary : Path
  save : FileTree → α → Disk → Except Failure Unit × FileTree
  load : FileTree → Instant → Except Failure α

namespace Store

variable {α : Type} {S : Store α} {t t' t₀ : FileTree} {a : α} {kept : Option α} {now : Instant}
variable {valid : α → Prop} {fits : String → Prop} {disk : Disk}

/--
The tree, and the value that was saved last, after any number of saves, each on a disk of its own. In between,
others may change the tree as they like, except where the path of the store leads.
-/
inductive History (S : Store α) (valid : α → Prop) (t₀ : FileTree) : FileTree → Option α → Prop where
  | start : S.History valid t₀ t₀ none
  | saved (t t' : FileTree) (kept : Option α) (a : α) (disk : Disk) (hvalid : valid a)
      (h : S.History valid t₀ t kept) (hsave : S.save t a disk = (.ok (), t'))
      : S.History valid t₀ t' (some a)
  | failed (t t' : FileTree) (kept : Option α) (a : α) (disk : Disk) (e : Failure)
      (h : S.History valid t₀ t kept) (hsave : S.save t a disk = (.error e, t'))
      : S.History valid t₀ t' kept
  | others (t t' : FileTree) (kept : Option α) (h : S.History valid t₀ t kept) (hwf : t'.WellFormed)
      (hpath : t'.resolve S.path = t.resolve S.path) (hbeyond : t'.beyond S.path ⊆ t.beyond S.path)
      : S.History valid t₀ t' kept

/--
The values that are `valid` are kept by the store. Where a save might create directories, the pieces of the
path have to be ones that `fits` holds of.
-/
structure Reliable (S : Store α) (valid : α → Prop) (fits : String → Prop) : Prop where
  failed : ∀ t a disk e t', t.WellFormed → (∀ r ∈ t.beyond S.path, fits r) →
    S.save t a disk = (.error e, t') → ∀ now, S.load t' now = S.load t now
  saved : ∀ t a disk t', t.WellFormed → S.save t a disk = (.ok (), t') →
    ∃ place sibling bytes, place.dropLast = sibling.dropLast ∧
      t'.resolve S.path = .ok (.present place (.file bytes)) ∧
      t'.resolve S.temporary = .ok (.vacant sibling) ∧
        ∀ x, x ≠ place → x ≠ sibling →
          t'.node? x = t.node? x ∨ t.node? x = none ∧ t'.node? x = some .directory
  unsaved : ∀ t₀ t, t₀.WellFormed → (∀ r ∈ t₀.beyond S.path, fits r) → S.History valid t₀ t none →
    ∀ now, S.load t now = S.load t₀ now
  kept : ∀ t₀ t a, t₀.WellFormed → S.History valid t₀ t (some a) → ∀ now, S.load t now = .ok a

structure ByExtension (S : Store α) (ext : String) (text : α → String) (valid : α → Prop)
    (fits : String → Prop) : Prop where
  dot : '.' ∈ ext.toList
  separator : '/' ∉ ext.toList
  temporary : S.temporary = S.path.withExtension ext
  save : ∀ t a disk, S.save t a disk = t.save S.path (S.path.withExtension ext) (text a) disk
  load_congr : ∀ t t' now, t'.resolve S.path = t.resolve S.path → S.load t' now = S.load t now
  load_saved : ∀ t now a place, valid a →
    t.resolve S.path = .ok (.present place (.file (Text.utf8 (text a)))) → S.load t now = .ok a
  load_lost : ∀ t t' now, IsLost (t.resolve S.path) → IsLost (t'.resolve S.path) →
    S.load t' now = S.load t now
  load_nameTooLong : ∀ t t' now r, longestName < r.utf8ByteSize → fits r → IsLost (t.resolve S.path) →
    t'.resolve S.path = .error .nameTooLong → S.load t' now = S.load t now
  ne_parent : ∀ r, fits r → r ≠ ".."

section ByExtension

variable {ext : String} {text : α → String} (h : S.ByExtension ext text valid fits)

include h

theorem ByExtension.load_of_save_error {e : Failure} (hwf : t.WellFormed)
    (hfits : ∀ r ∈ t.beyond S.path, fits r) (hsave : S.save t a disk = (.error e, t'))
    : S.load t' now = S.load t now := by
  rw [h.save] at hsave
  rcases resolve_of_save_error h.dot h.separator hwf (fun r hr => h.ne_parent r (hfits r hr)) hsave with
    hsame | ⟨hlost, hlost' | ⟨hlong, r, hr, hr'⟩⟩
  . exact h.load_congr t t' now hsame
  . exact h.load_lost t t' now hlost hlost'
  . exact h.load_nameTooLong t t' now r hr' (hfits r hr) hlost hlong

omit h in
def InFile (S : Store α) (text : α → String) (t : FileTree) (a : α) : Prop :=
  ∃ place, t.resolve S.path = .ok (.present place (.file (Text.utf8 (text a))))

theorem ByExtension.inFile_of_save_error {b : α} {e : Failure} (hwf : t.WellFormed)
    (hfile : S.InFile text t a) (hsave : S.save t b disk = (.error e, t')) : S.InFile text t' a := by
  obtain ⟨place, hplace⟩ := hfile
  have hwritable : t.Writable S.path place := .inl ⟨_, hplace⟩
  rw [h.save] at hsave
  refine ⟨place, ?_⟩
  rcases resolve_of_save_error h.dot h.separator hwf (by simp [hwritable.beyond_eq_nil]) hsave with
    hsame | ⟨hlost, -⟩
  . rw [hsame, hplace]
  . rw [hplace] at hlost
    exact hlost.elim

omit h in
/--
The invariant of a history: what is kept is in the file, and if nothing is, loads go as at the
start.
-/
structure Inv (S : Store α) (text : α → String) (valid : α → Prop) (fits : String → Prop) (t₀ t : FileTree)
    (kept : Option α) : Prop where
  wellFormed : t.WellFormed
  unsaved : kept = none → (∀ r ∈ t₀.beyond S.path, fits r) →
    (∀ r ∈ t.beyond S.path, fits r) ∧ ∀ now, S.load t now = S.load t₀ now
  kept : ∀ a, kept = some a → valid a ∧ S.InFile text t a

theorem ByExtension.inv (hwf : t₀.WellFormed) (hhistory : S.History valid t₀ t kept)
    : Inv S text valid fits t₀ t kept := by
  induction hhistory with
  | start => exact ⟨hwf, fun _ hfits => ⟨hfits, fun _ => rfl⟩, nofun⟩
  | saved t t' kept a disk hvalid _ hsave ih =>
    rw [h.save] at hsave
    obtain ⟨place, sibling, -, -, hpath, -⟩ := saved_of_save_ok h.dot h.separator ih.wellFormed hsave
    refine ⟨wellFormed_of_save h.dot h.separator ih.wellFormed hsave, nofun, ?_⟩
    rintro _ ⟨⟩
    exact ⟨hvalid, place, hpath⟩
  | failed t t' kept a disk e _ hsave ih =>
    have hsave' := hsave
    rw [h.save] at hsave'
    have hkeeps := keeps_of_save_error ih.wellFormed hsave'
    refine ⟨wellFormed_of_save h.dot h.separator ih.wellFormed hsave', ?_, ?_⟩
    . intro hnone hfits
      obtain ⟨hfits', hload⟩ := ih.unsaved hnone hfits
      refine ⟨fun r hr => hfits' r (beyond_subset hkeeps S.path hr), ?_⟩
      intro now
      rw [h.load_of_save_error ih.wellFormed hfits' hsave, hload]
    . intro b hb
      obtain ⟨hvalid, hfile⟩ := ih.kept b hb
      exact ⟨hvalid, h.inFile_of_save_error ih.wellFormed hfile hsave⟩
  | others t t' kept _ hwf' hpath hbeyond ih =>
    refine ⟨hwf', ?_, ?_⟩
    . intro hnone hfits
      obtain ⟨hfits', hload⟩ := ih.unsaved hnone hfits
      refine ⟨fun r hr => hfits' r (hbeyond hr), ?_⟩
      intro now
      rw [h.load_congr t t' now hpath, hload]
    . intro b hb
      obtain ⟨hvalid, place, hplace⟩ := ih.kept b hb
      exact ⟨hvalid, place, hpath.trans hplace⟩

theorem ByExtension.reliable : S.Reliable valid fits where
  failed _ _ _ _ _ hwf hfits hsave _ := h.load_of_save_error hwf hfits hsave
  saved t a disk t' hwf hsave := by
    rw [h.save] at hsave
    obtain ⟨place, sibling, -, hparent, hpath, htemporary, hothers⟩ :=
      saved_of_save_ok h.dot h.separator hwf hsave
    exact ⟨place, sibling, _, hparent, hpath, h.temporary ▸ htemporary, hothers⟩
  unsaved _ _ hwf hfits hhistory := ((h.inv hwf hhistory).unsaved rfl hfits).2
  kept t₀ t a hwf hhistory now := by
    obtain ⟨hvalid, place, hplace⟩ := (h.inv hwf hhistory).kept a rfl
    exact h.load_saved t now a place hvalid hplace

end ByExtension

end Store

theorem FileTree.readText_of_resolve {t : FileTree} {p : Path} {place : Place} {text : String}
    (h : t.resolve p = .ok (.present place (.file (Text.utf8 text)))) : t.readText p = .ok text := by
  unfold readText read
  rw [h]
  dsimp only
  rw [Text.ofUtf8?_utf8]

end SharedWorkspace
