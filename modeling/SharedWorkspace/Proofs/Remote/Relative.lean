import SharedWorkspace.Proofs.Remote.Listing
import SharedWorkspace.Proofs.Text.Pieces

/-!
Paths as seen from a folder. What is cut off is cut off as characters, and yet it is always whole segments:
a folder whose path is only the beginning of a name on the way is not taken for one above it
(`relative_by_segments`).
-/

namespace SharedWorkspace
namespace RemoteFolder

def segments (f : RemoteFolder) : List String :=
  Text.segments '/' f.path

structure Remains (ps base : List String) (relative : String) : Prop where
  root : base = [] → relative = Text.joined '/' ps
  same : base ≠ [] → ps = base → relative = "."
  below : base ≠ [] → ∀ rest, rest ≠ [] → ps = base ++ rest → relative = Text.joined '/' rest
  apart : base ≠ [] → ¬ base <+: ps → relative = Text.joined '/' ps

variable {path base name : String}

theorem relativePath_self (h : base ≠ "") : relativePath base base = "." := by
  have hdrop : Text.dropStart? base.toList base.toList = some [] :=
    Text.dropStart?_eq_some_iff.2 (List.append_nil _).symm
  unfold relativePath
  rw [if_neg h, hdrop]

theorem relativePath_apart (hsame : path ≠ base)
    (hbelow : ∀ rest, path.toList ≠ base.toList ++ '/' :: rest) : relativePath path base = path := by
  unfold relativePath
  split
  . rfl
  . split
    . next hdrop =>
      rw [Text.dropStart?_eq_some_iff, List.append_nil, String.toList_inj] at hdrop
      exact absurd hdrop hsame
    . next rest hdrop => exact absurd (Text.dropStart?_eq_some_iff.1 hdrop) (hbelow rest)
    . rfl

theorem remains_relativePath (hpath : "" ∉ Text.segments '/' path)
    : Remains (Text.segments '/' path) (Text.segments '/' base) (relativePath path base) where
  root h := by
    rw [Text.joined_segments, relativePath, if_pos (Text.segments_eq_nil_iff.1 h)]
  same hne h := by
    rw [Text.segments_inj.1 h]
    exact relativePath_self (mt Text.segments_eq_nil_iff.2 hne)
  below hne rest hrest h := by
    have hnames : ∀ p ∈ rest, IsName p := by
      intro p hp
      have hmem : p ∈ Text.segments '/' path := h ▸ List.mem_append_right _ hp
      exact ⟨ne_of_mem_of_not_mem hmem hpath, Text.not_mem_of_mem_segments hmem⟩
    have hhead := head?_intercalate_ne hnames
    rw [← Text.joined_eq] at hhead
    refine relativePath_below (mt Text.segments_eq_nil_iff.2 hne) ?_ hhead
    rw [← Text.joined_segments '/' path, h, Text.toList_joined_append hne hrest, Text.joined_segments]
  apart hne h := by
    rw [Text.joined_segments]
    apply relativePath_apart
    . rintro rfl
      exact h (List.prefix_refl _)
    . intro rest hrest
      -- A separator behind the base ends its last segment, so all its segments would be there.
      have hsegments := Text.segments_append hrest
      rw [String.ofList_toList, ← Text.segments_of_ne (mt Text.segments_eq_nil_iff.2 hne)] at hsegments
      exact h (hsegments ▸ List.prefix_append _ _)

theorem segments_joinPath (h : IsName name) (parent : String)
    : Text.segments '/' (joinPath parent name) = Text.segments '/' parent ++ [name] := by
  have hname : Text.pieces '/' name = [name] := Text.pieces_of_not_mem h.2
  unfold joinPath
  split
  . next hparent => rw [hparent, Text.segments_empty, Text.segments_of_ne h.1, hname, List.nil_append]
  . next hparent =>
    have hchars : (parent ++ "/" ++ name).toList = parent.toList ++ '/' :: name.toList := by
      simp
    rw [Text.segments_append hchars, String.ofList_toList, String.ofList_toList, hname,
      Text.segments_of_ne hparent]

/--
The path of a folder or a file as seen from another folder goes by segments, if no segment of it is empty: it
is cut off where all segments of that folder stand at its beginning, and it is left alone otherwise.
-/
theorem relative_by_segments (ancestor : RemoteFolder)
    : (∀ f : RemoteFolder, "" ∉ f.segments →
        Remains f.segments ancestor.segments (f.relativeTo ancestor)) ∧
      ∀ r : Revision, "" ∉ r.parent.segments → IsName r.name →
        Remains (r.parent.segments ++ [r.name]) ancestor.segments (r.relativeTo ancestor) := by
  constructor
  . intro f hf
    exact remains_relativePath hf
  . intro r hparent hname
    have hsegments : Text.segments '/' r.repositoryPath = r.parent.segments ++ [r.name] :=
      segments_joinPath hname r.parent.path
    have hpath : "" ∉ Text.segments '/' r.repositoryPath := by
      rw [hsegments, List.mem_append, List.mem_singleton]
      rintro (h | h)
      . exact hparent h
      . exact hname.1 h.symm
    exact hsegments ▸ remains_relativePath hpath

/--
A folder above one folder and one file; with the others it has only the beginning of a name in
common.
-/
theorem relative_by_segments_beginning
    : let above := new "host" "/größe/" none
      let below := new "host" "größe/alt/b" none
      let beside := new "host" "größen/alt" none
      let file (parent : RemoteFolder) := Revision.new parent "größe.txt" "1.1" none
      "" ∉ below.segments ∧ "" ∉ beside.segments ∧ IsName "größe.txt" ∧
        below.relativeTo above = "alt/b" ∧ beside.relativeTo above = "größen/alt" ∧
        (file above).relativeTo above = "größe.txt" ∧
        (file beside).relativeTo above = "größen/alt/größe.txt" := by
  intro above below beside file
  obtain ⟨hfolders, hfiles⟩ := relative_by_segments above
  have hbelow : "" ∉ below.segments := by decide +kernel
  have hbeside : "" ∉ beside.segments := by decide +kernel
  have habove : "" ∉ above.segments := by decide +kernel
  have hname : IsName "größe.txt" := by
    unfold IsName
    decide +kernel
  have hne : above.segments ≠ [] := by decide +kernel
  refine ⟨hbelow, hbeside, hname, ?_, ?_, ?_, ?_⟩
  . rw [(hfolders below hbelow).below hne ["alt", "b"] (by decide) (by decide +kernel)]
    decide +kernel
  . rw [(hfolders beside hbeside).apart hne (by decide +kernel)]
    decide +kernel
  . rw [(hfiles (file above) habove hname).below hne ["größe.txt"] (by decide) (by decide +kernel)]
    decide +kernel
  . rw [(hfiles (file beside) hbeside hname).apart hne (by decide +kernel)]
    decide +kernel

end RemoteFolder
end SharedWorkspace
