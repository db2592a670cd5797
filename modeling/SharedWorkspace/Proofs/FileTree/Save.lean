import SharedWorkspace.Proofs.FileTree.Create

/-!
What it takes to save a text by way of a temporary file, on a disk that may break off any step of it. A save that
fails leaves the path leading where it led, as far as it led anywhere (`resolve_of_save_error`). After one that
succeeds the path leads to the text, the temporary file is gone, and nothing else has changed but that directories
were created (`saved_of_save_ok`).
-/

namespace SharedWorkspace
namespace FileTree

variable {t t' t₁ t₂ : FileTree} {p temporary : Path} {x y q d : Place} {text : String} {bytes : List UInt8}
variable {dir idle : List String} {name other s : String} {disk : Disk}

def Writable (t : FileTree) (p : Path) (q : Place) : Prop :=
  (∃ bytes, t.resolve p = .ok (.present q (.file bytes))) ∨ t.resolve p = .ok (.vacant q)

theorem writeAt_cases {r : Except FileFault Unit} {broken : Option Breakdown}
    (h : t.writeAt q bytes broken = (r, t'))
    : (∃ e, r = .error e) ∧ t' = t ∨
        (∃ e, r = .error e) ∧ (∃ written, t' = t.put q (.file written)) ∨
          r = .ok () ∧ t' = t.put q (.file bytes) := by
  cases broken with
  | none =>
    cases h
    exact .inr (.inr ⟨rfl, rfl⟩)
  | some breakdown =>
    cases breakdown with
    | unopened e =>
      cases h
      exact .inl ⟨⟨e, rfl⟩, rfl⟩
    | cutOff written e =>
      cases h
      exact .inr (.inl ⟨⟨e, rfl⟩, _, rfl⟩)

theorem write_cases {r : Except FileFault Unit} (h : t.write p bytes disk = (r, t'))
    : (∃ e, r = .error e) ∧ t' = t ∨
        ∃ q, t.Writable p q ∧
          ((∃ e, r = .error e) ∧ (∃ written, t' = t.put q (.file written)) ∨
            r = .ok () ∧ t' = t.put q (.file bytes)) := by
  unfold write at h
  split at h
  . next q bytes' hq =>
    exact (writeAt_cases h).imp_right fun hr => ⟨q, .inl ⟨bytes', hq⟩, hr⟩
  . next q hq =>
    exact (writeAt_cases h).imp_right fun hr => ⟨q, .inr hq, hr⟩
  . cases h
    exact .inl ⟨⟨_, rfl⟩, rfl⟩
  . cases h
    exact .inl ⟨⟨_, rfl⟩, rfl⟩

def moved (t : FileTree) (q d : Place) (bytes : List UInt8) : FileTree :=
  (t.drop q).put d (.file bytes)

theorem rename_eq_ok (h : t.rename temporary p disk = .ok t')
    : ∃ q bytes d, t.resolve temporary = .ok (.present q (.file bytes)) ∧ t.Writable p d ∧
        (q ≠ d → t' = t.moved q d bytes) := by
  unfold rename at h
  split at h
  . contradiction
  . split at h
    . contradiction
    . contradiction
    . contradiction
    . contradiction
    . contradiction
    . next q bytes d bytes' hq hd =>
      refine ⟨q, bytes, d, hq, .inl ⟨bytes', hd⟩, ?_⟩
      intro hne
      rw [if_neg hne] at h
      exact (Except.ok.inj h).symm
    . contradiction
    . next q bytes d hq hd =>
      refine ⟨q, bytes, d, hq, .inr hd, ?_⟩
      intro hne
      exact (Except.ok.inj h).symm
    . contradiction

theorem Writable.stop (h : t.Writable p q)
    : ∃ y s, t.stop (t.start p) p.pieces = (y, [s]) ∧ IsName s ∧ s.utf8ByteSize ≤ longestName ∧
        q = y ++ [s] ∧ t.node? q ≠ some .directory := by
  rcases h with ⟨bytes, h⟩ | h
  . obtain ⟨y, left, hstop, hending⟩ := resolve_ending h
    cases hending with
    | file s bytes hname hfits hnode => exact ⟨y, s, hstop, hname, hfits, rfl, by simp [hnode]⟩
  . obtain ⟨y, left, hstop, hending⟩ := resolve_ending h
    cases hending with
    | vacant s hname hfits hnode => exact ⟨y, s, hstop, hname, hfits, rfl, by simp [hnode]⟩

theorem Writable.last (h : t.Writable p q) (hpieces : p.pieces = dir ++ [s])
    : ∃ y, t.stop (t.start p) dir = (y, []) ∧ IsName s ∧ s.utf8ByteSize ≤ longestName ∧
        q = y ++ [s] ∧ t.node? q ≠ some .directory := by
  obtain ⟨y, s', hstop, hname, hfits, hq, hnode⟩ := h.stop
  obtain ⟨through, hthrough, hway⟩ := exists_through_of_stop hstop
  rw [hpieces] at hthrough
  obtain ⟨rfl, heq⟩ := List.append_inj' hthrough rfl
  cases heq
  exact ⟨y, hway, hname, hfits, hq, hnode⟩

theorem Writable.beyond_eq_nil (h : t.Writable p q) : t.beyond p = [] := by
  obtain ⟨y, s, hstop, -⟩ := h.stop
  unfold beyond
  rw [hstop]
  exact ite_self _

def replace (t : FileTree) (p temporary : Path) (text : String) (disk : Disk)
    : Except Failure Unit × FileTree :=
  match t.write temporary (Text.utf8 text) disk with
  | (.error e, t) => (.error (.file temporary e), t)
  | (.ok (), t) =>
    match t.rename temporary p disk with
    | .error e => (.error (.file p e), t)
    | .ok t => (.ok (), t)

theorem replace_cases {r : Except Failure Unit} (h : t.replace p temporary text disk = (r, t'))
    : (∃ e, r = .error e) ∧ t' = t ∨
        ∃ q, t.Writable temporary q ∧
          ((∃ e, r = .error e) ∧ (∃ written, t' = t.put q (.file written)) ∨
            r = .ok () ∧ (t.put q (.file (Text.utf8 text))).rename temporary p disk = .ok t') := by
  unfold replace at h
  split at h
  . next e t₁ hwrite =>
    cases h
    rcases write_cases hwrite with ⟨-, rfl⟩ | ⟨q, hq, ⟨-, hwritten⟩ | ⟨hok, -⟩⟩
    . exact .inl ⟨⟨_, rfl⟩, rfl⟩
    . exact .inr ⟨q, hq, .inl ⟨⟨_, rfl⟩, hwritten⟩⟩
    . contradiction
  . next t₁ hwrite =>
    rcases write_cases hwrite with ⟨⟨e, he⟩, -⟩ | ⟨q, hq, ⟨⟨e, he⟩, -⟩ | ⟨-, rfl⟩⟩
    . contradiction
    . contradiction
    . refine .inr ⟨q, hq, ?_⟩
      split at h
      . cases h
        exact .inl ⟨⟨_, rfl⟩, _, rfl⟩
      . next t₂ hrename =>
        cases h
        exact .inr ⟨rfl, hrename⟩

theorem save_cases {r : Except Failure Unit} (h : t.save p temporary text disk = (r, t'))
    : (∃ e, r = .error e) ∧ t' = t.createdFor p disk ∨
        ∃ q, (t.createdFor p disk).Writable temporary q ∧
          ((∃ e, r = .error e) ∧ (∃ written, t' = (t.createdFor p disk).put q (.file written)) ∨
            r = .ok () ∧
              ((t.createdFor p disk).put q (.file (Text.utf8 text))).rename temporary p disk = .ok t') := by
  unfold save at h
  unfold createdFor
  cases hparent : p.parent? with
  | none =>
    rw [hparent] at h
    exact replace_cases h
  | some d =>
    rw [hparent] at h
    dsimp only at h ⊢
    generalize t.createDirectories d disk = created at h ⊢
    obtain ⟨outcome, t₁⟩ := created
    cases outcome with
    | error e =>
      cases h
      exact .inl ⟨⟨_, rfl⟩, rfl⟩
    | ok => exact replace_cases h

theorem keeps_put_file (hq : q ≠ []) (hnode : t.node? q ≠ some .directory)
    : Keeps t (t.put q (.file bytes)) := by
  refine ⟨keepsDirectories_put hq (.inr hnode), ?_⟩
  intro x bytes' hx
  rw [node?_put hq]
  split
  . exact ⟨bytes, rfl⟩
  . exact ⟨bytes', hx⟩

theorem Writable.wellFormed_put (hwf : t.WellFormed) (h : t.Writable p q) (bytes : List UInt8)
    : (t.put q (.file bytes)).WellFormed ∧ Keeps t (t.put q (.file bytes)) := by
  obtain ⟨y, s, hstop, -, -, rfl, hnode⟩ := h.stop
  have hne : y ++ [s] ≠ [] := by simp
  refine ⟨hwf.put hne ?_ (.inr hnode), keeps_put_file hne hnode⟩
  rw [List.dropLast_concat]
  exact hwf.node?_of_stop hstop

theorem resolve_of_eq_ok {target : Target} (h : t.resolve p = .ok target) (t' : FileTree)
    : t'.resolve p = t'.walk (t'.start p) p.pieces := by
  rcases resolve_cases p with ⟨e, he⟩ | hwalk
  . rw [he] at h
    contradiction
  . exact hwalk t'

theorem Writable.resolve (h : t.Writable p q) (t' : FileTree)
    : t'.resolve p = t'.walk (t'.start p) p.pieces := by
  rcases h with ⟨bytes, h⟩ | h <;> exact resolve_of_eq_ok h t'

theorem walk_singleton (hname : IsName s) (hfits : s.utf8ByteSize ≤ longestName)
    : t.walk y [s]
        =
      match t.node? (y ++ [s]) with
      | some n => .ok (.present (y ++ [s]) n)
      | none => .ok (.vacant (y ++ [s])) := by
  rw [walk_cons_of_name hname, if_neg (Nat.not_lt.2 hfits)]
  cases t.node? (y ++ [s]) with
  | none => rfl
  | some n => cases n <;> rfl

theorem walk_last_congr (hname : IsName name) (hidle : ∀ s ∈ idle, Path.isIdle s = true)
    (h : t'.node? (y ++ [name]) = t.node? (y ++ [name]))
    : t'.walk y (name :: idle) = t.walk y (name :: idle) := by
  by_cases hnode : t.node? (y ++ [name]) = some .directory
  . rw [walk_cons_of_name hname, walk_cons_of_name hname, h, hnode]
    dsimp only
    rw [walk_idle hidle, walk_idle hidle]
  . exact walk_cons_congr hname h hnode

theorem node?_moved (hq : q ≠ []) (hd : d ≠ [])
    : (t.moved q d bytes).node? x
        =
      if x = d then some (.file bytes) else if x = q then none else t.node? x := by
  unfold moved
  rw [node?_put hd, node?_drop hq]

theorem wellFormed_moved (bytes : List UInt8) (hwf : t.WellFormed) (hq : q ≠ []) (hd : d ≠ [])
    (hne : d.dropLast ≠ q)
    (hparent : t.node? d.dropLast = some .directory) (hnode : t.node? q ≠ some .directory)
    (hnode' : t.node? d ≠ some .directory)
    : (t.moved q d bytes).WellFormed ∧ KeepsDirectories t (t.moved q d bytes) := by
  have hdrop : (t.drop q).node? d ≠ some .directory := by
    rw [node?_drop hq]
    split
    . simp
    . exact hnode'
  refine ⟨(hwf.drop hq hnode).put hd ?_ (.inr hdrop),
    (keepsDirectories_drop hq hnode).trans (keepsDirectories_put hd (.inr hdrop))⟩
  rwa [node?_drop hq, if_neg hne]

section Siblings

variable (hsiblings : Path.Siblings p temporary dir name other idle)

include hsiblings in
theorem start_siblings (t : FileTree) : t.start temporary = t.start p := by
  unfold start
  rw [hsiblings.isAbsolute]

include hsiblings in
theorem resolve_put_sibling (h : t.Writable temporary q)
    : (t.put q (.file bytes)).resolve p = t.resolve p := by
  obtain ⟨y, hway, -, -, rfl, hnode⟩ := h.last hsiblings.pieces_right
  have hne : y ++ [other] ≠ [] := by simp
  rw [start_siblings hsiblings] at hway
  have hway' : (t.put (y ++ [other]) (.file bytes)).stop (t.start p) dir = (y, []) :=
    (keeps_put_file hne hnode).toKeepsDirectories.stop_eq hway
  rcases resolve_cases p with ⟨e, he⟩ | hwalk
  . rw [he, he]
  . have hstart : (t.put (y ++ [other]) (.file bytes)).start p = t.start p := rfl
    rw [hwalk, hwalk, hstart, hsiblings.pieces_left, walk_append hway, walk_append hway']
    refine walk_last_congr ⟨hsiblings.left_not_idle, hsiblings.left_ne_parent⟩ hsiblings.idle ?_
    rw [node?_put hne, if_neg]
    simpa using hsiblings.ne.symm

include hsiblings in
theorem Writable.eq_of_way (h : t.Writable p q) (hway : t.stop (t.start p) dir = (y, []))
    : q = y ++ [name] ∧ idle = [] ∧ name.utf8ByteSize ≤ longestName ∧ t.node? q ≠ some .directory := by
  obtain ⟨y', s, hstop, -, hfits, rfl, hnode⟩ := h.stop
  rw [hsiblings.pieces_left, stop_append_of_through hway,
    stop_cons_of_name ⟨hsiblings.left_not_idle, hsiblings.left_ne_parent⟩] at hstop
  split at hstop
  . rw [stop_idle hsiblings.idle] at hstop
    cases hstop
  . cases hstop
    exact ⟨rfl, rfl, hfits, hnode⟩

include hsiblings in
theorem rename_sibling (hwf : t.WellFormed) (hw : t.Writable temporary q)
    (h : (t.put q (.file bytes)).rename temporary p disk = .ok t')
    : ∃ place, place ≠ q ∧ place.dropLast = q.dropLast ∧ t'.WellFormed ∧
        t'.resolve p = .ok (.present place (.file bytes)) ∧ t'.resolve temporary = .ok (.vacant q) ∧
          ∀ x, x ≠ place → x ≠ q → t'.node? x = t.node? x := by
  obtain ⟨y, hway, hname, hfits, rfl, hnode⟩ := hw.last hsiblings.pieces_right
  have hq : y ++ [other] ≠ [] := by simp
  obtain ⟨hwf₂, hkeeps⟩ := hw.wellFormed_put hwf bytes
  generalize ht₂ : t.put (y ++ [other]) (.file bytes) = t₂ at h hwf₂ hkeeps
  have hnode₂ : t₂.node? (y ++ [other]) = some (.file bytes) := by rw [← ht₂, node?_put hq, if_pos rfl]
  obtain ⟨q', bytes', d, hsource, htarget, hmoved⟩ := rename_eq_ok h
  have hway₂ : t₂.stop (t₂.start p) dir = (y, []) := by
    have hstart : t₂.start p = t.start temporary := by
      rw [start_siblings hsiblings, ← ht₂]
      rfl
    rw [hstart, hkeeps.toKeepsDirectories.stop_eq hway]
  have hsource' : t₂.resolve temporary = .ok (.present (y ++ [other]) (.file bytes)) := by
    rw [hw.resolve, start_siblings hsiblings, hsiblings.pieces_right, walk_append hway₂,
      walk_singleton hname hfits, hnode₂]
  rw [hsource'] at hsource
  cases hsource
  obtain ⟨rfl, rfl, hfits', hnode'⟩ := htarget.eq_of_way hsiblings hway₂
  have hd : y ++ [name] ≠ [] := by simp
  have hne : y ++ [name] ≠ y ++ [other] := by simpa using hsiblings.ne.symm
  obtain rfl := hmoved hne.symm
  have hparent : t₂.node? (y ++ [name]).dropLast = some .directory := by
    rw [List.dropLast_concat]
    exact hwf₂.node?_of_stop hway₂
  obtain ⟨hwf₃, hkeeps₃⟩ :=
    wellFormed_moved bytes hwf₂ hq hd (by simp) hparent (by simp [hnode₂]) hnode'
  have hway₃ := hkeeps₃.stop_eq hway₂
  have hstart : (t₂.moved (y ++ [other]) (y ++ [name]) bytes).start p = t₂.start p := rfl
  refine ⟨y ++ [name], hne, by simp, hwf₃, ?_, ?_, ?_⟩
  . rw [htarget.resolve, hstart, hsiblings.pieces_left, walk_append hway₃,
      walk_singleton ⟨hsiblings.left_not_idle, hsiblings.left_ne_parent⟩ hfits', node?_moved hq hd, if_pos rfl]
  . rw [hw.resolve, start_siblings hsiblings, hstart, hsiblings.pieces_right, walk_append hway₃,
      walk_singleton hname hfits, node?_moved hq hd, if_neg hne.symm, if_pos rfl]
  . intro x hx hx'
    rw [node?_moved hq hd, if_neg hx, if_neg hx', ← ht₂, node?_put hq, if_neg hx']

end Siblings

theorem exists_siblings {ext : String} (hdot : '.' ∈ ext.toList) (hseparator : '/' ∉ ext.toList)
    (h : t.Writable (p.withExtension ext) q)
    : ∃ dir name other idle, Path.Siblings p (p.withExtension ext) dir name other idle := by
  cases hname : p.fileName? with
  | some name =>
    obtain ⟨dir, other, idle, hsiblings⟩ := Path.siblings_withExtension hname hdot hseparator
    exact ⟨dir, name, other, idle, hsiblings⟩
  | none =>
    have hsame : p.withExtension ext = p := by
      unfold Path.withExtension
      rw [hname]
    rw [hsame] at h
    obtain ⟨y, s, hstop, hs, -⟩ := h.stop
    obtain ⟨through, hpieces, -⟩ := exists_through_of_stop hstop
    rw [Path.fileName?_of_pieces hpieces hs.1 hs.2] at hname
    contradiction

section Save

variable {ext : String} (hdot : '.' ∈ ext.toList) (hseparator : '/' ∉ ext.toList) (hwf : t.WellFormed)

include hdot hseparator hwf in
theorem wellFormed_of_save {r : Except Failure Unit}
    (h : t.save p (p.withExtension ext) text disk = (r, t')) : t'.WellFormed := by
  obtain ⟨hwf₁, -⟩ := grows_createdFor hwf p disk
  rcases save_cases h with ⟨-, rfl⟩ | ⟨q, hw, ⟨-, written, rfl⟩ | ⟨-, hrename⟩⟩
  . exact hwf₁
  . exact (hw.wellFormed_put hwf₁ _).1
  . obtain ⟨dir, name, other, idle, hsiblings⟩ := exists_siblings hdot hseparator hw
    obtain ⟨place, -, -, hwf', -⟩ := rename_sibling hsiblings hwf₁ hw hrename
    exact hwf'

include hwf in
theorem keeps_of_save_error {e : Failure} (h : t.save p (p.withExtension ext) text disk = (.error e, t'))
    : Keeps t t' := by
  obtain ⟨hwf₁, hgrows⟩ := grows_createdFor hwf p disk
  rcases save_cases h with ⟨-, rfl⟩ | ⟨q, hw, ⟨-, written, rfl⟩ | ⟨hok, -⟩⟩
  . exact hgrows.keeps
  . exact hgrows.keeps.trans (hw.wellFormed_put hwf₁ _).2
  . contradiction

include hdot hseparator hwf in
/--
A save that fails does not change where the path leads, if it leads anywhere; if not, it still does
not.
-/
theorem resolve_of_save_error {e : Failure} (hdown : ∀ r ∈ t.beyond p, r ≠ "..")
    (h : t.save p (p.withExtension ext) text disk = (.error e, t'))
    : t'.resolve p = t.resolve p ∨
        IsLost (t.resolve p) ∧
          (IsLost (t'.resolve p) ∨
            t'.resolve p = .error .nameTooLong ∧ ∃ r ∈ t.beyond p, longestName < r.utf8ByteSize) := by
  have hcreated := resolve_createdFor hwf hdown disk
  rcases save_cases h with ⟨-, rfl⟩ | ⟨q, hw, ⟨-, written, rfl⟩ | ⟨hok, -⟩⟩
  . exact hcreated
  . obtain ⟨dir, name, other, idle, hsiblings⟩ := exists_siblings hdot hseparator hw
    rwa [resolve_put_sibling hsiblings hw]
  . contradiction

include hdot hseparator hwf in
theorem saved_of_save_ok (h : t.save p (p.withExtension ext) text disk = (.ok (), t'))
    : ∃ place sibling, place ≠ sibling ∧ place.dropLast = sibling.dropLast ∧
        t'.resolve p = .ok (.present place (.file (Text.utf8 text))) ∧
        t'.resolve (p.withExtension ext) = .ok (.vacant sibling) ∧
          ∀ x, x ≠ place → x ≠ sibling →
            t'.node? x = t.node? x ∨ t.node? x = none ∧ t'.node? x = some .directory := by
  obtain ⟨hwf₁, hgrows⟩ := grows_createdFor hwf p disk
  rcases save_cases h with ⟨⟨e, he⟩, -⟩ | ⟨q, hw, ⟨⟨e, he⟩, -⟩ | ⟨-, hrename⟩⟩
  . contradiction
  . contradiction
  . obtain ⟨dir, name, other, idle, hsiblings⟩ := exists_siblings hdot hseparator hw
    obtain ⟨place, hne, hparent, -, hpath, htemporary, hothers⟩ := rename_sibling hsiblings hwf₁ hw hrename
    refine ⟨place, q, hne, hparent, hpath, htemporary, ?_⟩
    intro x hplace hsibling
    rw [hothers x hplace hsibling]
    rcases hgrows.node? x with hsame | ⟨hnone, hnew, -⟩
    . exact .inl hsame
    . exact .inr ⟨hnone, hnew⟩

end Save

end FileTree
end SharedWorkspace
