import SharedWorkspace.FileTree.Basic
import SharedWorkspace.Proofs.FileTree.Steps

/-!
Walks through a tree of files, cut in two: the way through directories that are there (`stop`), and what
stands, or does not stand, where it ends. A change that leaves all directories in place does not change the
first part of any walk (`walk_of_keeps`).
-/

namespace SharedWorkspace
namespace FileTree

deriving instance DecidableEq for Target

variable {t t' : FileTree} {x y q : Place} {ps qs rest : List String} {s : String} {n : FileNode}

structure WellFormed (t : FileTree) : Prop where
  parents : ∀ e ∈ t.nodes.entries, t.node? e.1.dropLast = some .directory
  workingDirectory : t.node? t.workingDirectory = some .directory

instance (t : FileTree) : Decidable t.WellFormed :=
  decidable_of_iff
    ((∀ e ∈ t.nodes.entries, t.node? e.1.dropLast = some .directory) ∧
      t.node? t.workingDirectory = some .directory)
    ⟨fun h => ⟨h.1, h.2⟩, fun h => ⟨h.parents, h.workingDirectory⟩⟩

@[simp]
theorem node?_root : t.node? [] = some .directory :=
  rfl

theorem node?_put (hq : q ≠ []) : (t.put q n).node? x = if x = q then some n else t.node? x := by
  unfold put node?
  by_cases hx : x = []
  . subst hx
    rw [if_pos rfl, if_pos rfl, if_neg hq.symm]
  . rw [if_neg hx, if_neg hx, OrderedMap.find?_insert_eq_ite]

theorem node?_drop (hq : q ≠ []) : (t.drop q).node? x = if x = q then none else t.node? x := by
  unfold drop node?
  by_cases hx : x = []
  . subst hx
    rw [if_pos rfl, if_pos rfl, if_neg hq.symm]
  . rw [if_neg hx, if_neg hx, OrderedMap.find?_erase_eq_ite]

theorem WellFormed.node?_parent (h : t.WellFormed) (hx : t.node? x = some n)
    : t.node? x.dropLast = some .directory := by
  unfold node? at hx
  split at hx
  . next hroot =>
    rw [hroot]
    rfl
  . exact h.parents _ (OrderedMap.find?_eq_some_iff.1 hx)

theorem wellFormed_of_node?_parent
    (h : ∀ x n, t.node? x = some n → t.node? x.dropLast = some .directory)
    (hworking : t.node? t.workingDirectory = some .directory) : t.WellFormed := by
  refine ⟨?_, hworking⟩
  intro e he
  by_cases hroot : e.1 = []
  . rw [hroot]
    rfl
  . refine h e.1 e.2 ?_
    unfold node?
    rw [if_neg hroot]
    exact OrderedMap.find?_eq_some_iff.2 he

theorem WellFormed.node?_append (h : t.WellFormed) (hx : t.node? x = none) (ps : List String)
    : t.node? (x ++ ps) = none := by
  induction ps using List.reverseRecOn with
  | nil => rwa [List.append_nil]
  | append_singleton ps s ih =>
    rw [← List.append_assoc]
    refine Option.eq_none_iff_forall_ne_some.2 ?_
    intro n hn
    have hparent := h.node?_parent hn
    rw [List.dropLast_concat, ih] at hparent
    contradiction

structure KeepsDirectories (t t' : FileTree) : Prop where
  workingDirectory : t'.workingDirectory = t.workingDirectory
  node? : ∀ x, t.node? x = some .directory → t'.node? x = some .directory

theorem KeepsDirectories.refl (t : FileTree) : KeepsDirectories t t :=
  ⟨rfl, fun _ h => h⟩

theorem KeepsDirectories.trans {t'' : FileTree} (h : KeepsDirectories t t') (h' : KeepsDirectories t' t'')
    : KeepsDirectories t t'' :=
  ⟨h'.workingDirectory.trans h.workingDirectory, fun x hx => h'.node? x (h.node? x hx)⟩

theorem keepsDirectories_put (hq : q ≠ []) (hn : n = .directory ∨ t.node? q ≠ some .directory)
    : KeepsDirectories t (t.put q n) := by
  refine ⟨rfl, ?_⟩
  intro x hx
  rw [node?_put hq]
  split
  . next heq =>
    subst heq
    rw [hn.resolve_right fun hne => hne hx]
  . exact hx

theorem keepsDirectories_drop (hq : q ≠ []) (hn : t.node? q ≠ some .directory)
    : KeepsDirectories t (t.drop q) := by
  refine ⟨rfl, ?_⟩
  intro x hx
  rw [node?_drop hq, if_neg]
  . exact hx
  . rintro rfl
    exact hn hx

theorem WellFormed.put (h : t.WellFormed) (hq : q ≠ []) (hparent : t.node? q.dropLast = some .directory)
    (hn : n = .directory ∨ t.node? q ≠ some .directory) : (t.put q n).WellFormed := by
  have hkeeps := keepsDirectories_put hq hn
  refine wellFormed_of_node?_parent ?_ (hkeeps.node? _ h.workingDirectory)
  intro x m hx
  rw [node?_put hq] at hx
  split at hx
  . next heq =>
    rw [heq]
    exact hkeeps.node? _ hparent
  . exact hkeeps.node? _ (h.node?_parent hx)

theorem WellFormed.drop (h : t.WellFormed) (hq : q ≠ []) (hn : t.node? q ≠ some .directory)
    : (t.drop q).WellFormed := by
  have hkeeps := keepsDirectories_drop hq hn
  refine wellFormed_of_node?_parent ?_ (hkeeps.node? _ h.workingDirectory)
  intro x m hx
  rw [node?_drop hq] at hx
  split at hx
  . contradiction
  . exact hkeeps.node? _ (h.node?_parent hx)

/--
Where the way through directories ends: the last of them, and the pieces that are left there. If any are,
the first is a name that stands for no directory.
-/
def stop (t : FileTree) (place : Place) : List String → Place × List String
  | [] => (place, [])
  | s :: rest =>
    if Path.isIdle s then
      t.stop place rest
    else if s = ".." then
      t.stop place.dropLast rest
    else if s.utf8ByteSize ≤ longestName ∧ t.node? (place ++ [s]) = some .directory then
      t.stop (place ++ [s]) rest
    else
      (place, s :: rest)

def IsName (s : String) : Prop :=
  Path.isIdle s = false ∧ s ≠ ".."

theorem isName_of_not (hidle : ¬Path.isIdle s = true) (hparent : ¬s = "..") : IsName s :=
  ⟨by simpa using hidle, hparent⟩

theorem stop_cons_of_idle (hs : Path.isIdle s = true) : t.stop x (s :: rest) = t.stop x rest := by
  rw [stop, if_pos hs]

theorem stop_cons_parent : t.stop x (".." :: rest) = t.stop x.dropLast rest := by
  rw [stop, if_neg (by decide), if_pos rfl]

theorem stop_cons_of_name (hs : IsName s)
    : t.stop x (s :: rest)
        =
      if s.utf8ByteSize ≤ longestName ∧ t.node? (x ++ [s]) = some .directory then
        t.stop (x ++ [s]) rest
      else
        (x, s :: rest) := by
  rw [stop, if_neg (by simp [hs.1]), if_neg hs.2]

theorem walk_cons_of_idle (hs : Path.isIdle s = true) : t.walk x (s :: rest) = t.walk x rest := by
  rw [walk, if_pos (of_decide_eq_true hs)]

theorem walk_cons_parent : t.walk x (".." :: rest) = t.walk x.dropLast rest := by
  rw [walk, if_neg (by decide), if_pos rfl]

theorem walk_cons_of_name (hs : IsName s)
    : t.walk x (s :: rest)
        =
      if longestName < s.utf8ByteSize then
        .error .nameTooLong
      else
        match t.node? (x ++ [s]) with
        | some .directory => t.walk (x ++ [s]) rest
        | some (.file bytes) =>
          if rest = [] then .ok (.present (x ++ [s]) (.file bytes)) else .error .notDirectory
        | none =>
          if rest = [] then
            .ok (.vacant (x ++ [s]))
          else if rest.all (· = "") then
            .ok (.vacantDirectory (x ++ [s]))
          else
            .error .notFound := by
  have hidle : ¬(s = "" ∨ s = ".") := of_decide_eq_false hs.1
  rw [walk]
  exact (if_neg hidle).trans (if_neg hs.2)

theorem stop_of_keeps (h : KeepsDirectories t t')
    : t'.stop x ps = t'.stop (t.stop x ps).1 (t.stop x ps).2 := by
  fun_induction stop t x ps with
  | case1 => rfl
  | case2 x s rest hs ih => rw [stop_cons_of_idle hs, ih]
  | case3 x rest hs ih => rw [stop_cons_parent, ih]
  | case4 x s rest hidle hparent hs ih =>
    rw [stop_cons_of_name (isName_of_not hidle hparent), if_pos ⟨hs.1, h.node? _ hs.2⟩, ih]
  | case5 => rfl

theorem KeepsDirectories.stop_eq (h : KeepsDirectories t t') (hway : t.stop x ps = (y, []))
    : t'.stop x ps = (y, []) := by
  rw [stop_of_keeps h, hway]
  rfl

theorem walk_of_keeps (h : KeepsDirectories t t')
    : t'.walk x ps = t'.walk (t.stop x ps).1 (t.stop x ps).2 := by
  fun_induction stop t x ps with
  | case1 => rfl
  | case2 x s rest hs ih => rw [walk_cons_of_idle hs, ih]
  | case3 x rest hs ih => rw [walk_cons_parent, ih]
  | case4 x s rest hidle hparent hs ih =>
    rw [walk_cons_of_name (isName_of_not hidle hparent), if_neg (Nat.not_lt.2 hs.1), h.node? _ hs.2]
    exact ih
  | case5 => rfl

theorem walk_stop : t.walk x ps = t.walk (t.stop x ps).1 (t.stop x ps).2 :=
  walk_of_keeps (.refl t)

theorem stop_cases (t : FileTree) (x : Place) (ps : List String)
    : (∃ y, t.stop x ps = (y, [])) ∨
        ∃ y s rest, t.stop x ps = (y, s :: rest) ∧ IsName s ∧
          ¬(s.utf8ByteSize ≤ longestName ∧ t.node? (y ++ [s]) = some .directory) := by
  fun_induction stop t x ps with
  | case1 x => exact .inl ⟨x, rfl⟩
  | case2 x s rest hs ih => exact ih
  | case3 x rest hs ih => exact ih
  | case4 x s rest hidle hparent hs ih => exact ih
  | case5 x s rest hidle hparent hs => exact .inr ⟨x, s, rest, rfl, isName_of_not hidle hparent, hs⟩

theorem stop_append_of_through (h : t.stop x ps = (y, [])) : t.stop x (ps ++ qs) = t.stop y qs := by
  fun_induction stop t x ps with
  | case1 x =>
    cases h
    rfl
  | case2 x s rest hs ih => rw [List.cons_append, stop_cons_of_idle hs, ih h]
  | case3 x rest hs ih => rw [List.cons_append, stop_cons_parent, ih h]
  | case4 x s rest hidle hparent hs ih =>
    rw [List.cons_append, stop_cons_of_name (isName_of_not hidle hparent), if_pos hs, ih h]
  | case5 => cases h

theorem stop_append_of_stopped (h : t.stop x ps = (y, s :: rest))
    : t.stop x (ps ++ qs) = (y, s :: rest ++ qs) := by
  fun_induction stop t x ps with
  | case1 => cases h
  | case2 x s rest hs ih => rw [List.cons_append, stop_cons_of_idle hs, ih h]
  | case3 x rest hs ih => rw [List.cons_append, stop_cons_parent, ih h]
  | case4 x s rest hidle hparent hs ih =>
    rw [List.cons_append, stop_cons_of_name (isName_of_not hidle hparent), if_pos hs, ih h]
  | case5 x s rest hidle hparent hs =>
    cases h
    rw [List.cons_append, stop_cons_of_name (isName_of_not hidle hparent), if_neg hs]

theorem walk_append (h : t.stop x ps = (y, [])) : t.walk x (ps ++ qs) = t.walk y qs := by
  rw [walk_stop, stop_append_of_through h, ← walk_stop]

theorem exists_through (t : FileTree) (x : Place) (ps : List String)
    : ∃ through, ps = through ++ (t.stop x ps).2 ∧ t.stop x through = ((t.stop x ps).1, []) := by
  fun_induction stop t x ps with
  | case1 x => exact ⟨[], rfl, rfl⟩
  | case2 x s rest hs ih =>
    obtain ⟨through, hrest, hstop⟩ := ih
    exact ⟨s :: through, congrArg (s :: ·) hrest, by rw [stop_cons_of_idle hs, hstop]⟩
  | case3 x rest hs ih =>
    obtain ⟨through, hrest, hstop⟩ := ih
    exact ⟨".." :: through, congrArg (".." :: ·) hrest, by rw [stop_cons_parent, hstop]⟩
  | case4 x s rest hidle hparent hs ih =>
    obtain ⟨through, hrest, hstop⟩ := ih
    refine ⟨s :: through, congrArg (s :: ·) hrest, ?_⟩
    rw [stop_cons_of_name (isName_of_not hidle hparent), if_pos hs, hstop]
  | case5 x s rest hidle hparent hs => exact ⟨[], rfl, rfl⟩

theorem exists_through_of_stop {left : List String} (h : t.stop x ps = (y, left))
    : ∃ through, ps = through ++ left ∧ t.stop x through = (y, []) := by
  obtain ⟨through, hpieces, hthrough⟩ := exists_through t x ps
  rw [h] at hpieces hthrough
  exact ⟨through, hpieces, hthrough⟩

theorem stop_steps (t : FileTree) (x : Place) (ps : List String)
    : t.stop x (Path.steps ps) = ((t.stop x ps).1, Path.steps (t.stop x ps).2) := by
  fun_induction stop t x ps with
  | case1 => rfl
  | case2 x s rest hs ih => rw [Path.steps_cons_of_idle hs, ih]
  | case3 x rest hs ih => rw [Path.steps_cons_of_not_idle (by decide), stop_cons_parent, ih]
  | case4 x s rest hidle hparent hs ih =>
    have hname := isName_of_not hidle hparent
    rw [Path.steps_cons_of_not_idle hname.1, stop_cons_of_name hname, if_pos hs, ih]
  | case5 x s rest hidle hparent hs =>
    have hname := isName_of_not hidle hparent
    rw [Path.steps_cons_of_not_idle hname.1, stop_cons_of_name hname, if_neg hs]

theorem stop_names (t : FileTree) (x : Place) (h : ∀ s ∈ ps, IsName s)
    : (t.stop x ps).1 ++ (t.stop x ps).2 = x ++ ps := by
  induction ps generalizing x with
  | nil => rfl
  | cons s ps ih =>
    rw [stop_cons_of_name (h s List.mem_cons_self)]
    split
    . rw [ih _ fun s hs => h s (List.mem_cons_of_mem _ hs), List.append_assoc, List.singleton_append]
    . rfl

theorem WellFormed.node?_stop (hwf : t.WellFormed) (hx : t.node? x = some .directory) (ps : List String)
    : t.node? (t.stop x ps).1 = some .directory := by
  fun_induction stop t x ps with
  | case1 => exact hx
  | case2 x s rest hs ih => exact ih hx
  | case3 x rest hs ih => exact ih (hwf.node?_parent hx)
  | case4 x s rest hidle hparent hs ih => exact ih hs.2
  | case5 => exact hx

inductive Ending (t : FileTree) (y : Place) : List String → Except FileFault Target → Prop where
  | directory : Ending t y [] (.ok (.present y .directory))
  | file (s : String) (bytes : List UInt8) (hname : IsName s) (hfits : s.utf8ByteSize ≤ longestName)
      (hnode : t.node? (y ++ [s]) = some (.file bytes))
      : Ending t y [s] (.ok (.present (y ++ [s]) (.file bytes)))
  | blocked (s : String) (rest : List String) (bytes : List UInt8) (hname : IsName s)
      (hfits : s.utf8ByteSize ≤ longestName) (hnode : t.node? (y ++ [s]) = some (.file bytes))
      (hrest : rest ≠ []) : Ending t y (s :: rest) (.error .notDirectory)
  | vacant (s : String) (hname : IsName s) (hfits : s.utf8ByteSize ≤ longestName)
      (hnode : t.node? (y ++ [s]) = none) : Ending t y [s] (.ok (.vacant (y ++ [s])))
  | vacantDirectory (s : String) (rest : List String) (hname : IsName s)
      (hfits : s.utf8ByteSize ≤ longestName) (hnode : t.node? (y ++ [s]) = none)
      (hrest : ∀ r ∈ rest, r = "") : Ending t y (s :: rest) (.ok (.vacantDirectory (y ++ [s])))
  | notFound (s : String) (rest : List String) (hname : IsName s) (hfits : s.utf8ByteSize ≤ longestName)
      (hnode : t.node? (y ++ [s]) = none) : Ending t y (s :: rest) (.error .notFound)
  | nameTooLong (s : String) (rest : List String) (hname : IsName s) (hlong : longestName < s.utf8ByteSize)
      : Ending t y (s :: rest) (.error .nameTooLong)

theorem walk_ending (t : FileTree) (x : Place) (ps : List String)
    : Ending t (t.stop x ps).1 (t.stop x ps).2 (t.walk x ps) := by
  rw [walk_stop]
  rcases stop_cases t x ps with ⟨y, hstop⟩ | ⟨y, s, rest, hstop, hname, hhalt⟩
  . rw [hstop]
    exact .directory
  . rw [hstop]
    dsimp only
    rw [walk_cons_of_name hname]
    split
    . next hlong => exact .nameTooLong _ _ hname hlong
    . next hfits =>
      have hfits : s.utf8ByteSize ≤ longestName := Nat.not_lt.1 hfits
      split
      . next hnode => exact absurd ⟨hfits, hnode⟩ hhalt
      . next hnode =>
        split
        . next hrest =>
          rw [hrest]
          exact .file _ _ hname hfits hnode
        . next hrest => exact .blocked _ _ _ hname hfits hnode hrest
      . next hnode =>
        split
        . next hrest =>
          rw [hrest]
          exact .vacant _ hname hfits hnode
        . split
          . next hrest => exact .vacantDirectory _ _ hname hfits hnode (by simpa using hrest)
          . exact .notFound _ _ hname hfits hnode

theorem walk_cons_of_long (hs : IsName s) (h : longestName < s.utf8ByteSize)
    : t.walk x (s :: rest) = .error .nameTooLong := by
  rw [walk_cons_of_name hs, if_pos h]

theorem walk_cons_congr (hs : IsName s) (h : t'.node? (x ++ [s]) = t.node? (x ++ [s]))
    (hnode : t.node? (x ++ [s]) ≠ some .directory) : t'.walk x (s :: rest) = t.walk x (s :: rest) := by
  rw [walk_cons_of_name hs, walk_cons_of_name hs, h]
  split
  . rfl
  . split
    . contradiction
    . rfl
    . rfl

theorem stop_idle (h : ∀ s ∈ ps, Path.isIdle s = true) : t.stop x ps = (x, []) := by
  induction ps with
  | nil => rfl
  | cons s ps ih =>
    rw [stop_cons_of_idle (h s List.mem_cons_self), ih fun s hs => h s (List.mem_cons_of_mem _ hs)]

theorem walk_idle (h : ∀ s ∈ ps, Path.isIdle s = true) : t.walk x ps = .ok (.present x .directory) := by
  rw [walk_stop, stop_idle h]
  rfl

end FileTree
end SharedWorkspace
