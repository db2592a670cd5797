import SharedWorkspace.FileTree.Save
import SharedWorkspace.Proofs.FileTree.Walk

/-!
What the creation of directories does to a tree, on whatever disk: nothing but add directories
(`grows_createdFor`), and where a path leads is changed by it only if the path led nowhere
(`resolve_createdFor`).
-/

namespace SharedWorkspace
namespace FileTree

variable {t t' t'' : FileTree} {p d : Path} {x y q : Place} {ps rest : List String} {s : String}
variable {new : Place → Prop} {C : Path → Prop} {disk : Disk}

def start (t : FileTree) (p : Path) : Place :=
  if p.isAbsolute then [] else t.workingDirectory

theorem resolve_cases (p : Path)
    : (∃ e, ∀ t : FileTree, t.resolve p = .error e) ∨
        ∀ t : FileTree, t.resolve p = t.walk (t.start p) p.pieces := by
  unfold resolve
  split
  . exact .inl ⟨_, fun _ => rfl⟩
  . split
    . exact .inl ⟨_, fun _ => rfl⟩
    . split
      . exact .inl ⟨_, fun _ => rfl⟩
      . exact .inr fun _ => rfl

theorem WellFormed.node?_start (h : t.WellFormed) (p : Path) : t.node? (t.start p) = some .directory := by
  unfold start
  split
  . rfl
  . exact h.workingDirectory

theorem WellFormed.node?_of_stop {left : List String} (h : t.WellFormed)
    (hstop : t.stop (t.start p) ps = (y, left)) : t.node? y = some .directory := by
  have hdirectory := h.node?_stop (h.node?_start p) ps
  rwa [hstop] at hdirectory

theorem resolve_ending {target : Target} (h : t.resolve p = .ok target)
    : ∃ y left, t.stop (t.start p) p.pieces = (y, left) ∧ Ending t y left (.ok target) := by
  rcases resolve_cases p with ⟨e, he⟩ | hwalk
  . rw [he] at h
    contradiction
  . refine ⟨_, _, rfl, ?_⟩
    rw [← h, hwalk]
    exact walk_ending ..

def LeadsToVacant (t : FileTree) (p : Path) (q : Place) : Prop :=
  t.resolve p = .ok (.vacant q) ∨ t.resolve p = .ok (.vacantDirectory q)

theorem LeadsToVacant.stop (h : t.LeadsToVacant p q)
    : ∃ y s rest, t.stop (t.start p) p.pieces = (y, s :: rest) ∧ (∀ r ∈ rest, r = "") ∧ IsName s ∧
        q = y ++ [s] ∧ t.node? q = none := by
  rcases h with h | h
  . obtain ⟨y, left, hstop, hending⟩ := resolve_ending h
    cases hending with
    | vacant s hname hfits hnode => exact ⟨y, s, [], hstop, by simp, hname, rfl, hnode⟩
  . obtain ⟨y, left, hstop, hending⟩ := resolve_ending h
    cases hending with
    | vacantDirectory s rest hname hfits hnode hrest => exact ⟨y, s, rest, hstop, hrest, hname, rfl, hnode⟩

structure Grows (new : Place → Prop) (t t' : FileTree) : Prop where
  workingDirectory : t'.workingDirectory = t.workingDirectory
  node? : ∀ x, t'.node? x = t.node? x ∨ t.node? x = none ∧ t'.node? x = some .directory ∧ new x

theorem Grows.refl (t : FileTree) : Grows new t t :=
  ⟨rfl, fun _ => .inl rfl⟩

theorem Grows.start (h : Grows new t t') (p : Path) : t'.start p = t.start p := by
  unfold FileTree.start
  rw [h.workingDirectory]

theorem Grows.node?_of_some {n : FileNode} (h : Grows new t t') (hx : t.node? x = some n)
    : t'.node? x = some n := by
  rcases h.node? x with hsame | ⟨hnone, -, -⟩
  . rw [hsame, hx]
  . rw [hx] at hnone
    contradiction

theorem Grows.keepsDirectories (h : Grows new t t') : KeepsDirectories t t' :=
  ⟨h.workingDirectory, fun _ hx => h.node?_of_some hx⟩

theorem Grows.put (h : Grows new t t') (hq : q ≠ []) (hnode : t'.node? q = none) (hnew : new q)
    : Grows new t (t'.put q .directory) := by
  refine ⟨h.workingDirectory, ?_⟩
  intro x
  rw [node?_put hq]
  split
  . next heq =>
    subst heq
    rcases h.node? x with hsame | ⟨hnone, -, -⟩
    . exact .inr ⟨hsame ▸ hnode, rfl, hnew⟩
    . exact .inr ⟨hnone, rfl, hnew⟩
  . exact h.node? x

theorem createDirectory_eq_ok (h : t.createDirectory p disk = .ok t')
    : ∃ q, t.LeadsToVacant p q ∧ t' = t.put q .directory := by
  unfold createDirectory at h
  split at h
  . contradiction
  . contradiction
  . next q _ hq =>
    cases h
    exact ⟨q, .inl hq, rfl⟩
  . next q _ hq =>
    cases h
    exact ⟨q, .inr hq, rfl⟩
  . contradiction

theorem createDirectories_induction {K : FileTree → Prop}
    (hparent : ∀ d e, C d → d.parent? = some e → C e)
    (hcreate : ∀ d t t', C d → K t → t.createDirectory d disk = .ok t' → K t') (hd : C d) (ht : K t)
    : K (t.createDirectories d disk).2 := by
  unfold createDirectories
  generalize d.components.length + 1 = steps
  induction steps generalizing d with
  | zero => exact ht
  | succ steps ih =>
    unfold createDirectories.go
    split
    . exact ht
    . split
      . next t' hcreated => exact hcreate d t t' hd ht hcreated
      . split
        . exact ht
        . next parent hp =>
          have hK := ih (hparent d parent hd hp)
          split
          . next t₁ hgo =>
            rw [hgo] at hK
            exact hK
          . next t₁ hgo =>
            rw [hgo] at hK
            split
            . next t' hcreated => exact hcreate d t₁ t' hd hK hcreated
            . split <;> exact hK
      . split <;> exact ht

theorem grows_createDirectories (hwf : t.WellFormed) (hparent : ∀ d e, C d → d.parent? = some e → C e)
    (hnew : ∀ d t' q, C d → Grows new t t' → t'.LeadsToVacant d q → new q) (hd : C d)
    : (t.createDirectories d disk).2.WellFormed ∧ Grows new t (t.createDirectories d disk).2 := by
  refine createDirectories_induction (K := fun t' => t'.WellFormed ∧ Grows new t t') hparent ?_ hd
    ⟨hwf, .refl t⟩
  intro d t₁ t₂ hd ⟨hwf₁, hgrows⟩ hcreate
  obtain ⟨q, hvacant, rfl⟩ := createDirectory_eq_ok hcreate
  obtain ⟨y, s, rest, hstop, -, -, rfl, hnode⟩ := hvacant.stop
  have hy : t₁.node? y = some .directory := hwf₁.node?_of_stop hstop
  have hne : y ++ [s] ≠ [] := by simp
  refine ⟨hwf₁.put hne ?_ (.inl rfl), hgrows.put hne hnode (hnew d t₁ _ hd hgrows hvacant)⟩
  rwa [List.dropLast_concat]

def createdFor (t : FileTree) (p : Path) (disk : Disk) : FileTree :=
  match p.parent? with
  | some d => (t.createDirectories d disk).2
  | none => t

theorem grows_createdFor (hwf : t.WellFormed) (p : Path) (disk : Disk)
    : (t.createdFor p disk).WellFormed ∧ Grows (fun _ => True) t (t.createdFor p disk) := by
  unfold createdFor
  split
  . exact grows_createDirectories (C := fun _ => True) hwf (fun _ _ _ _ => trivial)
      (fun _ _ _ _ _ _ => trivial) trivial
  . exact ⟨hwf, .refl t⟩

/--
The pieces of `p` beyond the first name on the way that is missing.
-/
def beyond (t : FileTree) (p : Path) : List String :=
  match t.stop (t.start p) p.pieces with
  | (y, s :: rest) => if s.utf8ByteSize ≤ longestName ∧ t.node? (y ++ [s]) = none then rest else []
  | (_, []) => []

def IsLost : Except FileFault Target → Prop
  | .ok (.vacant _) => True
  | .ok (.vacantDirectory _) => True
  | .error .notFound => True
  | _ => False

theorem isName_of_mem_steps (h : ∀ s ∈ ps, s ≠ "..") : ∀ s ∈ Path.steps ps, IsName s := by
  intro s hs
  obtain ⟨hmem, hidle⟩ := List.mem_filter.1 hs
  exact ⟨by simpa using hidle, h s hmem⟩

theorem stop_begins {through ending ds : List String} (hway : t.stop x through = (y, []))
    (hnames : ∀ r ∈ ending, IsName r) (hne : ending ≠ []) (hbegins : ds <+: through ++ ending.dropLast)
    (hd : t.stop x ds = (q, [s])) : q ++ [s] <+: y ++ ending ∧ q ++ [s] ≠ y ++ ending := by
  -- The way up to `y` is through directories, so `ds` goes further.
  rcases List.prefix_or_prefix_of_prefix hbegins (List.prefix_append ..) with ⟨more, hmore⟩ | ⟨more, hmore⟩
  . rw [← hmore, stop_append_of_stopped hd] at hway
    simp at hway
  . rw [← hmore, List.prefix_append_right_inj] at hbegins
    rw [← hmore, stop_append_of_through hway] at hd
    have hdown := stop_names t y fun r hr => hnames r ((List.dropLast_prefix _).subset (hbegins.subset hr))
    rw [hd] at hdown
    dsimp only at hdown
    rw [hdown]
    refine ⟨(List.prefix_append_right_inj y).2 (hbegins.trans (List.dropLast_prefix _)), ?_⟩
    intro heq
    have hlength := hbegins.length_le
    rw [List.append_cancel_left heq, List.length_dropLast] at hlength
    have hpos := List.length_pos_of_ne_nil hne
    omega

/--
Directories that are created for `p` lie on the way to its end, from the first missing name on, and its end
is not among them.
-/
theorem grows_createdFor_of_missing (hwf : t.WellFormed)
    (hstop : t.stop (t.start p) p.pieces = (y, s :: rest)) (hname : IsName s)
    (hrest : ∀ r ∈ rest, r ≠ "..") (disk : Disk)
    : Grows (fun q => q <+: y ++ Path.steps (s :: rest) ∧ q ≠ y ++ Path.steps (s :: rest)) t
        (t.createdFor p disk) := by
  obtain ⟨through, hpieces, hthrough⟩ := exists_through_of_stop hstop
  have hnames : ∀ r ∈ Path.steps (s :: rest), IsName r :=
    isName_of_mem_steps (List.forall_mem_cons.2 ⟨hname.2, hrest⟩)
  have hne : Path.steps (s :: rest) ≠ [] := by
    rw [Path.steps_cons_of_not_idle hname.1]
    exact List.cons_ne_nil _ _
  have hsteps : Path.steps p.pieces = Path.steps through ++ Path.steps (s :: rest) := by
    rw [hpieces, Path.steps_append]
  unfold createdFor
  split
  . next d hd =>
    obtain ⟨habsolute, hparent⟩ := Path.parent?_eq_some hd
    refine (grows_createDirectories (C := fun d => d.isAbsolute = p.isAbsolute ∧
      Path.steps d.pieces <+: (Path.steps p.pieces).dropLast) hwf ?_ ?_
      ⟨habsolute, hparent ▸ List.prefix_rfl⟩).2
    . intro d e ⟨habsolute, hbegins⟩ he
      obtain ⟨habsolute', hsteps'⟩ := Path.parent?_eq_some he
      refine ⟨habsolute'.trans habsolute, ?_⟩
      rw [hsteps']
      exact (List.dropLast_prefix _).trans hbegins
    . intro d t' q ⟨habsolute, hbegins⟩ hgrows hvacant
      obtain ⟨y', s', rest', hstop', hrest', hname', rfl, -⟩ := hvacant.stop
      have hstart : t'.start d = t.start p := by
        unfold FileTree.start
        rw [habsolute, hgrows.workingDirectory]
      have hd : t'.stop (t.start p) (Path.steps d.pieces) = (y', [s']) := by
        have hidle : ∀ r ∈ rest', Path.isIdle r = true := fun r hr => by rw [hrest' r hr]; rfl
        rw [stop_steps, ← hstart, hstop']
        dsimp only
        rw [Path.steps_cons_of_not_idle hname'.1, Path.steps_eq_nil hidle]
      have hway : t'.stop (t.start p) (Path.steps through) = (y, []) := by
        apply hgrows.keepsDirectories.stop_eq
        rw [stop_steps, hthrough]
        rfl
      rw [hsteps, List.dropLast_append_of_ne_nil hne] at hbegins
      exact stop_begins hway hnames hne hbegins hd
  . exact .refl t

theorem isLost_walk (hwf : t.WellFormed) (hy : t.node? y = some .directory) (hdown : ∀ r ∈ ps, r ≠ "..")
    (hnone : t.node? (y ++ Path.steps ps) = none)
    (hway : ∀ N, N <+: Path.steps ps → t.node? (y ++ N) = none ∨ t.node? (y ++ N) = some .directory)
    : IsLost (t.walk y ps) ∨
        t.walk y ps = .error .nameTooLong ∧ ∃ r ∈ ps, longestName < r.utf8ByteSize := by
  have hending := walk_ending t y ps
  obtain ⟨through, hpieces, hthrough⟩ := exists_through t y ps
  have hplace : t.stop y (Path.steps through) = ((t.stop y ps).1, []) := by
    rw [stop_steps, hthrough]
    rfl
  have hthroughDown : ∀ r ∈ through, r ≠ ".." := fun r hr =>
    hdown r (hpieces ▸ List.mem_append_left _ hr)
  have hdownward := stop_names t y (isName_of_mem_steps hthroughDown)
  rw [hplace, List.append_nil] at hdownward
  have hdirectory := hwf.node?_stop hy ps
  generalize t.walk y ps = target at hending ⊢
  generalize t.stop y ps = place at *
  obtain ⟨y', left⟩ := place
  dsimp only at *
  subst hdownward
  have hfile : ∀ s rest bytes, left = s :: rest → IsName s →
      t.node? (y ++ Path.steps through ++ [s]) ≠ some (.file bytes) := by
    intro s rest bytes hleft hname hnode
    subst hleft
    have hbegins : Path.steps through ++ [s] <+: Path.steps ps := by
      rw [hpieces, Path.steps_append, Path.steps_cons_of_not_idle hname.1, List.prefix_append_right_inj]
      exact List.prefix_append ..
    rw [List.append_assoc] at hnode
    rcases hway _ hbegins with h | h <;> rw [h] at hnode <;> cases hnode
  cases hending with
  | directory =>
    rw [hpieces, List.append_nil, hdirectory] at hnone
    contradiction
  | file s bytes hname hfits hnode => exact absurd hnode (hfile s [] bytes rfl hname)
  | blocked s rest bytes hname hfits hnode hrest => exact absurd hnode (hfile s rest bytes rfl hname)
  | vacant => exact .inl trivial
  | vacantDirectory => exact .inl trivial
  | notFound => exact .inl trivial
  | nameTooLong s rest hname hlong => exact .inr ⟨rfl, s, by rw [hpieces]; simp, hlong⟩

theorem walk_createdFor_of_missing (hwf : t.WellFormed)
    (hstop : t.stop (t.start p) p.pieces = (y, s :: rest)) (hname : IsName s)
    (hfits : s.utf8ByteSize ≤ longestName) (hnode : t.node? (y ++ [s]) = none)
    (hrest : ∀ r ∈ rest, r ≠ "..") (disk : Disk)
    : IsLost ((t.createdFor p disk).walk (t.start p) p.pieces) ∨
        (t.createdFor p disk).walk (t.start p) p.pieces = .error .nameTooLong ∧
          ∃ r ∈ rest, longestName < r.utf8ByteSize := by
  have hgrows := grows_createdFor_of_missing hwf hstop hname hrest disk
  have hdirectory : t.node? y = some .directory := hwf.node?_of_stop hstop
  have hbelow : ∀ N, y ++ N ≠ y → N <+: Path.steps (s :: rest) → t.node? (y ++ N) = none := by
    intro N hne hbegins
    rw [Path.steps_cons_of_not_idle hname.1] at hbegins
    rcases List.prefix_cons_iff.1 hbegins with rfl | ⟨N, rfl, -⟩
    . exact absurd (List.append_nil y) hne
    . rw [← List.singleton_append, ← List.append_assoc]
      exact hwf.node?_append hnode N
  rw [walk_of_keeps hgrows.keepsDirectories, hstop]
  dsimp only
  have hdown : ∀ r ∈ s :: rest, r ≠ ".." := List.forall_mem_cons.2 ⟨hname.2, hrest⟩
  have hlost := isLost_walk (grows_createdFor hwf p disk).1 (hgrows.node?_of_some hdirectory) hdown ?_ ?_
  . rcases hlost with hlost | ⟨hlong, r, hr, hr'⟩
    . exact .inl hlost
    . rcases List.mem_cons.1 hr with rfl | hr
      . omega
      . exact .inr ⟨hlong, r, hr, hr'⟩
  . rcases hgrows.node? (y ++ Path.steps (s :: rest)) with hsame | ⟨-, -, -, hne⟩
    . rw [hsame]
      refine hbelow _ ?_ List.prefix_rfl
      simp [Path.steps_cons_of_not_idle hname.1]
    . exact absurd rfl hne
  . intro N hbegins
    by_cases hnil : N = []
    . rw [hnil, List.append_nil]
      exact .inr (hgrows.node?_of_some hdirectory)
    . rcases hgrows.node? (y ++ N) with hsame | ⟨-, hnew, -⟩
      . rw [hsame]
        exact .inl (hbelow N (by simpa using hnil) hbegins)
      . exact .inr hnew

theorem resolve_createdFor (hwf : t.WellFormed) (hdown : ∀ r ∈ t.beyond p, r ≠ "..") (disk : Disk)
    : (t.createdFor p disk).resolve p = t.resolve p ∨
        IsLost (t.resolve p) ∧
          (IsLost ((t.createdFor p disk).resolve p) ∨
            (t.createdFor p disk).resolve p = .error .nameTooLong ∧
              ∃ r ∈ t.beyond p, longestName < r.utf8ByteSize) := by
  obtain ⟨-, hgrows⟩ := grows_createdFor hwf p disk
  rcases resolve_cases p with ⟨e, he⟩ | hwalk
  . exact .inl (by rw [he, he])
  rw [hwalk, hwalk, hgrows.start]
  rw [walk_of_keeps hgrows.keepsDirectories, walk_stop (t := t)]
  rcases stop_cases t (t.start p) p.pieces with ⟨y, hstop⟩ | ⟨y, s, rest, hstop, hname, hhalt⟩
  . rw [hstop]
    exact .inl rfl
  . by_cases hfits : s.utf8ByteSize ≤ longestName
    . cases hnode : t.node? (y ++ [s]) with
      | none =>
        have hbeyond : t.beyond p = rest := by
          unfold beyond
          rw [hstop]
          exact if_pos ⟨hfits, hnode⟩
        rw [hbeyond] at hdown ⊢
        have hlost := walk_createdFor_of_missing hwf hstop hname hfits hnode hdown disk
        rw [walk_of_keeps hgrows.keepsDirectories] at hlost
        refine .inr ⟨?_, hlost⟩
        rw [hstop]
        dsimp only
        rw [walk_cons_of_name hname, if_neg (Nat.not_lt.2 hfits), hnode]
        dsimp only
        split
        . trivial
        . split <;> trivial
      | some n =>
        rw [hstop]
        refine .inl (walk_cons_congr hname ?_ fun h => hhalt ⟨hfits, h⟩)
        rw [hgrows.node?_of_some hnode, hnode]
    . rw [hstop]
      dsimp only
      rw [walk_cons_of_long hname (Nat.not_le.1 hfits), walk_cons_of_long hname (Nat.not_le.1 hfits)]
      exact .inl rfl

structure Keeps (t t' : FileTree) : Prop extends KeepsDirectories t t' where
  file : ∀ x bytes, t.node? x = some (.file bytes) → ∃ bytes', t'.node? x = some (.file bytes')

theorem Keeps.refl (t : FileTree) : Keeps t t :=
  ⟨.refl t, fun _ bytes h => ⟨bytes, h⟩⟩

theorem Keeps.trans (h : Keeps t t') (h' : Keeps t' t'') : Keeps t t'' := by
  refine ⟨h.toKeepsDirectories.trans h'.toKeepsDirectories, ?_⟩
  intro x bytes hx
  obtain ⟨bytes', hx'⟩ := h.file x bytes hx
  exact h'.file x bytes' hx'

theorem Grows.keeps (h : Grows new t t') : Keeps t t' :=
  ⟨h.keepsDirectories, fun _ bytes hx => ⟨bytes, h.node?_of_some hx⟩⟩

theorem beyond_subset (h : Keeps t t') (p : Path) : t'.beyond p ⊆ t.beyond p := by
  have hstart : t'.start p = t.start p := by
    unfold FileTree.start
    rw [h.workingDirectory]
  unfold beyond
  rw [hstart, stop_of_keeps h.toKeepsDirectories]
  rcases stop_cases t (t.start p) p.pieces with ⟨y, hstop⟩ | ⟨y, s, rest, hstop, hname, hhalt⟩
  . rw [hstop]
    exact List.Subset.refl _
  . rw [hstop]
    dsimp only
    -- Where `t` has a file or a directory, so has `t'`, and there the way has an end in both.
    have hnode : s.utf8ByteSize ≤ longestName →
        t'.node? (y ++ [s]) = none ∨ t'.node? (y ++ [s]) = some .directory → t.node? (y ++ [s]) = none := by
      intro hfits hnode'
      cases hnode : t.node? (y ++ [s]) with
      | none => rfl
      | some n =>
        cases n with
        | directory => exact absurd ⟨hfits, hnode⟩ hhalt
        | file bytes =>
          obtain ⟨bytes', hfile⟩ := h.file _ bytes hnode
          rcases hnode' with hnode' | hnode' <;> rw [hfile] at hnode' <;> cases hnode'
    rw [stop_cons_of_name hname]
    by_cases hdirectory : s.utf8ByteSize ≤ longestName ∧ t'.node? (y ++ [s]) = some .directory
    . rw [if_pos hdirectory, if_pos ⟨hdirectory.1, hnode hdirectory.1 (.inr hdirectory.2)⟩]
      obtain ⟨through, hrest, -⟩ := exists_through t' (y ++ [s]) rest
      split
      . next y' s' rest' hstop' =>
        rw [hstop'] at hrest
        split
        . rw [hrest]
          exact List.subset_append_of_subset_right _ (List.subset_cons_self _ _)
        . exact List.nil_subset _
      . exact List.nil_subset _
    . rw [if_neg hdirectory]
      dsimp only
      split
      . next hnone =>
        rw [if_pos ⟨hnone.1, hnode hnone.1 (.inl hnone.2)⟩]
        exact List.Subset.refl _
      . exact List.nil_subset _

end FileTree
end SharedWorkspace
