import Mathlib.Data.List.DropRight
import SharedWorkspace.FileTree.Path
import SharedWorkspace.Proofs.Text.Pieces

/-!
The steps that a path consists of: names and steps to the parent. The parent of a path has all its steps
but the last one (`parent?_eq_some`), and a path with another extension differs from it in the last one
(`siblings_withExtension`).
-/

namespace SharedWorkspace
namespace Path

variable {p d : Path} {ps : List String} {name ext : String}

def isIdle (s : String) : Bool :=
  s = "" ∨ s = "."

def pieces (p : Path) : List String :=
  Text.pieces '/' p.text

def steps (ps : List String) : List String :=
  ps.filter fun s => !isIdle s

theorem steps_append (as bs : List String) : steps (as ++ bs) = steps as ++ steps bs :=
  List.filter_append ..

@[simp]
theorem steps_nil : steps [] = [] :=
  rfl

theorem steps_cons_of_idle {s : String} (h : isIdle s = true) : steps (s :: ps) = steps ps := by
  unfold steps
  rw [List.filter_cons_of_neg (by simp [h])]

theorem steps_cons_of_not_idle {s : String} (h : isIdle s = false) : steps (s :: ps) = s :: steps ps := by
  unfold steps
  rw [List.filter_cons_of_pos (by simp [h])]

theorem steps_eq_nil (h : ∀ s ∈ ps, isIdle s = true) : steps ps = [] :=
  List.filter_eq_nil_iff.2 (by simpa using h)

theorem pieces_joined (hne : ps ≠ []) (h : ∀ s ∈ ps, '/' ∉ s.toList)
    : pieces ⟨Text.joined '/' ps⟩ = ps :=
  Text.pieces_joined hne h

theorem isAbsolute_iff : p.isAbsolute = true ↔ ∃ s rest, p.pieces = "" :: s :: rest := by
  have hjoined := Text.joined_pieces '/' p.text
  unfold isAbsolute pieces
  constructor
  . intro h
    obtain ⟨cs, hcs⟩ := List.head?_eq_some_iff.1 (of_decide_eq_true h)
    obtain ⟨ds, rest, heq⟩ := List.exists_cons_of_ne_nil (List.splitOn_ne_nil '/' cs)
    refine ⟨String.ofList ds, rest.map String.ofList, ?_⟩
    unfold Text.pieces
    rw [hcs, List.splitOn_cons_eq_if_modifyHead, if_pos (by simp), heq]
    rfl
  . intro ⟨s, rest, h⟩
    rw [← hjoined, h]
    unfold Text.joined
    simp [List.intercalate_cons_cons]

theorem exists_last_step {front : List String} (h : steps ps = front ++ [name])
    : ∃ dir idle, ps = dir ++ name :: idle ∧ steps dir = front ∧ isIdle name = false ∧
        ∀ s ∈ idle, isIdle s = true := by
  obtain ⟨as, bs, rfl, has, hbs⟩ := List.filter_eq_append_iff.1 h
  obtain ⟨cs, idle, rfl, hcs, hname, hidle⟩ := List.filter_eq_cons_iff.1 hbs
  refine ⟨as ++ cs, idle, by simp, ?_, by simpa using hname, ?_⟩
  . rw [steps_append, steps, has, steps, List.filter_eq_nil_iff.2 (by simpa using hcs), List.append_nil]
  . simpa using List.filter_eq_nil_iff.1 hidle

theorem dropIdleEnd_eq : dropIdleEnd ps = ps.rdropWhile isIdle :=
  rfl

theorem dropIdleEnd_append {dir idle : List String} (hname : isIdle name = false)
    (hidle : ∀ s ∈ idle, isIdle s = true) : dropIdleEnd (dir ++ name :: idle) = dir ++ [name] := by
  rw [dropIdleEnd_eq]
  induction idle using List.reverseRecOn with
  | nil => exact List.rdropWhile_concat_neg _ _ _ (by simp [hname])
  | append_singleton idle s ih =>
    have hs : isIdle s = true := hidle s (by simp)
    rw [← List.cons_append, ← List.append_assoc, List.rdropWhile_concat_pos _ _ _ hs]
    exact ih fun s hs => hidle s (by simp [hs])

theorem steps_dropIdleEnd (ps : List String) : steps (dropIdleEnd ps) = steps ps := by
  rw [dropIdleEnd_eq]
  induction ps using List.reverseRecOn with
  | nil => rfl
  | append_singleton ps s ih =>
    rw [List.rdropWhile_concat]
    split
    . next hs => rw [ih, steps_append, steps_cons_of_idle hs, steps_nil, List.append_nil]
    . rfl

theorem prefix_dropIdleEnd (ps : List String) : dropIdleEnd ps <+: ps :=
  List.rdropWhile_prefix ..

def component (s : String) : Component :=
  if s = ".." then .parent else .name s

theorem components.go_false (ps : List String) : components.go false ps = (steps ps).map component := by
  induction ps with
  | nil => rfl
  | cons s ps ih =>
    unfold go
    by_cases hidle : isIdle s = true
    . rw [steps_cons_of_idle hidle, ← ih]
      rcases of_decide_eq_true hidle with rfl | rfl <;> rfl
    . rw [Bool.not_eq_true] at hidle
      rw [steps_cons_of_not_idle hidle, List.map_cons, ← ih]
      obtain ⟨hempty, hdot⟩ := not_or.1 (of_decide_eq_false hidle)
      unfold component
      rw [if_neg hempty, if_neg hdot]
      split <;> rfl

theorem components.go_true (ps : List String)
    : ∃ start, (start = [] ∨ start = [.current]) ∧
        components.go true ps = start ++ (steps ps).map component := by
  induction ps with
  | nil => exact ⟨[], .inl rfl, rfl⟩
  | cons s ps ih =>
    by_cases hidle : isIdle s = true
    . rw [steps_cons_of_idle hidle]
      rcases of_decide_eq_true hidle with rfl | rfl
      . exact ih
      . refine ⟨[.current], .inr rfl, ?_⟩
        rw [← go_false]
        rfl
    . rw [Bool.not_eq_true] at hidle
      obtain ⟨hempty, hdot⟩ := not_or.1 (of_decide_eq_false hidle)
      refine ⟨[], .inl rfl, ?_⟩
      rw [List.nil_append, ← go_false]
      unfold go
      rw [if_neg hempty, if_neg hdot, if_neg hempty, if_neg hdot]

theorem components_eq (p : Path)
    : ∃ start, p.components = start ++ (steps p.pieces).map component ∧
        (p.isAbsolute = true ∧ start = [.root] ∨
          p.isAbsolute = false ∧ (start = [] ∨ start = [.current])) := by
  unfold components
  by_cases h : p.isAbsolute = true
  . rw [if_pos h, components.go_false]
    exact ⟨[.root], rfl, .inl ⟨h, rfl⟩⟩
  . obtain ⟨start, hstart, heq⟩ := components.go_true p.pieces
    rw [if_neg h]
    exact ⟨start, heq, .inr ⟨by simpa using h, hstart⟩⟩

theorem component_ne_root (s : String) : component s ≠ .root := by
  unfold component
  split <;> simp

theorem isAbsolute_of_begins {q : Path} (h : q.pieces <+: p.pieces) (hq : q.isAbsolute = true)
    : p.isAbsolute = true := by
  obtain ⟨s, rest, hpieces⟩ := isAbsolute_iff.1 hq
  obtain ⟨more, hmore⟩ := h
  rw [hpieces] at hmore
  exact isAbsolute_iff.2 ⟨s, rest ++ more, hmore.symm⟩

theorem joined_dropIdleEnd {dir idle : List String} (hpieces : p.pieces = dir ++ name :: idle)
    (habsolute : p.isAbsolute = true → steps dir ≠ [])
    (hd : d.text = if dropIdleEnd dir = [] then "." else Text.joined '/' (dropIdleEnd dir))
    : d.isAbsolute = p.isAbsolute ∧ steps d.pieces = steps dir := by
  obtain ⟨text⟩ := d
  dsimp only at hd
  subst hd
  have hsteps := steps_dropIdleEnd dir
  by_cases hnil : dropIdleEnd dir = []
  . rw [if_pos hnil]
    rw [hnil] at hsteps
    have hrelative : p.isAbsolute = false := by
      rw [← Bool.not_eq_true]
      exact fun h => habsolute h hsteps.symm
    rw [hrelative, ← hsteps]
    exact ⟨rfl, rfl⟩
  . have hbegins : dropIdleEnd dir <+: p.pieces := by
      rw [hpieces]
      exact (prefix_dropIdleEnd dir).trans (List.prefix_append ..)
    have hjoined : pieces ⟨Text.joined '/' (dropIdleEnd dir)⟩ = dropIdleEnd dir :=
      pieces_joined hnil fun s hs => Text.not_mem_of_mem_pieces (hbegins.subset hs)
    rw [if_neg hnil, hjoined, hsteps]
    refine ⟨?_, rfl⟩
    rw [Bool.eq_iff_iff]
    constructor
    . exact isAbsolute_of_begins (by rw [hjoined]; exact hbegins)
    . intro h
      obtain ⟨s, rest, hs⟩ := isAbsolute_iff.1 h
      obtain ⟨t, more, hmore⟩ := List.exists_cons_of_ne_nil hnil
      rw [hmore, hs] at hbegins
      obtain ⟨rfl, -⟩ := List.cons_prefix_cons.1 hbegins
      -- An empty piece is no step, so there is another one after it.
      cases more with
      | nil =>
        rw [hmore] at hsteps
        exact absurd hsteps.symm (habsolute h)
      | cons u more =>
        rw [hmore] at hjoined
        rw [hmore]
        exact isAbsolute_iff.2 ⟨u, more, hjoined⟩

theorem parent?_eq_some (h : p.parent? = some d)
    : d.isAbsolute = p.isAbsolute ∧ steps d.pieces = (steps p.pieces).dropLast := by
  obtain ⟨start, hcomponents, hstart⟩ := components_eq p
  unfold parent? at h
  rw [hcomponents] at h
  obtain hsteps | ⟨front, name, hsteps⟩ := List.eq_nil_or_concat' (steps p.pieces)
  . rw [hsteps] at h ⊢
    rcases hstart with ⟨-, rfl⟩ | ⟨hrelative, rfl | rfl⟩
    . contradiction
    . contradiction
    . cases h
      rw [hrelative]
      exact ⟨rfl, rfl⟩
  . obtain ⟨dir, idle, hpieces, hdir, hname, hidle⟩ := exists_last_step hsteps
    have hparent : dropIdleEnd (dropIdleEnd (Text.pieces '/' p.text)).dropLast = dropIdleEnd dir := by
      rw [← pieces, hpieces, dropIdleEnd_append hname hidle, List.dropLast_concat]
    rw [hsteps, List.map_append, List.map_singleton, hparent] at h
    rw [hsteps, List.dropLast_concat, ← hdir]
    split at h
    . contradiction
    . contradiction
    . next c hroot hc =>
      cases h
      have hlength : start.length + (front.length + 1) = 1 := by simpa using congrArg List.length hc
      obtain rfl : front = [] := List.eq_nil_of_length_eq_zero (by omega)
      rcases hstart with ⟨-, rfl⟩ | ⟨hrelative, -⟩
      . contradiction
      . rw [hdir, hrelative]
        exact ⟨rfl, rfl⟩
    . next c hc =>
      cases h
      rcases hstart with ⟨habsolute, rfl⟩ | ⟨-, rfl | rfl⟩
      . obtain rfl : front = [] := by simpa using congrArg List.length hc
        rw [hdir, habsolute]
        exact ⟨rfl, rfl⟩
      . have hmem : Component.root ∈ front.map component ++ [component name] := by
          rw [← List.nil_append (_ ++ _), hc]
          exact List.mem_cons_self
        rcases List.mem_append.1 hmem with hmem | hmem
        . obtain ⟨s, -, hs⟩ := List.mem_map.1 hmem
          exact absurd hs (component_ne_root s)
        . exact absurd (List.mem_singleton.1 hmem).symm (component_ne_root name)
      . simp at hc
    . next hone htwo =>
      refine joined_dropIdleEnd hpieces ?_ (congrArg Path.text (Option.some.inj h)).symm
      intro habsolute hnil
      rcases hstart with ⟨-, rfl⟩ | ⟨hrelative, -⟩
      . rw [hdir] at hnil
        subst hnil
        exact htwo _ rfl
      . rw [hrelative] at habsolute
        contradiction

structure Siblings (p q : Path) (dir : List String) (name other : String) (idle : List String) : Prop where
  pieces_left : p.pieces = dir ++ name :: idle
  pieces_right : q.pieces = dir ++ [other]
  left_not_idle : isIdle name = false
  left_ne_parent : name ≠ ".."
  right_not_idle : isIdle other = false
  idle : ∀ s ∈ idle, isIdle s = true
  ne : other ≠ name
  isAbsolute : q.isAbsolute = p.isAbsolute

theorem fileName?_eq_some (h : p.fileName? = some name)
    : ∃ dir idle, p.pieces = dir ++ name :: idle ∧ isIdle name = false ∧ name ≠ ".." ∧
        ∀ s ∈ idle, isIdle s = true := by
  obtain ⟨start, hcomponents, hstart⟩ := components_eq p
  unfold fileName? at h
  rw [hcomponents] at h
  obtain hsteps | ⟨front, last, hsteps⟩ := List.eq_nil_or_concat' (steps p.pieces)
  . rw [hsteps] at h
    rcases hstart with ⟨-, rfl⟩ | ⟨-, rfl | rfl⟩ <;> contradiction
  . obtain ⟨dir, idle, hpieces, -, hlast, hidle⟩ := exists_last_step hsteps
    rw [hsteps, List.map_append, List.map_singleton, ← List.append_assoc, List.getLast?_concat] at h
    by_cases hparent : last = ".."
    . subst hparent
      contradiction
    . unfold component at h
      rw [if_neg hparent] at h
      cases h
      exact ⟨dir, idle, hpieces, hlast, hparent, hidle⟩

theorem fileName?_of_pieces {dir : List String} (h : p.pieces = dir ++ [name]) (hname : isIdle name = false)
    (hparent : name ≠ "..") : p.fileName? = some name := by
  obtain ⟨start, hcomponents, -⟩ := components_eq p
  unfold fileName?
  rw [hcomponents, h, steps_append, steps_cons_of_not_idle hname, steps_nil, List.map_append,
    List.map_singleton, ← List.append_assoc, List.getLast?_concat, component, if_neg hparent]

theorem stem_cases (name : String)
    : stem name = name ∨
        ∃ e, name = stem name ++ "." ++ e ∧ '.' ∉ e.toList ∧ stem name ≠ "" := by
  have hparts := List.takeWhile_append_dropWhile (p := (· != '.')) (l := name.toList.reverse)
  have hext : '.' ∉ (name.toList.reverse.takeWhile (· != '.')).reverse := by
    intro hmem
    have hdot := List.all_eq_true.1 List.all_takeWhile _ (List.mem_reverse.1 hmem)
    contradiction
  have hhead := List.head?_dropWhile_not (· != '.') name.toList.reverse
  unfold stem
  dsimp only
  split
  . exact .inl rfl
  . exact .inl rfl
  . next c before hne hrest =>
    refine .inr ⟨String.ofList (name.toList.reverse.takeWhile (· != '.')).reverse, ?_, ?_, ?_⟩
    . rw [hrest] at hparts hhead
      obtain rfl : c = '.' := by simpa using hhead
      rw [← String.toList_inj, ← List.reverse_inj]
      simpa using hparts.symm
    . rw [String.toList_ofList]
      exact hext
    . intro hempty
      have hbefore : before = [] := by simpa using congrArg String.toList hempty
      exact hne hbefore

theorem withExtended_ne (hdot : '.' ∈ ext.toList) : stem name ++ "." ++ ext ≠ name := by
  intro h
  rcases stem_cases name with hstem | ⟨e, hname, he, -⟩
  . rw [hstem] at h
    have hlength := congrArg String.length h
    rw [String.length_append, String.length_append] at hlength
    have hone : ".".length = 1 := rfl
    omega
  . have hext : stem name ++ "." ++ ext = stem name ++ "." ++ e := h.trans hname
    rw [String.append_right_inj] at hext
    exact he (hext ▸ hdot)

theorem stem_ne_empty (h : name ≠ "") : stem name ≠ "" := by
  rcases stem_cases name with hstem | ⟨-, -, -, hstem⟩
  . rw [hstem]
    exact h
  . exact hstem

theorem mem_of_mem_stem {c : Char} (h : c ∈ (stem name).toList) : c ∈ name.toList := by
  rcases stem_cases name with hstem | ⟨e, hname, -, -⟩
  . rwa [hstem] at h
  . rw [hname]
    simp [h]

theorem isAbsolute_congr {q : Path} {dir rest : List String} {s t : String} (hp : p.pieces = dir ++ s :: rest)
    (hq : q.pieces = dir ++ [t]) (hs : s ≠ "") (ht : t ≠ "") : q.isAbsolute = p.isAbsolute := by
  rw [Bool.eq_iff_iff, isAbsolute_iff, isAbsolute_iff, hp, hq]
  cases dir with
  | nil => simp [hs, ht]
  | cons u dir => cases dir <;> simp

theorem isIdle_withExtended (h : name ≠ "") : isIdle (stem name ++ "." ++ ext) = false := by
  have hlength : (stem name).length ≠ 0 := by
    simpa using stem_ne_empty h
  have hlong : 2 ≤ (stem name ++ "." ++ ext).length := by
    rw [String.length_append, String.length_append, show ".".length = 1 from rfl]
    omega
  apply decide_eq_false
  rintro (heq | heq) <;> rw [heq] at hlong <;> contradiction

theorem ne_empty_of_not_idle (h : isIdle name = false) : name ≠ "" :=
  (not_or.1 (of_decide_eq_false h)).1

theorem siblings_of_text {q : Path} {dir idle : List String} {other : String}
    (hpieces : p.pieces = dir ++ name :: idle) (hname : isIdle name = false) (hparent : name ≠ "..")
    (hidle : ∀ s ∈ idle, isIdle s = true) (htext : q.text = Text.joined '/' (dir ++ [other]))
    (hseparator : '/' ∉ other.toList) (hother : isIdle other = false) (hne : other ≠ name)
    : Siblings p q dir name other idle := by
  have hright : q.pieces = dir ++ [other] := by
    rw [pieces, htext, Text.pieces_joined (by simp)]
    intro s hs
    rcases List.mem_append.1 hs with hs | hs
    . exact Text.not_mem_of_mem_pieces (hpieces ▸ List.mem_append_left _ hs)
    . rw [List.mem_singleton.1 hs]
      exact hseparator
  exact ⟨hpieces, hright, hname, hparent, hother, hidle, hne,
    isAbsolute_congr hpieces hright (ne_empty_of_not_idle hname) (ne_empty_of_not_idle hother)⟩

theorem siblings_withExtension (h : p.fileName? = some name) (hdot : '.' ∈ ext.toList)
    (hseparator : '/' ∉ ext.toList)
    : ∃ dir other idle, Siblings p (p.withExtension ext) dir name other idle := by
  obtain ⟨dir, idle, hpieces, hname, hparent, hidle⟩ := fileName?_eq_some h
  have htext : (p.withExtension ext).text
      = if p.pieces.getLast? = some name ∧ stem name = "." then
          Text.joined '/' (p.pieces.dropLast ++ [".."])
        else
          Text.joined '/' ((dropIdleEnd p.pieces).dropLast ++ [stem name ++ "." ++ ext]) := by
    unfold withExtension
    rw [h]
    exact apply_ite Path.text _ _ _
  rw [hpieces, dropIdleEnd_append hname hidle, List.dropLast_concat] at htext
  split at htext
  . next hlast =>
    have hnil : idle = [] := by
      obtain rfl | ⟨front, last, rfl⟩ := List.eq_nil_or_concat' idle
      . rfl
      . have hlast : last = name := by
          rw [← List.cons_append, ← List.append_assoc, List.getLast?_concat] at hlast
          exact Option.some.inj hlast.1
        have hidle : isIdle last = true := hidle last (by simp)
        rw [hlast, hname] at hidle
        contradiction
    rw [hnil, List.dropLast_concat] at htext
    exact ⟨dir, "..", idle,
      siblings_of_text hpieces hname hparent hidle htext (by decide) (by decide) hparent.symm⟩
  . have hmem : name ∈ p.pieces := by
      rw [hpieces]
      simp
    have hfree : '/' ∉ name.toList := Text.not_mem_of_mem_pieces hmem
    have hextended : '/' ∉ (stem name ++ "." ++ ext).toList := by
      have hstem : '/' ∉ (stem name).toList := fun hmem => hfree (mem_of_mem_stem hmem)
      simpa [String.toList_append] using ⟨hstem, hseparator⟩
    exact ⟨dir, _, idle, siblings_of_text hpieces hname hparent hidle htext hextended
      (isIdle_withExtended (ne_empty_of_not_idle hname)) (withExtended_ne hdot)⟩

end Path
end SharedWorkspace
