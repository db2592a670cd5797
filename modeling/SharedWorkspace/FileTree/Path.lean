import SharedWorkspace.Text.Split

/-!
Paths of files. A path is kept as it was written; what it means is its list of components, in which
repeated and trailing separators and inner dots have disappeared. Paths are told apart and ordered
by their components.
-/

namespace SharedWorkspace

structure Path where
  text : String
  deriving DecidableEq

inductive Component where
  | root
  | current
  | parent
  | name (s : String)
  deriving DecidableEq

namespace Component

/--
The root comes before a dot, a dot before a step to the parent, and names come last.
-/
def rank : Component → Nat
  | root => 0
  | current => 1
  | parent => 2
  | name _ => 3

def nameText : Component → String
  | name s => s
  | _ => ""

instance : Ord Component :=
  ⟨compareLex (compareOn rank) (compareOn nameText)⟩

instance : Std.TransOrd Component :=
  inferInstanceAs (Std.TransCmp (compareLex (compareOn rank) (compareOn nameText)))

instance : Std.LawfulEqOrd Component where
  eq_of_compare {a b} h := by
    have h : (compare a.rank b.rank).then (compare a.nameText b.nameText) = .eq := h
    rw [Ordering.then_eq_eq] at h
    have h₁ := Std.LawfulEqCmp.eq_of_compare h.1
    have h₂ := Std.LawfulEqCmp.eq_of_compare h.2
    cases a <;> cases b <;> simp_all [rank, nameText]

end Component

namespace Path

def isAbsolute (p : Path) : Bool :=
  p.text.toList.head? = some '/'

/--
The components that the pieces of a path stand for; `atStart` tells whether a dot still counts.
-/
def components.go : (atStart : Bool) → List String → List Component
  | _, [] => []
  | atStart, s :: rest =>
    if s = "" then
      go atStart rest
    else if s = "." then
      if atStart then .current :: go false rest else go false rest
    else if s = ".." then
      .parent :: go false rest
    else
      .name s :: go false rest

def components (p : Path) : List Component :=
  if p.isAbsolute then
    .root :: components.go false (Text.pieces '/' p.text)
  else
    components.go true (Text.pieces '/' p.text)

def fileName? (p : Path) : Option String :=
  match p.components.getLast? with
  | some (.name s) => some s
  | _ => none

def caption (p : Path) : String :=
  p.fileName?.getD ""

def join (p q : Path) : Path :=
  if q.isAbsolute then
    q
  else if p.text = "" ∨ p.text.toList.getLast? = some '/' then
    ⟨p.text ++ q.text⟩
  else
    ⟨p.text ++ "/" ++ q.text⟩

def dropIdleEnd (ps : List String) : List String :=
  (ps.reverse.dropWhile fun s => s = "" ∨ s = ".").reverse

/--
The path without its last component; `none` for the root and the empty path.
-/
def parent? (p : Path) : Option Path :=
  match p.components with
  | [] => none
  | [.root] => none
  | [_] => some ⟨""⟩
  | [.root, _] => some ⟨"/"⟩
  | _ =>
    let ps := dropIdleEnd (dropIdleEnd (Text.pieces '/' p.text)).dropLast
    some ⟨if ps = [] then "." else Text.joined '/' ps⟩

def stem (name : String) : String :=
  let cs := name.toList
  let rest := cs.reverse.dropWhile (· != '.')
  match rest with
  | [] => name
  | [_] => name
  | _ :: before => String.ofList before.reverse

/--
The path with the extension of its last name replaced, or added if it had none. Where nothing but a
step to the parent is left without the old extension, no new one is added.
-/
def withExtension (p : Path) (ext : String) : Path :=
  match p.fileName? with
  | none => p
  | some name =>
    let ps := Text.pieces '/' p.text
    if ps.getLast? = some name ∧ stem name = "." then
      ⟨Text.joined '/' (ps.dropLast ++ [".."])⟩
    else
      ⟨Text.joined '/' ((dropIdleEnd ps).dropLast ++ [stem name ++ "." ++ ext])⟩

/--
What is left of `p` below the directory `base`, if it lies there; otherwise `p` itself.
-/
def below (base p : Path) : Path :=
  match Text.dropStart? base.text.toList p.text.toList with
  | some ('/' :: rest) => ⟨String.ofList rest⟩
  | some [] => ⟨""⟩
  | _ => p

example : (withExtension ⟨"conf/a.b.yaml"⟩ "tmp").text = "conf/a.b.tmp" := by decide +kernel

example : (withExtension ⟨".yaml"⟩ "tmp").text = ".yaml.tmp" := by decide +kernel

example : (withExtension ⟨"conf/..yaml"⟩ "tmp").text = "conf/.." := by decide +kernel

end Path
end SharedWorkspace
