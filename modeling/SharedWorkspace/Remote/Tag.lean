/-!
Tags: names for points in the history of a repository.
-/

namespace SharedWorkspace

inductive TagKind where
  | head
  | branch
  | version
  | date
  deriving DecidableEq

structure Tag where
  name : String
  kind : TagKind
  deriving DecidableEq

namespace Tag

def head : Tag := ⟨"HEAD", .head⟩

def branch (name : String) : Tag := ⟨name, .branch⟩

def version (name : String) : Tag := ⟨name, .version⟩

def isHead (t : Tag) : Bool :=
  t.kind = .head

end Tag
end SharedWorkspace
