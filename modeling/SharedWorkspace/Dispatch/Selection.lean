import SharedWorkspace.Config.Basic
import SharedWorkspace.Resource

/-!
Selections: the resources of one provider that an operation is to visit, kept by how each is to be
visited, and the batches that they are visited in. A resource is kept once; a folder that was asked
for at several depths is kept at the deepest of them.
-/

namespace SharedWorkspace

structure Selection where
  files : List Resource := []
  itemFolders : List Resource := []
  oneLevelFolders : List Resource := []
  fullDepthFolders : List Resource := []
  deriving DecidableEq

namespace Selection

def foldersAt (s : Selection) : Depth → List Resource
  | .item => s.itemFolders
  | .oneLevel => s.oneLevelFolders
  | .fullSubtree => s.fullDepthFolders

def depthOf? (s : Selection) (folder : Resource) : Option Depth :=
  [Depth.fullSubtree, .oneLevel, .item].find? fun d => folder ∈ s.foldersAt d

def removeFolder (s : Selection) (folder : Resource) : Selection :=
  { s with
    itemFolders := s.itemFolders.filter (· ≠ folder)
    oneLevelFolders := s.oneLevelFolders.filter (· ≠ folder)
    fullDepthFolders := s.fullDepthFolders.filter (· ≠ folder) }

def appendFolder (s : Selection) (folder : Resource) : Depth → Selection
  | .item => { s with itemFolders := s.itemFolders ++ [folder] }
  | .oneLevel => { s with oneLevelFolders := s.oneLevelFolders ++ [folder] }
  | .fullSubtree => { s with fullDepthFolders := s.fullDepthFolders ++ [folder] }

def addFile (s : Selection) (file : Resource) : Selection :=
  if file ∈ s.files then s else { s with files := s.files ++ [file] }

/--
A folder moves if it is asked for at a greater depth than before.
-/
def addFolder (s : Selection) (folder : Resource) (d : Depth) : Selection :=
  if (s.depthOf? folder).any (d ≤ ·) then
    s
  else
    (s.removeFolder folder).appendFolder folder d

/--
The selection with one more request. Files are the same at every depth.
-/
def add (s : Selection) (r : Resource) (d : Depth) : Selection :=
  if r.isContainer then s.addFolder r d else s.addFile r

def isEmpty (s : Selection) : Bool :=
  s.files.isEmpty && s.itemFolders.isEmpty && s.oneLevelFolders.isEmpty &&
    s.fullDepthFolders.isEmpty

/--
What is visited without what lies below. Files go along with the folders that are visited one level
deep; if there are none, they go along with those that are visited in depth, if there are any.
-/
def shallow (s : Selection) : List Resource :=
  if s.oneLevelFolders = [] ∧ s.fullDepthFolders = [] then
    s.files
  else if s.oneLevelFolders = [] then
    []
  else
    s.oneLevelFolders ++ s.files

def deep (s : Selection) : List Resource :=
  if s.fullDepthFolders = [] then
    []
  else if s.oneLevelFolders = [] then
    s.fullDepthFolders ++ s.files
  else
    s.fullDepthFolders

def nontraversed (s : Selection) : List Resource :=
  s.itemFolders

end Selection

inductive BatchKind where
  | deep
  | shallow
  | nontraversed
  deriving DecidableEq

namespace BatchKind

def display : BatchKind → String
  | deep => "Deep"
  | shallow => "Shallow"
  | nontraversed => "NonTraversed"

end BatchKind

structure Batch where
  kind : BatchKind
  resources : List Resource
  units : Nat
  deriving DecidableEq

namespace Selection

/--
The batches of a selection: in depth, one level, not at all. None of them is empty.
-/
def batches (c : DispatchConfig) (s : Selection) : List Batch :=
  [⟨.deep, s.deep, c.batchUnits.toNat⟩,
    ⟨.shallow, s.shallow, c.batchUnits.toNat⟩,
    ⟨.nontraversed, s.nontraversed, c.nontraversedUnits.toNat⟩].filter (·.resources ≠ [])

end Selection
end SharedWorkspace
