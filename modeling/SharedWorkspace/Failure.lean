import SharedWorkspace.FileTree.Path

/-!
The ways in which an operation can fail, and the text that each is reported with.
-/

namespace SharedWorkspace

structure ServerStatus where
  code : Int32
  message : String
  deriving DecidableEq

namespace ServerStatus

def display (s : ServerStatus) : String :=
  s.message ++ " (code " ++ toString s.code.toInt ++ ")"

end ServerStatus

inductive FileFault where
  | notFound
  | notDirectory
  | isDirectory
  | alreadyExists
  | nameTooLong
  | zeroInPath
  | notText
  | reported (text : String)
  deriving DecidableEq

namespace FileFault

def message : FileFault → String
  | notFound => "no such file or directory"
  | notDirectory => "not a directory"
  | isDirectory => "is a directory"
  | alreadyExists => "already exists"
  | nameTooLong => "file name too long"
  | zeroInPath => "file name contains a zero character"
  | notText => "contents are not valid text"
  | reported text => text

end FileFault

inductive Failure where
  | serverProtocol (status : ServerStatus)
  | contentUnavailable (location : String)
  | cancelled
  | client (message : String)
  | unknownProviderType (id : String)
  | configure (project : String) (source : Failure)
  | file (path : Path) (fault : FileFault)
  | malformedConfig (path : Path)
  | malformedJson
  deriving DecidableEq

namespace Failure

def message : Failure → String
  | serverProtocol status => "server reported an error: " ++ status.display
  | contentUnavailable location => "no contents received from server for " ++ location
  | cancelled => "operation cancelled"
  | client message => "client error: " ++ message
  | unknownProviderType id => "unknown provider type '" ++ id ++ "'"
  | configure project source =>
    "failed to configure provider for project " ++ project ++ ": " ++ source.message
  | file path fault => "I/O error at " ++ path.text ++ ": " ++ fault.message
  | malformedConfig path => "failed to parse config at " ++ path.text
  | malformedJson => "sync entry JSON error"

def sources : Failure → List String
  | configure _ source => source.message :: source.sources
  | file _ fault => [fault.message]
  | _ => []

def kind : Failure → String
  | serverProtocol _ => "ServerProtocol"
  | contentUnavailable _ => "ContentUnavailable"
  | cancelled => "Cancelled"
  | client _ => "Client"
  | unknownProviderType _ => "UnknownProviderType"
  | configure _ _ => "Configure"
  | file _ _ => "Io"
  | malformedConfig _ => "ConfigParse"
  | malformedJson => "Json"

def isCancelled : Failure → Bool
  | cancelled => true
  | _ => false

end Failure
end SharedWorkspace
