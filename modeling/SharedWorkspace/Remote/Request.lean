import SharedWorkspace.Remote.Tag

/-!
Commands that are sent to a server, and how each is written as a command line.
-/

namespace SharedWorkspace

inductive CommandKind where
  | update
  | log
  | commit
  | tag
  | list
  deriving DecidableEq

namespace CommandKind

def name : CommandKind → String
  | update => "update"
  | log => "log"
  | commit => "commit"
  | tag => "tag"
  | list => "rls"

end CommandKind

inductive GlobalOption where
  | quiet
  | doNotChangeFiles
  deriving DecidableEq

namespace GlobalOption

def flag : GlobalOption → String
  | quiet => "-q"
  | doNotChangeFiles => "-n"

end GlobalOption

inductive LocalOption where
  | doNotRecurse
  | ignoreLocalChanges
  | tag (t : Tag)
  | message (text : String)
  deriving DecidableEq

namespace LocalOption

def args : LocalOption → List String
  | doNotRecurse => ["-l"]
  | ignoreLocalChanges => ["-C"]
  | tag t => ["-r", t.name]
  | message text => ["-m", text]

end LocalOption

structure Request where
  kind : CommandKind
  globalOptions : List GlobalOption := []
  localOptions : List LocalOption := []
  arguments : List String := []
  deriving DecidableEq

namespace Request

def hasLocal (r : Request) (o : LocalOption) : Bool :=
  o ∈ r.localOptions

def commandLine (r : Request) : String :=
  " ".intercalate
    (r.globalOptions.map GlobalOption.flag ++ [r.kind.name] ++
      r.localOptions.flatMap LocalOption.args ++ r.arguments)

end Request
end SharedWorkspace
