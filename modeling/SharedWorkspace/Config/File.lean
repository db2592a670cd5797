import SharedWorkspace.Config.Basic
import SharedWorkspace.FileTree.Save
import SharedWorkspace.Text.Blank
import SharedWorkspace.Yaml.Document
import SharedWorkspace.Yaml.Number
import SharedWorkspace.Yaml.Tokens

/-!
The file of a dispatch configuration. A file need not name every field, and need not be there; the
fields that it does not name have their default.
-/

namespace SharedWorkspace
namespace DispatchConfig

def toYaml (c : DispatchConfig) : String :=
  String.ofList
    ("provider_budget: ".toList ++ Text.digits c.providerBudget.toNat ++
      "\nbatch_units: ".toList ++ Text.digits c.batchUnits.toNat ++
      "\nnontraversed_units: ".toList ++ Text.digits c.nontraversedUnits.toNat ++
      "\nlock_poll_interval_ms: ".toList ++ Text.digits c.lockPollIntervalMs.toNat ++ ['\n'])

/--
The value of a field. A literal scalar is a number only if its tag says so.
-/
def number? (s : Yaml.Scalar) : Option UInt64 :=
  match s.style with
  | .plain => Yaml.word? (String.ofList s.text)
  | .literal =>
    if s.tag = some (Text.utf8 "tag:yaml.org,2002:int") then
      Yaml.word? (String.ofList s.text)
    else
      none
  | _ => none

def field? (fields : List (Option Yaml.Scalar × Option Yaml.Scalar)) (name : String)
    (default : UInt64) : Option UInt64 :=
  match fields.filter fun f => f.1.any (·.text = name.toList) with
  | [] => some default
  | [(_, some s)] => number? s
  | _ => none

/--
The configuration that a document stands for. An empty one stands for the default; quotes or a sign
for a block scalar make it a text.
-/
def ofDocument? : Yaml.Document → Option DispatchConfig
  | .none => some {}
  | .scalar s => if s.style = .plain ∧ s.text = [] then some {} else none
  | .sequence => none
  | .mapping fields =>
    let c : DispatchConfig := {}
    if fields.any (·.1.isNone) then
      none
    else do
      let providerBudget ← field? fields "provider_budget" c.providerBudget
      let batchUnits ← field? fields "batch_units" c.batchUnits
      let nontraversedUnits ← field? fields "nontraversed_units" c.nontraversedUnits
      let lockPollIntervalMs ← field? fields "lock_poll_interval_ms" c.lockPollIntervalMs
      some { providerBudget, batchUnits, nontraversedUnits, lockPollIntervalMs }

def ofYaml? (s : String) : Option DispatchConfig := do
  let source ← Yaml.Source.ofText? s.toList
  let tokens ← Yaml.Token.ofSource? source
  let events ← Yaml.eventsOf? tokens
  let document ← Yaml.Document.ofEvents? events
  ofDocument? document

def load (t : FileTree) (p : Path) : Except Failure DispatchConfig :=
  match t.readText p with
  | .error .notFound => .ok {}
  | .error e => .error (.file p e)
  | .ok text =>
    if Text.allBlank text then
      .ok {}
    else
      match ofYaml? text with
      | some c => .ok c
      | none => .error (.malformedConfig p)

def save (t : FileTree) (p : Path) (c : DispatchConfig) (disk : Disk := {}) :
    Except Failure Unit × FileTree :=
  t.save p (p.withExtension "yaml.tmp") c.toYaml disk

end DispatchConfig
end SharedWorkspace
