import SharedWorkspace.Config.Basic
import SharedWorkspace.Json.Codec
import SharedWorkspace.Subscriber

/-!
The JSON encodings of what a workspace is made of.
-/

namespace SharedWorkspace

open Json

instance : JsonCodec Depth where
  encode d := .text d.display
  decode? j :=
    match j.caseName? with
    | some "item" => some .item
    | some "one_level" => some .oneLevel
    | some "full_subtree" => some .fullSubtree
    | _ => none

instance : JsonCodec ResourceKind where
  encode k := .text k.display
  decode? j :=
    match j.caseName? with
    | some "file" => some .file
    | some "folder" => some .folder
    | some "project" => some .project
    | _ => none

instance : JsonCodec Resource where
  encode r := .object
    [(some "project", JsonCodec.encode r.project),
     (some "path", JsonCodec.encode r.path),
     (some "kind", JsonCodec.encode r.kind)]
  decode? j :=
    match j.slots? ["project", "path", "kind"] with
    | some [project, path, kind] => do
      let project ← project.required?
      let path ← path.required?
      let kind ← kind.required?
      some { project, path, kind }
    | _ => none

instance : JsonCodec Traversal where
  encode t := .object
    [(some "resources", JsonCodec.encode t.resources),
     (some "depth", JsonCodec.encode t.depth)]
  decode? j :=
    match j.slots? ["resources", "depth"] with
    | some [resources, depth] => do
      let resources ← resources.required?
      let depth ← depth.required?
      some { resources, depth }
    | _ => none

instance : JsonCodec ServerStatus where
  encode s := .object
    [(some "code", JsonCodec.encode s.code),
     (some "message", JsonCodec.encode s.message)]
  decode? j :=
    match j.slots? ["code", "message"] with
    | some [code, message] => do
      let code ← code.required?
      let message ← message.required?
      some { code, message }
    | _ => none

instance : JsonCodec SubscriberId where
  encode id := .object
    [(some "qualifier", JsonCodec.encode id.qualifier),
     (some "local_name", JsonCodec.encode id.localName)]
  decode? j :=
    match j.slots? ["qualifier", "local_name"] with
    | some [qualifier, localName] => do
      let qualifier ← qualifier.required?
      let localName ← localName.required?
      some { qualifier, localName }
    | _ => none

instance : JsonCodec SyncKind where
  encode
    | .inSync => .text "insync"
    | .outgoing => .text "outgoing"
    | .incoming => .text "incoming"
    | .conflicting => .text "conflicting"
  decode? j :=
    match j.caseName? with
    | some "insync" => some .inSync
    | some "outgoing" => some .outgoing
    | some "incoming" => some .incoming
    | some "conflicting" => some .conflicting
    | _ => none

instance : JsonCodec DispatchConfig where
  encode c := .object
    [(some "provider_budget", JsonCodec.encode c.providerBudget),
     (some "batch_units", JsonCodec.encode c.batchUnits),
     (some "nontraversed_units", JsonCodec.encode c.nontraversedUnits),
     (some "lock_poll_interval_ms", JsonCodec.encode c.lockPollIntervalMs)]
  decode? j :=
    let c : DispatchConfig := {}
    match j.slots?
      ["provider_budget", "batch_units", "nontraversed_units", "lock_poll_interval_ms"] with
    | some [budget, batch, nontraversed, interval] => do
      let providerBudget ← budget.orElse? c.providerBudget
      let batchUnits ← batch.orElse? c.batchUnits
      let nontraversedUnits ← nontraversed.orElse? c.nontraversedUnits
      let lockPollIntervalMs ← interval.orElse? c.lockPollIntervalMs
      some { providerBudget, batchUnits, nontraversedUnits, lockPollIntervalMs }
    | _ => none

end SharedWorkspace
