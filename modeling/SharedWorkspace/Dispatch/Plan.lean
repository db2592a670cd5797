import SharedWorkspace.Dispatch.Selection
import SharedWorkspace.Registry.Basic

/-!
What a dispatch will do, settled before it starts: each provider that owns a resource in question,
in order, with its batches.
-/

namespace SharedWorkspace

abbrev Groups := OrderedMap ProviderKey (Provider × Selection)

namespace Groups

def requests (ts : List Traversal) : List (Resource × Depth) :=
  ts.flatMap fun t => t.resources.map (·, t.depth)

/--
Put a request into the selection of the resource's provider. What has no provider is left out.
-/
def add (m : Mappings) (g : Groups) (request : Resource × Depth) : Groups :=
  match m.resolve request.1 with
  | none => g
  | some p =>
    let (p, s) := (g.find? p.key).getD (p, {})
    g.insert p.key (p, s.add request.1 request.2)

def ofTraversals (m : Mappings) (ts : List Traversal) : Groups :=
  (requests ts).foldl (add m) .empty

end Groups

structure ProviderRun where
  provider : Provider
  batches : List Batch
  deriving DecidableEq

namespace ProviderRun

def units (r : ProviderRun) : Nat :=
  r.batches.foldr (fun b n => b.units + n) 0

end ProviderRun

abbrev DispatchReport := List ProviderRun

namespace DispatchReport

def units (r : DispatchReport) : Nat :=
  r.foldr (fun p n => p.units + n) 0

def runFor? (r : DispatchReport) (key : ProviderKey) : Option ProviderRun :=
  r.find? (·.provider.key = key)

end DispatchReport

namespace Groups

def plan (c : DispatchConfig) (g : Groups) : List ProviderRun :=
  g.values.map fun (p, s) => ⟨p, s.batches c⟩

end Groups
end SharedWorkspace
