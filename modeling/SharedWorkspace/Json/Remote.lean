import SharedWorkspace.Json.Codec
import SharedWorkspace.Remote.Entries

/-!
The JSON encodings of what is remembered and reported about remote files.
-/

namespace SharedWorkspace

open Json

instance : JsonCodec Instant where
  encode t := .text t.display
  decode?
    | .text s => Instant.parse? s.toList
    | _ => none

instance : JsonCodec TagKind where
  encode
    | .head => .text "head"
    | .branch => .text "branch"
    | .version => .text "version"
    | .date => .text "date"
  decode? j :=
    match j.caseName? with
    | some "head" => some .head
    | some "branch" => some .branch
    | some "version" => some .version
    | some "date" => some .date
    | _ => none

instance : JsonCodec Tag where
  encode t := .object
    [(some "name", JsonCodec.encode t.name),
     (some "kind", JsonCodec.encode t.kind)]
  decode? j :=
    match j.slots? ["name", "kind"] with
    | some [name, kind] => do
      let name ← name.required?
      let kind ← kind.required?
      some { name, kind }
    | _ => none

instance : JsonCodec SyncInfo where
  encode i := .object
    ([(some "name", JsonCodec.encode i.name),
      (some "revision", JsonCodec.encode i.revision)] ++
     (i.timestamp.map fun t => (some "timestamp", JsonCodec.encode t)).toList ++
     [(some "keyword_mode", JsonCodec.encode i.keywordMode)] ++
     (i.tag.map fun t => (some "tag", JsonCodec.encode t)).toList)
  decode? j :=
    match j.slots? ["name", "revision", "timestamp", "keyword_mode", "tag"] with
    | some [name, revision, timestamp, keywordMode, tag] => do
      let name ← name.required?
      let revision ← revision.required?
      let timestamp ← timestamp.optional?
      let keywordMode ← keywordMode.required?
      let tag ← tag.optional?
      some { name, revision, timestamp, keywordMode, tag }
    | _ => none

instance : JsonCodec LogEntry where
  encode e := .object
    [(some "revision", JsonCodec.encode e.revision),
     (some "author", JsonCodec.encode e.author),
     (some "date", JsonCodec.encode e.date),
     (some "comment", JsonCodec.encode e.comment),
     (some "state", JsonCodec.encode e.state),
     (some "tags", JsonCodec.encode e.tags)]
  decode? j :=
    match j.slots? ["revision", "author", "date", "comment", "state", "tags"] with
    | some [revision, author, date, comment, state, tags] => do
      let revision ← revision.required?
      let author ← author.required?
      let date ← date.required?
      let comment ← comment.required?
      let state ← state.required?
      let tags ← tags.orElse? []
      some { revision, author, date, comment, state, tags }
    | _ => none

/--
Maps from texts are objects. Of two fields with one name the later one counts.
-/
instance : JsonCodec (OrderedMap String SyncInfo) where
  encode m := .object (m.entries.map fun (k, a) => (some k, JsonCodec.encode a))
  decode?
    | .object fields => do
      let entries ← fields.mapM fun (k, j) => do
        let k ← k
        let a ← JsonCodec.decode? j
        some (k, a)
      some (.ofList entries)
    | _ => none

instance : JsonCodec Entries where
  encode e := .object
    [(some "synced_at", JsonCodec.encode e.syncedAt),
     (some "entries", JsonCodec.encode e.infos)]
  decode? j :=
    match j.slots? ["synced_at", "entries"] with
    | some [syncedAt, infos] => do
      let syncedAt ← syncedAt.required?
      let infos ← infos.orElse? .empty
      some { syncedAt, infos }
    | _ => none

end SharedWorkspace
