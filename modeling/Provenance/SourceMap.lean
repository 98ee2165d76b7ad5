import Provenance.Json.Record

/-!
# Source map documents

A source map of revision 3 as it is written in JSON: the tables of sources and names, and the
mappings as a text of base-64 VLQ segments, which `Provenance.PositionMap.ofSourceMap` reads.

* `SourceMap` : the document; `SourceMap.revision` is the one that is understood;
* `SourceMap.toJson`, `SourceMap.ofJson?` : its JSON form. Only the version has to be given, and
  fields without a value are not written.
-/

namespace Provenance

structure SourceMap where
  version : Nat
  file : Option Text
  sourceRoot : Option Text
  sources : List Text
  sourcesContent : Option (List (Option Text))
  names : List Text
  mappings : Text
  deriving DecidableEq, Repr

namespace SourceMap

def revision : Nat := 3

/-- Versions are below this number, which is two to the 32. -/
def versionBound : Nat := 4294967296

def keys : List Text :=
  ["version".toList, "file".toList, "sourceRoot".toList, "sources".toList, "sourcesContent".toList,
    "names".toList, "mappings".toList]

def toJson (s : SourceMap) : Json :=
  let texts (ts : List Text) : Json := .arr (ts.map .quoted)
  let contents (ts : List (Option Text)) : Json := .arr (ts.map (Json.ofOption .quoted))
  Json.record keys
    [some (.ofNat s.version), s.file.map .quoted, s.sourceRoot.map .quoted, some (texts s.sources),
      s.sourcesContent.map contents, some (texts s.names), some (.quoted s.mappings)]

def ofJson? (j : Json) : Option SourceMap := do
  let [version, file, sourceRoot, sources, sourcesContent, names, mappings] ← j.fields? keys | none
  return {
    version := ← version.required (Json.toNat? versionBound)
    file := ← file.defaulted none (Json.toOption? Json.toText?)
    sourceRoot := ← sourceRoot.defaulted none (Json.toOption? Json.toText?)
    sources := ← sources.defaulted [] (Json.toList? Json.toText?)
    sourcesContent := ← sourcesContent.defaulted none
      (Json.toOption? (Json.toList? (Json.toOption? Json.toText?)))
    names := ← names.defaulted [] (Json.toList? Json.toText?)
    mappings := ← mappings.defaulted [] Json.toText? }

end SourceMap

end Provenance
