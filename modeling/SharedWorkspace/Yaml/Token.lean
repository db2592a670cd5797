import SharedWorkspace.Yaml.Source

/-!
The tokens of a YAML text. The layout of block collections has become tokens of its own.
-/

namespace SharedWorkspace
namespace Yaml

inductive Style where
  | plain
  | singleQuoted
  | doubleQuoted
  | literal
  | folded
  deriving DecidableEq

inductive Token where
  | version (major minor : Nat)
  | shorthand (handle : List Char) (meaning : List UInt8)
  | documentStart
  | documentEnd
  | blockSequenceStart
  | blockMappingStart
  | blockEnd
  | flowSequenceStart
  | flowSequenceEnd
  | flowMappingStart
  | flowMappingEnd
  | blockEntry
  | flowEntry
  | key
  | value
  | alias (name : List Char)
  | anchor (name : List Char)
  | tag (handle : List Char) (suffix : List UInt8)
  | scalar (style : Style) (text : List Char)

end Yaml
end SharedWorkspace
