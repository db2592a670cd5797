import SharedWorkspace.Text.Digits

/-!
JSON values and how they are written: on one line, or indented by two spaces a level.
-/

namespace SharedWorkspace

/--
A JSON value as a reader sees it. Only whole numbers have a value here. A text with an escape that
stands for no character has none either; such a text may be skipped but not read.
-/
inductive Json where
  | null
  | bool (b : Bool)
  | integer (n : Int)
  | fraction
  | text (s : String)
  | brokenText
  | array (items : List Json)
  | object (fields : List (Option String × Json))

namespace Json

def hexChar (d : Nat) : Char :=
  if d < 10 then Char.ofNat (48 + d) else Char.ofNat (87 + d)

def escape (c : Char) : List Char :=
  if c = '"' then ['\\', '"']
  else if c = '\\' then ['\\', '\\']
  else if c = '\x08' then ['\\', 'b']
  else if c = '\x0c' then ['\\', 'f']
  else if c = '\n' then ['\\', 'n']
  else if c = '\r' then ['\\', 'r']
  else if c = '\t' then ['\\', 't']
  else if c.toNat < 0x20 then ['\\', 'u', '0', '0', hexChar (c.toNat / 16), hexChar (c.toNat % 16)]
  else [c]

def quote (s : String) : List Char :=
  '"' :: s.toList.flatMap escape ++ ['"']

def renderInteger (n : Int) : List Char :=
  if n < 0 then '-' :: Text.digits n.natAbs else Text.digits n.natAbs

def renderBool (b : Bool) : List Char :=
  if b then ['t', 'r', 'u', 'e'] else ['f', 'a', 'l', 's', 'e']

def renderNull : List Char :=
  ['n', 'u', 'l', 'l']

def renderKey : Option String → List Char
  | some k => quote k
  | none => quote ""

mutual

def render : Json → List Char
  | null => renderNull
  | bool b => renderBool b
  | integer n => renderInteger n
  | fraction => renderNull
  | text s => quote s
  | brokenText => renderNull
  | array items => '[' :: renderItems items ++ [']']
  | object fields => '\x7b' :: renderFields fields ++ ['\x7d']

def renderItems : List Json → List Char
  | [] => []
  | [j] => j.render
  | j :: j' :: js => j.render ++ [','] ++ renderItems (j' :: js)

def renderFields : List (Option String × Json) → List Char
  | [] => []
  | [(k, j)] => renderKey k ++ [':'] ++ j.render
  | (k, j) :: f :: fs => renderKey k ++ [':'] ++ j.render ++ [','] ++ renderFields (f :: fs)

end

def newline (level : Nat) : List Char :=
  '\n' :: List.replicate (2 * level) ' '

mutual

def renderIndented (level : Nat) : Json → List Char
  | array [] => ['[', ']']
  | array (j :: js) =>
    '[' :: renderItemsIndented (level + 1) (j :: js) ++ newline level ++ [']']
  | object [] => ['\x7b', '\x7d']
  | object (f :: fs) =>
    '\x7b' :: renderFieldsIndented (level + 1) (f :: fs) ++ newline level ++ ['\x7d']
  | j => j.render

def renderItemsIndented (level : Nat) : List Json → List Char
  | [] => []
  | [j] => newline level ++ j.renderIndented level
  | j :: j' :: js =>
    newline level ++ j.renderIndented level ++ [','] ++ renderItemsIndented level (j' :: js)

def renderFieldsIndented (level : Nat) : List (Option String × Json) → List Char
  | [] => []
  | [(k, j)] => newline level ++ renderKey k ++ [':', ' '] ++ j.renderIndented level
  | (k, j) :: f :: fs =>
    newline level ++ renderKey k ++ [':', ' '] ++ j.renderIndented level ++ [','] ++
      renderFieldsIndented level (f :: fs)

end

end Json
end SharedWorkspace
