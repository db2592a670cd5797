/-!
Two ways to cut a text into lines. `terminatedLines` keeps the end of each line and takes a lone
carriage return for one; `lines` leaves the ends out and knows line feeds only, with or without a
carriage return before them.
-/

namespace SharedWorkspace
namespace Text

def isLineEnd (c : Char) : Bool :=
  c = '\n' ∨ c = '\r'

/--
The lines of a text, each with its end; `line` is what has been read of the first one, backwards.
-/
def terminatedLines.go (line : List Char) : List Char → List (List Char)
  | [] => if line = [] then [] else [line.reverse]
  | '\r' :: '\n' :: rest => ('\n' :: '\r' :: line).reverse :: go [] rest
  | c :: rest => if isLineEnd c then (c :: line).reverse :: go [] rest else go (c :: line) rest

/--
The lines of a text with their ends. Line feeds, carriage returns and the two together end a line;
the last line may lack an end.
-/
def terminatedLines (s : String) : List String :=
  (terminatedLines.go [] s.toList).map String.ofList

def dropReturn : List Char → List Char
  | '\r' :: line => line
  | line => line

def lines.go (line : List Char) : List Char → List (List Char)
  | [] => if line = [] then [] else [line.reverse]
  | c :: rest => if c = '\n' then (dropReturn line).reverse :: go [] rest else go (c :: line) rest

def lines (s : String) : List String :=
  (lines.go [] s.toList).map String.ofList

def trimLineEnd (s : String) : String :=
  String.ofList (((s.toList.reverse).dropWhile isLineEnd).reverse)

theorem terminatedLines.flatten_go (line cs : List Char) :
    (go line cs).flatten = line.reverse ++ cs := by
  fun_induction go line cs <;> simp_all

theorem flatten_terminatedLines (s : String) :
    ((terminatedLines s).map String.toList).flatten = s.toList := by
  have h := terminatedLines.flatten_go [] s.toList
  simpa [terminatedLines, Function.comp_def] using h

theorem terminatedLines_inj {s t : String} : terminatedLines s = terminatedLines t ↔ s = t := by
  constructor
  . intro h
    rw [← String.toList_inj, ← flatten_terminatedLines, ← flatten_terminatedLines, h]
  . exact congrArg _

end Text
end SharedWorkspace
