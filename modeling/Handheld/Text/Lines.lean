/-!
Lines of a text: a newline ends a line, together with one carriage return before it.
-/
namespace Handheld.Text

def dropReturn (line : List Char) : List Char :=
  if line.getLast? == some '\r' then line.dropLast else line

def linesFrom (line : List Char) : List Char → List (List Char)
  | [] => if line.isEmpty then [] else [line.reverse]
  | c :: cs => if c == '\n' then dropReturn line.reverse :: linesFrom [] cs else linesFrom (c :: line) cs

def lines (s : String) : List String :=
  (linesFrom [] s.toList).map String.ofList

end Handheld.Text
