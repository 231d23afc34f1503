import PackageIndex.Error
import PackageIndex.Text.Pieces

/-!
# Error reports

How a failure is told to the user: the error, and behind it what caused it. What was being done, if
that is told, stands before the error, which then counts as its cause. The lines of a cause are
indented, and several causes are numbered.
-/

namespace PackageIndex

/-- The wordings of an error and of the fault that it passes on, if it passes one on as it is. -/
def Error.chain (e : Error) : List String :=
  match e with
  | .file fault => [e.message, fault.message]
  | _ => [e.message]

namespace ErrorReport

/-- The lines of a text, each line feed starting a new one. -/
def lines (s : String) : List String :=
  (Text.pieces (· == '\n') s.toList).map String.ofList

/-- The number of a cause, five places wide. -/
def numberText (n : Nat) : String :=
  let digits := toString n
  String.ofList (List.replicate (5 - digits.length) ' ') ++ digits ++ ": "

/-- A cause with its lines indented. -/
def indent (first others : String) (cause : String) : String :=
  match lines cause with
  | [] => first
  | l :: ls => first ++ l ++ String.join (ls.map fun l => "\n" ++ others ++ l)

/-- The causes, the first of which has the given number. -/
def numbered (n : Nat) : List String → String
  | [] => ""
  | cause :: causes =>
    "\n" ++ indent (numberText n) "       " cause ++ numbered (n + 1) causes

/-- The causes behind an error. -/
def causes : List String → String
  | [] => ""
  | [cause] => "\n\nCaused by:\n" ++ indent "    " "    " cause
  | cs => "\n\nCaused by:" ++ numbered 0 cs

/-- The report of wordings, each caused by the next. -/
def ofChain : List String → String
  | [] => ""
  | first :: others => "Error: " ++ first ++ causes others ++ "\n"

end ErrorReport

end PackageIndex
