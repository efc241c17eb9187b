import Relayout.Fault

/-!
# Reports of failures

A failure that ends the program is reported with what it kept from being done and with the causes
behind it, outermost first.
-/

namespace Relayout.Cli

structure Report where
  summary : String
  causes : List String

namespace Report

def ofFault (f : Fault) : Report := ⟨f.message, f.cause?.toList⟩

def within (summary : String) (f : Fault) : Report := ⟨summary, f.message :: f.cause?.toList⟩

/-- A text whose lines after the first are moved in as far as the first one begins. -/
def hang (lead : String) (text : String) : String :=
  let margin := String.ofList (List.replicate lead.length ' ')
  lead ++ String.intercalate ("\n" ++ margin)
    ((Text.pieces '\n' text.toList).map fun line => String.ofList line)

def numbered (n : Nat) : List String → List String
  | [] => []
  | cause :: rest =>
    let digits := toString n
    hang (String.ofList (List.replicate (5 - digits.length) ' ') ++ digits ++ ": ") cause
      :: numbered (n + 1) rest

/-- Several causes are numbered, a single one is not. -/
def causeLines : List String → List String
  | [cause] => [hang "    " cause]
  | causes => numbered 0 causes

def text (r : Report) : String :=
  "Error: " ++ r.summary ++ "\n" ++
    match r.causes with
    | [] => ""
    | causes => "\nCaused by:\n" ++ String.intercalate "\n" (causeLines causes) ++ "\n"

end Report

end Relayout.Cli
