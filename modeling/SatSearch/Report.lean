/-!
# Reports

A report shows an error together with its causes, each of which explains the one before it.
-/

namespace SatSearch

structure Report where
  error : String
  /-- The causes of the error, outermost first. -/
  causes : List String := []
deriving DecidableEq, Inhabited, Repr

namespace Report

/-- The report of a chain of messages, outermost first. -/
def ofChain? : List String → Option Report
  | [] => none
  | error :: causes => some ⟨error, causes⟩

/-- The causes on a line each, numbered from the outermost one. -/
def causeLines (causes : List String) : String :=
  String.join (causes.zipIdx.map fun (cause, depth) => s!"  {depth}: {cause}\n")

def text (r : Report) : String :=
  s!"error: {r.error}\n" ++
    (if r.causes.isEmpty then "" else "\nCaused by:\n" ++ causeLines r.causes)

end Report

end SatSearch
