import Algol68.Machine
import Algol68.Tree.SourceText

/-
  Problems met during a compilation and their reports.

  A fragment with a problem is left to the interpreter; only
  a missing root or a failed write ends a compilation.
-/

------ Causes

namespace Algol68

/- What went wrong. -/
inductive Cause
  /- A constant that is not a finite number. -/
  | notFinite (node : NodeId)
  /- A constant that cannot be evaluated. -/
  | unfoldable (error : RuntimeError)
  | missingRoot
  | unwritable (reason : String)
deriving DecidableEq, Repr

namespace Cause

def node? : Cause → Option NodeId
  | .notFinite node => some node
  | .unfoldable error => some error.node
  | .missingRoot => none
  | .unwritable _ => none

def message : Cause → String
  | .notFinite _ => "Constant expression does not evaluate to a finite value"
  | .unfoldable error => "Constant expression cannot be folded: " ++ error.message
  | .missingRoot => "The syntax tree has no root"
  | .unwritable reason => "Failed to write generated source: " ++ reason

def code : Cause → String
  | .notFinite _ => "PluginError::NonFiniteConstant"
  | .unfoldable _ => "PluginError::Fold"
  | .missingRoot => "PluginError::MissingRoot"
  | .unwritable _ => "PluginError::Io"

/- Whether nothing can be generated at all. -/
def isFatal : Cause → Bool
  | .missingRoot => true
  | .unwritable _ => true
  | _ => false

def advice : Cause → String
  | .notFinite _ =>
    "The fragment overflows; it will be left to the " ++
      "interpreter, which reports the error at run time."
  | .unfoldable _ => "The fragment will be interpreted instead of compiled."
  | .missingRoot => "Pass a finished syntax tree with a root node."
  | .unwritable _ => "Check that the output path is writable."

end Cause

/- A problem with a fragment, which stays interpreted. -/
structure Diagnostic where
  node : NodeId
  line : Nat
  cause : Cause
deriving DecidableEq, Repr

------ Reports

/- A problem with the source text it is about. -/
structure Report where
  cause : Cause
  source : String
  line : Option Nat
deriving DecidableEq, Repr

variable (report : Report)

namespace Report

/- The report of a cause. A node outside the tree has neither a source text nor a line. -/
def ofCause (tree : SyntaxTree) (cause : Cause) : Walk Report := do
  match cause.node? with
  | some id =>
    match tree.nodes.get? id with
    | some node =>
      pure
        { cause := cause
          source := ← tree.sourceText id
          line := some node.line }
    | none => pure { cause := cause, source := "", line := none }
  | none => pure { cause := cause, source := "", line := none }

def spanLength : Nat := max report.source.utf8ByteSize 1

def hasSource : Bool := !report.source.isEmpty

/- What to do, with the line in front if it is known. -/
def help : String :=
  match report.line with
  | some line => "line " ++ toString line ++ ": " ++ report.cause.advice
  | none => report.cause.advice

def labels? : Option (List String) := if report.hasSource then some [report.cause.message] else none

end Report

end Algol68
