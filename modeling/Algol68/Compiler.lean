import Algol68.Generator

/- Compilation of a whole tree. -/

------ Source Files

namespace Algol68

structure CompiledSource where
  globals : String
  functions : String
  /- The compiled nodes with the names of their functions. -/
  compiled : List (NodeId × String)
  diagnostics : List Diagnostic

namespace CompiledSource

/- The directives that open every source file. -/
def prelude : String :=
  "#include <a68g-config.h>\n" ++
  "#include <a68g.h>\n" ++
  "#include <a68g-genie.h>\n" ++
  "#include <a68g-prelude.h>\n" ++
  "#include <a68g-compiler.h>\n"

/- A section of a source file, behind a blank line. -/
def sectionText (text : String) : String := if text.isEmpty then "" else "\n" ++ text

def text (compiled : CompiledSource) : String :=
  prelude ++ sectionText compiled.globals ++ sectionText compiled.functions

def ofContext (context : Context) : CompiledSource where
  globals := context.globalsText
  functions := context.outputText
  compiled := context.compiled
  diagnostics := context.diagnostics

end CompiledSource

------ Compilation

variable (tree : SyntaxTree)

namespace SyntaxTree

/- The pass that a level asks for; level zero asks for none. -/
def compilationPass (options : Options) (root : NodeId) : Generation Unit :=
  if options.level = 0 then pure ()
  else if options.level = Tier.units then Generator.visitUnitsOnly tree root
  else Generator.visitAll tree root

def startRun (context : Context) : Run where
  context := context
  markings := tree.markings

/-
  Generate code for every fragment that allows it, and mark
  the nodes. Only a tree without a root cannot be compiled.
-/
def compile (options : Options) :
    Walk (Except Cause (CompiledSource × SyntaxTree)) := do
  match tree.root with
  | none => pure (.error .missingRoot)
  | some root => do
    let start := tree.startRun (.ofOptions options)
    let ((), run) ← (tree.compilationPass options root).run start
    pure (.ok (CompiledSource.ofContext run.context, tree.withMarkings run.markings))

end SyntaxTree

end Algol68
