/-
  The attributes of syntax nodes.

  An attribute fixes which children a node has:

    * `particularProgram`: an enclosed clause;
    * `closedClause`: a serial clause;
    * `serialClause`: units, declarations and labels, with a
      scope table;
    * `collateralClause`: units;
    * `conditionalClause`, `elifPart`: an if part, a then part
      and at most one else part or elif part;
    * `caseClause`, `ousePart`: a case part, an in part and at
      most one out part or ouse part;
    * `ifPart`, `thenPart`, `elsePart`, `casePart`, `outPart`,
      `whilePart`, `doPart`: a serial clause;
    * `inPart`: one unit for each alternative;
    * `loopClause`: for, from, by, to or downto and while
      parts, all optional, then a do part and an optional
      until part;
    * `formula`: operand, operator, operand;
    * `monadicFormula`: operator, operand;
    * `call`: the procedure, then its arguments;
    * `slice`: the row, then an indexer;
    * `indexer`: index units or trimmers;
    * `selection`: selector, secondary;
    * `identityRelation`: operand, `is` or `isnt`, operand;
    * `assignation`: destination, source;
    * the coercions and casts: one operand;
    * the declarations: a source, optional for variables;
    * `routineText`: a body unit, with a scope table.

  Key definitions include:
    * `Attribute`
    * `Attribute.name`
    * `Attribute.shortName`
    * `Attribute.isDeclaration`
-/

------ Attributes

namespace Algol68

/- What a syntax node is. -/
inductive Attribute
  | particularProgram
  | closedClause
  | serialClause
  | collateralClause
  | conditionalClause
  | ifPart
  | thenPart
  | elsePart
  | elifPart
  | caseClause
  | casePart
  | inPart
  | outPart
  | ousePart
  | conformityClause
  | loopClause
  | forPart
  | fromPart
  | byPart
  | toPart
  | downtoPart
  | whilePart
  | doPart
  | untilPart
  | identityDeclaration
  | variableDeclaration
  | procedureDeclaration
  | modeDeclaration
  | priorityDeclaration
  | operatorDeclaration
  | label
  | denoter
  | identifier
  | formula
  | monadicFormula
  | operator
  | call
  | slice
  | indexer
  | trimmer
  | selection
  | selector
  | dereferencing
  | deproceduring
  | cast
  | widening
  | voiding
  | uniting
  | assignation
  | identityRelation
  | is
  | isnt
  | nihil
  | skip
  | jump
  | generator
  | routineText
  | formatText
deriving DecidableEq, Repr, Inhabited

namespace Attribute

def all : List Attribute :=
  [.particularProgram, .closedClause, .serialClause,
   .collateralClause, .conditionalClause, .ifPart,
   .thenPart, .elsePart, .elifPart, .caseClause, .casePart,
   .inPart, .outPart, .ousePart, .conformityClause,
   .loopClause, .forPart, .fromPart, .byPart, .toPart,
   .downtoPart, .whilePart, .doPart, .untilPart,
   .identityDeclaration, .variableDeclaration,
   .procedureDeclaration, .modeDeclaration,
   .priorityDeclaration, .operatorDeclaration, .label,
   .denoter, .identifier, .formula, .monadicFormula,
   .operator, .call, .slice, .indexer, .trimmer,
   .selection, .selector, .dereferencing, .deproceduring,
   .cast, .widening, .voiding, .uniting, .assignation,
   .identityRelation, .is, .isnt, .nihil, .skip, .jump,
   .generator, .routineText, .formatText]

/- The spelling of an attribute in the written form of a tree. -/
def name : Attribute → String
  | .particularProgram => "ParticularProgram"
  | .closedClause => "ClosedClause"
  | .serialClause => "SerialClause"
  | .collateralClause => "CollateralClause"
  | .conditionalClause => "ConditionalClause"
  | .ifPart => "IfPart"
  | .thenPart => "ThenPart"
  | .elsePart => "ElsePart"
  | .elifPart => "ElifPart"
  | .caseClause => "CaseClause"
  | .casePart => "CasePart"
  | .inPart => "InPart"
  | .outPart => "OutPart"
  | .ousePart => "OusePart"
  | .conformityClause => "ConformityClause"
  | .loopClause => "LoopClause"
  | .forPart => "ForPart"
  | .fromPart => "FromPart"
  | .byPart => "ByPart"
  | .toPart => "ToPart"
  | .downtoPart => "DowntoPart"
  | .whilePart => "WhilePart"
  | .doPart => "DoPart"
  | .untilPart => "UntilPart"
  | .identityDeclaration => "IdentityDeclaration"
  | .variableDeclaration => "VariableDeclaration"
  | .procedureDeclaration => "ProcedureDeclaration"
  | .modeDeclaration => "ModeDeclaration"
  | .priorityDeclaration => "PriorityDeclaration"
  | .operatorDeclaration => "OperatorDeclaration"
  | .label => "Label"
  | .denoter => "Denotation"
  | .identifier => "Identifier"
  | .formula => "Formula"
  | .monadicFormula => "MonadicFormula"
  | .operator => "Operator"
  | .call => "Call"
  | .slice => "Slice"
  | .indexer => "Indexer"
  | .trimmer => "Trimmer"
  | .selection => "Selection"
  | .selector => "Selector"
  | .dereferencing => "Dereferencing"
  | .deproceduring => "Deproceduring"
  | .cast => "Cast"
  | .widening => "Widening"
  | .voiding => "Voiding"
  | .uniting => "Uniting"
  | .assignation => "Assignation"
  | .identityRelation => "IdentityRelation"
  | .is => "Is"
  | .isnt => "Isnt"
  | .nihil => "Nihil"
  | .skip => "Skip"
  | .jump => "Jump"
  | .generator => "Generator"
  | .routineText => "RoutineText"
  | .formatText => "FormatText"

def ofName? (text : String) : Option Attribute := all.find? fun candidate => candidate.name == text

/- The lower-case word that generated function names use. -/
def shortName : Attribute → String
  | .particularProgram => "program"
  | .closedClause => "closed"
  | .serialClause => "serial"
  | .collateralClause => "collateral"
  | .conditionalClause => "conditional"
  | .caseClause => "case"
  | .loopClause => "loop"
  | .denoter => "denotation"
  | .identifier => "identifier"
  | .formula => "formula"
  | .monadicFormula => "monadic"
  | .call => "call"
  | .slice => "slice"
  | .selection => "selection"
  | .dereferencing => "deref"
  | .deproceduring => "deproc"
  | .cast => "cast"
  | .widening => "widening"
  | .voiding => "voiding"
  | .uniting => "uniting"
  | .assignation => "assignation"
  | .identityRelation => "identity_relation"
  | _ => "unit"

def isDeclaration : Attribute → Bool
  | .identityDeclaration
  | .variableDeclaration
  | .procedureDeclaration
  | .modeDeclaration
  | .priorityDeclaration
  | .operatorDeclaration => true
  | _ => false

/- The list of attributes leaves none out. -/
theorem mem_all (attr : Attribute) : attr ∈ all := by
  cases attr <;> decide

/- The spelling of an attribute leads back to it. -/
@[simp] theorem ofName?_name (attr : Attribute) : ofName? attr.name = some attr := by
  cases attr <;> decide +kernel

end Attribute

end Algol68
