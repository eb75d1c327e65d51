import Algol68.Tree
import Algol68.Mode.Text

/- The approximate source text of a fragment, for comments in generated code. -/

------ Source Text

namespace Algol68

namespace SyntaxTree

def joined (separator : String) (texts : List String) : String := String.intercalate separator texts

/- The text of a node other than a cast, from its symbol and the texts of its children. -/
def nodeText (node : Node) (kids : List String) : String :=
  match node.attr with
  | .denoter | .identifier | .operator | .selector => node.symbol
  | .nihil => "NIL"
  | .skip => "SKIP"
  | .is => ":=:"
  | .isnt => ":/=:"
  | .formula | .monadicFormula | .identityRelation => joined " " kids
  | .assignation => joined " := " kids
  | .call => kids.headD "" ++ " (" ++ joined ", " kids.tail ++ ")"
  | .slice => kids.headD "" ++ "[" ++ joined "" kids.tail ++ "]"
  | .indexer => joined ", " kids
  | .trimmer => ":"
  | .selection => joined " OF " kids
  | .collateralClause => "(" ++ joined ", " kids ++ ")"
  | .closedClause => "(" ++ joined "" kids ++ ")"
  | .serialClause => joined "; " kids
  | .conditionalClause => "IF " ++ joined " " kids ++ " FI"
  | .caseClause => "CASE " ++ joined " " kids ++ " ESAC"
  | .loopClause => joined " " kids ++ " OD"
  | .ifPart => joined " " kids
  | .thenPart => "THEN " ++ joined " " kids
  | .elsePart => "ELSE " ++ joined " " kids
  | .elifPart => "ELIF " ++ joined " " kids
  | .casePart | .ousePart => joined " " kids
  | .inPart => "IN " ++ joined ", " kids
  | .outPart => "OUT " ++ joined " " kids
  | .forPart => "FOR " ++ node.symbol
  | .fromPart => "FROM " ++ joined "" kids
  | .byPart => "BY " ++ joined "" kids
  | .toPart => "TO " ++ joined "" kids
  | .downtoPart => "DOWNTO " ++ joined "" kids
  | .whilePart => "WHILE " ++ joined "" kids
  | .doPart => "DO " ++ joined "" kids
  | .untilPart => "UNTIL " ++ joined "" kids
  | .identityDeclaration => node.symbol ++ " = " ++ joined "" kids
  | .label => node.symbol ++ ":"
  | .variableDeclaration =>
    if node.sub.isSome then node.symbol ++ " := " ++ joined "" kids else node.symbol
  | _ => if node.sub.isSome then joined " " kids else node.symbol

def showsChildren : Attribute → Bool
  | .denoter | .identifier | .operator | .selector
  | .nihil | .skip | .is | .isnt | .trimmer
  | .forPart | .label => false
  | _ => true

/- The text of a fragment at most `fuel` levels deep. -/
def sourceTextWithin (tree : SyntaxTree) : Nat → NodeId → Walk String
  | 0, _ => throw .unbounded
  | fuel + 1, id => do
    let node ← tree.node id
    let kids ←
      if showsChildren node.attr then do
        (← tree.children id).mapM (tree.sourceTextWithin fuel)
      else pure []
    if node.attr = .cast then
      let mode ←
        match node.mode with
        | some mode => tree.modes.name mode
        | none => pure ""
      pure (mode ++ " (" ++ joined "" kids ++ ")")
    else pure (nodeText node kids)

def sourceText (tree : SyntaxTree) (id : NodeId) : Walk String :=
  tree.sourceTextWithin tree.bound id

end SyntaxTree

end Algol68
