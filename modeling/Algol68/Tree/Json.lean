import Algol68.Tree
import Algol68.Json.Reader
import Algol68.Json.Writer

/-
  The written form of a tree.

  Handles are plain numbers, variants are objects of one member named by the variant, and fields
  are written in the order of their declaration.
-/

------ Numbers

namespace Algol68

/- Half words bound handles, lines and levels. -/
def halfWord : Nat := Nat.pow 2 32

/- Words bound offsets and sizes. -/
def fullWord : Nat := Nat.pow 2 64

def byteBound : Nat := Nat.pow 2 8

namespace Handle

variable {entity : Type}

def toJson (handle : Handle entity) : Json := Json.nat handle.number

def ofJson? (json : Json) : Option (Handle entity) := (json.natBelow? halfWord).map Handle.mk

end Handle

namespace Store

variable {entity α : Type}

def toJson (encode : α → Json) (store : Store entity α) : Json :=
  .array (store.entries.toList.map encode)

def ofJson? (decode : Json → Option α) (json : Json) : Option (Store entity α) :=
  (json.listOf? decode).map fun entries => ⟨entries.toArray⟩

end Store

------ Modes

namespace Field

def toJson (field : Field) : Json :=
  Json.ofFields [("name", .text field.name), ("mode", field.mode.toJson)]

def ofJson? (json : Json) : Option Field := do
  match ← json.record? ["name", "mode"] 0 with
  | [name, mode] =>
    some
      { name := ← Json.required? Json.text? name
        mode := ← Json.required? Handle.ofJson? mode }
  | _ => none

end Field

namespace ModeKind

def toJson : ModeKind → Json
  | .void => .text "Void"
  | .int => .text "Int"
  | .real => .text "Real"
  | .bool => .text "Bool"
  | .char => .text "Char"
  | .bits => .text "Bits"
  | .hip => .text "Hip"
  | .ref target => Json.ofFields [("Ref", target.toJson)]
  | .row dims element =>
    Json.ofFields [("Row", Json.ofFields [("dims", Json.nat dims), ("elem", element.toJson)])]
  | .struct fields => Json.ofFields [("Struct", .array (fields.map Field.toJson))]
  | .union alternatives => Json.ofFields [("Union", .array (alternatives.map Handle.toJson))]
  | .proc params result =>
    Json.ofFields
      [("Proc", Json.ofFields
        [("params", .array (params.map Handle.toJson)), ("result", result.toJson)])]

def rowOfJson? (json : Json) : Option ModeKind := do
  match ← json.record? ["dims", "elem"] 0 with
  | [dims, element] =>
    some (.row
      (← Json.required? (Json.natBelow? byteBound) dims)
      (← Json.required? Handle.ofJson? element))
  | _ => none

def procOfJson? (json : Json) : Option ModeKind := do
  match ← json.record? ["params", "result"] 0 with
  | [params, result] =>
    some (.proc
      (← Json.required? (Json.listOf? Handle.ofJson?) params)
      (← Json.required? Handle.ofJson? result))
  | _ => none

def bareOfName? : String → Option ModeKind
  | "Void" => some .void
  | "Int" => some .int
  | "Real" => some .real
  | "Bool" => some .bool
  | "Char" => some .char
  | "Bits" => some .bits
  | "Hip" => some .hip
  | _ => none

def carrierOfJson? (name : String) (json : Json) : Option ModeKind :=
  match name with
  | "Ref" => (Handle.ofJson? json).map ModeKind.ref
  | "Row" => rowOfJson? json
  | "Struct" => (json.listOf? Field.ofJson?).map ModeKind.struct
  | "Union" => (json.listOf? Handle.ofJson?).map ModeKind.union
  | "Proc" => procOfJson? json
  | _ => none

def ofJson? (json : Json) : Option ModeKind := do
  match ← json.variant? with
  | (name, none) => bareOfName? name
  | (name, some .null) => bareOfName? name
  | (name, some carried) => carrierOfJson? name carried

end ModeKind

namespace Mode

def toJson (mode : Mode) : Json :=
  Json.ofFields [("kind", mode.kind.toJson), ("name", Json.option .text mode.name)]

def ofJson? (json : Json) : Option Mode := do
  match ← json.record? ["kind", "name"] 0 with
  | [kind, name] =>
    some
      { kind := ← Json.required? ModeKind.ofJson? kind
        name := ← Json.optional? Json.text? name }
  | _ => none

end Mode

namespace StandardModes

def entries (standard : StandardModes) : List (String × ModeId) :=
  [("void", standard.void), ("int", standard.int),
   ("real", standard.real), ("bool", standard.bool),
   ("char", standard.char), ("bits", standard.bits),
   ("hip", standard.hip), ("complex", standard.complex),
   ("ref_int", standard.refInt), ("ref_real", standard.refReal),
   ("ref_bool", standard.refBool), ("ref_char", standard.refChar),
   ("ref_bits", standard.refBits),
   ("ref_complex", standard.refComplex)]

def toJson (standard : StandardModes) : Json :=
  Json.ofFields (standard.entries.map fun entry => (entry.1, entry.2.toJson))

def names : List String :=
  ["void", "int", "real", "bool", "char", "bits", "hip",
   "complex", "ref_int", "ref_real", "ref_bool", "ref_char",
   "ref_bits", "ref_complex"]

/- The standard modes from their written form. -/
def ofJson? (json : Json) : Option StandardModes := do
  let fields ← json.record? names 0
  match ← fields.mapM (Json.required? Handle.ofJson?) with
  | [void, int, real, bool, char, bits, hip, complex,
      refInt, refReal, refBool, refChar, refBits,
      refComplex] =>
      some
        { void, int, real, bool, char, bits, hip, complex,
          refInt, refReal, refBool, refChar, refBits,
          refComplex }
  | _ => none

end StandardModes

namespace ModeTable

def toJson (table : ModeTable) : Json :=
  Json.ofFields [("modes", table.modes.toJson Mode.toJson), ("standard", table.standard.toJson)]

def ofJson? (json : Json) : Option ModeTable := do
  match ← json.record? ["modes", "standard"] 0 with
  | [modes, standard] =>
    some
      { modes := ← Json.required? (Store.ofJson? Mode.ofJson?) modes
        standard := ← Json.required? StandardModes.ofJson? standard }
  | _ => none

end ModeTable

------ Tags and Tables

namespace Tag

def fieldNames : List String :=
  ["name", "mode", "kind", "defining_node", "value", "body", "builtin", "level", "offset"]

def toJson (tag : Tag) : Json :=
  Json.ofFields
    [("name", .text tag.name),
     ("mode", tag.mode.toJson),
     ("kind", .text tag.kind.name),
     ("defining_node", Json.option Handle.toJson tag.definingNode),
     ("value", Json.option Handle.toJson tag.value),
     ("body", Json.option Handle.toJson tag.body),
     ("builtin", Json.option (fun builtin => .text builtin.spelling) tag.builtin),
     ("level", Json.nat tag.level),
     ("offset", Json.nat tag.offset)]

def ofJson? (json : Json) : Option Tag := do
  match ← json.record? fieldNames 0 with
  | [name, mode, kind, definingNode, value, body, builtin,
      level, offset] =>
      some
        { name := ← Json.required? Json.text? name
          mode := ← Json.required? Handle.ofJson? mode
          kind :=
            ← Json.required?
              (fun json => json.bareVariant?.bind TagKind.ofName?)
              kind
          definingNode := ← Json.optional? Handle.ofJson? definingNode
          value := ← Json.optional? Handle.ofJson? value
          body := ← Json.optional? Handle.ofJson? body
          builtin :=
            ← Json.optional?
              (fun json => json.bareVariant?.bind Builtin.ofSpelling?)
              builtin
          level := ← Json.required? (Json.natBelow? halfWord) level
          offset := ← Json.required? (Json.natBelow? fullWord) offset }
  | _ => none

end Tag

namespace ScopeTable

def fieldNames : List String := ["level", "parent", "frame_increment", "has_routines"]

def toJson (table : ScopeTable) : Json :=
  Json.ofFields
    [("level", Json.nat table.level),
     ("parent", Json.option Handle.toJson table.parent),
     ("frame_increment", Json.nat table.frameIncrement),
     ("has_routines", .bool table.hasRoutines)]

def ofJson? (json : Json) : Option ScopeTable := do
  match ← json.record? fieldNames 0 with
  | [level, parent, frameIncrement, hasRoutines] =>
    some
      { level := ← Json.required? (Json.natBelow? halfWord) level
        parent := ← Json.optional? Handle.ofJson? parent
        frameIncrement := ← Json.required? (Json.natBelow? fullWord) frameIncrement
        hasRoutines := ← Json.required? Json.bool? hasRoutines }
  | _ => none

end ScopeTable

------ Nodes

namespace Marking

def toJson : Marking → Json
  | .pending => .text "Pending"
  | .notGenerated => .text "NotGenerated"
  | .compiled function => Json.ofFields [("Compiled", .text function)]

def ofJson? (json : Json) : Option Marking := do
  match ← json.variant? with
  | ("Compiled", some carried) => carried.text?.map Marking.compiled
  | _ =>
    match ← json.bareVariant? with
    | "Pending" => some .pending
    | "NotGenerated" => some .notGenerated
    | _ => none

end Marking

namespace Node

def fieldNames : List String :=
  ["attribute", "mode", "tag", "table", "symbol", "line", "sub", "next", "annotation"]

def toJson (node : Node) : Json :=
  Json.ofFields
    [("attribute", .text node.attr.name),
     ("mode", Json.option Handle.toJson node.mode),
     ("tag", Json.option Handle.toJson node.tag),
     ("table", Json.option Handle.toJson node.table),
     ("symbol", .text node.symbol),
     ("line", Json.nat node.line),
     ("sub", Json.option Handle.toJson node.sub),
     ("next", Json.option Handle.toJson node.next),
     ("annotation", node.marking.toJson)]

def markingOfJson? : Option Json → Option Marking
  | some json => Marking.ofJson? json
  | none => some .pending

def ofJson? (json : Json) : Option Node := do
  match ← json.record? fieldNames 1 with
  | [attr, mode, tag, table, symbol, line, sub, next,
      marking] =>
      some
        { attr :=
            ← Json.required?
              (fun json => json.bareVariant?.bind Attribute.ofName?)
              attr
          mode := ← Json.optional? Handle.ofJson? mode
          tag := ← Json.optional? Handle.ofJson? tag
          table := ← Json.optional? Handle.ofJson? table
          symbol := ← Json.required? Json.text? symbol
          line := ← Json.required? (Json.natBelow? halfWord) line
          sub := ← Json.optional? Handle.ofJson? sub
          next := ← Json.optional? Handle.ofJson? next
          marking := ← markingOfJson? marking }
  | _ => none

end Node

------ Trees

namespace SyntaxTree

def fieldNames : List String := ["nodes", "modes", "tags", "tables", "root"]

def toJson (tree : SyntaxTree) : Json :=
  Json.ofFields
    [("nodes", tree.nodes.toJson Node.toJson),
     ("modes", tree.modes.toJson),
     ("tags", tree.tags.toJson Tag.toJson),
     ("tables", tree.tables.toJson ScopeTable.toJson),
     ("root", Json.option Handle.toJson tree.root)]

def ofJson? (json : Json) : Option SyntaxTree := do
  match ← json.record? fieldNames 0 with
  | [nodes, modes, tags, tables, root] =>
    some
      { nodes := ← Json.required? (Store.ofJson? Node.ofJson?) nodes
        modes := ← Json.required? ModeTable.ofJson? modes
        tags := ← Json.required? (Store.ofJson? Tag.ofJson?) tags
        tables := ← Json.required? (Store.ofJson? ScopeTable.ofJson?) tables
        root := ← Json.optional? Handle.ofJson? root }
  | _ => none

def write (tree : SyntaxTree) : String := tree.toJson.pretty

def read? (text : String) : Option SyntaxTree := do
  ofJson? (← Json.parse? text)

end SyntaxTree

end Algol68
