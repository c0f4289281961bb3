import CodeGraph.Json.Record
import CodeGraph.Markup.Element

/-!
# Elements as JSON
-/

namespace CodeGraph.Markup.Element

open Json (Value)

mutual

def toJson : Element → Value
  | ⟨name, attributes, text, line, children⟩ => .ofMembers [
    ("name", .string name),
    ("attributes", .array (attributes.map fun (k, v) => Value.ofStrings [k, v])),
    ("text", .string text),
    ("line", .ofNat line),
    ("children", .array (listToJson children))]

def listToJson : List Element → List Value
  | [] => []
  | e :: rest => e.toJson :: listToJson rest

end

end CodeGraph.Markup.Element
