import CodeGraph.Declaration
import CodeGraph.Graph.Interchange
import CodeGraph.LanguageServer.Symbol

/-!
# Declarations and outline symbols as JSON

Both are trees, whose children are read like the root.
-/

namespace CodeGraph

open Json (Record Value)

namespace Declaration

def fields : List String :=
  ["name", "kind", "fully_qualified_name", "signature", "accessibility", "start_line", "end_line",
    "documentation", "children"]

def ofJson? (v : Value) : Option Declaration :=
  match _ : Record.ofValue? fields v with
  | none => none
  | some r => do
    let children ← match _ : r.lookup "children" with
      | some (.array items) => items.attach.mapM fun w => ofJson? w.1
      | _ => none
    return {
      name := ← r.required "name" Value.string?
      kind := ← r.required "kind" SymbolKind.ofJson?
      qualifiedName := ← r.required "fully_qualified_name" Value.string?
      signature := ← r.required "signature" Value.string?
      accessibility := ← r.required "accessibility" Accessibility.ofJson?
      startLine := ← r.required "start_line" Value.uint32?
      endLine := ← r.required "end_line" Value.uint32?
      documentation := ← r.optional "documentation" Value.string?
      children }
termination_by sizeOf v
decreasing_by
  have h := Record.sizeOf_lt_of_field ‹_› ‹r.lookup "children" = some _›
  have hw := List.sizeOf_lt_of_mem w.2
  simp only [Value.array.sizeOf_spec] at h
  omega

mutual

def toJson : Declaration → Value
  | ⟨name, kind, qualifiedName, signature, accessibility, startLine, endLine, documentation,
      children⟩ => .ofMembers [
    ("name", .string name),
    ("kind", kind.toJson),
    ("fully_qualified_name", .string qualifiedName),
    ("signature", .string signature),
    ("accessibility", accessibility.toJson),
    ("start_line", .ofNat startLine),
    ("end_line", .ofNat endLine),
    ("documentation", .ofOption .string documentation),
    ("children", .array (listToJson children))]

def listToJson : List Declaration → List Value
  | [] => []
  | d :: rest => toJson d :: listToJson rest

end

end Declaration

namespace LanguageServer

namespace ReportedKind

def ofJson? (v : Value) : Option ReportedKind := v.plainVariant?.bind ofName?

def toJson (k : ReportedKind) : Value := .string k.name

end ReportedKind

namespace ReportedSymbol

def fields : List String :=
  ["name", "kind", "detail", "container_name", "start_line", "end_line", "start_col", "children"]

def ofJson? (v : Value) : Option ReportedSymbol :=
  match _ : Record.ofValue? fields v with
  | none => none
  | some r => do
    let children ← match _ : r.lookup "children" with
      | some (.array items) => items.attach.mapM fun w => ofJson? w.1
      | _ => none
    return {
      name := ← r.required "name" Value.string?
      kind := ← r.required "kind" ReportedKind.ofJson?
      detail := ← r.optional "detail" Value.string?
      containerName := ← r.optional "container_name" Value.string?
      startLine := ← r.required "start_line" Value.uint32?
      endLine := ← r.required "end_line" Value.uint32?
      startColumn := ← r.required "start_col" Value.uint32?
      children }
termination_by sizeOf v
decreasing_by
  have h := Record.sizeOf_lt_of_field ‹_› ‹r.lookup "children" = some _›
  have hw := List.sizeOf_lt_of_mem w.2
  simp only [Value.array.sizeOf_spec] at h
  omega

mutual

def toJson : ReportedSymbol → Value
  | ⟨name, kind, detail, containerName, startLine, endLine, startColumn, children⟩ => .ofMembers [
    ("name", .string name),
    ("kind", kind.toJson),
    ("detail", .ofOption .string detail),
    ("container_name", .ofOption .string containerName),
    ("start_line", .ofNat startLine),
    ("end_line", .ofNat endLine),
    ("start_col", .ofNat startColumn),
    ("children", .array (listToJson children))]

def listToJson : List ReportedSymbol → List Value
  | [] => []
  | s :: rest => toJson s :: listToJson rest

end

end ReportedSymbol

end LanguageServer

end CodeGraph
