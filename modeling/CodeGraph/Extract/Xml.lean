import CodeGraph.Extract.Extraction
import CodeGraph.Markup.Element

/-!
# XML documents

Every element becomes a symbol that hangs on the symbol of its parent, and the root on the file.
-/

namespace CodeGraph.Xml

open Markup (Element)

mutual

/-- The symbols of an element and of those inside it, in document order. -/
def attachments (f : SourceFile) (parent : String) : Element → List Attachment
  | ⟨name, _, _, line, children⟩ =>
    let s := f.named .xmlElement name (some line) (some line)
    ⟨parent, .contains, s⟩ :: childAttachments f s.key children

def childAttachments (f : SourceFile) (parent : String) : List Element → List Attachment
  | [] => []
  | e :: rest => attachments f parent e ++ childAttachments f parent rest

end

/-- A document that is malformed has no symbols. -/
def extract (f : SourceFile) : Extraction :=
  match Markup.parse f.content with
  | .ok root => .ofAttachments (attachments f f.key root)
  | .error _ => .empty

end CodeGraph.Xml
