/-
# Tag names with a meaning of their own

| names | meaning |
| --- | --- |
| `voidElements` | have no content and no closing tag |
| `rawTextElements` | have a body that is not markup |
| `structuredTags` | are taken apart even where no server tag stands |
| `htmlControls` | become controls of a class of their own when they are meant for the server |

A tag without `runat` is still meant for the server if its name is capitalised: server controls are
named with a capital by convention, and `looksLikeServerTag` goes by it.
-/

import ServerMarkup.Text.Name
import ServerMarkup.Text.Pieces
import ServerMarkup.Text.Uppercase

namespace ServerMarkup

/-- Elements that have no content and are never closed. -/
def voidElements : List String :=
  ["area", "base", "br", "col", "embed", "hr", "img", "input", "keygen", "link", "meta", "param",
    "source", "track", "wbr"]

/-- Elements whose body is text up to their closing tag. -/
def rawTextElements : List String :=
  ["script", "style"]

/-- Elements that are taken apart without any mark. -/
def structuredTags : List String :=
  ["html", "body", "head", "script", "style", "link", "img"]

/-- Whether the element has no content. -/
def isVoidElement (name : String) : Bool :=
  nameIn voidElements name

/-- Whether the body of the element is text. -/
def isRawTextElement (name : String) : Bool :=
  nameIn rawTextElements name

/-- Whether the element is taken apart without any mark. -/
def isStructuredTag (name : String) : Bool :=
  nameIn structuredTags name

/-- The tags with a control class of their own, and the names of the classes. -/
def htmlControls : List (String × String) :=
  [("a", "HtmlAnchor"), ("body", "HtmlBody"), ("button", "HtmlButton"), ("form", "HtmlForm"),
    ("head", "HtmlHead"), ("img", "HtmlImage"), ("link", "HtmlLink"), ("select", "HtmlSelect"),
    ("table", "HtmlTable"), ("textarea", "HtmlTextArea"), ("title", "HtmlTitle")]

/-- The control class of a tag's own. -/
def htmlControlFor (tag : String) : Option String :=
  (htmlControls.find? (sameName ·.1 tag)).map Prod.snd

/-- Whether the name, its prefix left aside, begins with a capital. -/
def looksLikeServerTag (name : String) : Bool :=
  (afterLast ':' name.toList).head?.any isCapital

example : looksLikeServerTag "asp:Label" ∧ ¬ looksLikeServerTag "my:item" := by decide +kernel

end ServerMarkup
