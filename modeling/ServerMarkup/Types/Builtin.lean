/-
# The built-in types

The base types of pages and controls, the controls for plain tags, and a few common web controls,
under the names and namespaces that the options give them.
-/

import ServerMarkup.Html
import ServerMarkup.Options
import ServerMarkup.Types.Catalog

namespace ServerMarkup

/-- What the controls for plain tags have besides what all of them inherit. -/
def htmlControlMembers (name : String) : List Member :=
  let text (property : String) : Member := .property property (.plain "System" "String")
  match name with
  | "HtmlAnchor" => [text "HRef", .event "ServerClick"]
  | "HtmlButton" => [.event "ServerClick"]
  | "HtmlImage" => [text "Src", text "Alt"]
  | "HtmlLink" => [text "Href"]
  | "HtmlForm" => [text "Action"]
  | _ => []

/-- The definitions of the built-in types, in order. -/
def builtinTypes (o : Options) : List TypeDef :=
  let html := o.htmlControlsNamespace
  let web := o.webControlsNamespace
  let control := "WebForms.UI.Control"
  let htmlControl := html ++ ".HtmlControl"
  let webControl := web ++ ".WebControl"
  let text := "System.String"
  let repeater := ((TypeDef.empty web "Repeater").withBase control)
    |>.withProperty "DataSource" "System.Object"
    |>.withMember (.template "HeaderTemplate")
    |>.withMember (.template "ItemTemplate")
    |>.withMember (.template "SeparatorTemplate")
    |>.withMember (.template "FooterTemplate")
  [ (TypeDef.empty "WebForms.UI" "Control").withProperty "ID" text
      |>.withProperty "Visible" "System.Boolean"
      |>.withProperty "EnableViewState" "System.Boolean",
    TypeDef.empty "WebForms.UI" "ITemplate",
    ((TypeDef.ofDotted o.pageBaseType).withBase control).withProperty "Title" text,
    (TypeDef.ofDotted o.controlBaseType).withBase control,
    ((TypeDef.empty html "HtmlControl").withBase control).withInterface attributeAccessor,
    ((TypeDef.empty html o.genericHtmlControl).withBase htmlControl).withProperty "InnerText" text
      |>.withProperty "InnerHtml" text,
    ((TypeDef.empty web "WebControl").withBase control).withInterface attributeAccessor
      |>.withProperty "CssClass" text,
    ((TypeDef.empty web "Literal").withBase control).withProperty "Text" text,
    (TypeDef.empty web "PlaceHolder").withBase control,
    ((TypeDef.empty web "Label").withBase webControl).withProperty "Text" text,
    ((TypeDef.empty web "HyperLink").withBase webControl).withProperty "Text" text
      |>.withProperty "NavigateUrl" text,
    ((TypeDef.empty web "Button").withBase webControl).withProperty "Text" text
      |>.withProperty "CommandName" text
      |>.withMember (.event "Click")
      |>.withMember (.event "Command"),
    repeater,
    repeater.withArity 1 ] ++
  htmlControls.map fun (_, name) =>
    { (TypeDef.empty html name).withBase htmlControl with members := htmlControlMembers name }

/-- The catalog of the built-in types. -/
def Catalog.builtin (o : Options) : Catalog :=
  (builtinTypes o).foldl Catalog.add Catalog.empty

end ServerMarkup
