/-
# Options

What a project sets for all its pages, with a default for each.
-/

namespace ServerMarkup

/-- Settings of a project. -/
structure Options where
  /-- The namespace of types made from pages that inherit none. -/
  defaultNamespace : Option String
  /-- The base type of pages that name none. -/
  pageBaseType : String
  /-- The base type of user controls that name none. -/
  controlBaseType : String
  /-- The namespace of the controls for plain tags. -/
  htmlControlsNamespace : String
  /-- The control for plain tags without a class of their own. -/
  genericHtmlControl : String
  /-- The tag prefix of the built-in controls. -/
  webControlsPrefix : String
  /-- The namespace of the built-in controls. -/
  webControlsNamespace : String
  /-- The namespaces that every page imports. -/
  defaultImports : List String
deriving DecidableEq, Repr

namespace Options

/-- The settings of a project that sets nothing. -/
def standard : Options where
  defaultNamespace := none
  pageBaseType := "WebForms.UI.Page"
  controlBaseType := "WebForms.UI.UserControl"
  htmlControlsNamespace := "WebForms.UI.HtmlControls"
  genericHtmlControl := "HtmlGenericControl"
  webControlsPrefix := "asp"
  webControlsNamespace := "WebForms.UI.WebControls"
  defaultImports := ["System"]

end Options

end ServerMarkup
