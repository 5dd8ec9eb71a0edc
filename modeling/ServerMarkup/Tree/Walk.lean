/-
# Walking a tree

A walk visits a node, then the sub-trees of its templates, then its children.
-/

import ServerMarkup.Tree.Node

namespace ServerMarkup

mutual

/-- The node and all below it. -/
def Node.walk : Node → List Node
  | .leaf l => [.leaf l]
  | .element h ns => .element h ns :: walkAll ns
  | .control h ts ns => .control h ts ns :: (walkTemplates ts ++ walkAll ns)
  | .collection h ts ns => .collection h ts ns :: (walkTemplates ts ++ walkAll ns)

/-- The nodes of a template's sub-tree and all below them. -/
def Template.walk : Template → List Node
  | .mk _ ns => walkAll ns

/-- The nodes of a list and all below them. -/
def walkAll : List Node → List Node
  | [] => []
  | n :: ns => n.walk ++ walkAll ns

/-- The nodes of the templates' sub-trees and all below them. -/
def walkTemplates : List Template → List Node
  | [] => []
  | t :: ts => t.walk ++ walkTemplates ts

end

theorem walkAll_append (ms ns : List Node) : walkAll (ms ++ ns) = walkAll ms ++ walkAll ns := by
  induction ms with
  | nil => rfl
  | cons m ms ih => simp [walkAll, ih]

/-- The control of a node, if it has the ID, in any letter case. -/
def Node.controlWithId? (id : String) : Node → Option ControlHead
  | .control h _ _ => if h.id.any (·.isNamed id) then some h else none
  | _ => none

/-- The first control with the ID on a walk over the nodes. -/
def findControl? (nodes : List Node) (id : String) : Option ControlHead :=
  (walkAll nodes).findSome? (·.controlWithId? id)

end ServerMarkup
