import Xml.Document.Markup
import Xml.Proofs.Trees.Basic

/-!
# The markup of trees

`Tree.markup` writes a tree by recursion, and so the tags and the leaves of a document are written.
-/

namespace Xml

open Text List

/-- An attribute as it stands in a start tag. -/
def Attribute.markup (a : Attribute) : List Char :=
  ' ' :: a.name.toList ++ "=\"".toList ++ a.value.toList.flatMap escapeAttributeChar ++ ['"']

def NamespaceDecl.attribute (d : NamespaceDecl) : Attribute :=
  ⟨if d.nsPrefix.isEmpty then "xmlns" else "xmlns:" ++ d.nsPrefix, d.uri⟩

namespace Tree

/-- What stands in a start tag: the declarations come first. -/
def tagAttributes (declarations : List NamespaceDecl) (attributes : List Attribute) :
    List Attribute :=
  declarations.map NamespaceDecl.attribute ++ attributes

/-- A start tag, without its `<` and up to what closes it. -/
def tagBody (name : String) (declarations : List NamespaceDecl) (attributes : List Attribute) :
    List Char :=
  name.toList ++ (tagAttributes declarations attributes).flatMap Attribute.markup

/-- **The markup of a tree.** -/
def markup : Tree → List Char
  | .element name declarations attributes children =>
    '<' :: tagBody name declarations attributes ++
      if children.isEmpty then "/>".toList
      else '>' :: children.flatMap markup ++ "</".toList ++ name.toList ++ ['>']
  | .text content => content.toList.flatMap escapeTextChar
  | .cdata content => "<![CDATA[".toList ++ splitCData content.toList ++ "]]>".toList
  | .comment content => "<!--".toList ++ content.toList ++ "-->".toList
  | .instruction target content =>
    "<?".toList ++ target.toList ++ (if content.isEmpty then [] else ' ' :: content.toList) ++
      "?>".toList
  | .other => []

end Tree

namespace Document

variable {doc : Document} {id : NodeId} {node : Node}

/-! ## One node -/

theorem toList_declarationMarkup (d : NamespaceDecl) :
    (declarationMarkup d).toList = d.attribute.markup := by
  rw [declarationMarkup, NamespaceDecl.attribute, Attribute.markup, escapeAttribute]
  split <;> simp

theorem toList_attributeMarkup {a : NodeId} (h : a < doc.size) :
    ' ' :: (doc.attributeMarkup a).toList = (doc.attributeOf a).markup := by
  obtain ⟨node, hn⟩ := exists_get? h
  rw [attributeMarkup, attributeOf, nameOf, hn, Attribute.markup]
  simp [escapeAttribute]

theorem toList_openTag (h : ∀ a ∈ node.attributes, a < doc.size) :
    (doc.openTag node).toList =
      '<' :: Tree.tagBody node.name node.declarations (node.attributes.map doc.attributeOf) := by
  have hds : (node.declarations.map declarationMarkup).flatMap String.toList =
      (node.declarations.map NamespaceDecl.attribute).flatMap Attribute.markup := by
    rw [flatMap_map, flatMap_map]
    exact congrArg (List.flatMap · _) (funext toList_declarationMarkup)
  have has : (node.attributes.map fun a => " " ++ doc.attributeMarkup a).flatMap String.toList =
      (node.attributes.map doc.attributeOf).flatMap Attribute.markup := by
    rw [flatMap_map, flatMap_map]
    refine flatMap_congr fun a ha => ?_
    rw [String.toList_append, ← toList_attributeMarkup (h a ha)]
    rfl
  rw [openTag, String.toList_append, String.toList_append, String.toList_append,
    String.toList_join, String.toList_join, hds, has, Tree.tagBody, Tree.tagAttributes,
    flatMap_append]
  simp

/-- A node that is written in one piece is written as its tree. -/
theorem toList_leafMarkup (doc : Document) (id : NodeId) {attributes : List Attribute}
    {children : List Tree} (hk : node.kind ≠ .element) (hc : (node.tree attributes children).Canonical) :
    (doc.leafMarkup id node).toList = (node.tree attributes children).markup := by
  rw [Node.tree] at hc ⊢
  rw [leafMarkup]
  cases hkind : node.kind <;> simp only [hkind] at hc hk ⊢
  case element => exact absurd rfl hk
  case text => rw [Tree.markup, escapeText, String.toList_ofList]
  case cdata => simp [Tree.markup]
  case comment => simp [Tree.markup]
  case instruction =>
    rw [Tree.markup]
    split <;> simp
  all_goals cases hc

theorem attributes_lt_size (hw : doc.Linked) (h : doc.get? id = some node) :
    ∀ a ∈ node.attributes, a < doc.size := by
  intro a ha
  have hmem : a ∈ doc.attributesOf id := by
    rw [attributesOf, h]
    exact ha
  exact lt_size_of_parentOf ((hw.mem_attributes id a).mp hmem).1

theorem isNone_firstChild (hw : doc.Linked) (h : doc.get? id = some node) :
    node.firstChild.isNone = (doc.children id).isEmpty := by
  have hfirst : node.firstChild = (doc.children id).head? := by
    rw [← (hw.chain id).first, firstOf, h]
    rfl
  rw [hfirst]
  cases doc.children id <;> rfl

/-- The children go onto the stack in their order. -/
theorem enterChildren_eq (hw : doc.Linked) (h : doc.get? id = some node) (stack : List Pending) :
    doc.enterChildren node stack = (doc.children id).map .enter ++ stack := by
  have hlast : node.lastChild = doc.lastOf id := by
    rw [lastOf, h]
    rfl
  rw [enterChildren, hlast, hw.siblingsBack, foldl_reverse]
  induction doc.children id with
  | nil => rfl
  | cons c cs ih => rw [foldr_cons, ih, map_cons, cons_append]

theorem writeFrom_leaf (h : doc.get? id = some node) (he : node.kind ≠ .element)
    (hd : node.kind ≠ .document) (bound : Nat) (stack : List Pending) (out : String) :
    doc.writeFrom (bound + 1) (.enter id :: stack) out =
      doc.writeFrom bound stack (out ++ doc.leafMarkup id node) := by
  rw [writeFrom, h]
  cases hk : node.kind with
  | element => exact absurd hk he
  | document => exact absurd hk hd
  | _ => simp only [hk]

theorem nodeMarkup_leaf (h : doc.get? id = some node) (he : node.kind ≠ .element)
    (hd : node.kind ≠ .document) : doc.nodeMarkup id = doc.leafMarkup id node := by
  rw [nodeMarkup, writeFrom_leaf h he hd, String.empty_append]
  cases 2 * doc.size <;> rfl

end Document

end Xml
