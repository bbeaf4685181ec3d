import Xml.Proofs.Namespaces.InScope
import Xml.Proofs.Order.Runs
import Xml.Proofs.Trees.Scanning

/-!
# Prefixes without a declaration

While a document is built, names are looked up in the open scopes; afterwards, in the declarations
on the way up. Both find the same (`Describes.resolve_eq_lookup`), so the namespaces that are stored
are those that the finished document gives, and the problems that are noted are those of the names
whose prefix nothing on their way up declares: one for each such name, in the order of the nodes
(`Noted.add`).
-/

namespace Xml.Document

open Scan List

variable {doc d : Document} {x : NodeId} {nsPrefix : String}

/-! ## Names and prefixes -/

/-- The problem with a name whose prefix is looked up in vain. The prefix `xmlns` is not looked
up. -/
def unbound? (lookup : String → Option String) (problem : String → String → Problem)
    (name : String) : Option Problem :=
  match QName.ofString name with
  | ⟨some p, localPart⟩ =>
    if p ≠ "xmlns" ∧ lookup p = none then some (problem p localPart) else none
  | ⟨none, _⟩ => none

/-- The problem with the name of an element or an attribute whose prefix is not declared on the way
up. An attribute is named together with its element. -/
def unboundPrefix? (doc : Document) (id : NodeId) : Option Problem :=
  match doc.kindOf id with
  | some .element =>
    unbound? (doc.lookupNamespace? id) .unboundElementPrefix (doc.nameOf id)
  | some .attribute =>
    (doc.parentOf id).bind fun owner =>
      unbound? (doc.lookupNamespace? owner)
        (fun p localPart => .unboundAttributePrefix p localPart (doc.nameOf owner))
        (doc.nameOf id)
  | _ => none

/-- Two ways to look up prefixes find the same problem with a name, if they agree on prefixes. -/
theorem unbound?_congr {lookup lookup' : String → Option String}
    (h : ∀ p, ':' ∉ p.toList → p ≠ "xmlns" → lookup' p = lookup p)
    (problem : String → String → Problem) (name : String) :
    unbound? lookup' problem name = unbound? lookup problem name := by
  rw [unbound?, unbound?]
  split
  · next p localPart hname =>
    by_cases hp : p = "xmlns"
    · simp [hp]
    · have hq : qualifier? name = some p := congrArg QName.qualifier hname
      rw [h p (not_mem_of_qualifier? hq) hp]
  · rfl

theorem SamePlaces.unboundPrefix? (h : SamePlaces doc d) (x : NodeId) :
    d.unboundPrefix? x = doc.unboundPrefix? x := by
  rw [Document.unboundPrefix?, Document.unboundPrefix?, h.kindOf, h.nameOf, h.parentOf]
  simp only [h.nameOf, funext (h.lookupNamespace? _)]

theorem Numbered.below (h : doc.Numbered) (hw : doc.Linked) (hx : x < doc.size) :
    x = root ∨ doc.Ancestor root x := by
  refine hw.mem_subtreeOrder.mp ?_
  rw [h]
  exact mem_range.mpr hx

namespace Builder

variable {b : Builder} {opened : List NodeId} {scopes : Namespace.Scopes}

/-! ## What is noted -/

/-- The problems noted so far, without their places. -/
def problems (b : Builder) : List Problem :=
  b.errors.toList.map (·.problem)

theorem problems_resolve (b : Builder) (nsPrefix : String) (problem : Problem) :
    (b.resolve nsPrefix problem).2.problems =
      b.problems ++ if b.scopes.resolve nsPrefix = none then [problem] else [] := by
  rw [Builder.resolve]
  split
  · next hfound => simp [hfound]
  · next hnone => simp [hnone, problems, nameProblem]

theorem problems_of_lookup (hxmlns : b.scopes.resolve "xmlns" ≠ none)
    {problem : String → String → Problem} {name other uri : String} {b' : Builder}
    (h : (match QName.ofString name with
      | ⟨some p, localPart⟩ => b.resolve p (problem p localPart)
      | ⟨none, _⟩ => (other, b)) = (uri, b')) :
    b'.scopes = b.scopes ∧
      b'.problems = b.problems ++ (unbound? b.scopes.resolve problem name).toList := by
  rw [unbound?]
  split at h
  · next p localPart _ =>
    obtain ⟨-, errors, rfl⟩ := resolve_eq h
    have hresolve := problems_resolve b p (problem p localPart)
    rw [h] at hresolve
    refine ⟨rfl, hresolve.trans ?_⟩
    by_cases hp : p = "xmlns"
    · subst hp
      simp [hxmlns]
    · by_cases hnone : b.scopes.resolve p = none
      · simp [hp, hnone]
      · simp [hnone]
  · cases h
    exact ⟨rfl, (append_nil _).symm⟩

theorem problems_addAttribute (hxmlns : b.scopes.resolve "xmlns" ≠ none) (element : NodeId)
    (name : String) (a : Attribute) :
    (addAttribute element name b a).problems = b.problems ++
      (unbound? b.scopes.resolve (fun p l => .unboundAttributePrefix p l name) a.name).toList := by
  rw [Builder.addAttribute]
  split
  next uri b' heq =>
  exact (problems_of_lookup hxmlns heq).2

theorem problems_addAttributes (hxmlns : b.scopes.resolve "xmlns" ≠ none) (element : NodeId)
    (name : String) (as : List Attribute) :
    (as.foldl (addAttribute element name) b).problems = b.problems ++ as.filterMap fun a =>
      unbound? b.scopes.resolve (fun p l => .unboundAttributePrefix p l name) a.name := by
  induction as generalizing b with
  | nil => exact (append_nil _).symm
  | cons a as ih =>
    obtain ⟨errors, heq⟩ := addAttribute_eq element name b a
    have hscopes : (addAttribute element name b a).scopes = b.scopes := by rw [heq]
    rw [foldl_cons, ih (by rw [hscopes]; exact hxmlns), hscopes,
      problems_addAttribute hxmlns, append_assoc, filterMap_cons]
    cases unbound? b.scopes.resolve (fun p l => .unboundAttributePrefix p l name) a.name <;> rfl

/-- The prefixes of a start tag that are not in the scopes inside it. -/
def unboundAt (inside : Namespace.Scopes) (name : String) (as : List Attribute) : List Problem :=
  (unbound? inside.resolve .unboundElementPrefix name).toList ++ as.filterMap fun a =>
    unbound? inside.resolve (fun p l => .unboundAttributePrefix p l name) a.name

theorem isUnboundPrefix_of_unbound? {lookup : String → Option String}
    {problem : String → String → Problem} {name : String} {found : Problem}
    (hproblem : ∀ p l, (problem p l).isUnboundPrefix = true)
    (h : unbound? lookup problem name = some found) : found.isUnboundPrefix = true := by
  rw [unbound?] at h
  split at h
  · split at h
    · cases h
      exact hproblem _ _
    · cases h
  · cases h

theorem isUnboundPrefix_of_mem {inside : Namespace.Scopes} {name : String} {as : List Attribute}
    {found : Problem} (h : found ∈ unboundAt inside name as) : found.isUnboundPrefix = true := by
  rcases mem_append.mp h with h | h
  · exact isUnboundPrefix_of_unbound? (fun _ _ => rfl) (Option.mem_toList.mp h)
  · obtain ⟨a, -, ha⟩ := mem_filterMap.mp h
    exact isUnboundPrefix_of_unbound? (fun _ _ => rfl) ha

/-- **A start tag notes the prefixes that are not in the scopes inside it.** -/
theorem problems_startElement {attributes : List Attribute} {inside : Namespace.Scopes}
    (hinside : scopesInside b.scopes (declarationsOf attributes) = inside)
    (hxmlns : inside.resolve "xmlns" ≠ none) (name : String) :
    (b.startElement name attributes).problems = b.problems ++
      unboundAt inside name (attributes.filter fun a => !isNamespaceDeclaration a.name) := by
  subst hinside
  unfold Builder.startElement
  extract_lets isDeclaration declarations scopes b₁
  split
  next uri b' heq =>
  obtain ⟨hscopes, hname⟩ : b'.scopes = scopes ∧ b'.problems = b.problems ++
      (unbound? scopes.resolve .unboundElementPrefix name).toList :=
    problems_of_lookup (b := b₁) hxmlns heq
  -- the node that comes between notes nothing
  have hattributes (node : Node) (as : List Attribute) :
      (as.foldl (addAttribute (b'.append node).1 name) (b'.append node).2).problems =
        b'.problems ++ as.filterMap fun a =>
          unbound? scopes.resolve (fun p l => .unboundAttributePrefix p l name) a.name := by
    have hkept : (b'.append node).2.scopes.resolve "xmlns" ≠ none := by
      show b'.scopes.resolve "xmlns" ≠ none
      rw [hscopes]
      exact hxmlns
    rw [problems_addAttributes hkept]
    show b'.problems ++ as.filterMap (fun a =>
      unbound? b'.scopes.resolve (fun p l => .unboundAttributePrefix p l name) a.name) = _
    rw [hscopes]
  rw [hname] at hattributes
  rw [unboundAt, ← append_assoc]
  exact hattributes _ _

/-! ## Scopes and declarations -/

theorem Describes.root_above (h : Describes doc opened scopes) :
    opened.headD root = root ∨ doc.Ancestor root (opened.headD root) := by
  induction h with
  | nil => exact .inl rfl
  | cons hlabel hkind hparent hunique rest ih =>
    rcases ih with ih | ih
    · rw [ih] at hparent
      exact .inr (.parent hparent)
    · exact .inr (.above hparent ih)

/-- **The scopes and the declarations on the way up give a prefix the same namespace.** -/
theorem Describes.resolve_eq_lookup (h : Describes doc opened scopes) (hr : doc.Rooted)
    (hcolon : ':' ∉ nsPrefix.toList) (hxmlns : nsPrefix ≠ "xmlns") :
    scopes.resolve nsPrefix = doc.lookupNamespace? (opened.headD root) nsPrefix := by
  by_cases hxml : nsPrefix = "xml"
  · rw [h.resolve_fixed (.inl hxml), hxml]
    rfl
  · refine Option.ext fun uri => ?_
    rw [h.resolve_eq_some hr hcolon hxml hxmlns, hr.lookup_eq_some_iff h.root_above hxml]

/-! ## Node by node -/

/-- The labels of new attributes come in their order. -/
theorem labels_equipped {p : NodeId} {as : List Node} (h : Equipped p as doc d) :
    d.size = doc.size + as.length ∧
      (List.range' doc.size as.length).map d.labelOf = as.map fun a => some a.label := by
  induction h with
  | nil doc => exact ⟨rfl, rfl⟩
  | @cons a as doc d e ha h rest ih =>
    obtain ⟨hsize, hlabels⟩ := ih
    have hfirst : e.labelOf doc.size = some a.label := by
      rw [(rest.old.2 doc.size (by rw [h.size]; exact Nat.lt_succ_self _)).1, h.labelOf, if_pos rfl]
    refine ⟨?_, ?_⟩
    · rw [hsize, h.size, length_cons]
      omega
    · rw [length_cons, range'_succ, map_cons, map_cons, hfirst, ← hlabels,
        h.size]

/-- A node that is there already has the problem with its prefix that it had, if nothing changes on
its way up. -/
theorem unboundPrefix?_of_frame (hF : Frame (· < doc.size) doc d) (hr : doc.Rooted) (hr' : d.Rooted)
    (hold : ∀ x, x < doc.size → d.labelOf x = doc.labelOf x ∧ d.parentOf x = doc.parentOf x)
    (hbelow : ∀ x, x < doc.size → x = root ∨ doc.Ancestor root x)
    (hbelow' : ∀ x, x < doc.size → x = root ∨ d.Ancestor root x) (hx : x < doc.size) :
    d.unboundPrefix? x = doc.unboundPrefix? x := by
  have hlookup {y : NodeId} (hy : y < doc.size) (p : String) :
      d.lookupNamespace? y p = doc.lookupNamespace? y p := by
    by_cases hxml : p = "xml"
    · subst hxml
      rfl
    · refine Option.ext fun uri => ?_
      rw [hr'.lookup_eq_some_iff (hbelow' y hy) hxml, hr.lookup_eq_some_iff (hbelow y hy) hxml]
      exact hF.binds_iff hr hr' (hbelow' y hy) hy
  have hname {y : NodeId} (hy : y < doc.size) : d.nameOf y = doc.nameOf y := by
    rw [nameOf_eq, nameOf_eq, (hold y hy).1]
  have hkind : d.kindOf x = doc.kindOf x := by rw [kindOf_eq, kindOf_eq, (hold x hx).1]
  rw [unboundPrefix?, unboundPrefix?, hkind, hname hx, (hold x hx).2]
  split
  · exact unbound?_congr (fun p _ _ => hlookup hx p) _ _
  · cases hp : doc.parentOf x with
    | none => rfl
    | some owner =>
      have howner := (hr.linked.container owner x hp).lt_size
      rw [Option.bind_some, Option.bind_some, hname howner]
      exact unbound?_congr (fun p _ _ => hlookup howner p) _ _
  · rfl

/-- Text, comments and the like have no prefix that could be unbound. -/
theorem unboundPrefix?_child {e : Event} {node : Node} {p : NodeId}
    (he : kind? e = some node.kind) (h : Gained doc d node p) :
    d.unboundPrefix? doc.size = none := by
  obtain ⟨helement, hattribute⟩ := unnamed_of_kind? he
  rw [unboundPrefix?, h.kindOf, if_pos rfl]
  split
  · next hk => exact absurd (Option.some.inj hk) helement
  · next hk => exact absurd (Option.some.inj hk) hattribute
  · rfl

section Start

variable {b' : Builder} {name uri : String} {ds : List NamespaceDecl} {as : List Attribute}
  {inside : Namespace.Scopes}

theorem unboundPrefix?_element (hr' : b'.doc.Rooted)
    (helement : Gained b.doc d (elementNode name uri ds) b.current)
    (hattributes : Equipped b.doc.size (attributeNodes inside as) d b'.doc)
    (hdescribes : Describes b'.doc (b.doc.size :: b.opened) inside) :
    b'.doc.nameOf b.doc.size = name ∧
      b'.doc.unboundPrefix? b.doc.size =
        unbound? inside.resolve .unboundElementPrefix name := by
  have hlabel : b'.doc.labelOf b.doc.size = some (elementNode name uri ds).label := by
    rw [(hattributes.old.2 b.doc.size (by rw [helement.size]; exact Nat.lt_succ_self _)).1,
      helement.labelOf, if_pos rfl]
  have hname : b'.doc.nameOf b.doc.size = name := by rw [nameOf_eq, hlabel]; rfl
  have hkind : b'.doc.kindOf b.doc.size = some .element := by rw [kindOf_eq, hlabel]; rfl
  refine ⟨hname, ?_⟩
  rw [unboundPrefix?, hkind, hname]
  exact unbound?_congr (fun p hcolon hp => (hdescribes.resolve_eq_lookup hr' hcolon hp).symm) _ _

theorem unboundPrefix?_attributes (hnumbered : b'.doc.Numbered) (hr' : b'.doc.Rooted)
    (hpos : 0 < d.size) (hname : b'.doc.nameOf b.doc.size = name)
    (hattributes : Equipped b.doc.size (attributeNodes inside as) d b'.doc)
    (hdescribes : Describes b'.doc (b.doc.size :: b.opened) inside) :
    (List.range' d.size as.length).filterMap b'.doc.unboundPrefix? = as.filterMap fun a =>
      unbound? inside.resolve (fun p l => .unboundAttributePrefix p l name) a.name := by
  obtain ⟨hsize, hlabels⟩ := labels_equipped hattributes
  rw [attributeNodes, length_map] at hsize hlabels
  let problemOf (label : Option Label) : Option Problem := label.bind fun l =>
    unbound? inside.resolve (fun p l => .unboundAttributePrefix p l name) l.name
  have hone (x : NodeId) (hx : x ∈ List.range' d.size as.length) :
      b'.doc.unboundPrefix? x = problemOf (b'.doc.labelOf x) := by
    obtain ⟨hle, hlt⟩ := mem_range'_1.mp hx
    rw [← hsize] at hlt
    obtain ⟨q, hq⟩ : ∃ q, b'.doc.parentOf x = some q := by
      rcases hnumbered.below hr'.linked hlt with rfl | hup
      · exact absurd hle (Nat.not_le.mpr hpos)
      · exact hup.exists_parent
    obtain ⟨rfl, hattribute⟩ := hattributes.new hle hq
    obtain ⟨n, hn⟩ := exists_get? hlt
    rw [unboundPrefix?, hattribute, hq, Option.bind_some, hname, nameOf_eq, labelOf, hn]
    exact unbound?_congr (fun p hcolon hp => (hdescribes.resolve_eq_lookup hr' hcolon hp).symm) _ _
  calc (List.range' d.size as.length).filterMap b'.doc.unboundPrefix?
      = (List.range' d.size as.length).filterMap (problemOf ∘ b'.doc.labelOf) :=
        filterMap_congr hone
    _ = ((List.range' d.size as.length).map b'.doc.labelOf).filterMap problemOf :=
        filterMap_map.symm
    _ = as.filterMap fun a =>
          unbound? inside.resolve (fun p l => .unboundAttributePrefix p l name) a.name := by
        rw [hlabels, filterMap_map, filterMap_map]
        rfl

/-- **The problems of the nodes that a start tag adds** are the prefixes that are not in the scopes
inside it. -/
theorem unboundPrefix?_start (hnumbered : b'.doc.Numbered) (hr' : b'.doc.Rooted)
    (helement : Gained b.doc d (elementNode name uri ds) b.current)
    (hattributes : Equipped b.doc.size (attributeNodes inside as) d b'.doc)
    (hdescribes : Describes b'.doc (b.doc.size :: b.opened) inside) :
    (List.range' b.doc.size (b'.doc.size - b.doc.size)).filterMap b'.doc.unboundPrefix? =
      unboundAt inside name as := by
  obtain ⟨hname, hfirst⟩ := unboundPrefix?_element hr' helement hattributes hdescribes
  have hpos : 0 < d.size := by
    rw [helement.size]
    exact Nat.succ_pos _
  have hrest := unboundPrefix?_attributes hnumbered hr' hpos hname hattributes hdescribes
  have hsize := (labels_equipped hattributes).1
  rw [attributeNodes, length_map, helement.size] at hsize
  have hcount : b'.doc.size - b.doc.size = as.length + 1 := by omega
  rw [hcount, range'_succ, filterMap_cons, hfirst, ← helement.size, hrest, unboundAt]
  cases unbound? inside.resolve .unboundElementPrefix name <;> rfl

end Start

/-! ## Event by event -/

variable {i : Nat} {before : List Event} {e : Event}

theorem noted_add_of_ne_start (hstart : ∀ name attributes, e ≠ .startElement name attributes)
    (he : tellsUnboundPrefix e = false) :
    (b.add e).problems.filter (·.isUnboundPrefix) = b.problems.filter (·.isUnboundPrefix) := by
  cases e with
  | startElement name attributes => exact absurd rfl (hstart name attributes)
  | characters text =>
    rw [Builder.add, characters]
    split <;> rfl
  | error error =>
    have hnot : error.problem.isUnboundPrefix = false := he
    simp [Builder.add, problems, hnot]
  | _ => rfl

/-- The problems that are noted of names are those of the nodes. -/
structure Noted (i : Nat) (before : List Event) (b : Builder) : Prop where
  built : b = builtFrom i before
  scopes : b.Scoped
  noted : (∀ event ∈ before, tellsUnboundPrefix event = false) →
    b.problems.filter (·.isUnboundPrefix) = (List.range b.doc.size).filterMap b.doc.unboundPrefix?

theorem noted_initial (i : Nat) : Noted i [] (initial i) := by
  refine ⟨rfl, scoped_initial i, fun _ => ?_⟩
  have hsize : (initial i).doc.size = 1 := congrArg Array.size (nodes_initial i)
  rw [hsize]
  show [] = ((initial i).doc.unboundPrefix? root).toList
  rw [Document.unboundPrefix?, (grown_initial i).kindOf_root]
  rfl

theorem filterMap_range_grow {f g : NodeId → Option Problem} {n m : Nat} (h : n ≤ m)
    (hsame : ∀ x, x < n → g x = f x) :
    (List.range m).filterMap g =
      (List.range n).filterMap f ++ (List.range' n (m - n)).filterMap g := by
  rw [← range_append_range' h, filterMap_append]
  congr 1
  exact filterMap_congr fun x hx => hsame x (mem_range.mp hx)

/-- **Every event notes the prefixes of the nodes that it adds**, where nothing declares them. -/
theorem Noted.add (hr : Reads i before e b) (h : Noted i before b) :
    Noted i (before ++ [e]) (b.add e) := by
  have hbuilt : b.add e = builtFrom i (before ++ [e]) := by
    rw [builtFrom_append, ← h.built]
    rfl
  have hscoped := h.scopes.add hr
  refine ⟨hbuilt, hscoped, fun htold => ?_⟩
  rw [forall_mem_append, forall_mem_singleton] at htold
  have hnoted := h.noted htold.1
  have hg := hr.grown
  have hrooted : b.doc.Rooted := ⟨hg.linked, hg.kindOf_root, h.scopes.free⟩
  have hrooted' : (b.add e).doc.Rooted :=
    ⟨(hg.add e).linked, (hg.add e).kindOf_root, hscoped.free⟩
  have hnumbered : b.doc.Numbered := h.built ▸ numbered_builtFrom i before
  have hnumbered' : (b.add e).doc.Numbered := hbuilt ▸ numbered_builtFrom i (before ++ [e])
  have hbelow (x : NodeId) (hx : x < b.doc.size) := hnumbered.below hg.linked hx
  have hbelow' (x : NodeId) (hx : x < (b.add e).doc.size) := hnumbered'.below hrooted'.linked hx
  -- on the way up from a node that was there nothing changes
  have old (hle : b.doc.size ≤ (b.add e).doc.size)
      (hkept : ∀ x, x < b.doc.size → (b.add e).doc.labelOf x = b.doc.labelOf x ∧
        (b.add e).doc.parentOf x = b.doc.parentOf x)
      (hF : Frame (· < b.doc.size) b.doc (b.add e).doc) (x : NodeId) (hx : x < b.doc.size) :
      (b.add e).doc.unboundPrefix? x = b.doc.unboundPrefix? x :=
    unboundPrefix?_of_frame hF hrooted hrooted' hkept hbelow
      (fun y hy => hbelow' y (Nat.lt_of_lt_of_le hy hle)) hx
  cases hg.tells e with
  | kept he labels places opened scopes =>
    have hstart : ∀ name attributes, e ≠ .startElement name attributes := by
      rintro name attributes rfl
      cases he []
    rw [noted_add_of_ne_start hstart htold.2, hnoted, labels.size]
    exact filterMap_congr fun x _ => (places.unboundPrefix? x).symm
  | @child _ _ node he hgain opened scopes hnone =>
    have hstart : ∀ name attributes, e ≠ .startElement name attributes := by
      rintro name attributes rfl
      cases he
    obtain ⟨hkept, hF⟩ := frame_start hgain (.nil _) hrooted.linked
    have hold := old (Nat.le_of_lt (hgain.size ▸ Nat.lt_succ_self _)) hkept hF
    rw [noted_add_of_ne_start hstart htold.2, hnoted, hgain.size, range_succ,
      filterMap_append, filterMap_cons, unboundPrefix?_child he hgain,
      filterMap_nil, append_nil]
    exact filterMap_congr fun x hx => (hold x (mem_range.mp hx)).symm
  | @start name attributes _ d inside hinside helement hattributes opened scopes =>
    obtain ⟨hkept, hF⟩ := frame_start helement hattributes hrooted.linked
    have hlt (o : NodeId) (ho : o ∈ b.opened) : o < b.doc.size := lt_size_of_kindOf (hg.opened o ho)
    obtain ⟨-, hdescribes⟩ :=
      h.scopes.start hrooted hrooted' hlt hr.once hinside helement hattributes
    have hxmlns : inside.resolve "xmlns" ≠ none := by
      rw [hdescribes.resolve_fixed (.inr rfl)]
      decide
    have hle : b.doc.size ≤ (b.add (.startElement name attributes)).doc.size :=
      Nat.le_trans (Nat.le_of_lt (helement.size ▸ Nat.lt_succ_self _)) hattributes.old.1
    rw [filterMap_range_grow hle (old hle hkept hF),
      unboundPrefix?_start hnumbered' hrooted' helement hattributes hdescribes, Builder.add,
      problems_startElement hinside hxmlns, filter_append, hnoted,
      filter_eq_self.mpr fun _ => isUnboundPrefix_of_mem]
  | @close name _ hdoc opened scopes =>
    rw [noted_add_of_ne_start (fun _ _ => by simp) rfl, hnoted, hdoc]

/-! ## What a document that was read says of its problems -/

/-- The problems are kept apart from the document while it is built. -/
theorem errors_learnDeclaration (doc : Document) (d : NamespaceDecl) :
    (doc.learnDeclaration d).errors = doc.errors := by
  obtain ⟨_, h⟩ := exists_learnDeclaration_eq doc d
  rw [h]

theorem errors_alloc (doc : Document) (node : Node) : (doc.alloc node).2.errors = doc.errors := by
  obtain ⟨_, h⟩ := exists_alloc_eq doc node
  rw [h]

theorem errors_append (b : Builder) (node : Node) :
    (b.append node).2.doc.errors = b.doc.errors := by
  have link (doc : Document) (p c : NodeId) : (doc.appendChild p c).errors = doc.errors := by
    unfold appendChild
    cases (doc.get? p).bind (·.lastChild) <;> rfl
  exact (link _ _ _).trans (errors_alloc b.doc node)

theorem errors_startElement (b : Builder) (name : String) (attributes : List Attribute) :
    (b.startElement name attributes).doc.errors = b.doc.errors := by
  have link (doc : Document) (element attr : NodeId) :
      (doc.appendAttribute element attr).errors = doc.errors := rfl
  have all (element : NodeId) (as : List Attribute) : ∀ b : Builder,
      (as.foldl (addAttribute element name) b).doc.errors = b.doc.errors := by
    induction as with
    | nil => exact fun _ => rfl
    | cons a as ih =>
      intro b
      obtain ⟨errors, heq⟩ := addAttribute_eq element name b a
      rw [foldl_cons, ih, heq]
      exact (link _ _ _).trans (errors_alloc b.doc _)
  obtain ⟨errors, heq⟩ := startElement_eq b name attributes
  rw [heq]
  exact (all _ _ _).trans (errors_append _ _)

theorem errors_add (b : Builder) (e : Event) : (b.add e).doc.errors = b.doc.errors := by
  cases e with
  | startElement name attributes => exact errors_startElement b name attributes
  | characters text =>
    rw [Builder.add, characters]
    split
    · rfl
    · exact errors_append _ _
  | startCData => exact errors_append b { kind := .cdata }
  | doctype d => exact errors_append b { kind := .doctype, name := d.name }
  | comment _ | instruction _ _ | entityReference _ _ =>
    rw [Builder.add]
    exact errors_append _ _
  | _ => rfl

end Builder

section

variable {i : Nat} {bytes : List UInt8} {hint : Option String} {options : ParseOptions}
  {files : Files}

/-- Events add nothing to the problems that a document is kept with. -/
theorem errors_ofEvents (i : Nat) (events : List Event) : (ofEvents i events).1.errors = [] := by
  have hbuilt : (events.foldl Builder.add (Builder.initial i)).doc.errors = [] := by
    induction events using List.reverseRecOn with
    | nil => exact Builder.errors_learnDeclaration (empty i) _
    | append_singleton events e ih =>
      rw [foldl_append]
      exact (Builder.errors_add _ e).trans ih
  exact hbuilt

/-- A document that was read has the problems that were found, of which there are none unless they
were to be recovered from. -/
theorem errors_of_parse (h : parse i bytes hint options files = .ok doc) :
    doc.errors = (ofEvents i (scanBytes bytes hint options files).events).2 := by
  have hmade := errors_ofEvents i (scanBytes bytes hint options files).events
  rw [parse, ofOutcome] at h
  split at h
  · cases h
  · generalize ofEvents i (scanBytes bytes hint options files).events = made at h hmade ⊢
    obtain ⟨read, errors⟩ := made
    dsimp only at h hmade
    split at h
    · cases h
      rfl
    · split at h
      · cases h
      · cases h
        exact hmade

/-- The problems that were recorded of prefixes are those of the nodes. -/
theorem noted_of_parse (h : parse i bytes hint options files = .ok doc) :
    (doc.errors.map (·.problem)).filter (·.isUnboundPrefix) =
      (List.range doc.size).filterMap doc.unboundPrefix? := by
  obtain ⟨hfatal, hnodes, -⟩ := parse_eq_ok h
  have herrors := errors_of_parse h
  obtain ⟨text, hscan⟩ := scanBytes_of_success hfatal
  rw [hscan] at hfatal hnodes herrors
  obtain ⟨s, hbound, -, hevents⟩ := Closed.bound.at_success (fun _ => by simp [tellsUnboundPrefix])
    hfatal
  obtain ⟨hnoted, -⟩ := built_of_readable (i := i) (Builder.noted_initial i)
    (fun before e b hr hb => hb.add hr) (readable_scanText text options files)
  have htold : ∀ event ∈ (scanText text options files).events,
      tellsUnboundPrefix event = false := by
    rw [hevents, forall_mem_append, forall_mem_singleton]
    exact ⟨hbound, rfl⟩
  have hsize : doc.size = (Builder.builtFrom i (scanText text options files).events).doc.size :=
    congrArg Array.size hnodes
  rw [herrors, hsize]
  refine (hnoted.noted htold).trans (filterMap_congr fun x _ => ?_)
  exact SamePlaces.unboundPrefix? (.of_nodes_eq hnodes.symm) x

end

/-- **Three ways to find the namespace of a name agree.** In every document that was read, with any
options: an element or an attribute whose prefix is not `xmlns` is stored with the namespace that
the declarations on its way up give it. The problems that were recorded of prefixes are those of the
nodes with a prefix other than `xmlns` that is not declared on their way up, one for each of them,
in their order. And the bindings in scope at an element are, with each prefix at most once, those
that looking up a prefix other than `xml` finds, if that is a namespace. -/
theorem namespace_resolutions_agree (i : Nat) (bytes : List UInt8) (hint : Option String)
    (options : ParseOptions) (files : Files) (doc : Document)
    (h : parse i bytes hint options files = .ok doc) :
    (∀ x, doc.kindOf x = some .element ∨ doc.kindOf x = some .attribute →
      qualifier? (doc.nameOf x) ≠ some "xmlns" → doc.uriOf x = doc.namespaceInScope x) ∧
    (doc.errors.map (·.problem)).filter (·.isUnboundPrefix) =
      (List.range doc.size).filterMap doc.unboundPrefix? ∧
    ∀ e, doc.kindOf e = some .element →
      ((doc.inScope e).map (·.nsPrefix)).Nodup ∧
        ∀ p uri, p ≠ "xml" →
          (⟨p, uri⟩ ∈ doc.inScope e ↔ doc.lookupNamespace? e p = some uri ∧ uri ≠ "") := by
  have hinit : Initial doc := .read h
  obtain ⟨hr, hcoherent⟩ := hinit.coherent
  refine ⟨fun x hk hq => ?_, noted_of_parse h, fun e _ =>
    ⟨nodup_inScope doc e, fun p uri hp => mem_inScope_iff hinit.onlyElementsDeclare hp⟩⟩
  have hlt : x < doc.size := by rcases hk with hk | hk <;> exact lt_size_of_kindOf hk
  have hbelow : doc.Ancestor root x := by
    rcases hinit.numbered.below hr.linked hlt with rfl | hup
    · rw [hr.kindOf_root] at hk
      rcases hk with hk | hk <;> cases hk
    · exact hup
  exact (hcoherent x hbelow hk hq).unique (hr.belongs hbelow hk)

/-- A declaration is hidden by another and another is taken back, and both hold again behind that
element; one prefix is declared nowhere. -/
def hidingTrees : List Tree :=
  [.element "a" [⟨"", "u"⟩, ⟨"p", "v"⟩] []
    [.element "p:b" [⟨"p", "w"⟩, ⟨"", ""⟩] [⟨"q:k", "1"⟩] [.element "c" [] [] []],
      .element "p:d" [] [] []]]

theorem hidingTrees_canonical : Tree.CanonicalDocument hidingTrees := by
  have hname : ∀ name : String, Text.isName name.toList = true → Text.IsName name.toList :=
    fun name => (Text.isName_iff name.toList).mp
  have hchars : ∀ text : String, text.toList.all (fun c => Text.isXmlChar c.toNat) = true →
      Grammar.XmlChars text.toList := fun text => all_eq_true.mp
  have hbare : ∀ name : String, Text.isName name.toList = true →
      (Tree.element name [] [] []).Canonical := fun name h =>
    .element ⟨hname _ h, forall_mem_nil _, nodup_nil, forall_mem_nil _,
      forall_mem_nil _, nodup_nil, forall_mem_nil _⟩ .nil (forall_mem_nil _)
  have houter : Tree.CanonicalTag "a" [⟨"", "u"⟩, ⟨"p", "v"⟩] [] := by
    refine ⟨hname _ (by decide), ?_, by decide, ?_, forall_mem_nil _, nodup_nil,
      forall_mem_nil _⟩
    · exact forall_mem_cons.mpr
        ⟨.inl rfl, forall_mem_singleton.mpr (.inr (hname _ (by decide)))⟩
    · exact forall_mem_cons.mpr
        ⟨hchars _ (by decide), forall_mem_singleton.mpr (hchars _ (by decide))⟩
  have hinner : Tree.CanonicalTag "p:b" [⟨"p", "w"⟩, ⟨"", ""⟩] [⟨"q:k", "1"⟩] := by
    refine ⟨hname _ (by decide), ?_, by decide, ?_, ?_, by decide, ?_⟩
    · exact forall_mem_cons.mpr
        ⟨.inr (hname _ (by decide)), forall_mem_singleton.mpr (.inl rfl)⟩
    · exact forall_mem_cons.mpr
        ⟨hchars _ (by decide), forall_mem_singleton.mpr (hchars _ (by decide))⟩
    · exact forall_mem_singleton.mpr ⟨hname _ (by decide), by decide⟩
    · exact forall_mem_singleton.mpr (hchars _ (by decide))
  refine ⟨forall_mem_singleton.mpr (.element houter ?_ ?_), by decide, by decide⟩
  · unfold Tree.Separated
    decide
  · simp only [forall_mem_cons]
    exact ⟨.element hinner (isChain_singleton _)
        (forall_mem_singleton.mpr (hbare _ (by decide))),
      hbare _ (by decide), forall_mem_nil _⟩

def hidingText : String :=
  "<a xmlns=\"u\" xmlns:p=\"v\"><p:b xmlns:p=\"w\" xmlns=\"\" q:k=\"1\"><c/></p:b><p:d/></a>\n"

def hidingBytes : List UInt8 :=
  hidingText.toList.map fun c => c.toNat.toUInt8

def hidingEvents : List Event :=
  [.startDocument, .startElement "a" [⟨"xmlns", "u"⟩, ⟨"xmlns:p", "v"⟩],
    .startElement "p:b" [⟨"xmlns:p", "w"⟩, ⟨"xmlns", ""⟩, ⟨"q:k", "1"⟩], .startElement "c" [],
    .endElement "c", .endElement "p:b", .startElement "p:d" [], .endElement "p:d", .endElement "a",
    .endDocument]

theorem scanBytes_hiding :
    scanBytes hidingBytes none { recover := true } .none = ⟨hidingEvents, none⟩ := by
  have hdecode : Encoding.decode hidingBytes none Files.none.charsets =
      .ok hidingText.toList := by decide +kernel
  have hlines : Text.normalizeNewlines hidingText.toList = hidingText.toList := by decide +kernel
  have hmarkup : (hidingTrees.flatMap fun t => t.markup ++ ['\n']) = hidingText.toList := by
    simp only [hidingTrees, flatMap_cons, flatMap_nil, Tree.markup]
    decide +kernel
  have hevents : .startDocument :: hidingTrees.flatMap Tree.events ++ [.endDocument] =
      hidingEvents := by
    simp only [hidingTrees, flatMap_cons, flatMap_nil, Tree.events]
    decide +kernel
  rw [scanBytes, hdecode]
  show scanText (Text.normalizeNewlines hidingText.toList) { recover := true } .none = _
  rw [hlines, ← hmarkup, scanText_markup hidingTrees_canonical, hevents]

/-- The elements are nodes 1, 2, 4 and 5, and node 3 is the attribute. -/
theorem resolutions_agree_where_declarations_hide :
    ∃ doc, parse 0 hidingBytes none { recover := true } .none = .ok doc ∧
      (doc.kindOf 5 = some .element ∧ doc.uriOf 5 = "v" ∧ doc.namespaceInScope 5 = "v") ∧
      (doc.errors.map (·.problem)).filter (·.isUnboundPrefix) =
        [.unboundAttributePrefix "q" "k" "p:b"] ∧
      doc.kindOf 4 = some .element ∧ ((doc.inScope 4).map (·.nsPrefix)).Nodup ∧
      ⟨"p", "w"⟩ ∈ doc.inScope 4 ∧ ⟨"", ""⟩ ∉ doc.inScope 4 := by
  have hparse : parse 0 hidingBytes none { recover := true } .none =
      .ok { (ofEvents 0 hidingEvents).1 with errors := (ofEvents 0 hidingEvents).2 } := by
    rw [parse, scanBytes_hiding]
    rfl
  obtain ⟨hstored, hnoted, hscope⟩ :=
    namespace_resolutions_agree 0 hidingBytes none _ .none _ hparse
  obtain ⟨hnodup, hmem⟩ := hscope 4 (by decide +kernel)
  refine ⟨_, hparse, ⟨by decide +kernel, by decide +kernel, ?_⟩, hnoted.trans (by decide +kernel),
    by decide +kernel, hnodup, (hmem "p" "w" (by decide)).mpr (by decide +kernel), fun h => ?_⟩
  · exact (hstored 5 (.inl (by decide +kernel)) (by decide +kernel)).symm.trans (by decide +kernel)
  · exact ((hmem "" "" (by decide)).mp h).2 rfl

end Xml.Document
