import Xml.Proofs.Namespaces.OpenScopes
import Xml.Proofs.Namespaces.Operations

/-!
# Reading and namespaces

A document that is read is coherent. The open scopes tell at every moment what the elements that are
open declare (`Describes`). So a prefix that is looked up in the scopes means what it means at the
innermost of these elements (`Describes.means`), and that is where new names come.
-/

namespace Xml.Document

open Scan

variable {doc d : Document} {x : NodeId} {nsPrefix uri : String}

namespace Builder

variable {i : Nat} {b b' : Builder} {before : List Event} {e : Event} {opened : List NodeId}
  {scopes : Namespace.Scopes}

/-- The scopes are those of elements that stand below each other, innermost first. -/
inductive Describes (doc : Document) : List NodeId → Namespace.Scopes → Prop where
  | nil : Describes doc [] .initial
  | cons {o : NodeId} {opened : List NodeId} {scopes : Namespace.Scopes} {l : Label}
      (hlabel : doc.labelOf o = some l) (hkind : l.kind = .element)
      (hparent : doc.parentOf o = some (opened.headD root))
      (hunique : ∀ d ∈ l.declarations, ∀ d' ∈ l.declarations, ':' ∉ d.nsPrefix.toList →
        d.nsPrefix = d'.nsPrefix → d = d')
      (rest : Describes doc opened scopes) :
      Describes doc (o :: opened) (scopesInside scopes l.declarations)

namespace Describes

theorem mono (h : Describes doc opened scopes)
    (hsame : ∀ o ∈ opened, d.labelOf o = doc.labelOf o ∧ d.parentOf o = doc.parentOf o) :
    Describes d opened scopes := by
  induction h with
  | nil => exact .nil
  | cons hlabel hkind hparent hunique rest ih =>
    obtain ⟨hl, hp⟩ := hsame _ List.mem_cons_self
    exact .cons (hl.trans hlabel) hkind (hp.trans hparent) hunique
      (ih fun o ho => hsame o (List.mem_cons_of_mem _ ho))

theorem leveled (h : Describes doc opened scopes) : Leveled scopes := by
  induction h with
  | nil =>
    rw [Leveled]
    decide
  | cons hlabel hkind hparent hunique rest ih => exact ih.scopesInside _

theorem pop (h : Describes doc opened scopes) (hne : opened ≠ []) :
    Describes doc opened.tail scopes.pop := by
  cases h with
  | nil => exact absurd rfl hne
  | cons hlabel hkind hparent hunique rest =>
    rw [rest.leveled.pop_scopesInside]
    exact rest

theorem resolve_fixed (h : Describes doc opened scopes)
    (hfixed : nsPrefix = "xml" ∨ nsPrefix = "xmlns") :
    scopes.resolve nsPrefix = Namespace.Scopes.initial.resolve nsPrefix := by
  induction h with
  | nil => rfl
  | cons hlabel hkind hparent hunique rest ih =>
    exact (resolve_fixed_foldl_declare hfixed _ _).trans ih

/-- **The scopes know what a prefix is bound to.** -/
theorem resolve_eq_some (h : Describes doc opened scopes) (hr : doc.Rooted)
    (hcolon : ':' ∉ nsPrefix.toList) (hne : nsPrefix ≠ "xml") (hne' : nsPrefix ≠ "xmlns") :
    scopes.resolve nsPrefix = some uri ↔ doc.Binds nsPrefix (opened.headD root) uri := by
  induction h with
  | nil =>
    refine iff_of_false ?_ hr.not_binds_root
    simp [Namespace.Scopes.resolve, Namespace.Scopes.initial, Ne.symm hne, Ne.symm hne']
  | @cons o opened scopes l hlabel hkind hparent hunique rest ih =>
    have hdecl : doc.declared? nsPrefix o =
        (l.declarations.find? (·.nsPrefix == nsPrefix)).map (·.uri) := by
      obtain ⟨n, hn, rfl⟩ := Option.map_eq_some_iff.mp hlabel
      rw [declared?, hn]
      exact if_pos (beq_iff_eq.mpr hkind)
    rw [resolve_scopesInside hunique hcolon hne hne', ← hdecl, List.headD_cons]
    cases hfound : doc.declared? nsPrefix o with
    | some found => rw [Option.some_or, binds_iff_eq hfound, Option.some_inj]
    | none => rw [Option.none_or, ih, binds_iff_above hfound hparent]

/-- **A prefix means at the innermost element what the scopes say.** -/
theorem means (h : Describes doc opened scopes) (hr : doc.Rooted) (hcolon : ':' ∉ nsPrefix.toList)
    (hne' : nsPrefix ≠ "xmlns") :
    doc.Means (opened.headD root) nsPrefix ((scopes.resolve nsPrefix).getD "") := by
  by_cases hxml : nsPrefix = "xml"
  · rw [h.resolve_fixed (.inl hxml), hxml]
    exact .xml
  · cases hfound : scopes.resolve nsPrefix with
    | some uri => exact .bound hxml ((h.resolve_eq_some hr hcolon hxml hne').mp hfound)
    | none =>
      refine .unbound hxml fun uri hb => ?_
      rw [(h.resolve_eq_some hr hcolon hxml hne').mpr hb] at hfound
      cases hfound

theorem agrees_element {o : NodeId} {name : String} {ds : List NamespaceDecl}
    (h : Describes doc (o :: opened) scopes) (hr : doc.Rooted)
    (hlabel : doc.labelOf o = some (elementNode name (elementUri scopes name) ds).label) :
    doc.Agrees o := by
  have hkind : doc.kindOf o = some .element := by rw [kindOf_eq, hlabel]; rfl
  have hname : doc.nameOf o = name := by rw [nameOf_eq, hlabel]; rfl
  have huri : doc.uriOf o = elementUri scopes name := by rw [uriOf_eq, hlabel]; rfl
  rw [Agrees, hname, huri]
  intro _ hxmlns
  refine .element hkind ?_
  rw [hname]
  cases hq : qualifier? name with
  | none =>
    rw [elementUri, hq]
    exact h.means hr (by decide) (by decide)
  | some q =>
    rw [elementUri, hq]
    rw [hq] at hxmlns
    exact h.means hr (not_mem_of_qualifier? hq) fun he => hxmlns (congrArg some he)

theorem agrees_attribute {o : NodeId} {a : Attribute} (h : Describes doc (o :: opened) scopes)
    (hr : doc.Rooted) (hp : doc.parentOf x = some o)
    (hlabel : doc.labelOf x = some (attributeNode a (attributeUri scopes a.name)).label) :
    doc.Agrees x := by
  have hkind : doc.kindOf x = some .attribute := by rw [kindOf_eq, hlabel]; rfl
  have hname : doc.nameOf x = a.name := by rw [nameOf_eq, hlabel]; rfl
  have huri : doc.uriOf x = attributeUri scopes a.name := by rw [uriOf_eq, hlabel]; rfl
  rw [Agrees, hname, huri]
  intro _ hxmlns
  cases hq : qualifier? a.name with
  | none =>
    rw [attributeUri, hq]
    exact .unprefixed hkind (hname ▸ hq)
  | some q =>
    rw [attributeUri, hq]
    rw [hq] at hxmlns
    refine .prefixed hkind hp (hname ▸ hq) ?_
    exact h.means hr (not_mem_of_qualifier? hq) fun he => hxmlns (congrArg some he)

end Describes

/-! ## Event by event -/

/-- What is read so far is coherent, and the scopes are those of the elements that are open. -/
structure Scoped (b : Builder) : Prop where
  coherent : b.doc.Coherent
  free : b.doc.parentOf root = none
  describes : Describes b.doc b.opened b.scopes

theorem scoped_initial (i : Nat) : Scoped (initial i) := by
  refine ⟨fun x hx => ?_, parentOf_initial i root, .nil⟩
  obtain ⟨p, hp⟩ := hx.exists_parent
  rw [parentOf_initial] at hp
  cases hp

theorem frame_start {node : Node} {p : NodeId} {as : List Node} {d d' : Document}
    (hgain : Gained doc d node p) (has : Equipped doc.size as d d') (hw : doc.Linked) :
    (∀ x, x < doc.size → d'.labelOf x = doc.labelOf x ∧ d'.parentOf x = doc.parentOf x) ∧
      Frame (· < doc.size) doc d' := by
  have hold (x : NodeId) (hx : x < doc.size) :
      d'.labelOf x = doc.labelOf x ∧ d'.parentOf x = doc.parentOf x := by
    obtain ⟨hlabel, hparent⟩ := has.old.2 x (by rw [hgain.size]; exact Nat.lt_succ_of_lt hx)
    rw [hlabel, hparent, hgain.labelOf, hgain.parentOf, if_neg (Nat.ne_of_lt hx),
      if_neg (Nat.ne_of_lt hx)]
    exact ⟨rfl, rfl⟩
  refine ⟨hold, fun y q hy hq => ?_⟩
  rw [(hold y hy).2] at hq
  exact ⟨hq, (hw.container q y hq).lt_size, declared?_of_label (hold y hy).1⟩

/-- A start tag adds an element and its attributes, each in the namespace that it belongs to. -/
theorem Scoped.start {name : String} {attributes : List Attribute} {d d' : Document}
    {inside : Namespace.Scopes} (h : Scoped b) (hr : b.doc.Rooted) (hr' : d'.Rooted)
    (hlt : ∀ o ∈ b.opened, o < b.doc.size) (honce : NamesOnce (.startElement name attributes))
    (hinside : scopesInside b.scopes (declarationsOf attributes) = inside)
    (helement : Gained b.doc d
      (elementNode name (elementUri inside name) (declarationsOf attributes)) b.current)
    (hattributes : Equipped b.doc.size (attributeNodes inside
      (attributes.filter fun a => !isNamespaceDeclaration a.name)) d d') :
    d'.Coherent ∧ Describes d' (b.doc.size :: b.opened) inside := by
  obtain ⟨hold, hF⟩ := frame_start helement hattributes hr.linked
  obtain ⟨hlabel, hparent⟩ := hattributes.old.2 b.doc.size
    (by rw [helement.size]; exact Nat.lt_succ_self _)
  rw [helement.labelOf, if_pos rfl] at hlabel
  rw [helement.parentOf, if_pos rfl] at hparent
  have hdescribes : Describes d' (b.doc.size :: b.opened) inside := by
    rw [← hinside]
    exact .cons hlabel rfl hparent (fun d hd d' hd' => declarationsOf_unique honce hd hd')
      (h.describes.mono fun o ho => hold o (hlt o ho))
  refine ⟨h.coherent.of_frame hF hr hr' fun x hx => ?_, hdescribes⟩
  -- an old node, the element, or one of its attributes
  rcases Nat.lt_trichotomy x b.doc.size with hx' | rfl | hx'
  · exact .inr ⟨hx', (hold x hx').1⟩
  · exact .inl (hdescribes.agrees_element hr' hlabel)
  · obtain ⟨q, hq⟩ := hx.exists_parent
    have hle : d.size ≤ x := by
      rw [helement.size]
      exact hx'
    obtain ⟨rfl, -⟩ := hattributes.new hle hq
    obtain ⟨node, hmem, hxlabel⟩ := hattributes.label hle (lt_size_of_parentOf hq)
    obtain ⟨a, -, rfl⟩ := List.mem_map.mp hmem
    exact .inl (hdescribes.agrees_attribute hr' hq hxlabel)

/-- **Every event keeps what is read coherent.** -/
theorem Scoped.add (hr : Reads i before e b) (h : Scoped b) : Scoped (b.add e) := by
  have hg := hr.grown
  have hfree := hg.free_add e h.free
  have hrooted : b.doc.Rooted := ⟨hg.linked, hg.kindOf_root, h.free⟩
  have hrooted' : (b.add e).doc.Rooted := ⟨(hg.add e).linked, (hg.add e).kindOf_root, hfree⟩
  have hlt (o : NodeId) (ho : o ∈ b.opened) : o < b.doc.size := lt_size_of_kindOf (hg.opened o ho)
  cases hg.tells e with
  | kept he labels places opened scopes =>
    refine ⟨h.coherent.kept hrooted hrooted' labels places, hfree, ?_⟩
    rw [opened, scopes]
    exact h.describes.mono fun o _ => ⟨labels.labelOf o, places.parentOf o⟩
  | @child _ _ node he hgain opened scopes =>
    have hF := hgain.frame fun y q hq => (hg.linked.container q y hq).lt_size
    obtain ⟨hel, hattr⟩ := unnamed_of_kind? he
    have hnew : (b.add e).doc.kindOf b.doc.size = some node.kind := by
      rw [hgain.kindOf, if_pos rfl]
    refine ⟨h.coherent.of_unnamed hF hrooted hrooted' b.doc.size ?_ ?_ fun x hne => ⟨hne, ?_⟩,
      hfree, ?_⟩
    · rw [hnew]
      exact fun he => hel (Option.some.inj he)
    · rw [hnew]
      exact fun he => hattr (Option.some.inj he)
    · rw [hgain.labelOf, if_neg hne]
    · rw [opened, scopes]
      refine h.describes.mono fun o ho => ?_
      have hne := Nat.ne_of_lt (hlt o ho)
      rw [hgain.labelOf, hgain.parentOf, if_neg hne, if_neg hne]
      exact ⟨rfl, rfl⟩
  | start hinside helement hattributes opened scopes =>
    obtain ⟨hcoherent, hdescribes⟩ :=
      h.start hrooted hrooted' hlt hr.once hinside helement hattributes
    refine ⟨hcoherent, hfree, ?_⟩
    rw [opened, scopes]
    exact hdescribes
  | @close name _ hdoc opened scopes =>
    -- an end tag is told only while its element is open
    have hopen : b.opened ≠ [] := by
      intro hnil
      have hdepth := hr.depth
      rw [hnil, List.length_nil, eq_comm, List.length_eq_zero_iff] at hdepth
      have hallowed : (openAfter before).head? = some name := hr.allowed
      rw [hdepth] at hallowed
      cases hallowed
    refine ⟨?_, hfree, ?_⟩
    · rw [hdoc]
      exact h.coherent
    · rw [hdoc, opened, scopes]
      exact h.describes.pop hopen

end Builder

/-- **A document to start from is coherent.** -/
theorem Initial.coherent (h : Initial doc) : doc.Rooted ∧ doc.Coherent := by
  obtain ⟨events, b, hb, hnodes⟩ := h.built (P := fun _ b => b.Scoped) Builder.scoped_initial
    fun i before e b hr hb => hb.add hr
  obtain ⟨hw, hroot⟩ := h.run_linked []
  have hr : doc.Rooted := ⟨hw, hroot, h.free⟩
  have hr' : b.doc.Rooted := SamePlaces.rooted (.of_nodes_eq hnodes.symm) hr
    ((SameLinks.of_nodes_eq hnodes.symm).linked hw)
  exact ⟨hr, hb.coherent.kept hr' hr (.of_nodes_eq hnodes) (.of_nodes_eq hnodes)⟩

end Xml.Document
