import Xml.NodeSet
import Xml.Proofs.Links.Copy

/-!
# Operations and their runs

`Operation` lists what can be asked of a document, and `run` does one after the other, refused ones
included: a refused operation leaves the document as it is. Arguments are not restricted. A
reference may belong to another document, may name the document node, or may lie about the kind of
its node. Each operation comes down to changes of the links; `setRoot` is the one that can put a node
below itself (`setRoot_cases`).
-/

namespace Xml.Document

variable {node : NodeRef} {id p : NodeId} {n : Node}

/-- What can be asked of a document. -/
inductive Operation where
  | createElement (name : String)
  | createText (text : String)
  | createCData (text : String)
  | createComment (text : String)
  | setRoot (node : NodeRef)
  | setName (node : NodeRef) (name : String)
  | setContent (node : NodeRef) (text : String)
  | setAttribute (node : NodeRef) (key value : String)
  | removeAttribute (node : NodeRef) (key : String)
  | setParent (node parent : NodeRef)
  | reparent (node parent : NodeRef)
  | replace (node other : NodeRef)
  | unlink (node : NodeRef)
  | addSibling (side : Side) (node other : NodeRef)
  | duplicate (node : NodeRef)
  | unlinkAll (nodes : NodeSet)
  deriving DecidableEq, Repr

/-- The document after an operation, done or refused. -/
def Operation.apply : Operation → Document → Document
  | .createElement name => (Document.createElement name).after
  | .createText text => (Document.createText text).after
  | .createCData text => (Document.createCData text).after
  | .createComment text => (Document.createComment text).after
  | .setRoot node => (Document.setRoot node).after
  | .setName node name => (Document.setName node name).after
  | .setContent node text => (Document.setContent node text).after
  | .setAttribute node key value => (Document.setAttribute node key value).after
  | .removeAttribute node key => (Document.removeAttribute node key).after
  | .setParent node parent => (Document.setParent node parent).after
  | .reparent node parent => (Document.reparent node parent).after
  | .replace node other => (Document.replace node other).after
  | .unlink node => (Document.unlink node).after
  | .addSibling side node other => (Document.addSibling side node other).after
  | .duplicate node => (Document.duplicate node).after
  | .unlinkAll nodes => nodes.unlinkAll.after

def run (ops : List Operation) (doc : Document) : Document :=
  ops.foldl (fun doc op => op.apply doc) doc

variable {doc d : Document} {G : Document → NodeId → NodeId → Prop}

/-! ## Operations that put nothing below itself -/

theorem createLeaf_relinks (kind : NodeKind) (text : String) :
    Relinks G doc ((createLeaf kind text).after doc) :=
  .single (.alloc doc rfl)

theorem createElement_relinks (name : String) :
    Relinks G doc ((createElement name).after doc) :=
  .single (.alloc doc rfl)

theorem createComment_relinks (text : String) :
    Relinks G doc ((createComment text).after doc) :=
  Edit.of_require .refl fun _ _ => createLeaf_relinks .comment text

theorem setName_relinks (node : NodeRef) (name : String) :
    Relinks G doc ((setName node name).after doc) := by
  have hrename : Relabeled doc ((doc.learn name).update node.id fun n => { n with name }) :=
    (Relabeled.learn doc name).trans (.update _ _ _ fun _ => rfl)
  refine Edit.of_require .refl fun n _ => ?_
  extract_lets rename
  split
  · exact .same (hrename.trans (resolveNamespace_relabeled _ _))
  · exact .same (hrename.trans (resolveNamespace_relabeled _ _))
  · exact .same hrename
  · exact .same hrename
  · exact .refl

theorem kindOf_of_owned (h : owned node doc = .ok n) : doc.kindOf node.id = some n.kind := by
  rw [kindOf, owned_eq_ok h, Option.map_some]

theorem setContent_relinks (hw : doc.Linked) (node : NodeRef) (text : String)
    (hg : ∀ e id, e.kindOf id = some .text → doc.kindOf node.id = some .element →
      e.Outside id node.id → G e id node.id) :
    Relinks G doc ((setContent node text).after doc) := by
  refine Edit.of_require .refl fun n hn => ?_
  split
  · exact Edit.of_require .refl fun _ _ => .same (.update _ _ _ fun _ => rfl)
  · split
    · next hk =>
      have hr : Relinks G doc (doc.removeChildren node.id) := removeChildren_relinks doc node.id
      have hkind := kindOf_of_owned hn
      rw [beq_iff_eq.mp hk] at hkind
      rw [Edit.after_change]
      split
      · exact hr
      · let child : Node := { kind := .text, content := text }
        have hnew : child.Unlinked := rfl
        have hcon : (doc.removeChildren node.id).IsContainer node.id := by
          refine Or.inl ?_
          rw [(hr.kindOf hw).2 _ (lt_size_of_kindOf hkind), hkind]
        refine hr.trans ((hr.linked hw).append_new hnew (by simp [child]) hcon
          (hg _ _ ?_ hkind ?_)).1
        · exact (kindOf_parentOf_new _ hnew).1
        · exact (hr.linked hw).outside_new hnew hcon
    · exact .refl

theorem setAttribute_relinks (node : NodeRef) (key value : String) :
    Relinks G doc ((setAttribute node key value).after doc) := by
  refine Edit.of_require .refl fun n hn => ?_
  split
  · next hk =>
    have hel := kindOf_of_owned hn
    rw [beq_iff_eq.mp hk] at hel
    split
    · exact .same (declareNamespace_relabeled doc node.id _ value)
    · exact putAttribute_relinks hel key value
  · exact .refl

theorem removeAttribute_relinks (node : NodeRef) (key : String) :
    Relinks G doc ((removeAttribute node key).after doc) := by
  refine Edit.of_require .refl fun n hn => ?_
  split
  · split
    · exact .same (undeclareNamespace_relabeled doc node.id _)
    · rw [Edit.after_change]
      split
      · exact .single (.detach doc _)
      · exact .refl
  · exact .refl

/-- A node that may be placed under another fits there. -/
theorem Linked.fits_of_checkPlacement (hw : doc.Linked) (h : checkPlacement id p doc = .ok ()) :
    Fits doc id p := by
  obtain ⟨-, hanc, kind, hk, hp⟩ := checkPlacement_eq_ok h
  have hcon : doc.IsContainer p := hp.imp_right And.left
  refine ⟨hw, ?_, hcon, fun hattr => ?_, ?_⟩
  · rw [hk]
    exact Option.some_ne_none _
  · rcases hp with hp | ⟨-, hkind⟩
    · exact hp
    · obtain rfl := Option.some.inj (hk.symm.trans hattr)
      rcases hkind with ⟨he, -⟩ | he | he <;> cases he
  · intro hout
    exact Bool.eq_false_iff.mp hanc ((isAncestorOrSelf_iff hw hcon.lt_size).mpr hout)

/-- A node that may be placed under another may still be when it is taken out from where it
stands. -/
theorem Linked.checkPlacement_detach (hw : doc.Linked) (h : checkPlacement id p doc = .ok ()) :
    checkPlacement id p (doc.detach id) = .ok () := by
  obtain ⟨hid, -, kind, hk, hp⟩ := checkPlacement_eq_ok h
  have hfits := (hw.fits_of_checkPlacement h).detach id
  have hkind := hw.kindOf_detach id
  refine checkPlacement_of hid ?_ ((hkind id).trans hk) ?_
  · rw [Bool.eq_false_iff]
    exact fun hanc => hfits.outside
      ((isAncestorOrSelf_iff hfits.linked hfits.container.lt_size).mp hanc)
  · rw [hkind]
    refine hp.imp_right (And.imp_right (Or.imp_left (And.imp_right fun hnone => ?_)))
    refine hfits.linked.rootElement?_eq_none hnone hw (fun c hc => ?_) hkind
    rw [IsChild, hw.parentOf_detach, hkind] at hc
    split at hc
    · cases hc.1
    · exact hc

theorem attachUnder_after (h : checkPlacement id p doc = .ok ()) :
    (attachUnder id p).after doc = placeUnder id p doc := by
  rw [attachUnder, Edit.after_require, h]
  rfl

variable {P : Document → Prop}

/-- A node is moved only if it may be, and then asking once more changes nothing. -/
theorem Linked.of_reparent (hw : doc.Linked) {parent : NodeRef} (hdoc : P doc)
    (h : node.doc = doc.id → parent.doc = doc.id →
      checkPlacement node.id parent.id doc = .ok () →
      P (placeUnder node.id parent.id (doc.detach node.id))) :
    P ((reparent node parent).after doc) := by
  refine Edit.of_require hdoc fun _ hn => Edit.of_require hdoc fun _ hp => ?_
  refine Edit.of_require hdoc fun _ hc => ?_
  rw [Edit.after_change_bind, attachUnder_after (hw.checkPlacement_detach hc)]
  exact h (owned_doc hn) (owned_doc hp) hc

theorem of_setParent {parent : NodeRef} (hdoc : P doc)
    (h : node.doc = doc.id → parent.doc = doc.id → doc.parentOf node.id = none →
      checkPlacement node.id parent.id doc = .ok () → P (placeUnder node.id parent.id doc)) :
    P ((setParent node parent).after doc) := by
  refine Edit.of_require hdoc fun n hn => Edit.of_require hdoc fun _ hp => ?_
  split
  · exact hdoc
  · next hsome =>
    refine Edit.of_require hdoc fun _ hc => h (owned_doc hn) (owned_doc hp) ?_ hc
    rw [parentOf, owned_eq_ok hn]
    simpa using hsome

theorem setParent_relinks (hw : doc.Linked) (node parent : NodeRef)
    (hg : Fits doc node.id parent.id → G doc node.id parent.id) :
    Relinks G doc ((setParent node parent).after doc) := by
  refine of_setParent .refl fun _ _ hloose hc => ?_
  have hfits := hw.fits_of_checkPlacement hc
  exact placeUnder_relinks hfits hloose (hg hfits)

theorem reparent_relinks (hw : doc.Linked) (node parent : NodeRef)
    (hg : Fits (doc.detach node.id) node.id parent.id →
      G (doc.detach node.id) node.id parent.id) :
    Relinks G doc ((reparent node parent).after doc) := by
  refine hw.of_reparent .refl fun _ _ hc => ?_
  have hfits := (hw.fits_of_checkPlacement hc).detach node.id
  refine .head (.detach doc node.id) (placeUnder_relinks hfits ?_ (hg hfits))
  rw [hw.parentOf_detach, if_pos rfl]

/-- A node that is not `p` and does not stand above it, beside a child of `p`. -/
theorem Linked.beside (hw : doc.Linked) {other : NodeId} (hp : doc.parentOf id = some p)
    (hother : doc.get? other = some n) (hs : checkSibling id other doc = .ok ())
    (hout : doc.Outside other p) : Beside doc id p other := by
  refine ⟨hp, ⟨hw, ?_, hw.container p id hp, fun hattr => ?_, hout⟩, checkSibling_eq_ok hs⟩
  · rw [kindOf, hother]
    exact Option.some_ne_none _
  · exact hw.owner p id ⟨hp, (checkSibling_eq_ok hs).mpr hattr⟩

/-- A node takes the place of another only if it may. -/
theorem Linked.of_replace (hw : doc.Linked) {other : NodeRef} (hdoc : P doc)
    (h : ∀ p, Joins doc node other p → checkLevel node.id p other.id true doc = .ok () →
      P (substitute node.id p other.id doc)) : P ((replace node other).after doc) := by
  refine Edit.of_require hdoc fun _ hnode => Edit.of_require hdoc fun _ hother => ?_
  split
  · exact hdoc
  · refine Edit.of_require hdoc fun p hp => Edit.of_require hdoc fun _ hs => ?_
    refine Edit.of_require hdoc fun _ hlevel => Edit.of_require hdoc fun _ hanc => ?_
    have hp := attachedParent_eq_ok hp
    refine h p ⟨owned_doc hnode, owned_doc hother, ?_⟩ hlevel
    refine hw.beside hp (owned_eq_ok hother) hs fun hout => ?_
    rw [if_pos ((isAncestorOrSelf_iff hw (hw.container p _ hp).lt_size).mpr hout)] at hanc
    cases hanc

theorem replace_relinks (hw : doc.Linked) (node other : NodeRef)
    (hg : ∀ p, doc.parentOf node.id = some p → Fits (doc.detach other.id) other.id p →
      G (doc.detach other.id) other.id p) :
    Relinks G doc ((replace node other).after doc) :=
  hw.of_replace .refl fun p h _ =>
    h.beside.substitute_relinks fun _ => hg p h.beside.parent h.beside.detached.2.1

/-- A node is put beside another only if it may. -/
theorem Linked.of_addSibling (hw : doc.Linked) {side : Side} {other : NodeRef} (hdoc : P doc)
    (h : ∀ p, Joins doc node other p → node.id ≠ other.id →
      checkLevel node.id p other.id false doc = .ok () →
      P (placeBeside side node.id p other.id doc)) :
    P ((addSibling side node other).after doc) := by
  refine Edit.of_require hdoc fun _ hnode => Edit.of_require hdoc fun _ hother => ?_
  refine Edit.of_require hdoc fun p hp => Edit.of_require hdoc fun _ hs => ?_
  refine Edit.of_require hdoc fun _ hlevel => Edit.of_require hdoc fun _ hanc => ?_
  have hp := attachedParent_eq_ok hp
  have hout : doc.Outside other.id node.id := fun hout => by
    rw [if_pos ((isAncestorOrSelf_iff hw (lt_size_of_parentOf hp)).mpr hout)] at hanc
    cases hanc
  refine h p ⟨owned_doc hnode, owned_doc hother, ?_⟩ (fun he => hout (.inl he.symm)) hlevel
  -- the question was about the neighbour; if the moved node were above its parent, it would be
  -- above the neighbour as well
  exact hw.beside hp (owned_eq_ok hother) hs fun hup =>
    hout (.inr (ancestor_of_parentOf hp (hup.imp_left Eq.symm)))

theorem addSibling_relinks (hw : doc.Linked) (side : Side) (node other : NodeRef)
    (hg : ∀ p, doc.parentOf node.id = some p → Fits (doc.detach other.id) other.id p →
      G (doc.detach other.id) other.id p) :
    Relinks G doc ((addSibling side node other).after doc) :=
  hw.of_addSibling .refl fun p h hne _ =>
    h.beside.placeBeside_relinks hne side (hg p h.beside.parent h.beside.detached.2.1)

theorem unlink_relinks (node : NodeRef) : Relinks G doc ((unlink node).after doc) :=
  Edit.of_require .refl fun _ _ => Edit.of_require .refl fun _ _ => .single (.detach doc node.id)

theorem of_duplicate (hdoc : P doc) (h : ∀ n copy d, owned node doc = .ok n → node.id ≠ root →
      doc.deepCopy node.id = some (copy, d) → P d) : P ((duplicate node).after doc) := by
  refine Edit.of_require hdoc fun n hn => ?_
  split
  · exact hdoc
  · next hroot =>
    refine Edit.of_require hdoc fun copied hcopied => ?_
    obtain ⟨copy, d⟩ := copied
    refine h n copy d hn (by simpa using hroot) ?_
    rw [wholeCopy] at hcopied
    split at hcopied
    · next heq =>
      cases hcopied
      exact heq
    · cases hcopied

theorem duplicate_eq_ok {copied : NodeId × Document} (hn : owned node doc = .ok n)
    (hne : node.id ≠ root) (h : doc.deepCopy node.id = some copied) :
    duplicate node doc = .ok ⟨copied.2.id, copied.1, n.kind⟩ copied.2 := by
  simp [duplicate, Edit.require, Edit.create, wholeCopy, bind, EStateM.bind, hn, hne, h]

theorem duplicate_relinks (hw : doc.Linked) (node : NodeRef) :
    Relinks Outside doc ((duplicate node).after doc) := by
  refine of_duplicate .refl fun n copy d hn _ hcopy => deepCopy_relinks hw ?_ hcopy
  rw [kindOf_of_owned hn]
  exact Option.some_ne_none _

theorem unlinkAll_relinks (s : NodeSet) :
    Relinks G doc (s.unlinkAll.after doc) :=
  Edit.of_forM (P := Relinks G doc) .refl (fun _ node h => h.trans (unlink_relinks node)) s.nodes

/-! ## The new document element -/

/-- Making an element the document element is refused, or done without a look at where it stands. -/
theorem setRoot_cases (doc : Document) (node : NodeRef) :
    (setRoot node).after doc = doc ∧ ¬ (setRoot node).Accepted doc ∨
      (setRoot node).Accepted doc ∧ doc.kindOf node.id = some .element ∧
        doc.rootElement? ≠ some node.id ∧ (setRoot node).after doc = installRoot node.id doc := by
  by_cases hdoc : node.doc = doc.id <;> by_cases hel : doc.isElement node.id = true <;>
    by_cases hroot : doc.rootElement? = some node.id <;>
    simp [setRoot, Edit.after, Edit.Accepted, Edit.require, Edit.change, bind, EStateM.bind, hdoc,
      hel, hroot]
  simpa [isElement] using hel

end Xml.Document
