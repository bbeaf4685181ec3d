import Xml.Proofs.Links.Runs
import Xml.Proofs.Trees.Writing

/-!
# The stack of the writer

The writer takes one entry after the other off its stack. `writeStep` is what it does with an entry,
and `WorksOff` is a run of such steps that ends with an empty stack, however many they are. Where
there is a tree below a node, the run from that node ends (`TreeBelow.exists_wholeRun`) before the
bound on the steps shows.

What is written is the markup of the node, told by recursion over its children (`IsMarkup`), and
the run itself is nested: between the start of an element and its end the stack is worked off down
to where it was (`Nested`). So a document is written as its trees (`toList_markup`).
-/

namespace Xml.Document

open List

variable {doc : Document} {id : NodeId} {node : Node} {stack taken rest : List Pending}

/-! ## One step -/

/-- What the writer writes for an entry of its stack, and what it puts in the place of it. -/
def writeStep (doc : Document) : Pending → String × List Pending
  | .close id => (doc.closeTag id, [])
  | .enter id =>
    match doc.get? id with
    | none => ("", [])
    | some node =>
      match node.kind with
      | .element =>
        if node.firstChild.isNone then (doc.openTag node ++ "/>", [])
        else (doc.openTag node ++ ">", doc.enterChildren node [.close id])
      | .document => ("", doc.enterChildren node [])
      | _ => (doc.leafMarkup id node, [])

theorem enterChildren_append (doc : Document) (node : Node) (front stack : List Pending) :
    doc.enterChildren node (front ++ stack) = doc.enterChildren node front ++ stack := by
  unfold enterChildren
  rw [foldl_flip_cons_eq_append, foldl_flip_cons_eq_append, append_assoc]

/-- **The loop of the writer** does nothing but take such steps. -/
theorem writeFrom_cons (doc : Document) (bound : Nat) (item : Pending) (stack : List Pending)
    (out : String) :
    doc.writeFrom (bound + 1) (item :: stack) out =
      doc.writeFrom bound ((doc.writeStep item).2 ++ stack) (out ++ (doc.writeStep item).1) := by
  cases item with
  | close id => rfl
  | enter id =>
    rw [writeFrom, writeStep]
    cases doc.get? id with
    | none => simp
    | some node =>
      dsimp only
      cases node.kind with
      | element =>
        dsimp only
        split
        · simp [String.append_assoc]
        · simp [← enterChildren_append, String.append_assoc]
      | document => simp [← enterChildren_append]
      | _ => rfl

/-- What is written when the writer comes to a node. -/
def opening (doc : Document) (id : NodeId) (node : Node) : String :=
  match node.kind with
  | .element => doc.openTag node ++ if (doc.children id).isEmpty then "/>" else ">"
  | .document => ""
  | _ => doc.leafMarkup id node

/-- What is still to be written of a node behind its children. -/
def closing (doc : Document) (id : NodeId) (node : Node) : List Pending :=
  if node.kind = .element ∧ (doc.children id).isEmpty = false then [.close id] else []

theorem children_of_leaf (hw : doc.Linked) (h : doc.get? id = some node)
    (he : node.kind ≠ .element) (hd : node.kind ≠ .document) : doc.children id = [] := by
  refine hw.children_eq_nil fun hcon => ?_
  rw [IsContainer, kindOf, h] at hcon
  exact hcon.elim (fun hk => he (Option.some.inj hk)) fun hk => hd (Option.some.inj hk)

/-- **The writer comes to a node**: it goes on to the children, and to what closes the node. -/
theorem writeStep_enter (hw : doc.Linked) (h : doc.get? id = some node) :
    doc.writeStep (.enter id) =
      (doc.opening id node, (doc.children id).map .enter ++ doc.closing id node) := by
  have hempty := isNone_firstChild hw h
  have henter := enterChildren_eq hw h
  have hleaf := children_of_leaf hw h
  rw [writeStep, h, opening, closing]
  cases hk : node.kind with
  | element => cases hcs : doc.children id <;> simp [hk, hempty, hcs, henter]
  | document => simp [hk, henter]
  | _ => simp [hk, hleaf (by simp [hk]) (by simp [hk])]

/-! ## Runs -/

/-- The stack is worked off to its end, and these entries are taken off it on the way. -/
inductive WorksOff (doc : Document) : List Pending → List Pending → Prop where
  | nil : WorksOff doc [] []
  | cons {item : Pending} {stack taken : List Pending}
      (h : WorksOff doc ((doc.writeStep item).2 ++ stack) taken) :
      WorksOff doc (item :: stack) (item :: taken)

/-- What is written for entries that are taken one after the other. -/
def written (doc : Document) (taken : List Pending) : String :=
  String.join (taken.map fun item => (doc.writeStep item).1)

theorem written_cons (doc : Document) (item : Pending) (taken : List Pending) :
    doc.written (item :: taken) = (doc.writeStep item).1 ++ doc.written taken := by
  rw [written, map_cons, String.join_cons, written]

theorem written_append (doc : Document) (taken rest : List Pending) :
    doc.written (taken ++ rest) = doc.written taken ++ doc.written rest := by
  rw [written, map_append, String.join_append, written, written]

theorem written_flatMap (doc : Document) (cs : List NodeId) (taken : NodeId → List Pending) :
    doc.written (cs.flatMap taken) = String.join (cs.map fun c => doc.written (taken c)) := by
  induction cs with
  | nil => rfl
  | cons c cs ih =>
    rw [flatMap_cons, written_append, ih, map_cons, String.join_cons]

/-- **A run that ends is what the writer does**, if it may take as many steps. -/
theorem WorksOff.writeFrom_eq (h : WorksOff doc stack taken) {bound : Nat}
    (hb : taken.length ≤ bound) (out : String) :
    doc.writeFrom bound stack out = out ++ doc.written taken := by
  induction h generalizing bound out with
  | nil => cases bound <;> simp [writeFrom, written]
  | @cons item stack taken _ ih =>
    rw [length_cons] at hb
    obtain ⟨bound, rfl⟩ := Nat.exists_eq_add_of_le' (Nat.le_trans (Nat.le_add_left 1 _) hb)
    rw [writeFrom_cons, ih (Nat.le_of_succ_le_succ hb), written_cons, String.append_assoc]

/-! ## What a run writes -/

/-- An element that is written with a start tag and an end tag. -/
def HasEndTag (doc : Document) (id : NodeId) : Prop :=
  doc.kindOf id = some .element ∧ doc.children id ≠ []

/-- **Every start tag is closed by its own end tag**, and what comes between the two is nested
again. -/
inductive Nested (doc : Document) : List Pending → Prop where
  | nil : Nested doc []
  | whole {id : NodeId} {rest : List Pending} (h : ¬ doc.HasEndTag id) (hrest : Nested doc rest) :
      Nested doc (.enter id :: rest)
  | element {id : NodeId} {inner rest : List Pending} (h : doc.HasEndTag id)
      (hinner : Nested doc inner) (hrest : Nested doc rest) :
      Nested doc (.enter id :: inner ++ .close id :: rest)

theorem Nested.append (h : Nested doc taken) (hrest : Nested doc rest) :
    Nested doc (taken ++ rest) := by
  induction h with
  | nil => exact hrest
  | whole h _ ih => exact .whole h ih
  | @element id inner behind h hinner _ _ ih =>
    have hall := Nested.element h hinner ih
    rwa [← cons_append, ← append_assoc] at hall

theorem Nested.flatMap {cs : List NodeId} {taken : NodeId → List Pending}
    (h : ∀ c ∈ cs, Nested doc (taken c)) : Nested doc (cs.flatMap taken) := by
  induction cs with
  | nil => exact .nil
  | cons c cs ih =>
    obtain ⟨hc, hcs⟩ := forall_mem_cons.mp h
    rw [flatMap_cons]
    exact hc.append (ih hcs)

/-- The markup of a node around that of its children. -/
def markupAround (doc : Document) (id : NodeId) (node : Node) (below : String) : String :=
  match node.kind with
  | .element =>
    if (doc.children id).isEmpty then doc.openTag node ++ "/>"
    else doc.openTag node ++ ">" ++ below ++ "</" ++ node.name ++ ">"
  | .document => below
  | _ => doc.leafMarkup id node

/-- **The markup of a node, by recursion** over its children in their order. -/
inductive IsMarkup (doc : Document) : NodeId → String → Prop where
  | around {id : NodeId} {node : Node} {text : NodeId → String} (h : doc.get? id = some node)
      (hcs : ∀ c ∈ doc.children id, IsMarkup doc c (text c)) :
      IsMarkup doc id (doc.markupAround id node (String.join ((doc.children id).map text)))

theorem IsMarkup.unique {text text' : String} (h : IsMarkup doc id text)
    (h' : IsMarkup doc id text') : text = text' := by
  induction h generalizing text' with
  | around hn _ ih =>
    obtain ⟨hn', hcs'⟩ := h'
    obtain rfl := Option.some.inj (hn.symm.trans hn')
    rw [map_congr_left fun c hc => ih c hc (hcs' c hc)]

/-! ## The run over a node -/

/-- These are the entries that are taken off the stack for a node and all that is below it. -/
structure WholeRun (doc : Document) (id : NodeId) (taken : List Pending) : Prop where
  worksOff : ∀ stack rest, WorksOff doc stack rest →
    WorksOff doc (.enter id :: stack) (taken ++ rest)
  nested : Nested doc taken
  isMarkup : IsMarkup doc id (doc.written taken)

/-- The children of a node are worked off one after the other. -/
theorem WholeRun.all {cs : List NodeId} {taken : NodeId → List Pending}
    (h : ∀ c ∈ cs, WholeRun doc c (taken c)) (hrest : WorksOff doc stack rest) :
    WorksOff doc (cs.map .enter ++ stack) (cs.flatMap taken ++ rest) := by
  induction cs with
  | nil => exact hrest
  | cons c cs ih =>
    obtain ⟨hc, hcs⟩ := forall_mem_cons.mp h
    rw [flatMap_cons, append_assoc]
    exact hc.worksOff _ _ (ih hcs)

/-- **The run over a node**: the node is entered, its children are worked off, and it is closed. -/
theorem WholeRun.around (hw : doc.Linked) (hn : doc.get? id = some node)
    {taken : NodeId → List Pending} (h : ∀ c ∈ doc.children id, WholeRun doc c (taken c)) :
    WholeRun doc id
      (.enter id :: (doc.children id).flatMap taken ++ doc.closing id node) := by
  have hstep := writeStep_enter hw hn
  have hinner := Nested.flatMap fun c hc => (h c hc).nested
  refine ⟨fun stack rest hrest => ?_, ?_, ?_⟩
  · have hclosing : WorksOff doc (doc.closing id node ++ stack) (doc.closing id node ++ rest) := by
      unfold closing
      split
      · exact .cons hrest
      · exact hrest
    have hall := WholeRun.all h hclosing
    rw [← append_assoc] at hall
    rw [append_assoc, cons_append]
    refine .cons ?_
    rw [hstep]
    exact hall
  · unfold closing
    split
    · next hend =>
      refine .element ⟨?_, ?_⟩ hinner .nil
      · rw [kindOf, hn, Option.map_some, hend.1]
      · exact fun hnil => by simp [hnil] at hend
    · next hend =>
      rw [append_nil]
      refine .whole (fun htag => hend ⟨?_, ?_⟩) hinner
      · simpa [kindOf, hn] using htag.1
      · simpa using htag.2
  · have hmarkup := IsMarkup.around hn fun c hc => (h c hc).isMarkup
    have hwritten : doc.written (.enter id :: (doc.children id).flatMap taken ++
        doc.closing id node) = doc.markupAround id node
          (String.join ((doc.children id).map fun c => doc.written (taken c))) := by
      have hleaf := children_of_leaf hw hn
      rw [cons_append, written_cons, hstep, written_append, written_flatMap, opening, closing,
        markupAround]
      cases hk : node.kind with
      | element =>
        cases hcs : doc.children id <;>
          simp [written, writeStep, closeTag, nameOf, hn, String.append_assoc]
      | document => simp [written]
      | _ => simp [hleaf (by simp [hk]) (by simp [hk]), written]
    rw [hwritten]
    exact hmarkup

theorem length_flatMap_le {cs : List NodeId} {taken : NodeId → List Pending}
    {below : NodeId → List NodeId} (h : ∀ c ∈ cs, (taken c).length ≤ 2 * (below c).length) :
    (cs.flatMap taken).length ≤ 2 * (cs.flatMap below).length := by
  induction cs with
  | nil => exact Nat.zero_le _
  | cons c cs ih =>
    obtain ⟨hc, hcs⟩ := forall_mem_cons.mp h
    have hle := ih hcs
    rw [flatMap_cons, flatMap_cons, length_append, length_append]
    omega

/-- Two entries at most are taken for each node. -/
theorem WithinDepth.exists_wholeRun (hw : doc.Linked) {depth : Nat}
    (hdepth : doc.WithinDepth depth id) (hid : id < doc.size) :
    ∃ taken, WholeRun doc id taken ∧ taken.length ≤ 2 * (doc.subtreeTo depth id).length := by
  induction depth generalizing id with
  | zero => exact hdepth.elim
  | succ depth ih =>
    obtain ⟨node, hn⟩ := exists_get? hid
    choose! taken hrun hlength using fun c (hc : c ∈ doc.children id) =>
      ih (hdepth c hc) (hw.lt_size_of_mem hc)
    refine ⟨_, WholeRun.around hw hn hrun, ?_⟩
    have hclosing : (doc.closing id node).length ≤ 1 := by
      unfold closing
      split <;> simp
    have hbelow := length_flatMap_le hlength
    rw [subtreeTo, cons_append, length_cons, length_cons, length_append]
    omega

/-- **The run over a tree ends**, and the bound on the steps is far enough. -/
theorem TreeBelow.exists_wholeRun (hw : doc.Linked) (h : doc.TreeBelow id) (hid : id < doc.size) :
    ∃ taken, WholeRun doc id taken ∧ taken.length ≤ 2 * doc.size := by
  obtain ⟨taken, hrun, hlength⟩ := (h.withinDepth hw hid).exists_wholeRun hw hid
  have hle := length_subtreeTo_le hw doc.size h hid
  exact ⟨taken, hrun, by omega⟩

theorem WholeRun.writeFrom_eq (h : WholeRun doc id taken) {bound : Nat}
    (hb : taken.length ≤ bound) : doc.writeFrom bound [.enter id] "" = doc.written taken := by
  have hall := h.worksOff [] [] .nil
  rw [append_nil] at hall
  rw [hall.writeFrom_eq hb, String.empty_append]

/-- **What is written of a tree is its markup.** -/
theorem TreeBelow.isMarkup (hw : doc.Linked) (h : doc.TreeBelow id) (hid : id < doc.size) :
    IsMarkup doc id (doc.nodeMarkup id) := by
  obtain ⟨taken, hrun, hlength⟩ := h.exists_wholeRun hw hid
  rw [nodeMarkup, hrun.writeFrom_eq (by omega)]
  exact hrun.isMarkup

theorem TreeBelow.nodeMarkup_eq (hw : doc.Linked) (h : doc.TreeBelow id)
    (hn : doc.get? id = some node) : doc.nodeMarkup id =
      doc.markupAround id node (String.join ((doc.children id).map doc.nodeMarkup)) := by
  refine (h.isMarkup hw (lt_size_of_get? hn)).unique (.around hn fun c hc => ?_)
  exact (h.child (hw.mem_children.mp hc).1).isMarkup hw (hw.lt_size_of_mem hc)

/-! ## Trees -/

/-- **The markup of a node is that of its tree.** -/
theorem IsMarkup.toList_eq (hw : doc.Linked) {depth : Nat} {text : String}
    (h : IsMarkup doc id text) (hc : (doc.treeTo depth id).Canonical) :
    text.toList = (doc.treeTo depth id).markup := by
  induction depth generalizing id text with
  | zero => cases hc
  | succ depth ih =>
    obtain @⟨_, node, text, hn, hcs⟩ := h
    rw [treeTo_of_get? hn] at hc ⊢
    by_cases hk : node.kind = .element
    · rw [Node.tree, hk] at hc ⊢
      rw [markupAround, hk]
      obtain @⟨_, _, _, _, -, -, hc⟩ := hc
      have hbelow : (doc.children id).flatMap (fun c => (text c).toList) =
          (doc.children id).flatMap fun c => (doc.treeTo depth c).markup :=
        flatMap_congr fun c hm => ih (hcs c hm) (hc _ (mem_map_of_mem hm))
      have htag := toList_openTag (attributes_lt_size hw hn)
      rw [Tree.markup, isEmpty_map, flatMap_map, ← hbelow]
      cases (doc.children id).isEmpty <;> simp [htag, String.toList_join, flatMap_map]
    · have hd : node.kind ≠ .document := by
        intro hd
        rw [Node.tree, hd] at hc
        cases hc
      rw [markupAround, ← toList_leafMarkup doc id hk hc]
      cases hkind : node.kind <;> simp_all

theorem toList_nodeMarkup (hw : doc.Linked) (ha : doc.Acyclic) (hid : id < doc.size) {depth : Nat}
    (hc : (doc.treeTo depth id).Canonical) :
    (doc.nodeMarkup id).toList = (doc.treeTo depth id).markup :=
  ((ha.treeBelow id).isMarkup hw hid).toList_eq hw hc

/-- **A document is written as its trees**, each on a line. -/
theorem toList_markup (hw : doc.Linked) (ha : doc.Acyclic) (hc : ∀ t ∈ doc.trees, t.Canonical) :
    doc.markup.toList = doc.trees.flatMap fun t => t.markup ++ ['\n'] := by
  rw [markup, trees, String.toList_join, flatMap_map, flatMap_map]
  refine flatMap_congr fun c hm => ?_
  rw [String.toList_append,
    toList_nodeMarkup hw ha (hw.lt_size_of_mem hm) (hc _ (mem_map_of_mem hm))]
  rfl

/-- **The writer and the recursion.** In a document whose links fit together without a cycle, the
writer comes to an end with every node other than the document node. What it writes is the markup of
the node as the recursion tells it, and no other text is, and each start tag on the way is closed by
its own end tag where what is inside of it ends. The markup of the document is that of its top
nodes, each with a line end behind it. -/
theorem stack_writes_by_recursion (doc : Document) (hw : doc.Linked) (ha : doc.Acyclic)
    (n : NodeId) (hn : n < doc.size) (hroot : n ≠ root) :
    (∃ taken, WorksOff doc [.enter n] taken ∧ Nested doc taken ∧
      doc.markupOf n = doc.written taken) ∧
    (∀ text, IsMarkup doc n text ↔ doc.markupOf n = text) ∧
    doc.markupOf root = String.join ((doc.children root).map fun c => doc.markupOf c ++ "\n") := by
  have hmarkupOf : ∀ {c}, c ≠ root → doc.markupOf c = doc.nodeMarkup c := fun hc => by
    rw [markupOf, if_neg (by simpa using hc)]
  obtain ⟨taken, hrun, hlength⟩ := (ha.treeBelow n).exists_wholeRun hw hn
  have hwritten : doc.markupOf n = doc.written taken := by
    rw [hmarkupOf hroot, nodeMarkup, hrun.writeFrom_eq (by omega)]
  refine ⟨⟨taken, ?_, hrun.nested, hwritten⟩, fun text => ⟨fun htext => ?_, ?_⟩, ?_⟩
  · have hall := hrun.worksOff [] [] .nil
    rwa [List.append_nil] at hall
  · rw [hwritten]
    exact hrun.isMarkup.unique htext
  · rintro rfl
    rw [hwritten]
    exact hrun.isMarkup
  · rw [markupOf, if_pos (by rfl), markup]
    refine congrArg String.join (List.map_congr_left fun c hc => ?_)
    have hne : c ≠ root := by
      rintro rfl
      exact ha root (.parent (hw.mem_children.mp hc).1)
    rw [hmarkupOf hne]

/-- An element with an empty one and the document node below it. -/
theorem moved_document_node_written :
    let doc := run moveDocumentNode (empty 0)
    (doc.Linked ∧ doc.Acyclic ∧ doc.children 1 = [2, root]) ∧
      IsMarkup doc 1 "<e><c/></e>" ∧
      ∃ taken, WorksOff doc [.enter 1] taken ∧ Nested doc taken ∧
        doc.written taken = "<e><c/></e>" := by
  intro doc
  have hinit := Initial.new 0
  have hw : doc.Linked := (hinit.run_linked moveDocumentNode).1
  have ha : doc.Acyclic := by
    refine (hinit.run_acyclic_iff moveDocumentNode).mpr (fun before op hpre hraises => ?_) _
      (List.prefix_refl _)
    -- no operation makes an element the document element
    have hmem : op ∈ moveDocumentNode := hpre.subset (by simp)
    obtain ⟨ref, rfl, -⟩ := hraises
    simp [moveDocumentNode] at hmem
  have hmarkup : doc.markupOf 1 = "<e><c/></e>" := by decide +kernel
  obtain ⟨⟨taken, hworks, hnested, hwritten⟩, hiff, -⟩ :=
    stack_writes_by_recursion doc hw ha 1 (by decide) (by decide)
  exact ⟨⟨hw, ha, by decide +kernel⟩, (hiff _).mpr hmarkup, taken, hworks, hnested,
    hwritten.symm.trans hmarkup⟩

end Xml.Document
