import Mathlib
import Xml.Proofs.XPath.Axes
import Xml.Proofs.XPath.Meaning

/-!
# The node sets of an evaluation

String values, comparisons and positions all rely on the first node of a set to be the first one in
document order. That holds of every set that comes to stand on the stack while a program runs, in
predicates at any depth too: the nodes are in document order, each once, and in the tree of the
context node.

`Reached` says which states an evaluation comes to, those of the predicates included. One operation
keeps the sets on its stack sound (`Op.run_sound`), whatever the predicates in it answer; from there
it goes by induction over the states (`Reached.sound`).
-/

namespace Xml.XPath

open Document List

variable {doc : Document} {ctx c : Context} {top : NodeId} {nodes kept : List NodeId}

/-! ## Sound values -/

/-- A document in which sorting is by document order. -/
structure Sortable (doc : Document) : Prop where
  linked : doc.Linked
  acyclic : doc.Acyclic
  free : doc.parentOf root = none
  size_pos : 0 < doc.size
  numbered : doc.edited = false → doc.order = List.range doc.size

theorem Sortable.of_run {start : Document} (h : Initial start) (ops : List Operation)
    (hroot : (run ops start).parentOf root = none) : Sortable (run ops start) where
  linked := (h.run_linked ops).1
  acyclic := h.run_acyclic ops hroot
  free := hroot
  size_pos := lt_size_of_kindOf (h.run_linked ops).2
  numbered := h.order_of_not_edited ops

/-- A node of the table in the tree with this top. -/
def Inside (doc : Document) (top x : NodeId) : Prop :=
  x < doc.size ∧ doc.TopOf top x

/-- If a value is a set of nodes, they are in the tree with this top and in document order, each
once. -/
def Value.Sound (doc : Document) (top : NodeId) (value : Value) : Prop :=
  ∀ nodes, value = .nodeSet nodes →
    (∀ x ∈ nodes, Inside doc top x) ∧
      nodes.Pairwise fun a b => doc.order.idxOf a < doc.order.idxOf b

variable {value : Value} {predicates : List (List Op)}

theorem Value.Sound.of_other (h : value.nodes? = none) : value.Sound doc top := by
  rintro nodes rfl
  cases h

theorem Value.Sound.singleton {x : NodeId} (hx : Inside doc top x) :
    (Value.nodeSet [x]).Sound doc top := by
  intro nodes h
  cases h
  exact ⟨forall_mem_singleton.mpr hx, pairwise_singleton _ _⟩

theorem Value.Sound.sublist (h : (Value.nodeSet nodes).Sound doc top) (hkept : kept.Sublist nodes) :
    (Value.nodeSet kept).Sound doc top := by
  obtain ⟨hinside, hincreasing⟩ := h nodes rfl
  intro nodes' he
  cases he
  exact ⟨fun x hx => hinside x (hkept.subset hx), hincreasing.sublist hkept⟩

/-- Sorting nodes of a tree makes a sound set of them. -/
theorem Sortable.sort_sound (hs : Sortable doc) (h : ∀ x ∈ nodes, Inside doc top x) :
    (Value.nodeSet (doc.sort nodes)).Sound doc top := by
  have hperm := hs.linked.order_perm hs.acyclic hs.free hs.size_pos
  obtain ⟨hmem, hincreasing⟩ := sorted_by_position hperm hs.numbered fun x hx => (h x hx).1
  intro nodes' he
  cases he
  exact ⟨fun x hx => h x ((hmem x).mp hx), hincreasing⟩

/-! ## Axes and predicates -/

theorem Sortable.axis_inside (hs : Sortable doc) {axis : Axis} {x y : NodeId}
    (hx : Inside doc top x) (hy : y ∈ axis.nodes doc x) : Inside doc top y := by
  have hsublist := axis.forward_sublist hs.linked hs.acyclic hx.1 hx.2
  have hforward : y ∈ axis.forward doc x := by
    rw [Axis.forward]
    split
    · exact mem_reverse.mpr hy
    · exact hy
  have hup := hs.linked.mem_subtreeOrder.mp (hsublist.subset hforward)
  refine ⟨?_, hx.2.1, hup⟩
  rcases hup with rfl | hup
  · exact hx.2.lt_size hx.1 hs.linked
  · exact hup.lt_size

theorem keepFrom_sublist {evaluate : Context → Except Fault Value} {size place : Nat}
    (h : keepFrom evaluate size place nodes = .ok kept) : kept.Sublist nodes := by
  induction nodes generalizing place kept with
  | nil =>
    cases h
    exact nil_sublist _
  | cons node rest ih =>
    obtain ⟨value, -, h⟩ := bind_eq_ok h
    obtain ⟨others, hothers, h⟩ := bind_eq_ok h
    cases h
    split
    · exact (ih hothers).cons_cons node
    · exact (ih hothers).cons node

theorem keepAll_sublist (h : keepAll doc predicates nodes = .ok kept) : kept.Sublist nodes := by
  induction predicates generalizing nodes with
  | nil =>
    rw [keepAll] at h
    cases h
    exact List.Sublist.refl _
  | cons predicate rest ih =>
    rw [keepAll] at h
    obtain ⟨some, hsome, h⟩ := bind_eq_ok h
    exact (ih h).trans (keepFrom_sublist hsome)

/-- What a loop over nodes gives comes from one of them. -/
theorem mem_of_mapM {select : NodeId → Except Fault (List NodeId)} {results : List (List NodeId)}
    (h : nodes.mapM select = .ok results) {result : List NodeId} (hm : result ∈ results) :
    ∃ x ∈ nodes, select x = .ok result := by
  induction nodes generalizing results with
  | nil =>
    cases h
    cases hm
  | cons x rest ih =>
    rw [mapM_cons] at h
    obtain ⟨first, hfirst, h⟩ := bind_eq_ok h
    obtain ⟨others, hothers, h⟩ := bind_eq_ok h
    cases h
    rcases mem_cons.mp hm with rfl | hm
    · exact ⟨x, mem_cons_self, hfirst⟩
    · obtain ⟨y, hy, hselect⟩ := ih hothers hm
      exact ⟨y, mem_cons_of_mem _ hy, hselect⟩

theorem Sortable.stepFrom_sound (hs : Sortable doc) {axis : Axis} {test : NodeTest}
    (hnodes : ∀ x ∈ nodes, Inside doc top x)
    (h : stepFrom doc axis test (fun selected => keepAll doc predicates selected) nodes =
      .ok value) : value.Sound doc top := by
  obtain ⟨results, hresults, h⟩ := bind_eq_ok h
  cases h
  refine hs.sort_sound fun y hy => ?_
  obtain ⟨result, hresult, hy⟩ := mem_flatten.mp hy
  obtain ⟨x, hx, hselect⟩ := mem_of_mapM hresults hresult
  have hy := mem_filter.mp ((keepAll_sublist hselect).subset hy)
  exact hs.axis_inside (hnodes x hx) hy.1

theorem Sortable.unionOf_sound (hs : Sortable doc) {left right : Value} (hleft : left.Sound doc top)
    (hright : right.Sound doc top) (h : unionOf doc left right = .ok value) :
    value.Sound doc top := by
  unfold unionOf at h
  split at h
  · next l r =>
    cases h
    refine hs.sort_sound fun x hx => ?_
    rcases mem_append.mp hx with hx | hx
    · exact (hleft l rfl).1 x hx
    · exact (hright r rfl).1 x hx
  · cases h

/-! ## Functions and operators -/

theorem nodes_eq_ok {fault : ValueType → Fault} (h : value.nodes fault = .ok nodes) :
    value = .nodeSet nodes := by
  cases value <;> cases h
  rfl

theorem BinaryOp.apply_sound (op : BinaryOp) (left right : Value) :
    (op.apply doc left right).Sound doc top := by
  cases op <;> exact .of_other rfl

theorem aboutName_sound {f : Function} {arguments : List Value} {what : NodeId → String}
    (h : f.aboutName doc ctx arguments what = .ok value) : value.Sound doc top := by
  obtain ⟨node, -, h⟩ := bind_eq_ok h
  cases h
  exact .of_other rfl

theorem Function.apply_sound {f : Function} {arguments : List Value}
    (h : f.apply doc ctx arguments = .ok value) : value.Sound doc top := by
  have counted {m : Except Fault (List NodeId)} {number : List NodeId → Float}
      (h : m.map (fun nodes => Value.number (number nodes)) = .ok value) :
      value.Sound doc top := by
    cases m with
    | error fault => cases h
    | ok nodes =>
      cases h
      exact Value.Sound.of_other rfl
  unfold Function.apply at h
  split at h
  all_goals first
    | exact aboutName_sound h
    | exact counted h
    | (cases h; exact Value.Sound.of_other rfl)
    | cases h

/-! ## Operations -/

theorem getLastD_lineage (hw : doc.Linked) {x : NodeId} (hx : Inside doc top x) :
    (doc.lineage x).getLastD x = top := by
  obtain ⟨path, hpath, -, -, hlast⟩ := hw.exists_lineage hx.2.1 hx.1 hx.2.2
  rw [hpath, getLastD_eq_getLast?, hlast]
  rfl

/-- **One operation keeps the stack sound.** -/
theorem Op.run_sound (hs : Sortable doc) {op : Op} {stack stack' : List Value}
    (hctx : Inside doc top ctx.node) (hstack : ∀ value ∈ stack, value.Sound doc top)
    (h : op.run doc ctx stack = .ok stack') : ∀ value ∈ stack', value.Sound doc top := by
  -- what is pushed is sound, and what is left below it was there before
  suffices hpushed : ∃ value rest, stack' = value :: rest ∧ value.Sound doc top ∧ rest ⊆ stack by
    obtain ⟨value, rest, rfl, hvalue, hrest⟩ := hpushed
    exact forall_mem_cons.mpr ⟨hvalue, fun v hv => hstack v (hrest hv)⟩
  unfold Op.run at h
  split at h
  · -- the root
    cases h
    refine ⟨_, _, rfl, .singleton ?_, List.Subset.refl _⟩
    rw [getLastD_lineage hs.linked hctx]
    exact ⟨hctx.2.lt_size hctx.1 hs.linked, hctx.2.1, .inl rfl⟩
  · -- the context node
    cases h
    exact ⟨_, _, rfl, .singleton hctx, List.Subset.refl _⟩
  · cases h
    exact ⟨_, _, rfl, Value.Sound.of_other rfl, List.Subset.refl _⟩
  · cases h
    exact ⟨_, _, rfl, Value.Sound.of_other rfl, List.Subset.refl _⟩
  · -- a step
    split at h
    · next value rest =>
      obtain ⟨nodes, hnodes, h⟩ := bind_eq_ok h
      obtain ⟨result, hresult, h⟩ := bind_eq_ok h
      cases h
      have hvalue := hstack value mem_cons_self
      have hinside := (hvalue nodes (nodes_eq_ok hnodes)).1
      exact ⟨_, _, rfl, hs.stepFrom_sound hinside hresult, subset_cons_self _ _⟩
    · cases h
  · -- a filter
    split at h
    · next value rest =>
      obtain ⟨nodes, hnodes, h⟩ := bind_eq_ok h
      obtain ⟨kept, hkept, h⟩ := bind_eq_ok h
      cases h
      have hvalue := hstack value mem_cons_self
      rw [nodes_eq_ok hnodes] at hvalue
      exact ⟨_, _, rfl, hvalue.sublist (keepFrom_sublist hkept), subset_cons_self _ _⟩
    · cases h
  · -- a union
    split at h
    · next right left rest =>
      obtain ⟨result, hresult, h⟩ := bind_eq_ok h
      cases h
      have hright := hstack right mem_cons_self
      have hleft := hstack left (mem_cons_of_mem _ mem_cons_self)
      exact ⟨_, _, rfl, hs.unionOf_sound hleft hright hresult, fun v hv => by simp [hv]⟩
    · cases h
  · split at h
    · cases h
      exact ⟨_, _, rfl, BinaryOp.apply_sound _ _ _, fun v hv => by simp [hv]⟩
    · cases h
  · split at h
    · cases h
      exact ⟨_, _, rfl, Value.Sound.of_other rfl, subset_cons_self _ _⟩
    · cases h
  · -- a call
    split at h
    · cases h
    · obtain ⟨result, hresult, h⟩ := bind_eq_ok h
      cases h
      exact ⟨_, _, rfl, Function.apply_sound hresult, drop_subset _ _⟩

/-! ## Whole evaluations -/

/-- The states that the evaluation of a program comes to: a context, the operations that are left
and the stack. A predicate is a program of its own. It runs for each node in question, with that
node and its place as the context, and on an empty stack. -/
inductive Reached (doc : Document) (program : Program) (ctx : Context) :
    Context → List Op → List Value → Prop where
  | start : Reached doc program ctx ctx program []
  | next {c : Context} {op : Op} {rest : List Op} {stack stack' : List Value}
      (h : Reached doc program ctx c (op :: rest) stack)
      (hrun : op.run doc c stack = .ok stack') : Reached doc program ctx c rest stack'
  | filter {c : Context} {predicate rest : List Op} {nodes : List NodeId} {stack : List Value}
      {node : NodeId} {place : Nat}
      (h : Reached doc program ctx c (.filter predicate :: rest) (.nodeSet nodes :: stack))
      (hnode : (node, place) ∈ nodes.zipIdx 1) :
      Reached doc program ctx ⟨node, place, nodes.length⟩ predicate []
  /-- The predicates of a step are tried one after the other on what the ones before have left. -/
  | step {c : Context} {axis : Axis} {test : NodeTest} {earlier later : List (List Op)}
      {predicate rest : List Op} {origins selected : List NodeId} {stack : List Value}
      {origin node : NodeId} {place : Nat}
      (h : Reached doc program ctx c (.step axis test (earlier ++ predicate :: later) :: rest)
        (.nodeSet origins :: stack))
      (horigin : origin ∈ origins)
      (hselected : keepAll doc earlier
        ((axis.nodes doc origin).filter (test.accepts doc axis.principal)) = .ok selected)
      (hnode : (node, place) ∈ selected.zipIdx 1) :
      Reached doc program ctx ⟨node, place, selected.length⟩ predicate []

variable {program first rest : List Op} {stack stack' : List Value}

/-- A run of operations leads from reached states to reached states. -/
theorem Reached.runAll (h : Reached doc program ctx c (first ++ rest) stack)
    (hrun : XPath.runAll doc c first stack = .ok stack') :
    Reached doc program ctx c rest stack' := by
  induction first generalizing stack with
  | nil =>
    rw [XPath.runAll] at hrun
    cases hrun
    exact h
  | cons op first ih =>
    rw [XPath.runAll] at hrun
    obtain ⟨between, hop, hrun⟩ := bind_eq_ok hrun
    exact ih (h.next hop) hrun

/-- **Every set that an evaluation comes to is sound**, and every context node is in the tree. -/
theorem Reached.sound (hs : Sortable doc) (hctx : Inside doc top ctx.node)
    (h : Reached doc program ctx c rest stack) :
    Inside doc top c.node ∧ ∀ value ∈ stack, value.Sound doc top := by
  induction h with
  | start => exact ⟨hctx, forall_mem_nil _⟩
  | next h hrun ih => exact ⟨ih.1, Op.run_sound hs ih.1 ih.2 hrun⟩
  | filter h hnode ih =>
    have hnodes := ih.2 _ mem_cons_self
    exact ⟨(hnodes _ rfl).1 _ (fst_mem_of_mem_zipIdx hnode), forall_mem_nil _⟩
  | step h horigin hselected hnode ih =>
    have horigins := ih.2 _ mem_cons_self
    have hmem := (keepAll_sublist hselected).subset (fst_mem_of_mem_zipIdx hnode)
    exact ⟨hs.axis_inside ((horigins _ rfl).1 _ horigin) (mem_filter.mp hmem).1,
      forall_mem_nil _⟩

/-- **Node sets are in document order, without repetitions and in the tree of the context node.**
From a new document or one that was read, after any operations that leave the document node on top:
whatever program is evaluated at a node of the table, all nodes of a set that comes to stand on the
stack, in the program itself or in a predicate at any depth, are nodes of the table with the same
top above them as the context node, and stand there in document order, each once. That goes for the
result of an expression too. -/
theorem node_sets_in_document_order (start doc : Document) (h : Initial start)
    (ops : List Operation) (hdoc : run ops start = doc) (hroot : doc.parentOf root = none)
    (ctx : Context) (hctx : ctx.node < doc.size) :
    ∃ top, doc.TopOf top ctx.node ∧
      (∀ (program : Program) (c : Context) (rest : List Op) (stack : List Value),
        Reached doc program ctx c rest stack → ∀ nodes, .nodeSet nodes ∈ stack →
          (∀ x ∈ nodes, x < doc.size ∧ doc.TopOf top x) ∧
            nodes.Pairwise fun a b => doc.order.idxOf a < doc.order.idxOf b) ∧
      ∀ (text : String) (table : PrefixTable) (nodes : List NodeId),
        evaluate doc ctx text table = .ok (.nodeSet nodes) →
          (∀ x ∈ nodes, x < doc.size ∧ doc.TopOf top x) ∧
            nodes.Pairwise fun a b => doc.order.idxOf a < doc.order.idxOf b := by
  subst hdoc
  have hs := Sortable.of_run h ops hroot
  obtain ⟨top, -, hfree, hup⟩ := hs.linked.exists_top hs.acyclic hctx
  have hinside : Inside (run ops start) top ctx.node := ⟨hctx, hfree, hup⟩
  refine ⟨top, hinside.2, fun program c rest stack hreached nodes hnodes => ?_,
    fun text table nodes heval => ?_⟩
  · exact (hreached.sound hs hinside).2 _ hnodes nodes rfl
  · obtain ⟨program, -, heval⟩ := bind_eq_ok heval
    obtain ⟨stack, hrun, htop⟩ := bind_eq_ok heval
    have hstart : Reached (run ops start) program ctx ctx (program ++ []) [] := by
      rw [List.append_nil]
      exact .start
    have hreached := hstart.runAll hrun
    cases stack with
    | nil => cases htop
    | cons value stack =>
      cases htop
      exact (hreached.sound hs hinside).2 _ List.mem_cons_self nodes rfl

/-- **A reverse axis comes nearest first, its set does not.** -/
theorem preceding_nodes_in_document_order :
    let doc := run threeBranches (empty 0)
    (Initial (empty 0) ∧ doc.parentOf root = none ∧ 1 < doc.size) ∧
      Axis.preceding.nodes doc 1 = [7, 4] ∧
      evaluate doc ⟨1, 1, 1⟩ "preceding::node()" {} = .ok (.nodeSet [4, 7]) ∧
      ∃ top, doc.TopOf top 1 ∧ (∀ x ∈ [4, 7], x < doc.size ∧ doc.TopOf top x) ∧
        [4, 7].Pairwise fun a b => doc.order.idxOf a < doc.order.idxOf b := by
  intro doc
  have hinit := Initial.new 0
  have hroot : doc.parentOf root = none := by decide +kernel
  have hlt : 1 < doc.size := by decide +kernel
  have haxis : Axis.preceding.nodes doc 1 = [7, 4] := by decide +kernel
  have hselected : [7, 4].filter (NodeTest.node.accepts doc .element) = [7, 4] := by decide +kernel
  have hsort : doc.sort [7, 4] = [4, 7] := by
    have hedited : doc.edited = true := by decide +kernel
    have hranks : doc.ranks = #[0, 5, 1, 2, 3, 6, 7, 4, 8] := by decide +kernel
    rw [sort, if_pos hedited, hranks]
    simp [List.mergeSort]
    rfl
  have hcompile : compile "preceding::node()" {} =
      .ok [.context, .step .preceding .node []] := by cbv
  have heval : evaluate doc ⟨1, 1, 1⟩ "preceding::node()" {} = .ok (.nodeSet [4, 7]) := by
    rw [evaluate, hcompile]
    simp [Program.eval, runAll, Op.run, stepFrom, Value.nodes, topOf, keepAll, Axis.principal,
      haxis, hselected, hsort, bind, Except.bind, pure, Except.pure]
  obtain ⟨top, htop, -, hresult⟩ :=
    node_sets_in_document_order (empty 0) doc hinit threeBranches rfl hroot ⟨1, 1, 1⟩ hlt
  exact ⟨⟨hinit, hroot, hlt⟩, haxis, heval, top, htop, hresult _ _ _ heval⟩

end Xml.XPath
