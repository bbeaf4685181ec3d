import Xml.Proofs.Sax.Replay
import Xml.Proofs.Scan.Readable
import Xml.Proofs.Trees.Rebuilding

/-!
# Streaming and building agree

One list of events, two readers: one builds a document, the other passes a stream on. Along every
scan, as long as no problem was told, the stream is the replay of what is built so far, up to the
ends of the elements that are still open (`Agreed.closed`). So the stream of a document that can be
read without problems is the beginning of the document, its replay, and the end of the document
(`stream_is_replay`).
-/

namespace Xml

open List

namespace SaxEvent

def isWarning : SaxEvent → Bool
  | .warning _ => true
  | _ => false

end SaxEvent

namespace Sax

def withoutWarnings (out : List SaxEvent) : List SaxEvent :=
  out.filter fun event => !event.isWarning

/-- Whether a CDATA section is open behind events. -/
def openSection (inCData : Bool) (events : List Event) : Bool :=
  events.foldl (fun inside event => (pass inside event).2) inCData

theorem streamFrom_append (inCData : Bool) (events more : List Event) :
    streamFrom inCData (events ++ more) =
      streamFrom inCData events ++ streamFrom (openSection inCData events) more := by
  induction events generalizing inCData with
  | nil => rfl
  | cons event events ih =>
    rw [cons_append, streamFrom, streamFrom, openSection, foldl_cons, ← openSection]
    split
    · next out after heq => rw [ih, heq, cons_append]
    · next after heq => rw [ih, heq]

/-- What events add to a stream outside CDATA sections. -/
theorem withoutWarnings_stream_append {events : List Event}
    (h : openSection false events = false) (more : List Event) :
    withoutWarnings (stream (events ++ more)) =
      withoutWarnings (stream events) ++ withoutWarnings (streamFrom false more) := by
  rw [stream, streamFrom_append, h, withoutWarnings, filter_append]
  rfl

theorem openSection_append {events : List Event} (h : openSection false events = false)
    (more : List Event) : openSection false (events ++ more) = openSection false more := by
  rw [openSection, foldl_append]
  exact congrArg (fun inCData => openSection inCData more) h

end Sax

namespace Document.Builder

variable {i : Nat} {b b' : Builder} {node : Node} {attributes : List Attribute}

/-! ## Names and texts -/

theorem NewChild.nameOf (h : NewChild b b' node attributes) {x : NodeId} (hx : x < b.doc.size) :
    b'.doc.nameOf x = b.doc.nameOf x :=
  congrArg Attribute.name (attributeOf_eq (h.added.grows.node x hx))

theorem NewChild.nameOf_new (h : NewChild b b' node attributes) :
    b'.doc.nameOf b.doc.size = node.name := by
  obtain ⟨n, hn, hunlink⟩ := Option.map_eq_some_iff.mp h.added.node
  rw [Document.nameOf, hn, ← hunlink]
  rfl

theorem NewChild.kindOf_new (h : NewChild b b' node attributes) :
    b'.doc.kindOf b.doc.size = some node.kind := by
  obtain ⟨n, hn, hunlink⟩ := Option.map_eq_some_iff.mp h.added.node
  rw [kindOf, hn, ← hunlink]
  rfl

/-- The names of the elements that were open stay what they were. -/
theorem NewChild.names (h : NewChild b b' node attributes) (hb : Grown i b) :
    b.opened.map b'.doc.nameOf = b.opened.map b.doc.nameOf :=
  map_congr_left fun x hx => h.nameOf (lt_size_of_kindOf (hb.opened x hx))

theorem NewChild.openText? (h : NewChild b b' node attributes) (hb : Grown i b) (hb' : Grown i b')
    (ho : b'.opened = b.opened) (hk : node.kind ≠ .text) : b'.openText? = none := by
  refine openText?_eq_none hb' fun c hc => ?_
  rw [current_eq ho, h.added.grows.children _ hb.current.lt_size, if_pos rfl,
    getLast?_concat] at hc
  rw [← Option.some.inj hc, h.kindOf_new]
  exact fun he => hk (Option.some.inj he)

theorem NewChild.openText?_inside (h : NewChild b b' node attributes) (hb' : Grown i b')
    (ho : b'.opened = b.doc.size :: b.opened) : b'.openText? = none := by
  refine openText?_eq_none hb' fun c hc => ?_
  have hcurrent : b'.current = b.doc.size := by rw [Builder.current, ho]; rfl
  rw [hcurrent, h.added.children] at hc
  cases hc

theorem Grown.openText?_endElement (hb : Grown i b) (hspine : b.doc.Spine b.edge) {id : NodeId}
    {others : List NodeId} (ho : b.opened = id :: others) : b.endElement.openText? = none := by
  have hb' : Grown i b.endElement := hb.add (.endElement "")
  refine openText?_eq_none hb' fun c hc => ?_
  have hlast : (b.doc.children b.endElement.current).getLast? = some id := by
    obtain ⟨path, hpath⟩ := b.endElement.exists_edge_eq
    have hedge : b.edge = id :: b.endElement.current :: path := by
      rw [← hpath, edge, edge, ho, endElement, ho]
      rfl
    rw [hedge] at hspine
    exact (isChain_cons_cons.mp hspine).1
  have hid : b.doc.kindOf id = some .element := hb.opened id (ho ▸ mem_cons_self)
  have hc : some id = some c := hlast.symm.trans hc
  show b.doc.kindOf c ≠ some .text
  rw [← Option.some.inj hc, hid]
  decide

end Document.Builder

namespace Scan

open Document Document.Builder

variable {i : Nat} {p q : Phase} {s s' : State}

/-! ## One list of events, two readers -/

/-- What is built from the events told so far. -/
def State.built (i : Nat) (s : State) : Builder :=
  builtFrom i s.events.toList

theorem State.grown (i : Nat) (s : State) : Grown i (s.built i) :=
  grown_builtFrom i s.events.toList

theorem State.spine (i : Nat) (s : State) : (s.built i).doc.Spine (s.built i).edge :=
  spine_builtFrom i s.events.toList

theorem State.built_of_events {more : List Event}
    (h : s'.events.toList = s.events.toList ++ more) :
    s'.built i = more.foldl Builder.add (s.built i) := by
  rw [State.built, h, builtFrom_append]
  rfl

/-- The stream so far is the replay of what is built so far, but for the ends of the open
elements. Where text may be told next, the last child is no text. -/
structure Agreed (i : Nat) (p : Phase) (s : State) : Prop where
  pending : s.pending ≠ "" → s.opened ≠ []
  names : (s.built i).opened.map (s.built i).doc.nameOf = s.opened
  cdata : (s.built i).cdata = none
  outside : Sax.openSection false s.events.toList = false
  text : p = .content ∨ s.opened = [] → (s.built i).openText? = none
  told : ∃ tags told, Replays (s.built i) tags told ∧
    Sax.withoutWarnings (Sax.stream s.events.toList) = .startDocument :: told

namespace Agreed

theorem same (h : Agreed i p s) (hevents : s'.events = s.events) (ho : s'.opened = s.opened)
    (hpending : s'.pending ≠ "" → s'.opened ≠ [])
    (hp : q = .content → p = .content) : Agreed i q s' := by
  have hbuilt : s'.built i = s.built i := by rw [State.built, State.built, hevents]
  refine ⟨hpending, ?_, ?_, ?_, fun ht => ?_, ?_⟩
  · rw [hbuilt, ho, h.names]
  · rw [hbuilt, h.cdata]
  · rw [hevents, h.outside]
  · rw [hbuilt]
    exact h.text (ht.imp hp fun hn => ho ▸ hn)
  · rw [hbuilt, hevents]
    exact h.told

/-- Events that neither change what is built nor show in the stream. -/
theorem silent (h : Agreed i p s) {event : Event} (hadd : (s.built i).add event = s.built i)
    (hsection : (Sax.pass false event).2 = false)
    (hpass : Sax.withoutWarnings (Sax.streamFrom false [event]) = [])
    (hp : q = .content ∨ s.opened = [] → p = .content ∨ s.opened = []) :
    Agreed i q (s.told event) := by
  have hevents : (s.told event).events.toList = s.events.toList ++ [event] := Array.toList_push ..
  have hbuilt : (s.told event).built i = s.built i := (State.built_of_events hevents).trans hadd
  refine ⟨h.pending, ?_, ?_, ?_, fun ht => ?_, ?_⟩
  · rw [hbuilt]
    exact h.names
  · rw [hbuilt, h.cdata]
  · rw [hevents, Sax.openSection_append h.outside]
    exact hsection
  · rw [hbuilt]
    exact h.text (hp ht)
  · obtain ⟨tags, told, hreplays, hstream⟩ := h.told
    refine ⟨tags, told, hbuilt ▸ hreplays, ?_⟩
    rw [hevents, Sax.withoutWarnings_stream_append h.outside, hpass, append_nil, hstream]

/-- **Events that add a node which is not left open** and tell of it. -/
theorem leaf (h : Agreed i p s) {more : List Event} {node : Node}
    (hevents : s'.events.toList = s.events.toList ++ more)
    (hchild : NewChild (s.built i) (s'.built i) node []) (hk : node.kind ≠ .element)
    (hopened : (s'.built i).opened = (s.built i).opened) (hcdata : (s'.built i).cdata = none)
    (hsection : Sax.openSection false more = false)
    (hstream : Sax.withoutWarnings (Sax.streamFrom false more) = node.announce [])
    (ho : s'.opened = s.opened) (hp : s'.pending = "")
    (htext : q = .content ∨ s'.opened = [] → node.kind ≠ .text) : Agreed i q s' := by
  have hgrown := s.grown i
  refine ⟨fun hne => absurd hp hne, ?_, hcdata, ?_, fun ht => ?_, ?_⟩
  · rw [hopened, hchild.names hgrown, h.names, ho]
  · rw [hevents, Sax.openSection_append h.outside, hsection]
  · exact hchild.openText? hgrown (s'.grown i) hopened (htext ht)
  · obtain ⟨tags, told, hreplays, hold⟩ := h.told
    refine ⟨tags, _, hreplays.leaf hgrown (s'.grown i) (s.spine i) hchild hopened hk, ?_⟩
    rw [hevents, Sax.withoutWarnings_stream_append h.outside, hstream, hold]
    rfl

theorem node (h : Agreed i p s) (hp : s.pending = "") {event : Event} {node : Node}
    (hchild : NewChild (s.built i) ((s.built i).add event) node []) (hk : node.kind ≠ .element)
    (hopened : ((s.built i).add event).opened = (s.built i).opened)
    (hcdata : ((s.built i).add event).cdata = (s.built i).cdata)
    (hsection : (Sax.pass false event).2 = false)
    (hstream : Sax.withoutWarnings (Sax.streamFrom false [event]) = node.announce [])
    (htext : node.kind ≠ .text) : Agreed i .content (s.told event) := by
  have hevents : (s.told event).events.toList = s.events.toList ++ [event] := Array.toList_push ..
  have hbuilt : (s.told event).built i = (s.built i).add event := State.built_of_events hevents
  exact h.leaf hevents (hbuilt ▸ hchild) hk (hbuilt ▸ hopened) (hbuilt ▸ hcdata.trans h.cdata)
    hsection hstream rfl hp fun _ => htext

theorem start (h : Agreed i p s) (hp : s.pending = "") (name : String) (tag : List Attribute) :
    Agreed i .content (s.start name tag) := by
  have hevents : (s.start name tag).events.toList = s.events.toList ++ [.startElement name tag] :=
    Array.toList_push ..
  have hbuilt : (s.start name tag).built i = (s.built i).startElement name tag :=
    State.built_of_events hevents
  have hgrown := s.grown i
  obtain ⟨uri, hchild, hopened, hcdata⟩ := hgrown.newChild_startElement name tag
  obtain ⟨tags, told, hreplays, hold⟩ := h.told
  obtain ⟨tags', hreplays'⟩ := hreplays.start hgrown (s.spine i) name tag
  rw [← hbuilt] at hchild hopened hcdata hreplays'
  refine ⟨fun hne => absurd hp hne, ?_, hcdata.trans h.cdata, ?_, fun _ => ?_, tags', _, hreplays',
    ?_⟩
  · rw [hopened, map_cons, hchild.names hgrown, h.names, hchild.nameOf_new]
    rfl
  · rw [hevents, Sax.openSection_append h.outside]
    rfl
  · exact hchild.openText?_inside (State.grown i _) hopened
  · rw [hevents, Sax.withoutWarnings_stream_append h.outside, hold]
    rfl

theorem finish (h : Agreed i p s) (hp : s.pending = "") {name : String} {others : List String}
    (ho : s.opened = name :: others) : Agreed i .content (s.finish name others) := by
  have hevents : (s.finish name others).events.toList = s.events.toList ++ [.endElement name] :=
    Array.toList_push ..
  have hbuilt : (s.finish name others).built i = (s.built i).endElement :=
    State.built_of_events hevents
  have hgrown := s.grown i
  obtain ⟨id, rest, hopened, hid, hrest⟩ : ∃ id rest, (s.built i).opened = id :: rest ∧
      (s.built i).doc.nameOf id = name ∧ rest.map (s.built i).doc.nameOf = others := by
    have hnames := h.names
    rw [ho] at hnames
    exact map_eq_cons_iff.mp hnames
  have hend : (s.built i).doc.replayEnd id = [.endElement name] := by
    have hkind : (s.built i).doc.kindOf id = some .element :=
      hgrown.opened id (hopened ▸ mem_cons_self)
    obtain ⟨n, hn, hk⟩ := Option.map_eq_some_iff.mp hkind
    rw [Document.nameOf, hn] at hid
    rw [replayEnd, hn, Option.map_some, Option.getD_some, Node.conclude, if_pos hk]
    exact congrArg (fun name => [SaxEvent.endElement name]) hid
  obtain ⟨tags, told, hreplays, hold⟩ := h.told
  have hreplays' := hreplays.close hopened
  rw [← hbuilt, hend] at hreplays'
  refine ⟨fun hne => absurd hp hne, ?_, ?_, ?_, fun _ => ?_, tags, _, hreplays', ?_⟩
  · rw [hbuilt]
    show (s.built i).opened.tail.map (s.built i).doc.nameOf = others
    rw [hopened, tail_cons, hrest]
  · rw [hbuilt]
    exact h.cdata
  · rw [hevents, Sax.openSection_append h.outside]
    rfl
  · rw [hbuilt]
    exact hgrown.openText?_endElement (s.spine i) hopened
  · rw [hevents, Sax.withoutWarnings_stream_append h.outside, hold]
    rfl

theorem cdataSection (h : Agreed i p s) (hp : s.pending = "") (text : List Char) :
    Agreed i .content (s.cdata text) := by
  let told : Option String := if text.isEmpty then none else some (String.ofList text)
  let more : List Event := [.startCData] ++ told.toList.map .characters ++ [.endCData]
  have hevents : (s.cdata text).events.toList = s.events.toList ++ more := by
    cases text with
    | nil => simp [State.cdata, State.told, told, more]
    | cons c text => simp [State.cdata, State.told, told, more]
  have hbuilt : (s.cdata text).built i = more.foldl Builder.add (s.built i) :=
    State.built_of_events hevents
  obtain ⟨hchild, hopened, hcdata⟩ := (s.grown i).newChild_cdata told
  rw [← hbuilt] at hchild hopened hcdata
  refine h.leaf hevents hchild (by simp) hopened hcdata ?_ ?_ ?_ ?_ (by simp)
  · cases text <;> rfl
  · cases text with
    | nil => rfl
    | cons c text =>
      simp [more, told, Sax.streamFrom, Sax.pass, Node.announce, Sax.withoutWarnings,
        SaxEvent.isWarning]
  · cases text <;> rfl
  · cases text <;> exact hp

theorem flush (h : Agreed i .content s) : Agreed i .markup s.flush := by
  rw [State.flush]
  split
  · exact h.same rfl rfl h.pending fun hq => by cases hq
  · next hempty =>
    have hne : s.pending ≠ "" := fun he => hempty (String.isEmpty_iff.mpr he)
    let made : State := { s with events := s.events.push (.characters s.pending), pending := "" }
    have hevents : made.events.toList = s.events.toList ++ [.characters s.pending] :=
      Array.toList_push ..
    have hadd : (s.built i).add (.characters s.pending) =
        ((s.built i).append { kind := .text, content := s.pending }).2 := by
      rw [Builder.add, characters, h.cdata, h.text (.inl rfl)]
      rfl
    have hbuilt : made.built i = ((s.built i).append { kind := .text, content := s.pending }).2 :=
      (State.built_of_events hevents).trans hadd
    have hn : ({ kind := .text, content := s.pending } : Node).Unlinked :=
      rfl
    have hchild := (s.grown i).newChild_append hn (by simp)
    rw [← hbuilt] at hchild
    refine h.leaf hevents hchild (by simp) ?_ ?_ rfl rfl rfl rfl fun ht => ?_
    · rw [hbuilt]
      rfl
    · rw [hbuilt]
      exact h.cdata
    · rcases ht with ht | ht
      · cases ht
      · exact absurd ht (h.pending hne)

/-- **Every move keeps the two readers in agreement**, as long as no problem is told. -/
theorem closed (i : Nat) : Closed fun p s => s.Failed ∨ Agreed i p s := by
  intro p s q s' hmove hs
  rcases hs with hfailed | h
  · exact .inl (Closed.failed p s q s' hmove hfailed)
  have append {node : Node} (hn : node.Unlinked) (hk : node.kind ≠ .attribute) :
      NewChild (s.built i) ((s.built i).append node).2 node [] := (s.grown i).newChild_append hn hk
  cases hmove with
  | @problem _ _ event hproblem =>
    cases event with
    | error e => exact .inl (.of_told s e)
    | warning w => exact .inr (h.silent rfl rfl rfl id)
    | _ => cases hproblem
  | bookkeeping hv =>
    have hframe : s'.frame = s.frame := congrArg Prod.snd hv
    have hevents : s'.events = s.events := congrArg Prod.fst hv
    have ho := State.opened_eq_of_frame hframe
    refine .inr (h.same hevents ho ?_ id)
    rw [State.pending_eq_of_frame hframe, ho]
    exact h.pending
  | text ho pending => exact .inr (h.same rfl rfl (fun _ => ho) id)
  | flush => exact .inr h.flush
  | @aside _ event hp haside =>
    cases event with
    | comment text =>
      exact .inr (h.node hp (append rfl (by simp)) (by simp) rfl rfl rfl
        rfl (by simp))
    | instruction target data =>
      exact .inr (h.node hp (append rfl (by simp)) (by simp) rfl rfl rfl
        rfl (by simp))
    | _ => cases haside
  | declaration hf version encoding standalone =>
    have ho : s.opened = [] := congrArg Prod.fst hf
    exact .inr (h.silent rfl rfl rfl fun _ => .inr ho)
  | @reference _ hp ho name replacement hr =>
    cases replacement with
    | none => exact .inl ((hr rfl).told _)
    | some text =>
      exact .inr (h.node hp (append rfl (by simp)) (by simp) rfl rfl rfl
        rfl (by simp))
  | cdata hp ho text => exact .inr (h.cdataSection hp text)
  | start hp hr name hn => exact .inr (h.start hp name _)
  | startEmpty hp hr name hn => exact .inr ((h.start hp name _).finish hp rfl)
  | finish hp ho => exact .inr (h.finish hp ho)
  | doctype hp hr hd declaration =>
    have hn : ({ kind := .doctype, name := declaration.name } : Node).Unlinked :=
      rfl
    have htold : Agreed i .content (s.told (.doctype declaration)) :=
      h.node hp ((append hn (by simp)).of_nodes_eq rfl) (by simp) rfl rfl rfl rfl (by simp)
    exact .inr (htold.same rfl rfl htold.pending id)

theorem begin (i : Nat) (p : Phase) : Agreed i p { events := #[.startDocument] } where
  pending h := absurd rfl h
  names := rfl
  cdata := rfl
  outside := rfl
  text _ := by
    show (Builder.initial i).openText? = none
    refine openText?_eq_none (grown_initial i) fun c hc => ?_
    have hcurrent : (Builder.initial i).current = root := rfl
    rw [hcurrent, children_initial] at hc
    cases hc
  told := ⟨_, [], replays_initial i, rfl⟩

end Agreed

/-- The stream of events that end with nothing open, and what was built of them. -/
theorem Agreed.stream_eq (h : Agreed i p s) (ho : s.opened = []) :
    ∃ tags, (s.built i).doc.Written tags ∧
      Sax.withoutWarnings (Sax.stream s.events.toList) =
        .startDocument :: ((s.built i).doc.children root).flatMap ((s.built i).doc.replay tags) := by
  obtain ⟨tags, told, hreplays, hstream⟩ := h.told
  have hgrown := s.grown i
  obtain ⟨n, hn, hk⟩ := Option.map_eq_some_iff.mp hgrown.kindOf_root
  have hstart : (s.built i).doc.replayStart tags root = [] := by
    rw [replayStart, hn, Option.map_some, Option.getD_some, Node.announce, hk]
  have hend : (s.built i).doc.replayEnd root = [] := by
    rw [replayEnd, hn, Option.map_some, Option.getD_some, Node.conclude, hk]
    rfl
  have hedge : (s.built i).edge = [root] := by
    have hopened : (s.built i).opened = [] := map_eq_nil_iff.mp (h.names.trans ho)
    rw [edge, hopened]
    rfl
  refine ⟨tags, hreplays.written, ?_⟩
  have hreplay := hreplays.replay
  rw [hedge, flatMap_singleton, hend, append_nil, replay,
    walk_eq hgrown.linked hgrown.acyclic (lt_size_of_get? hn), hstart, hend, append_nil,
    nil_append] at hreplay
  rw [hstream, ← hreplay]
  rfl

end Scan

namespace Document

open Scan Builder

variable {i : Nat} {bytes : List UInt8} {hint : Option String} {options : ParseOptions}
  {files : Files} {doc : Document}

/-- **A stream tells what a document holds.** If a document can be read without a problem, streaming
it does not fail. But for warnings, the stream begins the document, replays the children of the
document node in order, and ends the document. A replay announces a node, goes on to its children,
and ends the node. -/
theorem stream_is_replay (hrecover : options.recover = false)
    (h : parse i bytes hint options files = .ok doc) :
    (saxBytes bytes hint options files).2 = none ∧
      ∃ tags : NodeId → List Attribute, doc.Written tags ∧
        (∀ id < doc.size, doc.replay tags id =
          doc.replayStart tags id ++ (doc.children id).flatMap (doc.replay tags) ++
            doc.replayEnd id) ∧
        Sax.withoutWarnings (saxBytes bytes hint options files).1 =
          .startDocument :: (doc.children root).flatMap (doc.replay tags) ++ [.endDocument] := by
  obtain ⟨hfatal, hnodes, hproblems⟩ := parse_eq_ok h
  obtain ⟨text, hscan⟩ := scanBytes_of_success hfatal
  rw [hscan] at hfatal hnodes hproblems
  obtain ⟨s, hs, hopened, hevents⟩ :=
    (Agreed.closed i).at_success (fun p => .inr (.begin i p)) hfatal
  have hbuilt : builtFrom i (scanText text options files).events = s.built i := by
    rw [hevents, builtFrom_append]
    rfl
  have hagreed : Agreed i .markup s := by
    -- a problem that was told would have been noted
    rcases hs with ⟨e, he⟩ | hs
    · have hnoted : e ∈ (s.built i).errors := mem_errors_of_told he _
      have herrors : (s.built i).errors.toList = [] := hbuilt ▸ hproblems hrecover
      rw [← Array.mem_toList_iff, herrors] at hnoted
      cases hnoted
    · exact hs
  obtain ⟨tags, hwritten, hstream⟩ := hagreed.stream_eq hopened
  have hnodes : doc.nodes = (s.built i).doc.nodes := hbuilt ▸ hnodes
  obtain ⟨hw, ha, -⟩ := parse_linked h
  rw [saxBytes, hscan]
  refine ⟨hfatal, tags, hwritten.of_nodes_eq hnodes, fun id hid => walk_eq hw ha hid, ?_⟩
  show Sax.withoutWarnings (Sax.stream (scanText text options files).events) = _
  rw [hevents, Sax.withoutWarnings_stream_append hagreed.outside, hstream,
    replay_of_nodes_eq hnodes, children_of_nodes_eq hnodes]
  rfl

/-- An element with a declaration, an attribute, and text, sections, an instruction and a comment
below it. One of the sections is empty. -/
def remarkTrees : List Tree :=
  [.element "a" [⟨"", "u"⟩] [⟨"k", "v"⟩]
    [.text "x", .cdata "y", .instruction "p" "q", .cdata "", .comment "z"]]

theorem remarkTrees_canonical : Tree.CanonicalDocument remarkTrees := by
  have hchars : ∀ text : String, text.toList.all (fun c => Text.isXmlChar c.toNat) = true →
      Grammar.XmlChars text.toList := fun text => all_eq_true.mp
  have htag : Tree.CanonicalTag "a" [⟨"", "u"⟩] [⟨"k", "v"⟩] := by
    refine ⟨(Text.isName_iff _).mp (by decide), ?_, by decide, ?_, ?_, by decide, ?_⟩
    · exact forall_mem_singleton.mpr (.inl rfl)
    · exact forall_mem_singleton.mpr (hchars _ (by decide))
    · exact forall_mem_singleton.mpr ⟨(Text.isName_iff _).mp (by decide), by decide⟩
    · exact forall_mem_singleton.mpr (hchars _ (by decide))
  refine ⟨forall_mem_singleton.mpr (.element htag ?_ ?_), by decide, by decide⟩
  · unfold Tree.Separated
    decide
  · simp only [forall_mem_cons]
    exact ⟨.text (by decide) (hchars _ (by decide)), .cdata (hchars _ (by decide)) (by decide),
      .instruction ((Text.isName_iff _).mp (by decide)) (by decide) (by decide) (by decide),
      .cdata (hchars _ (by decide)) (by decide), .comment (hchars _ (by decide)) (by decide),
      forall_mem_nil _⟩

def remarkText : String :=
  "<a xmlns=\"u\" k=\"v\">x<![CDATA[y]]><?p q?><![CDATA[]]><!--z--></a>\n"

def remarkBytes : List UInt8 :=
  remarkText.toList.map fun c => c.toNat.toUInt8

def remarkEvents : List Event :=
  [.startDocument, .startElement "a" [⟨"xmlns", "u"⟩, ⟨"k", "v"⟩], .characters "x", .startCData,
    .characters "y", .endCData, .instruction "p" (some "q"), .startCData, .endCData, .comment "z",
    .endElement "a", .endDocument]

theorem scanBytes_remark : scanBytes remarkBytes none {} .none = ⟨remarkEvents, none⟩ := by
  have hdecode : Encoding.decode remarkBytes none Files.none.charsets =
      .ok remarkText.toList := by decide +kernel
  have hlines : Text.normalizeNewlines remarkText.toList = remarkText.toList := by decide +kernel
  have hmarkup : (remarkTrees.flatMap fun t => t.markup ++ ['\n']) = remarkText.toList := by
    simp only [remarkTrees, flatMap_cons, flatMap_nil, Tree.markup]
    decide +kernel
  have hevents : .startDocument :: remarkTrees.flatMap Tree.events ++ [.endDocument] =
      remarkEvents := by
    simp only [remarkTrees, flatMap_cons, flatMap_nil, Tree.events]
    decide +kernel
  rw [scanBytes, hdecode]
  show scanText (Text.normalizeNewlines remarkText.toList) {} .none = _
  rw [hlines, ← hmarkup, scanText_markup remarkTrees_canonical, hevents]

theorem remark_stream_is_replay :
    ∃ doc tags, parse 0 remarkBytes none {} .none = .ok doc ∧ doc.Written tags ∧
      .startDocument :: (doc.children root).flatMap (doc.replay tags) ++ [.endDocument] =
        [.startDocument, .startElement "a" ["xmlns", "u", "k", "v"], .characters "x",
          .cdataBlock "y", .comment "z", .endElement "a", .endDocument] := by
  have hparse : parse 0 remarkBytes none {} .none = .ok (ofEvents 0 remarkEvents).1 := by
    have herrors : (ofEvents 0 remarkEvents).2 = [] := by decide +kernel
    rw [parse, scanBytes_remark, ofOutcome]
    dsimp only
    rw [herrors]
    rfl
  obtain ⟨-, tags, hwritten, -, hstream⟩ := stream_is_replay rfl hparse
  refine ⟨_, tags, hparse, hwritten, hstream.symm.trans ?_⟩
  rw [saxBytes, scanBytes_remark]
  decide +kernel

end Document

end Xml
