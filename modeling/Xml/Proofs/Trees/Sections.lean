import Xml.Proofs.Trees.Scanning

/-!
# CDATA sections and their terminator

A CDATA section ends at the first `]]>`, so a content that contains one is written in several
sections: each `]]>` is cut behind its brackets. However the brackets run up to a cut or to the end
of the content, a section never contains the terminator (`terminator_notInfix`), so every section is
read as it was written, and together they are the content (`split_content_read_whole`).
-/

namespace Xml

open Text Grammar Scan List

namespace Text

/-- The contents of the sections that a text is written in: the first one, and the others. -/
def sections : List Char → List Char × List (List Char)
  | ']' :: ']' :: '>' :: rest => ("]]".toList, ('>' :: (sections rest).1) :: (sections rest).2)
  | c :: rest => (c :: (sections rest).1, (sections rest).2)
  | [] => ([], [])

/-- **Nothing is lost.** -/
theorem sections_append (text : List Char) :
    (sections text).1 ++ (sections text).2.flatten = text := by
  fun_induction sections text with
  | case1 rest ih =>
    rw [flatten_cons, cons_append, ih]
    rfl
  | case2 c rest _ ih => rw [cons_append, ih]
  | case3 => rfl

/-- **No section contains the terminator.** A `]]>` at the front of the first section would stand at
the front of the text as well, and there it is cut. -/
theorem terminator_notInfix (text : List Char) :
    ∀ part ∈ (sections text).1 :: (sections text).2, ¬ "]]>".toList <:+: part := by
  fun_induction sections text with
  | case1 rest ih =>
    obtain ⟨hfirst, hothers⟩ := forall_mem_cons.mp ih
    simp only [forall_mem_cons]
    refine ⟨by decide, fun hin => ?_, hothers⟩
    rcases infix_cons_iff.mp hin with hhead | hin
    · cases (cons_prefix_cons.mp hhead).1
    · exact hfirst hin
  | case2 c rest hfree ih =>
    obtain ⟨hfirst, hothers⟩ := forall_mem_cons.mp ih
    refine forall_mem_cons.mpr ⟨fun hin => ?_, hothers⟩
    rcases infix_cons_iff.mp hin with hhead | hin
    · have hprefix : c :: (sections rest).1 <+: c :: rest :=
        ⟨(sections rest).2.flatten, congrArg (c :: ·) (sections_append rest)⟩
      obtain ⟨more, hmore⟩ := hhead.trans hprefix
      obtain ⟨rfl, hrest⟩ := List.cons.inj hmore
      exact hfree more rfl hrest.symm
    · exact hfirst hin
  | case3 => simp

theorem splitCData_eq_sections (text : List Char) :
    splitCData text =
      (sections text).1 ++ (sections text).2.flatMap ("]]><![CDATA[".toList ++ ·) := by
  fun_induction sections text with
  | case1 rest ih =>
    have hcut : splitCData (']' :: ']' :: '>' :: rest) =
        "]]]]><![CDATA[>".toList ++ splitCData rest := by
      rw [splitCData.eq_def]
      rfl
    rw [hcut, ih, flatMap_cons]
    simp
  | case2 c rest hfree ih =>
    have hkeep : splitCData (c :: rest) = c :: splitCData rest := by
      rw [splitCData.eq_def]
      split
      · next more hcons =>
        obtain ⟨rfl, rfl⟩ := List.cons.inj hcons
        exact absurd rfl (hfree more rfl)
      · next hcons => cases hcons; rfl
      · next hnil => cases hnil
    rw [hkeep, ih, cons_append]
  | case3 => rfl

end Text

namespace Tree

/-- The contents of the CDATA sections that one is written as. -/
def pieces (content : String) : List String :=
  ((sections content.toList).1 :: (sections content.toList).2).map String.ofList

theorem join_pieces (content : String) : String.join (pieces content) = content := by
  rw [← String.toList_inj, String.toList_join, pieces, flatMap_map]
  simp [sections_append]

theorem canonical_of_mem_pieces {content part : String} (hx : XmlChars content.toList)
    (h : part ∈ pieces content) : (Tree.cdata part).Canonical := by
  obtain ⟨chars, hm, rfl⟩ := mem_map.mp h
  have hchars : (String.ofList chars).toList = chars := String.toList_ofList
  refine .cdata ?_ ?_ <;> rw [hchars]
  · intro c hc
    refine hx c ?_
    rw [← sections_append content.toList, ← flatten_cons]
    exact mem_flatten.mpr ⟨chars, hm, hc⟩
  · exact terminator_notInfix content.toList chars hm

theorem markup_cdata {part : List Char} (h : ¬ "]]>".toList <:+: part) :
    (Tree.cdata (String.ofList part)).markup =
      "<![CDATA[".toList ++ part ++ "]]>".toList := by
  have hpart : (String.ofList part).toList = part := String.toList_ofList
  rw [markup, hpart, splitCData_eq_self h]

/-- Between two sections one is closed and the next one opened. -/
theorem flatMap_markup_cdata (first : List Char) (others : List (List Char))
    (h : ∀ part ∈ first :: others, ¬ "]]>".toList <:+: part) :
    (first :: others).flatMap (fun part => (Tree.cdata (String.ofList part)).markup) =
      "<![CDATA[".toList ++ (first ++ others.flatMap ("]]><![CDATA[".toList ++ ·)) ++
        "]]>".toList := by
  induction others generalizing first with
  | nil =>
    rw [flatMap_singleton, markup_cdata (h first mem_cons_self), flatMap_nil,
      append_nil]
  | cons next others ih =>
    obtain ⟨hfirst, hrest⟩ := forall_mem_cons.mp h
    rw [flatMap_cons, ih next hrest, markup_cdata hfirst, flatMap_cons]
    simp

/-- **A CDATA section is written as its pieces are.** -/
theorem markup_eq_pieces (content : String) :
    (Tree.cdata content).markup = (pieces content).flatMap fun part => (Tree.cdata part).markup := by
  rw [pieces, flatMap_map, flatMap_markup_cdata _ _ (terminator_notInfix content.toList),
    ← splitCData_eq_sections, markup]

end Tree

namespace Document

/-- **A split content is read whole.** Between the tags of an element, what is written for a CDATA
node is scanned without a problem: there come CDATA sections only, and what they hold is the content
of the node, whatever brackets and terminators it is made of. -/
theorem split_content_read_whole (doc : Document) (id : NodeId) (node : Node)
    (h : doc.get? id = some node) (hk : node.kind = .cdata) (hx : XmlChars node.content.toList)
    (options : ParseOptions) (files : Files) :
    ∃ parts : List String, String.join parts = node.content ∧
      scanText ("<a>".toList ++ (doc.nodeMarkup id).toList ++ "</a>".toList) options files =
        ⟨[.startDocument, .startElement "a" []] ++
            parts.flatMap (fun part => (Tree.cdata part).events) ++
            [.endElement "a", .endDocument], none⟩ := by
  let sections := (Tree.pieces node.content).map Tree.cdata
  have htag : Tree.CanonicalTag "a" [] [] :=
    ⟨(isName_iff _).mp (by decide), List.forall_mem_nil _, List.nodup_nil, List.forall_mem_nil _,
      List.forall_mem_nil _, List.nodup_nil, List.forall_mem_nil _⟩
  have hcanonical : (Tree.element "a" [] [] sections).Canonical := by
    refine .element htag (Tree.separated_of_isText_eq_false ?_) ?_
    · exact List.forall_mem_map.mpr fun _ _ => rfl
    · exact List.forall_mem_map.mpr fun _ hm => Tree.canonical_of_mem_pieces hx hm
  have hnode : (doc.nodeMarkup id).toList = sections.flatMap Tree.markup := by
    rw [nodeMarkup_leaf h (by simp [hk]) (by simp [hk]), List.flatMap_map,
      ← Tree.markup_eq_pieces, leafMarkup, hk, Tree.markup]
    simp
  have hmarkup : (Tree.element "a" [] [] sections).markup =
      "<a>".toList ++ (doc.nodeMarkup id).toList ++ "</a>".toList := by
    have hne : ¬ sections.isEmpty = true := by simp [sections, Tree.pieces]
    rw [Tree.markup, if_neg hne, ← hnode]
    simp [Tree.tagBody, Tree.tagAttributes]
  refine ⟨Tree.pieces node.content, Tree.join_pieces node.content, ?_⟩
  rw [← hmarkup, scanText_element hcanonical rfl, Tree.events, List.flatMap_map]
  simp [Tree.tagAttributes]

/-- A node whose content has brackets in front of both its terminators and at its end. -/
def bracketed : Document :=
  (Document.empty 0).alloc { kind := .cdata, content := "]]]>]]>]" } |>.2

theorem bracketed_read_whole :
    (bracketed.nodeMarkup 1 = "<![CDATA[]]]]]><![CDATA[>]]]]><![CDATA[>]]]>" ∧
      XmlChars "]]]>]]>]".toList) ∧
    ∃ parts : List String, String.join parts = "]]]>]]>]" ∧
      scanText ("<a>".toList ++ (bracketed.nodeMarkup 1).toList ++ "</a>".toList) {} .none =
        ⟨[.startDocument, .startElement "a" []] ++
            parts.flatMap (fun part => (Tree.cdata part).events) ++
            [.endElement "a", .endDocument], none⟩ := by
  have hx : XmlChars "]]]>]]>]".toList := List.all_eq_true.mp (by decide)
  have hnode : bracketed.get? 1 = some { kind := .cdata, content := "]]]>]]>]" } := by decide
  refine ⟨⟨by decide, hx⟩, ?_⟩
  exact split_content_read_whole bracketed 1 _ hnode rfl hx {} .none

end Document

end Xml
