import Xml.Document.Build
import Xml.Proofs.Scan.Acceptance
import Xml.Proofs.Trees.Writing

/-!
# The tokens of markup

Markup of canonical trees is written with the tokens that `Tree.tokens` lists. Escaping makes
references of the characters that cannot stand for themselves; what is left of a text are stretches
without a `>`, so no `]]>` comes about in them.
-/

namespace Xml

open Text Grammar Scan List

variable {text rest : List Char} {more : List Token}

/-! ## Escaped characters -/

/-- A character of a text stands for itself or is written as a reference. -/
theorem escapeTextChar_cases (c : Char) :
    (escapeTextChar c = [c] ∧ c ≠ '<' ∧ c ≠ '&' ∧ c ≠ '>') ∨
      ∃ body, Grammar.Reference body c ∧ escapeTextChar c = '&' :: body ++ [';'] := by
  unfold escapeTextChar
  split
  · exact .inr ⟨"amp".toList, .predefined (by decide), rfl⟩
  · exact .inr ⟨"lt".toList, .predefined (by decide), rfl⟩
  · exact .inr ⟨"gt".toList, .predefined (by decide), rfl⟩
  · exact .inr ⟨"#13".toList, .decimal ⟨by decide, [1, 3], rfl, rfl⟩ rfl, rfl⟩
  · next hamp hlt hgt _ => exact .inl ⟨rfl, hlt, hamp, hgt⟩

/-- So does a character of a value, and the quote is always written as a reference. -/
theorem escapeAttributeChar_cases (c : Char) :
    (escapeAttributeChar c = [c] ∧ c ≠ '<' ∧ c ≠ '&' ∧ c ≠ '"' ∧ normalizeBlank c = c) ∨
      ∃ body, Grammar.Reference body c ∧ '"' ∉ body ∧
        escapeAttributeChar c = '&' :: body ++ [';'] := by
  unfold escapeAttributeChar
  split
  · exact .inr ⟨"amp".toList, .predefined (by decide), by decide, rfl⟩
  · exact .inr ⟨"lt".toList, .predefined (by decide), by decide, rfl⟩
  · exact .inr ⟨"gt".toList, .predefined (by decide), by decide, rfl⟩
  · exact .inr ⟨"quot".toList, .predefined (by decide), by decide, rfl⟩
  · exact .inr ⟨"#10".toList, .decimal ⟨by decide, [1, 0], rfl, rfl⟩ rfl, by decide, rfl⟩
  · exact .inr ⟨"#13".toList, .decimal ⟨by decide, [1, 3], rfl, rfl⟩ rfl, by decide, rfl⟩
  · exact .inr ⟨"#9".toList, .decimal ⟨by decide, [9], rfl, rfl⟩ rfl, by decide, rfl⟩
  · next hamp hlt _ hquot hlf hcr htab =>
    have hblank : ¬ (c == '\t' || c == '\n' || c == '\r') = true := by
      simp only [Bool.or_eq_true, beq_iff_eq]
      rintro ((h | h) | h)
      exacts [htab h, hlf h, hcr h]
    exact .inl ⟨rfl, hlt, hamp, hquot, if_neg hblank⟩

/-- **An escaped value means the value.** -/
theorem attributeText_escape {value : List Char} (h : XmlChars value) :
    AttributeText (value.flatMap escapeAttributeChar) value := by
  induction value with
  | nil => exact .nil
  | cons c value ih =>
    obtain ⟨hc, hrest⟩ := forall_mem_cons.mp h
    rw [flatMap_cons]
    rcases escapeAttributeChar_cases c with ⟨hself, hlt, hamp, -, hblank⟩ | ⟨body, hbody, -, hesc⟩
    · have htext := AttributeText.char hlt hamp hc (ih hrest)
      rw [hblank] at htext
      rwa [hself]
    · rw [hesc]
      simpa using AttributeText.reference hbody (ih hrest)

theorem quote_notMem_escape (value : List Char) : '"' ∉ value.flatMap escapeAttributeChar := by
  rw [mem_flatMap]
  rintro ⟨c, -, hm⟩
  rcases escapeAttributeChar_cases c with ⟨hself, -, -, hquot, -⟩ | ⟨body, -, hbody, hesc⟩
  · rw [hself, mem_singleton] at hm
    exact hquot hm.symm
  · rw [hesc] at hm
    simp [hbody] at hm

/-! ## Text -/

/-- The tokens that an escaped text is written with. -/
def textTokens : List Char → List Token
  | [] => []
  | c :: text =>
    if escapeTextChar c = [c] then
      match textTokens text with
      | .text chars :: tokens => .text (c :: chars) :: tokens
      | tokens => .text [c] :: tokens
    else .reference c :: textTokens text

theorem charData_cons {c : Char} {chars : List Char} (hc : isXmlChar c.toNat = true)
    (hlt : c ≠ '<') (hamp : c ≠ '&') (hgt : c ≠ '>') (h : CharData chars) (hfree : '>' ∉ chars) :
    CharData (c :: chars) := by
  refine ⟨forall_mem_cons.mpr ⟨hc, h.1⟩, ?_, ?_, fun hin => ?_⟩
  · simpa [Ne.symm hlt] using h.2.1
  · simpa [Ne.symm hamp] using h.2.2.1
  · have hmem : '>' ∈ c :: chars := hin.subset (by decide)
    simp [Ne.symm hgt, hfree] at hmem

theorem exists_of_tokens_cons {token : Token} {tokens : List Token}
    (h : Tokens (token :: tokens) text) :
    ∃ piece rest, Spells token piece ∧ (token.isText = true → StopsAt isTextChar rest) ∧
      Tokens tokens rest ∧ text = piece ++ rest := by
  cases h with
  | cons hs hstop ht => exact ⟨_, _, hs, hstop, ht, rfl⟩

/-- A character in front of tokens: it makes the first stretch of character data longer, or is one
of its own. -/
theorem tokens_char {c : Char} {tokens : List Token}
    (hone : ∀ chars, CharData chars → '>' ∉ chars → CharData (c :: chars))
    (hfree : ∀ chars more, textTokens text = .text chars :: more → '>' ∉ chars)
    (hrest : textTokens text = [] → StopsAt isTextChar rest)
    (h : Tokens (textTokens text ++ tokens) rest) :
    Tokens ((match textTokens text with
      | .text chars :: tokens => .text (c :: chars) :: tokens
      | tokens => .text [c] :: tokens) ++ tokens) (c :: rest) := by
  have hsingle : CharData [c] := hone [] charData_nil not_mem_nil
  cases htext : textTokens text with
  | nil =>
    rw [htext] at h
    exact .cons (.text hsingle (cons_ne_nil c [])) (fun _ => hrest htext) h
  | cons token more =>
    rw [htext, cons_append] at h
    obtain ⟨piece, after, hs, hstop, ht, rfl⟩ := exists_of_tokens_cons h
    cases hk : token.isText with
    | false =>
      have hnext := Tokens.cons (.text hsingle (cons_ne_nil c []))
        (fun _ => hs.stopsAt hk after) h
      cases token with
      | text chars => cases hk
      | _ => exact hnext
    | true =>
      cases hs with
      | text hchars hne =>
        have hlonger := hone _ hchars (hfree _ more htext)
        exact .cons (.text hlonger (cons_ne_nil c _)) hstop ht
      | _ => cases hk

theorem gt_notMem_of_textTokens {chars : List Char} (h : textTokens text = .text chars :: more) :
    '>' ∉ chars := by
  induction text generalizing chars more with
  | nil => cases h
  | cons c text ih =>
    rw [textTokens] at h
    split at h
    · next hself =>
      have hgt : '>' ≠ c := by
        rintro rfl
        cases hself
      split at h
      · next htext =>
        cases h
        exact fun hm => (mem_cons.mp hm).elim hgt (ih htext)
      · cases h
        exact fun hm => hgt (mem_singleton.mp hm)
    · cases h

theorem textTokens_eq_nil (h : textTokens text = []) : text = [] := by
  cases text with
  | nil => rfl
  | cons c text =>
    rw [textTokens] at h
    split at h
    · split at h <;> cases h
    · cases h

/-- **An escaped text is written with its tokens**, whatever tokens the rest is written with. -/
theorem tokens_text {tokens : List Token} (hx : XmlChars text) (hstop : StopsAt isTextChar rest)
    (h : Tokens tokens rest) :
    Tokens (textTokens text ++ tokens) (text.flatMap escapeTextChar ++ rest) := by
  induction text with
  | nil => exact h
  | cons c text ih =>
    obtain ⟨hc, hrest⟩ := forall_mem_cons.mp hx
    rw [flatMap_cons, textTokens, append_assoc]
    rcases escapeTextChar_cases c with ⟨hself, hlt, hamp, hgt⟩ | ⟨body, hbody, hesc⟩
    · rw [if_pos hself, hself]
      refine tokens_char (fun _ => charData_cons hc hlt hamp hgt)
        (fun _ _ => gt_notMem_of_textTokens) (fun hnil => ?_) (ih hrest)
      rw [textTokens_eq_nil hnil]
      exact hstop
    · have hne : escapeTextChar c ≠ [c] := by
        rw [hesc]
        simp
      rw [if_neg hne, hesc]
      exact .cons (.reference hbody) (fun hf => by cases hf) (ih hrest)

/-! ## Tags -/

theorem continuesName_of_mem (h : IsName text) : ∀ c ∈ text, continuesName c = true := by
  obtain ⟨c, rest, rfl, hc, hrest⟩ := h
  refine forall_mem_cons.mpr ⟨?_, hrest⟩
  rw [startsName] at hc
  rw [continuesName, isNameCode, hc]
  rfl

theorem toList_xmlns (nsPrefix : String) :
    ("xmlns:" ++ nsPrefix).toList = 'x' :: 'm' :: 'l' :: 'n' :: 's' :: ':' :: nsPrefix.toList := by
  rw [String.toList_append]
  rfl

theorem localName_xmlns {nsPrefix : String} (h : nsPrefix ≠ "") :
    localName ("xmlns:" ++ nsPrefix) = nsPrefix := by
  have hne : nsPrefix.toList.isEmpty = false := by
    cases hp : nsPrefix.toList with
    | nil => exact absurd (String.toList_inj.mp hp) h
    | cons c rest => rfl
  rw [localName, QName.ofString]
  simp only [toList_xmlns]
  change (if (false || nsPrefix.toList.isEmpty) = true then _ else QName.mk _ _).localPart = _
  rw [hne]
  exact String.ofList_toList

/-- **A declaration is what its attribute declares.** -/
theorem declarationOf_attribute (d : NamespaceDecl) :
    Document.Builder.declarationOf d.attribute = d := by
  obtain ⟨nsPrefix, uri⟩ := d
  rw [NamespaceDecl.attribute, Document.Builder.declarationOf]
  by_cases hp : nsPrefix = ""
  · subst hp
    rfl
  · have hempty : ¬ nsPrefix.isEmpty = true := fun he => hp (String.isEmpty_iff.mp he)
    have hlonger : ¬ ("xmlns:" ++ nsPrefix == "xmlns") = true := by
      rw [beq_iff_eq, ← String.toList_inj, toList_xmlns]
      intro h
      cases h
    simp only [if_neg hempty, if_neg hlonger, localName_xmlns hp]

theorem isNamespaceDeclaration_attribute (d : NamespaceDecl) :
    isNamespaceDeclaration d.attribute.name = true := by
  rw [NamespaceDecl.attribute, isNamespaceDeclaration]
  split
  · rfl
  · rw [toList_xmlns]
    simp

namespace Tree

variable {name : String} {declarations : List NamespaceDecl} {attributes : List Attribute}

/-- The names and values in a canonical tag are those that a tag can hold. -/
theorem CanonicalTag.attribute (h : CanonicalTag name declarations attributes) {a : Attribute}
    (ha : a ∈ tagAttributes declarations attributes) :
    IsName a.name.toList ∧ XmlChars a.value.toList := by
  rcases mem_append.mp ha with ha | ha
  · obtain ⟨d, hd, rfl⟩ := mem_map.mp ha
    refine ⟨?_, h.uris d hd⟩
    rw [NamespaceDecl.attribute]
    split
    · exact (isName_iff "xmlns".toList).mp (by decide)
    · next hne =>
      have hp := (h.prefixes d hd).resolve_left fun he => hne (String.isEmpty_iff.mpr he)
      have hxmlns : ∀ c ∈ "mlns:".toList, continuesName c = true :=
        all_eq_true.mp (by decide)
      rw [toList_xmlns]
      exact ⟨'x', "mlns:".toList ++ d.nsPrefix.toList, rfl, by decide,
        forall_mem_append.mpr ⟨hxmlns, continuesName_of_mem hp⟩⟩
  · exact ⟨(h.names a ha).1, h.values a ha⟩

/-- The names in a canonical tag are different: that of a declaration tells its prefix, and no other
attribute is named like one. -/
theorem CanonicalTag.nodup (h : CanonicalTag name declarations attributes) :
    ((tagAttributes declarations attributes).map (·.name)).Nodup := by
  rw [tagAttributes, map_append, map_map]
  refine List.Nodup.append ?_ h.names_nodup ?_
  · have hkeys : ((declarations.map fun d => d.attribute.name).map fun n =>
        if n == "xmlns" then "" else localName n) = declarations.map (·.nsPrefix) := by
      rw [map_map]
      exact map_congr_left fun d _ => congrArg (·.nsPrefix) (declarationOf_attribute d)
    exact List.Nodup.of_map _ (hkeys ▸ h.prefixes_nodup)
  · rintro n hn hm
    obtain ⟨d, -, rfl⟩ := mem_map.mp hn
    obtain ⟨a, ha, heq⟩ := mem_map.mp hm
    have hnot := (h.names a ha).2
    rw [heq] at hnot
    exact Bool.false_ne_true (hnot.symm.trans (isNamespaceDeclaration_attribute d))

theorem CanonicalTag.filter_declarations (h : CanonicalTag name declarations attributes) :
    ((tagAttributes declarations attributes).filter fun a => isNamespaceDeclaration a.name).map
      Document.Builder.declarationOf = declarations := by
  have hds : (declarations.map NamespaceDecl.attribute).filter
      (fun a => isNamespaceDeclaration a.name) = declarations.map NamespaceDecl.attribute :=
    filter_eq_self.mpr <| forall_mem_map.mpr fun d _ => isNamespaceDeclaration_attribute d
  have has : attributes.filter (fun a => isNamespaceDeclaration a.name) = [] :=
    filter_eq_nil_iff.mpr fun a ha => by rw [(h.names a ha).2]; exact Bool.false_ne_true
  rw [tagAttributes, filter_append, hds, has, append_nil, map_map]
  exact (map_congr_left fun d _ => declarationOf_attribute d).trans (map_id _)

theorem CanonicalTag.filter_attributes (h : CanonicalTag name declarations attributes) :
    (tagAttributes declarations attributes).filter (fun a => !isNamespaceDeclaration a.name) =
      attributes := by
  have hds : (declarations.map NamespaceDecl.attribute).filter
      (fun a => !isNamespaceDeclaration a.name) = [] :=
    filter_eq_nil_iff.mpr <| forall_mem_map.mpr fun d _ => by
      rw [isNamespaceDeclaration_attribute]
      exact Bool.false_ne_true
  have has : attributes.filter (fun a => !isNamespaceDeclaration a.name) = attributes :=
    filter_eq_self.mpr fun a ha => by rw [(h.names a ha).2]; rfl
  rw [tagAttributes, filter_append, hds, has, nil_append]

/-- The attributes of a tag as they are written. -/
def written (attributes : List Attribute) : List (List Char × List Char) :=
  attributes.map fun a => (a.name.toList, a.value.toList.flatMap escapeAttributeChar)

theorem attributes_markup {attributes : List Attribute}
    (h : ∀ a ∈ attributes, IsName a.name.toList) :
    Attributes (written attributes) (attributes.flatMap Attribute.markup) := by
  induction attributes with
  | nil => exact .nil
  | cons a attributes ih =>
    obtain ⟨ha, hrest⟩ := forall_mem_cons.mp h
    have hspace : IsSpace [' '] := forall_mem_singleton.mpr rfl
    have hnone : IsSpace [] := forall_mem_nil _
    have hvalue := Literal.mk (.inl rfl) (quote_notMem_escape a.value.toList)
    have hcons := Attributes.cons hspace (cons_ne_nil _ _) ha hnone hnone hvalue (ih hrest)
    rw [flatMap_cons, Attribute.markup]
    simpa [written] using hcons

theorem gives_written {attributes : List Attribute}
    (h : ∀ a ∈ attributes, XmlChars a.value.toList) : Gives (written attributes) attributes := by
  rw [Gives, written, forall₂_map_left_iff, forall₂_same]
  exact fun a ha => ⟨rfl, attributeText_escape (h a ha)⟩

/-- **The tag of an element is written as a tag.** -/
theorem CanonicalTag.tagBody (h : CanonicalTag name declarations attributes) :
    TagBody name.toList (written (tagAttributes declarations attributes))
        (tagBody name declarations attributes) ∧
      Gives (written (tagAttributes declarations attributes))
        (tagAttributes declarations attributes) := by
  have hgives := gives_written fun a ha => (h.attribute ha).2
  refine ⟨?_, hgives⟩
  have hdifferent : ((written (tagAttributes declarations attributes)).map Prod.fst).Nodup := by
    rw [written, map_map]
    have hlists := h.nodup.map (f := String.toList) fun _ _ => String.toList_inj.mp
    rwa [map_map] at hlists
  have hvalues : ∀ w ∈ written (tagAttributes declarations attributes),
      ∃ value, AttributeText w.2 value := by
    intro w hw
    obtain ⟨a, ha, rfl⟩ := mem_map.mp hw
    exact ⟨_, attributeText_escape (h.attribute ha).2⟩
  have hbody := TagBody.mk h.isName (attributes_markup fun a ha => (h.attribute ha).1) hdifferent
    hvalues (forall_mem_nil _)
  rwa [append_nil] at hbody

/-! ## Trees -/

/-- **The tokens that the markup of a tree is written with.** -/
def tokens : Tree → List Token
  | .element name declarations attributes children =>
    if children.isEmpty then [.startEmpty name (tagAttributes declarations attributes)]
    else .start name (tagAttributes declarations attributes) :: children.flatMap tokens ++
      [.finish name]
  | .text content => textTokens content.toList
  | .cdata content => [.cdata content.toList]
  | .comment content => [.comment content.toList]
  | .instruction target content => [.instruction target content.toList]
  | .other => []

theorem splitCData_eq_self (h : ¬ "]]>".toList <:+: text) : splitCData text = text := by
  induction text with
  | nil => rfl
  | cons c text ih =>
    have hrest := ih fun hin => h (hin.trans (suffix_cons c text).isInfix)
    rw [splitCData.eq_def]
    split
    · next rest hcons =>
      rw [hcons] at h
      exact absurd (prefix_append "]]>".toList rest).isInfix h
    · next hcons =>
      cases hcons
      rw [hrest]
    · next hnil => cases hnil

theorem checkLeafText_comment {content : String}
    (h : Document.checkLeafText .comment content = .ok ()) :
    ¬ "--".toList <:+: content.toList ∧ content.toList.getLast? ≠ some '-' := by
  rw [Document.checkLeafText] at h
  by_cases hbad : (contains "--".toList content.toList ||
      content.toList.getLast? == some '-') = true
  · rw [if_pos hbad] at h
    cases h
  · rwa [Bool.or_eq_true, contains_iff (by decide), beq_iff_eq, not_or] at hbad

/-- The data of an instruction is set off by a space, which reading skips again. -/
theorem spells_instruction {target content : String} (hn : IsName target.toList)
    (ht : asciiLower target.toList ≠ "xml".toList) (he : ¬ "?>".toList <:+: content.toList)
    (hs : startsBlank content.toList = false) :
    Spells (.instruction target content.toList) (markup (.instruction target content)) := by
  rw [markup]
  by_cases hc : content.isEmpty = true
  · rw [String.isEmpty_iff.mp hc]
    exact .instruction hn ht (.inl rfl) (by decide)
  · have hstop : StopsAt isBlank content.toList := by
      intro c hc
      obtain ⟨rest, hcons⟩ := head?_eq_some_iff.mp hc
      rwa [hcons] at hs
    have hskip : skipBlanks ([' '] ++ content.toList) = content.toList :=
      skipBlanks_append (forall_mem_singleton.mpr rfl) hstop
    have hend : ¬ "?>".toList <:+: ' ' :: content.toList := by
      rw [infix_cons_iff]
      rintro (hhead | hin)
      · cases (cons_prefix_cons.mp hhead).1
      · exact he hin
    have hspells := Spells.instruction hn ht (.inr rfl) hend
    rw [if_neg hc]
    rwa [← singleton_append, hskip] at hspells

/-- **Markup other than that of text begins with a `<`.** -/
theorem Canonical.stopsAt {t : Tree} (h : t.Canonical) (ht : t.isText = false)
    (rest : List Char) : StopsAt isTextChar (t.markup ++ rest) := by
  cases h with
  | text hne hx => cases ht
  | _ => rw [markup]; exact stopsAt_cons.mpr rfl

theorem tokens_all {trees : List Tree}
    (htrees : ∀ t ∈ trees, t.Canonical ∧ ∀ {rest : List Char} {more : List Token},
      (t.isText = true → StopsAt isTextChar rest) → Tokens more rest →
        Tokens (t.tokens ++ more) (t.markup ++ rest)) (hsep : Separated trees)
    (hstop : StopsAt isTextChar rest) (h : Tokens more rest) :
    Tokens (trees.flatMap tokens ++ more) (trees.flatMap markup ++ rest) := by
  induction trees with
  | nil => exact h
  | cons t trees ih =>
    obtain ⟨⟨-, ht⟩, htrees⟩ := forall_mem_cons.mp htrees
    rw [flatMap_cons, flatMap_cons, append_assoc, append_assoc]
    refine ht (fun htext => ?_) (ih htrees hsep.tail)
    cases trees with
    | nil => exact hstop
    | cons next trees =>
      have hnext : next.isText = false := by
        have hapart := (isChain_cons_cons.mp hsep).1
        simpa [htext] using hapart
      rw [flatMap_cons, append_assoc]
      exact (htrees next mem_cons_self).1.stopsAt hnext _

/-- **The markup of a canonical tree is written with its tokens.** -/
theorem Canonical.tokens_markup {t : Tree} (h : t.Canonical)
    (hstop : t.isText = true → StopsAt isTextChar rest) (hm : Tokens more rest) :
    Tokens (t.tokens ++ more) (t.markup ++ rest) := by
  induction h generalizing rest more with
  | @element name declarations attributes children tag separated hc ih =>
    obtain ⟨hbody, hgives⟩ := tag.tagBody
    rw [Tree.tokens, markup]
    by_cases hempty : children.isEmpty = true
    · rw [if_pos hempty, if_pos hempty]
      exact .cons (.startEmpty hbody hgives) (fun hf => by cases hf) hm
    · rw [if_neg hempty, if_neg hempty]
      have hfinish := Tokens.cons (.finish tag.isName (forall_mem_nil _))
        (fun hf => by cases hf) hm
      have hlt : StopsAt isTextChar ("</".toList ++ name.toList ++ [] ++ ">".toList ++ rest) :=
        stopsAt_cons.mpr rfl
      have hinner := tokens_all (fun t ht => ⟨hc t ht, ih t ht⟩) separated hlt hfinish
      have hstart := Tokens.cons (.start hbody hgives) (fun hf => by cases hf) hinner
      simpa using hstart
  | text hne hx =>
    rw [Tree.tokens, markup]
    exact tokens_text hx (hstop rfl) hm
  | cdata hx he =>
    rw [Tree.tokens, markup, splitCData_eq_self he]
    exact .cons (.cdata hx he) (fun hf => by cases hf) hm
  | comment hx hl =>
    obtain ⟨hh, hlast⟩ := checkLeafText_comment hl
    rw [Tree.tokens, markup]
    exact .cons (.comment hx hh hlast) (fun hf => by cases hf) hm
  | instruction hn ht he hs =>
    rw [Tree.tokens]
    exact .cons (spells_instruction hn ht he hs) (fun hf => by cases hf) hm

end Tree

end Xml
