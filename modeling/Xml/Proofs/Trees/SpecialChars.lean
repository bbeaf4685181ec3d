import Xml.Proofs.Trees.Scanning
import Xml.Text.Escape

/-!
# Free-standing text in markup

`encodeSpecial` replaces five characters one after the other. None of the references it writes holds
a character that is replaced later, so the five passes are one substitution (`toList_encodeSpecial`).
What it writes can stand in content and between double quotes, and scanning undoes it in both places:
in content the text comes back as it was (`exists_tokens_encodeSpecial`), in an attribute value only
the tabs and line feeds, which stand for themselves there, have become spaces
(`attributeText_encodeSpecial`).
-/

namespace Xml

open Text Grammar Scan List

namespace Text

/-- What a character of free-standing text is replaced by. -/
def specialChar (c : Char) : List Char :=
  match c with
  | '&' => "&amp;".toList
  | '<' => "&lt;".toList
  | '>' => "&gt;".toList
  | '"' => "&quot;".toList
  | '\r' => "&#13;".toList
  | c => [c]

/-- A character stands for itself or is written as a reference to it. -/
theorem specialChar_cases (c : Char) :
    (specialChar c = [c] ∧ c ≠ '<' ∧ c ≠ '&' ∧ c ≠ '>' ∧ c ≠ '"' ∧ c ≠ '\r') ∨
      ∃ body, Grammar.Reference body c ∧ '"' ∉ body ∧ c ≠ '\t' ∧ c ≠ '\n' ∧
        specialChar c = '&' :: body ++ [';'] := by
  unfold specialChar
  split
  · exact .inr ⟨"amp".toList, .predefined (by decide), by decide, by decide, by decide, rfl⟩
  · exact .inr ⟨"lt".toList, .predefined (by decide), by decide, by decide, by decide, rfl⟩
  · exact .inr ⟨"gt".toList, .predefined (by decide), by decide, by decide, by decide, rfl⟩
  · exact .inr ⟨"quot".toList, .predefined (by decide), by decide, by decide, by decide, rfl⟩
  · exact .inr ⟨"#13".toList, .decimal ⟨by decide, [1, 3], rfl, rfl⟩ rfl, by decide, by decide,
      by decide, rfl⟩
  · next hamp hlt hgt hquot hcr => exact .inl ⟨rfl, hlt, hamp, hgt, hquot, hcr⟩

theorem replaceChar_of_ne {c d : Char} (h : d ≠ c) (replacement : String) :
    replaceChar c replacement [d] = [d] := by
  rw [replaceChar, flatMap_singleton, if_neg (by simpa using h)]

/-- No pass touches what an earlier one has written for a character. -/
theorem passes_singleton (c : Char) :
    (replaceChar '\r' "&#13;" <| replaceChar '"' "&quot;" <| replaceChar '>' "&gt;" <|
      replaceChar '<' "&lt;" <| replaceChar '&' "&amp;" [c]) = specialChar c := by
  unfold specialChar
  split
  · rfl
  · rfl
  · rfl
  · rfl
  · rfl
  · next hamp hlt hgt hquot hcr =>
    rw [replaceChar_of_ne hamp, replaceChar_of_ne hlt, replaceChar_of_ne hgt,
      replaceChar_of_ne hquot, replaceChar_of_ne hcr]

theorem replaceChar_append (c : Char) (replacement : String) (text more : List Char) :
    replaceChar c replacement (text ++ more) =
      replaceChar c replacement text ++ replaceChar c replacement more :=
  flatMap_append

/-- **Five passes are one substitution.** -/
theorem toList_encodeSpecial (text : String) :
    (encodeSpecial text).toList = text.toList.flatMap specialChar := by
  rw [encodeSpecial, String.toList_ofList]
  induction text.toList with
  | nil => rfl
  | cons c text ih =>
    rw [flatMap_cons, ← passes_singleton c, ← ih, ← singleton_append]
    simp only [replaceChar_append]

/-! ## In an attribute value -/

/-- The value that is read back: what stands for itself is normalized. -/
def spaced (c : Char) : Char :=
  if c = '\t' ∨ c = '\n' then ' ' else c

/-- **Between quotes** the text comes back with its tabs and line feeds as spaces. -/
theorem attributeText_encodeSpecial {text : List Char} (h : XmlChars text) :
    AttributeText (text.flatMap specialChar) (text.map spaced) := by
  induction text with
  | nil => exact .nil
  | cons c text ih =>
    obtain ⟨hc, hrest⟩ := forall_mem_cons.mp h
    rw [flatMap_cons, map_cons]
    rcases specialChar_cases c with ⟨hself, hlt, hamp, -, -, hcr⟩ | ⟨body, hbody, -, htab, hlf, hesc⟩
    · have hblank : normalizeBlank c = spaced c := by simp [normalizeBlank, spaced, hcr]
      rw [hself, ← hblank]
      exact .char hlt hamp hc (ih hrest)
    · have hkept : spaced c = c := if_neg (not_or.mpr ⟨htab, hlf⟩)
      rw [hesc, hkept]
      simpa using AttributeText.reference hbody (ih hrest)

theorem quote_notMem_encodeSpecial (text : List Char) : '"' ∉ text.flatMap specialChar := by
  rw [mem_flatMap]
  rintro ⟨c, -, hm⟩
  rcases specialChar_cases c with ⟨hself, -, -, -, hquot, -⟩ | ⟨body, -, hbody, -, -, hesc⟩
  · rw [hself, mem_singleton] at hm
    exact hquot hm.symm
  · rw [hesc] at hm
    simp [hbody] at hm

/-! ## In content -/

/-- A character that stands for itself. -/
def isOrdinary (c : Char) : Bool :=
  specialChar c = [c]

theorem flatMap_ordinary {text : List Char} (h : ∀ c ∈ text, isOrdinary c = true) :
    text.flatMap specialChar = text := by
  induction text with
  | nil => rfl
  | cons c text ih =>
    obtain ⟨hc, hrest⟩ := forall_mem_cons.mp h
    rw [flatMap_cons, of_decide_eq_true hc, ih hrest]
    rfl

/-- A stretch of characters that stand for themselves is character data. -/
theorem charData_ordinary {text : List Char} (hx : XmlChars text)
    (h : ∀ c ∈ text, isOrdinary c = true) : CharData text := by
  have hnot {c : Char} (hc : isOrdinary c = false) : c ∉ text := fun hm =>
    Bool.false_ne_true (hc.symm.trans (h c hm))
  refine ⟨hx, hnot (by decide), hnot (by decide), fun hin => ?_⟩
  exact hnot (c := '>') (by decide) (hin.subset (by decide))

end Text

theorem exists_tokens_ordinary {text rest : List Char} {tokens : List Token} (hx : XmlChars text)
    (ht : ∀ c ∈ text, isOrdinary c = true) (hstop : StopsAt isTextChar rest)
    (h : Tokens tokens rest) :
    ∃ written, Tokens (written ++ tokens) (text ++ rest) ∧
      ∀ s : State, s.opened ≠ [] → Token.FitAll s written ∧
        Token.run s written = { s with pending := s.pending ++ String.ofList text } := by
  by_cases hne : text = []
  · subst hne
    exact ⟨[], h, fun s _ => ⟨trivial, by simp [Token.run]⟩⟩
  · refine ⟨[.text text], .cons (.text (charData_ordinary hx ht) hne) (fun _ => hstop) h,
      fun s ho => ⟨⟨fun hs => absurd hs ho, trivial⟩, ?_⟩⟩
    exact if_neg (not_isEmpty_opened ho)

/-- **In content** the tokens that are written make the text pending again, whatever tokens the rest
is written with. -/
theorem exists_tokens_encodeSpecial {text rest : List Char} {tokens : List Token}
    (hx : XmlChars text) (hstop : StopsAt isTextChar rest) (h : Tokens tokens rest) :
    ∃ written, Tokens (written ++ tokens) (text.flatMap specialChar ++ rest) ∧
      ∀ s : State, s.opened ≠ [] → Token.FitAll s written ∧
        Token.run s written = { s with pending := s.pending ++ String.ofList text } := by
  -- one stretch of ordinary characters is taken off at a time, with the reference behind it
  induction hn : text.length using Nat.strong_induction_on generalizing text with
  | _ n ih =>
    obtain ⟨plain, more, hsplit, hplain, hmore⟩ :
        ∃ plain more, text = plain ++ more ∧ (∀ c ∈ plain, isOrdinary c = true) ∧
          StopsAt isOrdinary more :=
      ⟨text.takeWhile isOrdinary, text.dropWhile isOrdinary, takeWhile_append_dropWhile.symm,
        fun _ hc => mem_takeWhile_imp hc, stopsAt_dropWhile isOrdinary text⟩
    subst hsplit
    obtain ⟨hxplain, hxmore⟩ := forall_mem_append.mp hx
    rw [flatMap_append, flatMap_ordinary hplain]
    cases more with
    | nil =>
      obtain ⟨written, htokens, hrun⟩ := exists_tokens_ordinary hxplain hplain hstop h
      exact ⟨written, by simpa using htokens, by simpa using hrun⟩
    | cons c more =>
      obtain ⟨hc, hxmore⟩ := forall_mem_cons.mp hxmore
      obtain ⟨others, hothers, hrun⟩ := ih more.length (by simp [← hn]; omega) hxmore rfl
      have hspecial : specialChar c ≠ [c] := of_decide_eq_false (stopsAt_cons.mp hmore)
      obtain ⟨body, hbody, -, -, -, hesc⟩ := (specialChar_cases c).resolve_left fun h => hspecial h.1
      have href : Tokens (.reference c :: (others ++ tokens))
          ('&' :: body ++ [';'] ++ (more.flatMap specialChar ++ rest)) :=
        .cons (.reference hbody) (fun hf => by cases hf) hothers
      obtain ⟨first, hfirst, hrunFirst⟩ :=
        exists_tokens_ordinary hxplain hplain (stopsAt_cons.mpr rfl) href
      refine ⟨first ++ .reference c :: others, ?_, fun s ho => ?_⟩
      · rw [flatMap_cons, hesc]
        simpa using hfirst
      · obtain ⟨hfits, hrun₁⟩ := hrunFirst s ho
        obtain ⟨hfits₂, hrun₂⟩ := hrun
          { s with pending := (s.pending ++ String.ofList plain).push c } ho
        rw [Token.fitAll_append, Token.run_append, hrun₁]
        refine ⟨⟨hfits, ho, hfits₂⟩, hrun₂.trans ?_⟩
        simp [push_append_ofList, String.append_assoc]

theorem isName_singleton {c : Char} (h : startsName c = true) : IsName [c] :=
  ⟨c, [], rfl, h, forall_mem_nil _⟩

theorem scanText_content_encodeSpecial {text : String} (hx : XmlChars text.toList) (hne : text ≠ "")
    (options : ParseOptions) (files : Files) :
    scanText ("<a>".toList ++ (encodeSpecial text).toList ++ "</a>".toList) options files =
      ⟨[.startDocument, .startElement "a" [], .characters text, .endElement "a", .endDocument],
        none⟩ := by
  have hname : IsName "a".toList := isName_singleton (by decide)
  have hbody : TagBody "a".toList [] ("a".toList ++ [] ++ []) :=
    .mk hname .nil nodup_nil (forall_mem_nil _) (forall_mem_nil _)
  have hfinish : Tokens [.finish "a"] ("</".toList ++ "a".toList ++ [] ++ ">".toList ++ []) :=
    .cons (.finish hname (forall_mem_nil _)) (fun hf => by cases hf) .nil
  have hstop : StopsAt isTextChar ("</".toList ++ "a".toList ++ [] ++ ">".toList ++ []) :=
    stopsAt_cons.mpr rfl
  obtain ⟨written, hwritten, hrun⟩ := exists_tokens_encodeSpecial hx hstop hfinish
  have htokens := Tokens.cons (.start hbody .nil) (fun hf => by cases hf) hwritten
  let inside : State :=
    { events := #[.startDocument, .startElement "a" []], opened := ["a"], seenRoot := true }
  obtain ⟨hfits, hinside⟩ := hrun inside (cons_ne_nil _ _)
  rw [String.ofList_toList] at hinside
  have hlast : Token.run { events := #[.startDocument] }
      (.start "a" [] :: (written ++ [.finish "a"])) =
        { events := #[.startDocument, .startElement "a" [], .characters text, .endElement "a"],
          seenRoot := true } := by
    refine (Token.run_append inside written [.finish "a"]).trans ?_
    rw [hinside]
    simp [inside, Token.run, Token.effect, State.flush, State.finish, hne]
  have hfit : Token.FitAll { events := #[.startDocument] }
      (.start "a" [] :: (written ++ [.finish "a"])) := by
    refine ⟨fun _ => rfl, Token.fitAll_append.mpr ⟨hfits, ?_, trivial⟩⟩
    exact congrArg (fun s : State => s.opened.head?) hinside
  have hscan := scanText_of_tokens options files htokens hfit (by rw [hlast]) (by rw [hlast])
  rw [hlast, State.record_of_pending rfl] at hscan
  rw [toList_encodeSpecial]
  simpa using hscan

theorem scanText_attribute_encodeSpecial {text : String} (hx : XmlChars text.toList)
    (options : ParseOptions) (files : Files) :
    scanText ("<a x=\"".toList ++ (encodeSpecial text).toList ++ "\"/>".toList) options files =
      ⟨[.startDocument, .startElement "a" [⟨"x", String.ofList (text.toList.map spaced)⟩],
        .endElement "a", .endDocument], none⟩ := by
  let raw := text.toList.flatMap specialChar
  let value := text.toList.map spaced
  have hspace : IsSpace [' '] := forall_mem_singleton.mpr rfl
  have hnone : IsSpace [] := forall_mem_nil _
  have hvalue : AttributeText raw value := attributeText_encodeSpecial hx
  have hattributes : Attributes [("x".toList, raw)] _ :=
    .cons hspace (cons_ne_nil _ _) (isName_singleton (by decide)) hnone hnone
      (.mk (.inl rfl) (quote_notMem_encodeSpecial text.toList)) .nil
  have hbody : TagBody "a".toList [("x".toList, raw)] _ :=
    .mk (isName_singleton (by decide)) hattributes (nodup_singleton _)
      (forall_mem_singleton.mpr ⟨value, hvalue⟩) hnone
  have hgives : Gives [("x".toList, raw)] [⟨"x", String.ofList value⟩] :=
    .cons ⟨rfl, by simpa using hvalue⟩ .nil
  have htokens := Tokens.cons (.startEmpty hbody hgives) (fun hf => by cases hf) .nil
  have hscan := scanText_of_tokens options files htokens ⟨fun _ => rfl, trivial⟩ rfl rfl
  rw [State.record_of_pending rfl] at hscan
  rw [toList_encodeSpecial]
  simpa [Token.run, Token.effect, State.flush, State.startEmpty] using hscan

/-- **Free-standing text is read back.** What `encodeSpecial` writes is the text with the five
characters replaced and nothing else changed. Between the tags of an element it is scanned to the
text, in one piece; between the quotes of an attribute, to the text with tabs and line feeds as
spaces. Neither way a problem is told. -/
theorem encodeSpecial_read_back (text : String) :
    (encodeSpecial text).toList = text.toList.flatMap specialChar ∧
    (XmlChars text.toList → ∀ (options : ParseOptions) (files : Files),
      (text ≠ "" →
        scanText ("<a>".toList ++ (encodeSpecial text).toList ++ "</a>".toList) options files =
          ⟨[.startDocument, .startElement "a" [], .characters text, .endElement "a",
            .endDocument], none⟩) ∧
      scanText ("<a x=\"".toList ++ (encodeSpecial text).toList ++ "\"/>".toList) options files =
        ⟨[.startDocument, .startElement "a" [⟨"x", String.ofList (text.toList.map spaced)⟩],
          .endElement "a", .endDocument], none⟩) := by
  refine ⟨toList_encodeSpecial text, fun hx options files => ?_⟩
  exact ⟨fun hne => scanText_content_encodeSpecial hx hne options files,
    scanText_attribute_encodeSpecial hx options files⟩

/-- A text that looks like a reference and like the end of a CDATA section, with a line end of two
characters. -/
def referenceLike : String :=
  "&amp;]]>\"\r\n"

theorem referenceLike_read_back :
    (encodeSpecial referenceLike = "&amp;amp;]]&gt;&quot;&#13;\n" ∧
      XmlChars referenceLike.toList ∧ referenceLike ≠ "") ∧
    scanText ("<a>".toList ++ (encodeSpecial referenceLike).toList ++ "</a>".toList) {} .none =
      ⟨[.startDocument, .startElement "a" [], .characters referenceLike, .endElement "a",
        .endDocument], none⟩ ∧
    scanText ("<a x=\"".toList ++ (encodeSpecial referenceLike).toList ++ "\"/>".toList) {} .none =
      ⟨[.startDocument, .startElement "a" [⟨"x", "&amp;]]>\"\r "⟩], .endElement "a",
        .endDocument], none⟩ := by
  have hx : XmlChars referenceLike.toList := List.all_eq_true.mp (by decide)
  have hne : referenceLike ≠ "" := by decide
  obtain ⟨hcontent, hattribute⟩ := (encodeSpecial_read_back referenceLike).2 hx {} .none
  exact ⟨⟨by decide, hx, hne⟩, hcontent hne, hattribute⟩

end Xml
