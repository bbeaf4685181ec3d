import Xml.Proofs.Scan.Values

/-!
# Tokens

One step of a scan takes in one token: a stretch of character data, a reference, or a piece of
markup. `Spells` says how a token is written, `Token.Fits` where it may stand and `Token.effect` what
it does to the state. In a document without a document type, a scan takes in the tokens that the text
is written with (`content_of_tokens`), and a text that it takes in without a mistake is written with
tokens (`exists_tokens_of_content`).
-/

namespace Xml.Scan

open Text Grammar List

/-- What one step of a scan takes in. -/
inductive Token where
  | text (chars : List Char)
  | reference (c : Char)
  | comment (chars : List Char)
  | instruction (target : String) (data : List Char)
  | cdata (chars : List Char)
  | start (name : String) (attributes : List Attribute)
  | startEmpty (name : String) (attributes : List Attribute)
  | finish (name : String)

namespace Token

/-- A token that is character data. -/
def isText : Token → Bool
  | .text _ => true
  | _ => false

/-- Where a token may stand: character data other than white space inside an element, a second
element not beside the first, an end tag behind what it ends. -/
def Fits (s : State) : Token → Prop
  | .text chars => s.opened = [] → IsSpace chars
  | .reference _ | .cdata _ => s.opened ≠ []
  | .comment _ | .instruction _ _ => True
  | .start _ _ | .startEmpty _ _ => s.opened = [] → s.seenRoot = false
  | .finish name => s.opened.head? = some name

/-- What a token does to the state. -/
def effect (s : State) : Token → State
  | .text chars =>
    if s.opened.isEmpty then s else { s with pending := s.pending ++ String.ofList chars }
  | .reference c => { s with pending := s.pending.push c }
  | .comment chars => s.flush.told (.comment (String.ofList chars))
  | .instruction target data =>
    s.flush.told (.instruction target (if data.isEmpty then none else some (String.ofList data)))
  | .cdata chars => s.flush.cdata chars
  | .start name attributes => s.flush.start name attributes
  | .startEmpty name attributes => s.flush.startEmpty name attributes
  | .finish name => s.flush.finish name s.opened.tail

def run (s : State) (tokens : List Token) : State :=
  tokens.foldl effect s

/-- Each token may stand where it stands. -/
def FitAll (s : State) : List Token → Prop
  | [] => True
  | token :: tokens => token.Fits s ∧ FitAll (token.effect s) tokens

end Token

/-- How a token is written. -/
inductive Spells : Token → List Char → Prop where
  | text {text : List Char} (h : CharData text) (hne : text ≠ []) : Spells (.text text) text
  | reference {body : List Char} {c : Char} (h : Grammar.Reference body c) :
      Spells (.reference c) ('&' :: body ++ [';'])
  | comment {text : List Char} (hc : XmlChars text) (hh : ¬ "--".toList <:+: text)
      (hl : text.getLast? ≠ some '-') : Spells (.comment text) ("<!--".toList ++ text ++ "-->".toList)
  | instruction {target : String} {data : List Char} (hn : IsName target.toList)
      (hx : asciiLower target.toList ≠ "xml".toList) (hs : data = [] ∨ startsBlank data = true)
      (he : ¬ "?>".toList <:+: data) :
      Spells (.instruction target (skipBlanks data))
        ("<?".toList ++ target.toList ++ data ++ "?>".toList)
  | cdata {text : List Char} (hc : XmlChars text) (he : ¬ "]]>".toList <:+: text) :
      Spells (.cdata text) ("<![CDATA[".toList ++ text ++ "]]>".toList)
  | start {name : String} {written : List (List Char × List Char)} {attributes : List Attribute}
      {body : List Char} (h : TagBody name.toList written body) (hg : Gives written attributes) :
      Spells (.start name attributes) ('<' :: body ++ ">".toList)
  | startEmpty {name : String} {written : List (List Char × List Char)}
      {attributes : List Attribute} {body : List Char} (h : TagBody name.toList written body)
      (hg : Gives written attributes) :
      Spells (.startEmpty name attributes) ('<' :: body ++ "/>".toList)
  | finish {name : String} {space : List Char} (hn : IsName name.toList) (hs : IsSpace space) :
      Spells (.finish name) ("</".toList ++ name.toList ++ space ++ ">".toList)

/-- A character that is neither the beginning of markup nor that of a reference. -/
def isTextChar (c : Char) : Bool :=
  c != '<' && c != '&'

/-- The tokens that a text is written with. No two stretches of character data are neighbours. -/
inductive Tokens : List Token → List Char → Prop where
  | nil : Tokens [] []
  | cons {token : Token} {tokens : List Token} {piece rest : List Char} (h : Spells token piece)
      (hstop : token.isText = true → StopsAt isTextChar rest) (ht : Tokens tokens rest) :
      Tokens (token :: tokens) (piece ++ rest)

/-! ## What is written is taken in -/

variable {env : Env} {s s' : State} {rest text after body r : List Char} {depth : Nat}
  {name : String} {c : Char} {raws : List RawAttribute} {attributes : List Attribute}
  {written : List (List Char × List Char)} {token : Token}

theorem returning_of_ok {effect : ScanM Unit} (h : effect s = .ok () s') :
    returning rest effect s = .ok rest s' :=
  bind_of_ok h

theorem not_isEmpty_opened (h : s.opened ≠ []) : ¬ s.opened.isEmpty = true :=
  fun he => h (List.isEmpty_iff.mp he)

theorem requireOpen_of {place : List Char} (h : s.opened ≠ []) :
    requireOpen env place s = .ok () s := by
  rw [requireOpen, get_bind, if_neg (not_isEmpty_opened h)]
  rfl

theorem takeText_of (h : CharData text) (hf : s.opened = [] → IsSpace text) :
    takeText env depth rest text s = .ok () ((Token.text text).effect s) := by
  rw [takeText, get_bind, Token.effect]
  by_cases ho : s.opened.isEmpty = true
  · have hb : allBlank text = true := all_eq_true.mpr (hf (List.isEmpty_iff.mp ho))
    simp only [if_pos ho, if_pos hb]
    rfl
  · have hcdata : ¬ contains "]]>".toList text = true := by
      rw [contains_iff (by decide)]
      exact h.2.2.2
    simp only [if_neg ho, if_neg hcdata]
    rw [bind_of_ok (checkChars_of h.1)]
    rfl

theorem takeComment_of (hc : XmlChars text) (hh : ¬ "--".toList <:+: text)
    (hl : text.getLast? ≠ some '-') :
    takeComment env depth rest text s = .ok () (s.told (.comment (String.ofList text))) := by
  have hgood : ¬ (contains "--".toList text || text.getLast? == some '-') = true := by
    rw [Bool.or_eq_true, contains_iff (by decide), beq_iff_eq, not_or]
    exact ⟨hh, hl⟩
  rw [takeComment, placeOf_bind,
    bind_of_ok (checkChars_of hc)]
  dsimp only
  rw [if_neg hgood]
  rfl

theorem takeCData_of (hc : XmlChars text) (ho : s.opened ≠ []) :
    takeCData env depth rest text s = .ok () (s.cdata text) := by
  rw [takeCData, placeOf_bind,
    bind_of_ok (requireOpen_of ho), bind_of_ok (checkChars_of hc)]
  cases text with
  | nil => rfl
  | cons c text => rfl

theorem takeEndTag_of (ho : s.opened.head? = some name) :
    takeEndTag env 0 rest name s = .ok () (s.finish name s.opened.tail) := by
  obtain ⟨others, ho⟩ : ∃ others, s.opened = name :: others := head?_eq_some_iff.mp ho
  rw [takeEndTag, get_bind]
  simp only [ho, length_cons, if_true, Nat.le_zero, Nat.succ_ne_zero, if_false, bne_self_eq_false,
    Bool.false_eq_true, tail_cons]
  rfl

def State.afterStart (s : State) (name : String) (attributes : List Attribute) :
    Bool → State
  | true => s.startEmpty name attributes
  | false => s.start name attributes

theorem takeStartTag_of (env : Env) (depth : Nat) (rest : List Char) (name : String)
    (hg : Gives (raws.map pair) attributes) (hd : ((raws.map pair).map Prod.fst).Nodup)
    (hr : s.opened = [] → s.seenRoot = false) (isEmpty : Bool) :
    ∃ anchor, takeStartTag env depth rest name raws isEmpty s =
      .ok () ((s.afterStart name attributes isEmpty).anchored anchor) := by
  obtain ⟨anchor, hv⟩ := attributeValues_of env depth rest hg hd [] (by simp) s
  have hroot : ¬ (s.opened.isEmpty && s.seenRoot) = true := by
    rw [Bool.and_eq_true, List.isEmpty_iff]
    exact fun h => Bool.false_ne_true ((hr h.1).symm.trans h.2)
  have hopen : openTag env depth rest raws s = .ok attributes (s.anchored anchor) := by
    rw [openTag, get_bind]
    dsimp only
    rw [if_neg hroot]
    exact hv
  refine ⟨anchor, ?_⟩
  rw [takeStartTag, bind_of_ok hopen]
  cases isEmpty with
  | true => rfl
  | false => rfl

/-- Attributes are set off by white space, so the name in front of them ends. -/
theorem stopsAt_attributes (h : Attributes written text) (hr : StopsAt continuesName rest) :
    StopsAt continuesName (text ++ rest) := by
  cases h with
  | nil => exact hr
  | @cons space _ _ _ _ _ _ _ hs hne =>
    cases space with
    | nil => exact absurd rfl hne
    | cons c space => exact stopsAt_cons.mpr (not_continuesName_of_isBlank (hs c mem_cons_self))

theorem markup_startTag (hc : startsName c = true) :
    markup env depth (c :: after) = startTag env depth ('<' :: c :: after) (c :: after) := by
  have hne (x : Char) (hx : startsName x = false) (mark : List Char) :
      after? (x :: mark) (c :: after) = none := by
    refine after?_eq_none fun h => ?_
    have hxc : x = c := (cons_prefix_cons.mp h).1
    exact Bool.false_ne_true (hx.symm.trans (hxc ▸ hc))
  have h₁ : after? "/".toList (c :: after) = none := hne '/' rfl []
  have h₂ : after? "!--".toList (c :: after) = none := hne '!' rfl "--".toList
  have h₃ : after? "![CDATA[".toList (c :: after) = none := hne '!' rfl "[CDATA[".toList
  have h₄ : after? "!DOCTYPE".toList (c :: after) = none := hne '!' rfl "DOCTYPE".toList
  have h₅ : after? "?".toList (c :: after) = none := hne '?' rfl []
  simp only [markup, h₁, h₂, h₃, h₄, h₅, head?_cons, Option.any_some, hc, if_true]

theorem read_tagBody {tail : List Char} {tagEnd : TagEnd} (h : TagBody name.toList written body)
    (ht : endText tagEnd = some tail) :
    ∃ inside raws, readName? (body ++ tail) = some (name.toList, inside) ∧
      readAttributes inside = (raws, tagEnd) ∧ raws.map pair = written := by
  obtain @⟨text, space, hn, ha, -, -, hs⟩ := h
  obtain ⟨raws, hr, hw⟩ := readAttributes_of_attributes ha hs ht
  have hstop := stopsAt_space_append hs (stopsAt_endText ht).2
  refine ⟨_, raws, readName?_eq_some_iff.mpr ⟨?_, hn, stopsAt_attributes ha hstop⟩, ?_, hw⟩
  · simp
  · rwa [append_assoc] at hr

theorem step_startTag {tail : List Char} {expand : String → String → ScanM Unit}
    (h : TagBody name.toList written body) (hg : Gives written attributes)
    (hr : s.opened = [] → s.seenRoot = false) (isEmpty : Bool)
    (ht : endText (if isEmpty then .closed rest else .opened rest) = some tail) :
    ∃ anchor, step env depth expand '<' (body ++ tail) s =
      .ok rest ((s.flush.afterStart name attributes isEmpty).anchored anchor) := by
  obtain ⟨inside, raws, hname, hraws, rfl⟩ := read_tagBody h ht
  have hr' : s.flush.opened = [] → s.flush.seenRoot = false := by simpa using hr
  obtain ⟨anchor, htake⟩ :=
    takeStartTag_of env depth ('<' :: (body ++ tail)) name hg h.nodup hr' isEmpty
  refine ⟨anchor, ?_⟩
  change markup env depth (body ++ tail) s.flush = _
  have hmarkup : markup env depth (body ++ tail) =
      startTag env depth ('<' :: (body ++ tail)) (body ++ tail) := by
    obtain ⟨c, body, rfl, hc⟩ := h.exists_cons
    exact markup_startTag hc
  rw [hmarkup, startTag, hname]
  simp only [hraws, String.ofList_toList]
  cases isEmpty with
  | true => exact returning_of_ok htake
  | false => exact returning_of_ok htake

/-- A comment that does not contain `--` does not contain its own end. -/
theorem not_commentEnd_infix (h : ¬ "--".toList <:+: text) : ¬ "-->".toList <:+: text :=
  fun hi => h (List.IsInfix.trans ⟨[], ">".toList, rfl⟩ hi)

section step

variable {expand : String → String → ScanM Unit}

theorem takeReference_of {reference : Reference} (h : meaning? reference = some c)
    (ho : s.opened ≠ []) :
    takeReference env depth expand rest reference s = .ok () ((Token.reference c).effect s) := by
  rw [takeReference, placeOf_bind, bind_of_ok (requireOpen_of ho)]
  cases reference with
  | char found =>
    rw [meaning?] at h
    rw [h]
    rfl
  | entity name =>
    rw [meaning?] at h
    simp only [h]
    rfl
  | plain => cases h

theorem step_text (h : CharData text) (hne : text ≠ []) (hstop : StopsAt isTextChar rest)
    (hf : s.opened = [] → IsSpace text) (htext : c :: after = text ++ rest) :
    step env depth expand c after s = .ok rest ((Token.text text).effect s) := by
  obtain ⟨c', text, rfl⟩ := exists_cons_of_ne_nil hne
  cases htext
  have hall : ∀ x ∈ c :: text, isTextChar x = true := by
    intro x hx
    rw [isTextChar, Bool.and_eq_true, bne_iff_ne, bne_iff_ne]
    exact ⟨fun h' => h.2.1 (h' ▸ hx), fun h' => h.2.2.1 (h' ▸ hx)⟩
  obtain ⟨hc, hall⟩ := forall_mem_cons.mp hall
  rw [isTextChar, Bool.and_eq_true, bne_iff_ne, bne_iff_ne] at hc
  obtain ⟨ht, hd⟩ := takeWhile_append_of_stopsAt hall hstop
  rw [step, if_neg (by simpa using hc.1), if_neg (by simpa using hc.2)]
  change returning ((text ++ rest).dropWhile isTextChar)
    (takeText env depth _ (c :: (text ++ rest).takeWhile isTextChar)) s = _
  rw [ht, hd]
  exact returning_of_ok (takeText_of h hf)

theorem step_reference (h : Grammar.Reference body c) (ho : s.opened ≠ []) :
    step env depth expand '&' (body ++ ';' :: rest) s = .ok rest ((Token.reference c).effect s) := by
  obtain ⟨r, hread, hr⟩ := readReference_eq_iff.mpr ⟨body, h, rfl⟩
  rw [step, if_neg (by decide), if_pos (by decide), hread]
  exact returning_of_ok (takeReference_of hr ho)

theorem step_comment (hc : XmlChars text) (hh : ¬ "--".toList <:+: text)
    (hl : text.getLast? ≠ some '-') :
    step env depth expand '<' ("!--".toList ++ (text ++ "-->".toList ++ rest)) s =
      .ok rest ((Token.comment text).effect s) := by
  have hread : readComment (text ++ "-->".toList ++ rest) = .ok (text, rest) :=
    readComment_eq_ok_iff.mpr ⟨rfl, not_commentEnd_infix hh⟩
  change afterPiece env depth _ (readComment (text ++ "-->".toList ++ rest)) _ _ s.flush = _
  rw [hread]
  exact returning_of_ok (takeComment_of hc hh hl)

theorem step_cdata (hc : XmlChars text) (he : ¬ "]]>".toList <:+: text) (ho : s.opened ≠ []) :
    step env depth expand '<' ("![CDATA[".toList ++ (text ++ "]]>".toList ++ rest)) s =
      .ok rest ((Token.cdata text).effect s) := by
  have hread : readCData (text ++ "]]>".toList ++ rest) = .ok (text, rest) :=
    readCData_eq_ok_iff.mpr ⟨rfl, he⟩
  have ho' : s.flush.opened ≠ [] := by rwa [State.opened_flush]
  change afterPiece env depth _ (readCData (text ++ "]]>".toList ++ rest)) _ _ s.flush = _
  rw [hread]
  exact returning_of_ok (takeCData_of hc ho')

theorem step_instruction {target : String} {data : List Char} (hn : IsName target.toList)
    (hx : asciiLower target.toList ≠ "xml".toList) (hs : data = [] ∨ startsBlank data = true)
    (he : ¬ "?>".toList <:+: data) :
    step env depth expand '<' ('?' :: (target.toList ++ data ++ "?>".toList ++ rest)) s =
      .ok rest ((Token.instruction target (skipBlanks data)).effect s) := by
  have hread : readInstruction (target.toList ++ data ++ "?>".toList ++ rest) =
      .ok ((target, skipBlanks data), rest) :=
    readInstruction_eq_ok_iff.mpr ⟨data, hn, hx, hs, he, rfl, rfl⟩
  change afterPiece env depth _ (readInstruction (target.toList ++ data ++ "?>".toList ++ rest))
    _ _ s.flush = _
  rw [hread]
  rfl

theorem step_finish {space : List Char} (hn : IsName name.toList) (hs : IsSpace space)
    (ho : s.opened.head? = some name) :
    step env 0 expand '<' ('/' :: (name.toList ++ space ++ '>' :: rest)) s =
      .ok rest ((Token.finish name).effect s) := by
  have hread : readEndTag (name.toList ++ space ++ '>' :: rest) = .ok (name, rest) :=
    readEndTag_eq_ok_iff.mpr ⟨space, hn, hs, rfl⟩
  have ho' : s.flush.opened.head? = some name := by rwa [State.opened_flush]
  change afterPiece env 0 _ (readEndTag (name.toList ++ space ++ '>' :: rest)) _ _ s.flush = _
  rw [hread, Token.effect, show s.opened.tail = s.flush.opened.tail by rw [State.opened_flush]]
  exact returning_of_ok (takeEndTag_of ho')

/-- **A token that fits is taken in**, and has its effect. Only where problems would be reported may
change besides. -/
theorem step_of_spells (env : Env) (expand : String → String → ScanM Unit) {piece : List Char}
    (h : Spells token piece) (hstop : token.isText = true → StopsAt isTextChar rest)
    (hf : token.Fits s) (htext : c :: after = piece ++ rest) :
    ∃ anchor, step env 0 expand c after s = .ok rest ((token.effect s).anchored anchor) := by
  have hsame {token : Token} (h : step env 0 expand c after s = .ok rest (token.effect s)) :
      ∃ anchor, step env 0 expand c after s = .ok rest ((token.effect s).anchored anchor) :=
    ⟨_, h⟩
  cases h with
  | text h hne => exact hsame (step_text h hne (hstop rfl) hf htext)
  | reference h =>
    rw [append_assoc] at htext
    cases htext
    exact hsame (step_reference h hf)
  | @comment text hc hh hl =>
    have htext : c :: after = '<' :: ("!--".toList ++ (text ++ "-->".toList ++ rest)) := htext
    cases htext
    exact hsame (step_comment hc hh hl)
  | @instruction target data hn hx hs he =>
    have htext : c :: after = '<' :: '?' :: (target.toList ++ data ++ "?>".toList ++ rest) := htext
    cases htext
    exact hsame (step_instruction hn hx hs he)
  | @cdata text hc he =>
    have htext : c :: after = '<' :: ("![CDATA[".toList ++ (text ++ "]]>".toList ++ rest)) := htext
    cases htext
    exact hsame (step_cdata hc he hf)
  | start h hg =>
    rw [append_assoc] at htext
    cases htext
    exact step_startTag h hg hf false rfl
  | startEmpty h hg =>
    rw [append_assoc] at htext
    cases htext
    exact step_startTag h hg hf true rfl
  | finish hn hs =>
    rw [append_assoc] at htext
    cases htext
    exact hsame (step_finish hn hs hf)

end step

/-! ## Nothing else is taken in without a flaw -/

theorem requireOpen_eq_ok {place : List Char} (h : requireOpen env place s = .ok () s') :
    s.opened ≠ [] ∧ s' = s := by
  rw [requireOpen, get_bind] at h
  by_cases ho : s.opened.isEmpty = true
  · rw [if_pos ho] at h
    cases h
  · rw [if_neg ho] at h
    cases h
    exact ⟨fun he => ho (List.isEmpty_iff.mpr he), rfl⟩

/-- Outside the root element there is only white space. -/
theorem isSpace_of_takeText (ho : s.opened = []) (h : takeText env depth rest text s = .ok () s') :
    IsSpace text := by
  rw [takeText, get_bind] at h
  dsimp only at h
  rw [if_pos (List.isEmpty_iff.mpr ho)] at h
  by_cases hb : allBlank text = true
  · exact all_eq_true.mp hb
  · rw [if_neg hb] at h
    cases h

theorem takeText_eq_ok (h : takeText env depth rest text s = .ok () s') (hgood : ¬ Spoilt s') :
    (s.opened = [] ∧ IsSpace text) ∨
      (s.opened ≠ [] ∧ XmlChars text ∧ ¬ "]]>".toList <:+: text) := by
  by_cases ho : s.opened = []
  · exact .inl ⟨ho, isSpace_of_takeText ho h⟩
  · rw [takeText, get_bind] at h
    dsimp only at h
    rw [if_neg fun he => ho (List.isEmpty_iff.mp he)] at h
    obtain ⟨_, s₁, hcheck, h⟩ := bind_eq_ok h
    obtain ⟨hc, rfl⟩ := checkChars_eq_ok hcheck
    by_cases hcdata : contains "]]>".toList text = true
    · rw [if_pos hcdata] at h
      exact absurd (spoilt_of_report (Keeps.ofModify fun _ hs => hs) h) hgood
    · rw [contains_iff (by decide)] at hcdata
      exact .inr ⟨ho, hc, hcdata⟩

theorem takeReference_eq_ok {expand : String → String → ScanM Unit} {reference : Reference}
    (hs : s.entities = {}) (h : takeReference env depth expand rest reference s = .ok () s')
    (hgood : ¬ Spoilt s') : s.opened ≠ [] ∧ ∃ c, meaning? reference = some c := by
  rw [takeReference, placeOf_bind] at h
  obtain ⟨_, s₁, hopen, h⟩ := bind_eq_ok h
  obtain ⟨ho, rfl⟩ := requireOpen_eq_ok hopen
  refine ⟨ho, ?_⟩
  cases reference with
  | char found =>
    cases found with
    | some c => exact ⟨c, rfl⟩
    | none => exact absurd (spoilt_of_report (f := fun _ => pure ()) (.ofPure ()) h) hgood
  | plain => exact absurd (spoilt_of_report (Keeps.ofModify fun _ hs => hs) h) hgood
  | entity name =>
    cases hp : predefined? name with
    | some c => exact ⟨c, hp⟩
    | none =>
      simp only [hp, takeEntity] at h
      have hnone : s₁.entities.get? (String.ofList name) = none := by rw [hs]; rfl
      rw [get_bind] at h
      simp only [hnone] at h
      refine absurd (spoilt_of_report ?_ h) hgood
      refine .andThen (.ofModify fun t ht => spoilt_flush.mpr ht) fun _ => ?_
      exact .ofModify fun t ht => ht.told _

theorem takeComment_eq_ok (h : takeComment env depth rest text s = .ok () s')
    (hgood : ¬ Spoilt s') :
    XmlChars text ∧ ¬ "--".toList <:+: text ∧ text.getLast? ≠ some '-' := by
  rw [takeComment, placeOf_bind] at h
  obtain ⟨_, s₁, hcheck, h⟩ := bind_eq_ok h
  obtain ⟨hc, rfl⟩ := checkChars_eq_ok hcheck
  dsimp only at h
  by_cases hbad : (contains "--".toList text || text.getLast? == some '-') = true
  · rw [if_pos hbad] at h
    exact absurd (spoilt_of_report (Keeps.ofModify fun t ht => ht.told _) h) hgood
  · rw [Bool.or_eq_true, contains_iff (by decide), beq_iff_eq, not_or] at hbad
    exact ⟨hc, hbad⟩

theorem takeCData_eq_ok (h : takeCData env depth rest text s = .ok () s') :
    XmlChars text ∧ s.opened ≠ [] := by
  rw [takeCData, placeOf_bind] at h
  obtain ⟨_, s₁, hopen, h⟩ := bind_eq_ok h
  obtain ⟨ho, rfl⟩ := requireOpen_eq_ok hopen
  obtain ⟨_, s₂, hcheck, h⟩ := bind_eq_ok h
  exact ⟨(checkChars_eq_ok hcheck).1, ho⟩

theorem takeEndTag_eq_ok (h : takeEndTag env depth rest name s = .ok () s') :
    s.opened.head? = some name := by
  rw [takeEndTag, get_bind] at h
  dsimp only at h
  generalize (if depth = 0 then 0 else s.entityBase) = base at h
  cases ho : s.opened with
  | nil =>
    rw [ho] at h
    cases h
  | cons top others =>
    rw [ho] at h
    dsimp only at h
    by_cases hl : (top :: others).length ≤ base
    · rw [if_pos hl] at h
      cases h
    rw [if_neg hl] at h
    by_cases hn : (top != name) = true
    · rw [if_pos hn] at h
      cases h
    · rw [head?_cons, show top = name by simpa using hn]

theorem spoilt_takeDoctype {doctype : Doctype}
    (h : takeDoctype env depth rest doctype s = .ok () s') : Spoilt s' := by
  have htell : Triple (fun _ => True) (tell (.doctype doctype)) (fun _ => Spoilt) fun _ => True :=
    .ofTell fun s _ => spoilt_told.mpr (.inr rfl)
  have hskip {β : Type} (m : ScanM β) :
      Triple (fun _ => True) m (fun _ _ => True) fun _ => True :=
    .ofPost (fun _ _ => trivial) fun _ => trivial
  have hall : Triple (fun _ => True) (takeDoctype env depth rest doctype) (fun _ => Spoilt)
      fun _ => True := by
    refine .andThen (hskip _) fun _ => .andThen (hskip _) fun _ => .andThen (hskip _) fun _ => ?_
    dsimp only
    split
    · refine .andThen (hskip _) fun _ => ?_
      split
      · exact .andThen (hskip _) fun _ => htell
      · exact htell
    · split
      · exact .andThen (hskip _) fun _ => htell
      · exact htell
  exact hall.ok trivial h

theorem openTag_eq_ok (hs : s.entities = {}) (h : openTag env depth rest raws s = .ok attributes s')
    (hgood : ¬ Spoilt s') :
    (s.opened = [] → s.seenRoot = false) ∧ ((raws.map pair).map Prod.fst).Nodup ∧
      ∀ w ∈ raws.map pair, ∃ value, AttributeText w.2 value := by
  rw [openTag, get_bind] at h
  dsimp only at h
  by_cases hroot : (s.opened.isEmpty && s.seenRoot) = true
  · rw [if_pos hroot] at h
    cases h
  · rw [if_neg hroot] at h
    obtain ⟨hd, -, hv⟩ := nodup_of_attributeValues hs h hgood
    refine ⟨fun ho => ?_, hd, hv⟩
    simpa [ho] using hroot

theorem takeStartTag_eq_ok {isEmpty : Bool} (hs : s.entities = {})
    (h : takeStartTag env depth rest name raws isEmpty s = .ok () s') (hgood : ¬ Spoilt s') :
    (s.opened = [] → s.seenRoot = false) ∧ ((raws.map pair).map Prod.fst).Nodup ∧
      ∀ w ∈ raws.map pair, ∃ value, AttributeText w.2 value := by
  obtain ⟨attributes, s₁, hopen, h⟩ := bind_eq_ok h
  refine openTag_eq_ok hs hopen fun hbad => hgood ?_
  cases isEmpty with
  | true =>
    cases h
    exact (hbad.told (.startElement name attributes)).told (.endElement name)
  | false =>
    cases h
    exact hbad.told (.startElement name attributes)

theorem returning_eq_ok {effect : ScanM Unit} (h : returning r effect s = .ok rest s') :
    r = rest ∧ effect s = .ok () s' := by
  obtain ⟨_, s₁, he, hr⟩ := bind_eq_ok h
  cases hr
  exact ⟨rfl, he⟩

theorem afterPiece_eq_ok {α : Type} {piece : Except Problem (α × List Char)} {check : ScanM Unit}
    {effect : α → ScanM Unit} (h : afterPiece env depth r piece check effect s = .ok rest s') :
    ∃ found, piece = .ok (found, rest) ∧ effect found s = .ok () s' := by
  cases piece with
  | ok piece =>
    obtain ⟨rfl, he⟩ := returning_eq_ok h
    exact ⟨piece.1, rfl, he⟩
  | error problem => exact absurd h bind_failAt_ne_ok

/-- A tag that was read is written as the grammar says, up to its end. -/
theorem exists_tagBody {name inside : List Char} (hn : readName? after = some (name, inside))
    (tail : List Char)
    (ht : endText (readAttributes inside).2 = some tail)
    (hd : (((readAttributes inside).1.map pair).map Prod.fst).Nodup)
    (hv : ∀ w ∈ (readAttributes inside).1.map pair, ∃ value, AttributeText w.2 value) :
    ∃ body, TagBody (String.ofList name).toList ((readAttributes inside).1.map pair) body ∧
      after = body ++ tail := by
  obtain ⟨text, space, hinside, hspace, ha⟩ := attributes_of_readAttributes ht
  obtain ⟨hafter, hname, -⟩ := readName?_eq_some_iff.mp hn
  rw [String.toList_ofList]
  refine ⟨name ++ text ++ space, .mk hname ha hd hv hspace, ?_⟩
  rw [hafter, hinside]
  simp

theorem exists_token_of_startTag (hs : s.entities = {})
    (h : startTag env depth r after s = .ok rest s') (hgood : ¬ Spoilt s') :
    ∃ token piece, Spells token piece ∧ token.isText = false ∧ token.Fits s ∧
      '<' :: after = piece ++ rest := by
  cases hn : readName? after with
  | none =>
    simp only [startTag, hn] at h
    exact absurd h failAt_ne_ok
  | some found =>
  obtain ⟨name, inside⟩ := found
  have hbody := exists_tagBody hn
  obtain ⟨⟨raws, tagEnd⟩, hr⟩ : ∃ found, readAttributes inside = found := ⟨_, rfl⟩
  rw [hr] at hbody
  simp only [startTag, hn, hr] at h
  cases tagEnd with
  | opened tail =>
    obtain ⟨rfl, htake⟩ := returning_eq_ok h
    obtain ⟨hroot, hd, hv⟩ := takeStartTag_eq_ok hs htake hgood
    obtain ⟨body, hb, rfl⟩ := hbody _ rfl hd hv
    obtain ⟨attributes, hg⟩ := exists_gives hv
    refine ⟨.start (String.ofList name) attributes, _, .start hb hg, rfl, hroot, ?_⟩
    simp
  | closed tail =>
    obtain ⟨rfl, htake⟩ := returning_eq_ok h
    obtain ⟨hroot, hd, hv⟩ := takeStartTag_eq_ok hs htake hgood
    obtain ⟨body, hb, rfl⟩ := hbody _ rfl hd hv
    obtain ⟨attributes, hg⟩ := exists_gives hv
    refine ⟨.startEmpty (String.ofList name) attributes, _, .startEmpty hb hg, rfl, hroot, ?_⟩
    simp
  | unfinished => exact absurd h bind_failAt_ne_ok
  | broken problem place => exact absurd h bind_failAt_ne_ok

theorem exists_token_of_markup (hs : s.entities = {}) (h : markup env 0 after s = .ok rest s')
    (hgood : ¬ Spoilt s') :
    ∃ token piece, Spells token piece ∧ token.isText = false ∧ token.Fits s ∧
      '<' :: after = piece ++ rest := by
  unfold markup at h
  cases h₁ : after? "/".toList after with
  | some inside =>
    simp only [h₁] at h
    obtain ⟨name, hread, htake⟩ := afterPiece_eq_ok h
    obtain ⟨space, hn, hspace, rfl⟩ := readEndTag_eq_ok_iff.mp hread
    refine ⟨.finish name, _, .finish hn hspace, rfl, takeEndTag_eq_ok htake, ?_⟩
    rw [after?_eq h₁]
    simp
  | none =>
  simp only [h₁] at h
  cases h₂ : after? "!--".toList after with
  | some inside =>
    simp only [h₂] at h
    obtain ⟨text, hread, htake⟩ := afterPiece_eq_ok h
    obtain ⟨rfl, -⟩ := readComment_eq_ok_iff.mp hread
    obtain ⟨hc, hh, hl⟩ := takeComment_eq_ok htake hgood
    refine ⟨.comment text, _, .comment hc hh hl, rfl, trivial, ?_⟩
    rw [after?_eq h₂]
    simp
  | none =>
  simp only [h₂] at h
  cases h₃ : after? "![CDATA[".toList after with
  | some inside =>
    simp only [h₃] at h
    obtain ⟨text, hread, htake⟩ := afterPiece_eq_ok h
    obtain ⟨rfl, he⟩ := readCData_eq_ok_iff.mp hread
    obtain ⟨hc, ho⟩ := takeCData_eq_ok htake
    refine ⟨.cdata text, _, .cdata hc he, rfl, ho, ?_⟩
    rw [after?_eq h₃]
    simp
  | none =>
  simp only [h₃] at h
  cases h₄ : after? "!DOCTYPE".toList after with
  | some inside =>
    simp only [h₄] at h
    -- telling of a declaration counts as a flaw, so this case does not come up
    obtain ⟨doctype, hread, htake⟩ := afterPiece_eq_ok h
    exact absurd (spoilt_takeDoctype htake) hgood
  | none =>
  simp only [h₄] at h
  cases h₅ : after? "?".toList after with
  | some inside =>
    simp only [h₅] at h
    obtain ⟨⟨target, data⟩, hread, htake⟩ := afterPiece_eq_ok h
    obtain ⟨body, hn, hx, hb, he, rfl, rfl⟩ := readInstruction_eq_ok_iff.mp hread
    refine ⟨.instruction target (skipBlanks body), _, .instruction hn hx hb he, rfl, trivial, ?_⟩
    rw [after?_eq h₅]
    simp
  | none =>
  simp only [h₅] at h
  by_cases h₆ : after.head?.any startsName
  · rw [if_pos h₆] at h
    exact exists_token_of_startTag hs h hgood
  · rw [if_neg h₆] at h
    exact absurd h failAt_ne_ok

theorem fits_flush : token.Fits s.flush ↔ token.Fits s := by
  cases token <;> simp only [Token.Fits, State.opened_flush, State.seenRoot_flush]

theorem charData_of_isSpace (h : IsSpace text) : CharData text := by
  have hnot (c : Char) (hc : isBlank c = false) : c ∉ text := fun hx =>
    Bool.false_ne_true (hc.symm.trans (h c hx))
  refine ⟨fun c hx => ?_, hnot '<' rfl, hnot '&' rfl, fun hi => hnot ']' rfl ?_⟩
  · have hc := h c hx
    simp only [isBlank, Bool.or_eq_true, beq_iff_eq] at hc
    rcases hc with ((rfl | rfl) | rfl) | rfl <;> rfl
  · exact hi.subset mem_cons_self

/-- **Only a token that fits is taken in** without a flaw. -/
theorem exists_token_of_step {expand : String → String → ScanM Unit} (hs : s.entities = {})
    (h : step env 0 expand c after s = .ok rest s') (hgood : ¬ Spoilt s') :
    ∃ token piece, Spells token piece ∧ (token.isText = true → StopsAt isTextChar rest) ∧
      token.Fits s ∧ c :: after = piece ++ rest := by
  rw [step] at h
  by_cases hlt : (c == '<') = true
  · rw [if_pos hlt] at h
    obtain ⟨token, piece, hsp, ht, hf, htext⟩ :=
      exists_token_of_markup (s := s.flush) ((State.entities_flush s).trans hs) h hgood
    refine ⟨token, piece, hsp, fun h => ?_, fits_flush.mp hf, eq_of_beq hlt ▸ htext⟩
    rw [ht] at h
    cases h
  rw [if_neg hlt] at h
  by_cases hamp : (c == '&') = true
  · rw [if_pos hamp] at h
    obtain ⟨reference, tail, hread⟩ : ∃ reference tail, readReference after = (reference, tail) :=
      ⟨_, _, rfl⟩
    rw [hread] at h
    obtain ⟨rfl, htake⟩ := returning_eq_ok h
    obtain ⟨ho, x, hx⟩ := takeReference_eq_ok hs htake hgood
    obtain ⟨body, href, rfl⟩ := readReference_eq_iff.mp ⟨reference, hread, hx⟩
    refine ⟨.reference x, _, .reference href, fun h => (by cases h), ho, ?_⟩
    rw [eq_of_beq hamp]
    simp
  · rw [if_neg hamp] at h
    obtain ⟨hrest, htake⟩ := returning_eq_ok h
    have hall : ∀ x ∈ c :: after.takeWhile isTextChar, isTextChar x = true := by
      refine forall_mem_cons.mpr ⟨?_, fun x hx => mem_takeWhile_imp hx⟩
      rw [isTextChar, Bool.and_eq_true, bne_iff_ne, bne_iff_ne]
      exact ⟨by simpa using hlt, by simpa using hamp⟩
    have hnot (x : Char) (hx : isTextChar x = false) : x ∉ c :: after.takeWhile isTextChar :=
      fun hmem => Bool.false_ne_true (hx.symm.trans (hall x hmem))
    have htake := takeText_eq_ok htake hgood
    refine ⟨.text (c :: after.takeWhile isTextChar), _, .text ?_ (cons_ne_nil _ _), ?_, ?_, ?_⟩
    · rcases htake with ⟨-, hspace⟩ | ⟨-, hc, hcdata⟩
      · exact charData_of_isSpace hspace
      · exact ⟨hc, hnot '<' rfl, hnot '&' rfl, hcdata⟩
    · intro _
      rw [← hrest]
      exact stopsAt_dropWhile isTextChar after
    · intro ho
      rcases htake with ⟨-, hspace⟩ | ⟨ho', -⟩
      · exact hspace
      · exact absurd ho ho'
    · rw [← hrest]
      exact congrArg (c :: ·) takeWhile_append_dropWhile.symm

/-! ## Whole texts -/

theorem flush_anchor (anchor : List Char) :
    (s.anchored anchor).flush = s.flush.anchored anchor := by
  rw [State.flush, State.flush, show (s.anchored anchor).pending = s.pending from rfl]
  split <;> rfl

theorem effect_anchor (anchor : List Char) (token : Token) :
    token.effect (s.anchored anchor) = (token.effect s).anchored anchor := by
  cases token with
  | text chars =>
    rw [Token.effect, Token.effect, show (s.anchored anchor).opened = s.opened from rfl]
    split <;> rfl
  | reference c => rfl
  | cdata chars =>
    simp only [Token.effect, flush_anchor, State.cdata]
    split <;> rfl
  | comment chars => simp only [Token.effect, flush_anchor]; rfl
  | instruction target data => simp only [Token.effect, flush_anchor]; rfl
  | start name attributes => simp only [Token.effect, flush_anchor]; rfl
  | startEmpty name attributes => simp only [Token.effect, flush_anchor]; rfl
  | finish name => simp only [Token.effect, flush_anchor]; rfl

theorem run_anchor (anchor : List Char) (tokens : List Token) :
    Token.run (s.anchored anchor) tokens =
      ((Token.run s tokens).anchored anchor) := by
  induction tokens generalizing s with
  | nil => rfl
  | cons token tokens ih =>
    simp only [Token.run, foldl_cons, effect_anchor]
    exact ih

theorem fitAll_anchor (anchor : List Char) {tokens : List Token} :
    Token.FitAll (s.anchored anchor) tokens ↔ Token.FitAll s tokens := by
  induction tokens generalizing s with
  | nil => rfl
  | cons token tokens ih =>
    rw [Token.FitAll, effect_anchor, ih]
    cases token <;> rfl

theorem Spells.ne_nil {piece : List Char} (h : Spells token piece) : piece ≠ [] := by
  cases h with
  | text h hne => exact hne
  | _ => exact cons_ne_nil _ _

theorem content_of_tokens (env : Env) {tokens : List Token} (h : Tokens tokens text)
    (hf : Token.FitAll s tokens) :
    ∃ anchor, content env 0 text s = .ok () ((Token.run s tokens).anchored anchor) := by
  induction h generalizing s with
  | nil => exact ⟨s.anchor, content_nil env 0 s⟩
  | @cons token tokens piece rest h hstop ht ih =>
    obtain ⟨c, after, hc⟩ := exists_cons_of_ne_nil
      (append_ne_nil_of_left_ne_nil h.ne_nil rest)
    obtain ⟨anchor, hstep⟩ := step_of_spells env (expandAt env 0) h hstop hf.1 hc.symm
    obtain ⟨anchor', hcontent⟩ := ih ((fitAll_anchor anchor).mpr hf.2)
    refine ⟨anchor', ?_⟩
    rw [hc, content_cons, hstep]
    dsimp only
    rw [hcontent, run_anchor]
    rfl

@[simp] theorem entities_effect (token : Token) : (token.effect s).entities = s.entities := by
  cases token with
  | text chars =>
    simp only [Token.effect]
    split <;> rfl
  | reference c => rfl
  | cdata chars =>
    rw [← State.entities_flush s]
    simp only [Token.effect, State.cdata]
    split <;> rfl
  | _ =>
    rw [← State.entities_flush s]
    rfl

theorem tellsNoFlaw_effect (s : State) (token : Token) : TellsNoFlaw s (token.effect s) := by
  have hflush := TellsNoFlaw.flush s
  cases token with
  | text chars =>
    rw [Token.effect]
    split <;> exact .of_events rfl
  | reference c => exact .of_events rfl
  | cdata chars => exact hflush.cdata chars
  | comment chars => exact hflush.told rfl
  | instruction target data => exact hflush.told rfl
  | start name attributes =>
    have h : TellsNoFlaw s (s.flush.told (.startElement name attributes)) := hflush.told rfl
    exact h.trans (.of_events rfl)
  | startEmpty name attributes =>
    have h : TellsNoFlaw s (s.flush.told (.startElement name attributes)) := hflush.told rfl
    have h' : TellsNoFlaw s ((s.flush.told (.startElement name attributes)).told
      (.endElement name)) := h.told rfl
    exact h'.trans (.of_events rfl)
  | finish name =>
    have h : TellsNoFlaw s (s.flush.told (.endElement name)) := hflush.told rfl
    exact h.trans (.of_events rfl)

theorem tellsNoFlaw_run (s : State) (tokens : List Token) :
    TellsNoFlaw s (Token.run s tokens) := by
  induction tokens generalizing s with
  | nil => exact .of_events rfl
  | cons token tokens ih => exact (tellsNoFlaw_effect s token).trans (ih _)

/-- A text that is taken in without a flaw is written with tokens that fit. -/
theorem exists_tokens_of_content (hs : s.entities = {}) (h : content env 0 text s = .ok () s')
    (hgood : ¬ Spoilt s') : ∃ tokens, Tokens tokens text ∧ Token.FitAll s tokens := by
  induction hn : text.length using Nat.strong_induction_on generalizing text s with
  | _ n ih =>
    cases text with
    | nil => exact ⟨[], .nil, trivial⟩
    | cons c after =>
      rw [content_cons] at h
      cases hstep : step env 0 (expandAt env 0) c after s with
      | error e s₁ =>
        rw [hstep] at h
        cases h
      | ok rest s₁ =>
        rw [hstep] at h
        have hgood₁ : ¬ Spoilt s₁ :=
          (keeps_spoilt_content env rest).not_spoilt h hgood
        obtain ⟨token, piece, hsp, hstop, hf, htext⟩ := exists_token_of_step hs hstep hgood₁
        obtain ⟨anchor, hstep'⟩ := step_of_spells env (expandAt env 0) hsp hstop hf htext
        rw [hstep] at hstep'
        cases hstep'
        have hlen := (step_suffix hstep).length_le
        have hs₁ : ((token.effect s).anchored anchor).entities = {} :=
          (entities_effect token).trans hs
        obtain ⟨tokens, ht, hfit⟩ := ih rest.length (by rw [← hn, length_cons]; omega) hs₁ h rfl
        rw [htext]
        exact ⟨token :: tokens, .cons hsp hstop ht, hf, (fitAll_anchor anchor).mp hfit⟩

end Xml.Scan
