import Xml.Proofs.Scan.Tokens

/-!
# What a scan accepts

A text without a document type is accepted, with no mistake told, when it is a document of the
grammar. The tokens of a text are its documents' letters: a sequence of them is a document when every
start tag meets its end tag and one element stands outermost (`Completes`). What a stack of open
elements still waits for is a piece of grammar too (`Remainder`), and that is the invariant which
carries a sequence of tokens back to a derivation.
-/

namespace Xml

open List

namespace Scan

open Text Grammar

variable {name body : List Char} {tokens : List Token} {written : List (List Char × List Char)}

/-- The tokens end every open element, and there was one element outermost. -/
def Completes : List String → Bool → List Token → Prop
  | opened, root, [] => opened = [] ∧ root = true
  | opened, root, .text chars :: tokens =>
    (opened = [] → IsSpace chars) ∧ Completes opened root tokens
  | opened, root, .reference _ :: tokens => opened ≠ [] ∧ Completes opened root tokens
  | opened, root, .cdata _ :: tokens => opened ≠ [] ∧ Completes opened root tokens
  | opened, root, .comment _ :: tokens => Completes opened root tokens
  | opened, root, .instruction _ _ :: tokens => Completes opened root tokens
  | opened, root, .start name _ :: tokens =>
    (opened = [] → root = false) ∧ Completes (name :: opened) true tokens
  | opened, root, .startEmpty _ _ :: tokens =>
    (opened = [] → root = false) ∧ Completes opened true tokens
  | opened, root, .finish name :: tokens =>
    opened.head? = some name ∧ Completes opened.tail root tokens

theorem opened_effect (s : State) (token : Token) :
    (token.effect s).opened = (match token with
      | .start name _ => name :: s.opened
      | .finish _ => s.opened.tail
      | _ => s.opened) ∧
    (token.effect s).seenRoot = (match token with
      | .start _ _ | .startEmpty _ _ => true
      | _ => s.seenRoot) := by
  rw [← State.opened_flush s, ← State.seenRoot_flush s]
  cases token with
  | text chars =>
    rw [Token.effect, State.opened_flush, State.seenRoot_flush]
    split <;> exact ⟨rfl, rfl⟩
  | reference c =>
    rw [State.opened_flush, State.seenRoot_flush]
    exact ⟨rfl, rfl⟩
  | cdata chars =>
    rw [Token.effect, State.cdata]
    dsimp only
    split <;> exact ⟨rfl, rfl⟩
  | finish name =>
    rw [Token.effect, State.finish, State.opened_flush]
    exact ⟨rfl, rfl⟩
  | _ => exact ⟨rfl, rfl⟩

/-- Only the open elements and whether there was one matter for what can follow. -/
theorem completes_iff {s : State} :
    Completes s.opened s.seenRoot tokens ↔ Token.FitAll s tokens ∧
      (Token.run s tokens).opened = [] ∧ (Token.run s tokens).seenRoot = true := by
  induction tokens generalizing s with
  | nil => simp only [Completes, Token.FitAll, Token.run, foldl_nil, true_and]
  | cons token tokens ih =>
    have hrun : Token.run s (token :: tokens) = Token.run (token.effect s) tokens := rfl
    rw [Token.FitAll, hrun, and_assoc, ← ih, (opened_effect s token).1, (opened_effect s token).2]
    cases token with
    | comment chars => exact (iff_of_eq (true_and _)).symm
    | instruction target data => exact (iff_of_eq (true_and _)).symm
    | _ => rfl

/-! ## From tokens to the grammar -/

/-- What is still to come when these elements are open. -/
def Remainder : List String → Bool → List Char → Prop
  | [], true, text => Misc text
  | [], false, text =>
    ∃ before element after, Misc before ∧ Element element ∧ Misc after ∧
      text = before ++ element ++ after
  | name :: opened, _, text =>
    ∃ content space rest, Content content ∧ IsSpace space ∧ Remainder opened true rest ∧
      text = content ++ ("</".toList ++ name.toList ++ space ++ '>' :: rest)

variable {opened : List String} {root : Bool} {text rest : List Char}

theorem charData_nil : CharData [] :=
  charData_of_isSpace fun _ hx => absurd hx not_mem_nil

theorem content_piece_append {piece content : List Char} (hp : Piece piece) (hc : Content content) :
    Content (piece ++ content) :=
  .piece charData_nil hp hc

theorem Remainder.piece {name : String} (hp : Piece text)
    (h : Remainder (name :: opened) root rest) : Remainder (name :: opened) root (text ++ rest) := by
  obtain ⟨content, space, more, hc, hs, hm, rfl⟩ := h
  exact ⟨text ++ content, space, more, content_piece_append hp hc, hs, hm, by simp⟩

theorem Remainder.aside (ha : Aside text) (h : Remainder opened root rest) :
    Remainder opened root (text ++ rest) := by
  cases opened with
  | nil =>
    cases root with
    | true => exact .aside ha h
    | false =>
      obtain ⟨before, element, after, hb, he, hafter, rfl⟩ := h
      exact ⟨text ++ before, element, after, .aside ha hb, he, hafter, by simp⟩
  | cons name opened => exact .piece (.aside ha) h

theorem misc_space_append (hs : IsSpace text) (h : Misc rest) : Misc (text ++ rest) := by
  induction text with
  | nil => exact h
  | cons c text ih =>
    obtain ⟨hc, hs⟩ := forall_mem_cons.mp hs
    exact .blank hc (ih hs)

/-- Character data goes in front of content that does not begin with character data. -/
theorem content_text_append {content : List Char} (ht : CharData text) (hc : Content content)
    (hstop : StopsAt isTextChar (content ++ '<' :: rest)) : Content (text ++ content) := by
  have hnil {more after : List Char} (h : CharData more)
      (hstop : StopsAt isTextChar (more ++ after)) : more = [] := by
    cases more with
    | nil => rfl
    | cons c more =>
      have hc : isTextChar c = true := by
        rw [isTextChar, Bool.and_eq_true, bne_iff_ne, bne_iff_ne]
        exact ⟨fun h' => h.2.1 (h' ▸ mem_cons_self), fun h' => h.2.2.1 (h' ▸ mem_cons_self)⟩
      exact absurd ((stopsAt_cons.mp hstop).symm.trans hc) Bool.false_ne_true
  cases hc with
  | text h =>
    rw [hnil h hstop, append_nil]
    exact .text ht
  | piece h hp hm =>
    rw [append_assoc, append_assoc] at hstop
    rw [hnil h hstop, nil_append, ← append_assoc]
    exact .piece ht hp hm
  | element h he hm =>
    rw [append_assoc, append_assoc] at hstop
    rw [hnil h hstop, nil_append, ← append_assoc]
    exact .element ht he hm

theorem Remainder.charData (ht : CharData text) (hs : opened = [] → IsSpace text)
    (hstop : StopsAt isTextChar rest) (h : Remainder opened root rest) :
    Remainder opened root (text ++ rest) := by
  cases opened with
  | nil =>
    cases root with
    | true => exact misc_space_append (hs rfl) h
    | false =>
      obtain ⟨before, element, after, hb, he, hafter, rfl⟩ := h
      exact ⟨text ++ before, element, after, misc_space_append (hs rfl) hb, he, hafter, by simp⟩
  | cons name opened =>
    obtain ⟨content, space, more, hc, hspace, hm, rfl⟩ := h
    exact ⟨text ++ content, space, more, content_text_append ht hc hstop, hspace, hm, by simp⟩

theorem Remainder.element (he : Element text) (hr : opened = [] → root = false)
    (h : Remainder opened true rest) : Remainder opened root (text ++ rest) := by
  cases opened with
  | nil =>
    rw [hr rfl]
    exact ⟨[], text, rest, .nil, he, h, rfl⟩
  | cons name opened =>
    obtain ⟨content, space, more, hc, hs, hm, rfl⟩ := h
    exact ⟨text ++ content, space, more, .element charData_nil he hc, hs, hm, by simp⟩

/-- **Tokens that complete a document are written as the grammar says.** -/
theorem remainder_of_tokens (h : Tokens tokens text) (hc : Completes opened root tokens)
    (hopen : opened ≠ [] → root = true) : Remainder opened root text := by
  induction h generalizing opened root with
  | nil =>
    obtain ⟨rfl, rfl⟩ := hc
    exact .nil
  | cons h hstop ht ih =>
    cases h with
    | text h hne => exact .charData h hc.1 (hstop rfl) (ih hc.2 hopen)
    | reference h =>
      obtain ⟨name, opened, rfl⟩ := exists_cons_of_ne_nil hc.1
      exact .piece (.reference h) (ih hc.2 hopen)
    | comment hx hh hl => exact .aside (.comment hx hh hl) (ih hc hopen)
    | instruction hn hx hs he => exact .aside (.instruction hn hx hs he) (ih hc hopen)
    | cdata hx he =>
      obtain ⟨name, opened, rfl⟩ := exists_cons_of_ne_nil hc.1
      exact .piece (.cdata hx he) (ih hc.2 hopen)
    | start h hg =>
      obtain ⟨content, space, more, hcontent, hs, hm, rfl⟩ := ih hc.2 fun _ => rfl
      have h := Remainder.element (.nested h hcontent hs) hc.1 hm
      simpa using h
    | startEmpty h hg => exact .element (.empty h) hc.1 (ih hc.2 fun _ => rfl)
    | @finish name space hn hs =>
      obtain ⟨others, rfl⟩ := head?_eq_some_iff.mp hc.1
      have hroot : root = true := hopen (cons_ne_nil _ _)
      subst hroot
      refine ⟨[], space, _, .text charData_nil, hs, ih hc.2 fun _ => rfl, ?_⟩
      simp

/-! ## From the grammar to tokens -/

/-- The text is written with tokens that complete a document, when these elements are open. -/
def Derives (opened : List String) (root : Bool) (text : List Char) : Prop :=
  ∃ tokens, Tokens tokens text ∧ Completes opened root tokens

/-- A token other than character data begins where character data ends. -/
theorem Spells.stopsAt {token : Token} {piece : List Char} (h : Spells token piece)
    (ht : token.isText = false) (rest : List Char) : StopsAt isTextChar (piece ++ rest) := by
  cases h with
  | text h hne => cases ht
  | reference h => exact stopsAt_cons.mpr rfl
  | _ => exact stopsAt_cons.mpr rfl

theorem Derives.aside (ha : Aside text) (h : Derives opened root rest) :
    Derives opened root (text ++ rest) := by
  obtain ⟨tokens, ht, hc⟩ := h
  cases ha with
  | comment hx hh hl => exact ⟨_, .cons (.comment hx hh hl) (fun h => nomatch h) ht, hc⟩
  | @instruction target data hn hx hs he =>
    rw [← String.toList_ofList (l := target)] at hn hx ⊢
    exact ⟨_, .cons (.instruction hn hx hs he) (fun h => nomatch h) ht, hc⟩

theorem Derives.piece {name : String} (hp : Piece text) (h : Derives (name :: opened) root rest) :
    Derives (name :: opened) root (text ++ rest) := by
  cases hp with
  | aside ha => exact .aside ha h
  | cdata hx he =>
    obtain ⟨tokens, ht, hc⟩ := h
    exact ⟨_, .cons (.cdata hx he) (fun h => nomatch h) ht, cons_ne_nil _ _, hc⟩
  | reference hr =>
    obtain ⟨tokens, ht, hc⟩ := h
    exact ⟨_, .cons (.reference hr) (fun h => nomatch h) ht, cons_ne_nil _ _, hc⟩

theorem Derives.charData {name : String} (ht : CharData text) (hstop : StopsAt isTextChar rest)
    (h : Derives (name :: opened) root rest) : Derives (name :: opened) root (text ++ rest) := by
  by_cases hne : text = []
  · rwa [hne]
  · obtain ⟨tokens, htokens, hc⟩ := h
    refine ⟨_, .cons (.text ht hne) (fun _ => hstop) htokens, ?_, hc⟩
    exact fun h => absurd h (cons_ne_nil _ _)

theorem Derives.start (h : TagBody name written body) (hr : opened = [] → root = false)
    (hrest : Derives (String.ofList name :: opened) true rest) :
    Derives opened root ('<' :: body ++ '>' :: rest) := by
  obtain ⟨tokens, ht, hc⟩ := hrest
  obtain ⟨attributes, hg⟩ := h.exists_gives
  rw [← String.toList_ofList (l := name)] at h
  have htokens := Tokens.cons (.start h hg) (fun h => nomatch h) ht
  rw [append_assoc] at htokens
  exact ⟨_, htokens, hr, hc⟩

theorem Derives.startEmpty (h : TagBody name written body) (hr : opened = [] → root = false)
    (hrest : Derives opened true rest) :
    Derives opened root ('<' :: body ++ "/>".toList ++ rest) := by
  obtain ⟨tokens, ht, hc⟩ := hrest
  obtain ⟨attributes, hg⟩ := h.exists_gives
  rw [← String.toList_ofList (l := name)] at h
  exact ⟨_, .cons (.startEmpty h hg) (fun h => nomatch h) ht, hr, hc⟩

theorem Derives.finish {space : List Char} (hn : IsName name) (hs : IsSpace space)
    (hrest : Derives opened root rest) :
    Derives (String.ofList name :: opened) root
      ("</".toList ++ name ++ space ++ '>' :: rest) := by
  obtain ⟨tokens, ht, hc⟩ := hrest
  rw [← String.toList_ofList (l := name)] at hn
  have htokens := Tokens.cons (.finish hn hs) (fun h => nomatch h) ht
  rw [append_assoc, String.toList_ofList (l := name)] at htokens
  refine ⟨.finish (String.ofList name) :: tokens, htokens, rfl, hc⟩

/-- White space outside the root element joins the white space behind it. -/
theorem Derives.blank {c : Char} (hc : isBlank c = true) (h : Derives [] root rest) :
    Derives [] root (c :: rest) := by
  obtain ⟨tokens, ht, hcomp⟩ := h
  have hone : IsSpace [c] := by simpa [IsSpace] using hc
  cases ht with
  | nil =>
    have htext : Spells (.text [c]) [c] := .text (charData_of_isSpace hone) (cons_ne_nil _ _)
    exact ⟨_, .cons htext (fun _ => stopsAt_nil _) .nil, fun _ => hone, hcomp⟩
  | @cons token tokens piece rest h hstop ht =>
    by_cases htext : token.isText = true
    · cases h with
      | @text chars h hne =>
        have hspace : IsSpace (c :: piece) := forall_mem_cons.mpr ⟨hc, hcomp.1 rfl⟩
        have hspells : Spells (.text (c :: piece)) (c :: piece) :=
          .text (charData_of_isSpace hspace) (cons_ne_nil _ _)
        exact ⟨_, .cons hspells hstop ht, fun _ => hspace, hcomp.2⟩
      | _ => cases htext
    · have hspells : Spells (.text [c]) [c] := .text (charData_of_isSpace hone) (cons_ne_nil _ _)
      have hstop' := h.stopsAt (Bool.not_eq_true _ ▸ htext) rest
      exact ⟨_, .cons hspells (fun _ => hstop') (.cons h hstop ht), fun _ => hone, hcomp⟩

theorem stopsAt_piece {piece : List Char} (h : Piece piece) (rest : List Char) :
    StopsAt isTextChar (piece ++ rest) := by
  cases h with
  | aside ha => cases ha <;> exact stopsAt_cons.mpr rfl
  | cdata hx he => exact stopsAt_cons.mpr rfl
  | reference hr => exact stopsAt_cons.mpr rfl

theorem stopsAt_element {element : List Char} (h : Element element) (rest : List Char) :
    StopsAt isTextChar (element ++ rest) := by
  cases h <;> exact stopsAt_cons.mpr rfl

mutual

theorem derives_element : ∀ {text : List Char}, Element text → ∀ {opened : List String} {root : Bool}
    {rest : List Char}, (opened = [] → root = false) → Derives opened true rest →
      Derives opened root (text ++ rest)
  | _, .empty h, _, _, _, hr, hrest => .startEmpty h hr hrest
  | _, @Element.nested name body content space written h hc hs, opened, root, rest, hr, hrest => by
    have hfinish := Derives.finish h.isName hs hrest
    have hstop : StopsAt isTextChar ("</".toList ++ name ++ space ++ '>' :: rest) :=
      stopsAt_cons.mpr rfl
    have hcontent := derives_content hc hstop hfinish
    simpa only [append_assoc, cons_append, nil_append] using
      Derives.start h hr hcontent

theorem derives_content : ∀ {text : List Char}, Content text → ∀ {name : String}
    {opened : List String} {rest : List Char}, StopsAt isTextChar rest →
      Derives (name :: opened) true rest → Derives (name :: opened) true (text ++ rest)
  | _, .text h, _, _, _, hstop, hrest => .charData h hstop hrest
  | _, .piece h hp hm, _, _, _, hstop, hrest => by
    rw [append_assoc, append_assoc]
    exact .charData h (stopsAt_piece hp _) (.piece hp (derives_content hm hstop hrest))
  | _, .element h he hm, _, _, _, hstop, hrest => by
    rw [append_assoc, append_assoc]
    refine .charData h (stopsAt_element he _) ?_
    exact derives_element he (fun h => absurd h (cons_ne_nil _ _))
      (derives_content hm hstop hrest)

end

theorem derives_misc (hm : Misc text) (h : Derives [] root rest) :
    Derives [] root (text ++ rest) := by
  induction hm with
  | nil => exact h
  | blank hc hm ih => exact .blank hc ih
  | aside ha hm ih =>
    rw [append_assoc]
    exact .aside ha ih

/-- **The tokens of documents**: what the grammar derives for a stack of open elements is what is
written with tokens that complete a document. -/
theorem derives_iff_misc : Derives [] false text ↔
    ∃ before element after, Misc before ∧ Element element ∧ Misc after ∧
      text = before ++ element ++ after := by
  constructor
  · rintro ⟨tokens, ht, hc⟩
    exact remainder_of_tokens ht hc fun h => absurd rfl h
  · rintro ⟨before, element, after, hb, he, ha, rfl⟩
    have hend : Derives [] true [] := ⟨[], .nil, rfl, rfl⟩
    have h := derives_misc hb (derives_element he (fun _ => rfl) (derives_misc ha hend))
    simpa using h

/-! ## Documents -/

theorem stopsAt_of_startsBlank (h : startsBlank text = true) : StopsAt continuesName text := by
  cases text with
  | nil => exact stopsAt_nil _
  | cons c text => exact stopsAt_cons.mpr (not_continuesName_of_isBlank h)

theorem tagBody_ne_question {more : List Char} (h : TagBody name written body)
    (htext : body ++ rest = '?' :: more) : False := by
  obtain ⟨c, body, rfl, hc⟩ := h.exists_cons
  cases htext
  cases hc

/-- Nothing but an XML declaration begins like one: no instruction has the target `xml`. -/
theorem xmlDeclaration?_eq_none (h : Tokens tokens text) : xmlDeclaration? text = none := by
  cases hdecl : xmlDeclaration? text with
  | none => rfl
  | some inside =>
    exfalso
    obtain ⟨htext, hblank⟩ := xmlDeclaration?_eq_some_iff.mp hdecl
    have htext : text = '<' :: '?' :: 'x' :: 'm' :: 'l' :: inside := htext
    cases h with
    | nil => cases htext
    | @cons _ _ piece rest h =>
      cases h with
      | text h hne =>
        obtain ⟨c, piece, rfl⟩ := exists_cons_of_ne_nil hne
        have hc : c = '<' := (List.cons.inj htext).1
        exact h.2.1 (hc ▸ mem_cons_self)
      | reference h => cases htext
      | comment hx hh hl => cases htext
      | @instruction target data hn hx hs he =>
        have htarget : target.toList ++ (data ++ "?>".toList ++ rest) = "xml".toList ++ inside := by
          rw [← append_assoc, ← append_assoc]
          exact (List.cons.inj (List.cons.inj htext).2).2
        have hstop : StopsAt continuesName (data ++ "?>".toList ++ rest) := by
          rcases hs with rfl | hs
          · exact stopsAt_cons.mpr rfl
          · rw [append_assoc]
            exact stopsAt_of_startsBlank (startsBlank_append hs)
        have h₁ := readName?_eq_some_iff.mpr ⟨rfl, hn, hstop⟩
        have h₂ := readName?_eq_some_iff.mpr
          ⟨rfl, (isName_iff "xml".toList).mp (by decide), stopsAt_of_startsBlank hblank⟩
        rw [htarget, h₂] at h₁
        have hxml : "xml".toList = target.toList := (Prod.mk.inj (Option.some.inj h₁)).1
        exact hx (hxml ▸ rfl)
      | cdata hx he => cases htext
      | start h hg =>
        rw [append_assoc] at htext
        exact tagBody_ne_question h (List.cons.inj htext).2
      | startEmpty h hg =>
        rw [append_assoc] at htext
        exact tagBody_ne_question h (List.cons.inj htext).2
      | finish hn hs => cases htext

/-- A state in which a document can begin: nothing is open, declared or wrong yet. -/
structure Ready (s : State) : Prop where
  entities : s.entities = {}
  opened : s.opened = []
  seenRoot : s.seenRoot = false
  good : ¬ Spoilt s

variable {env : Env} {s s' : State}

theorem checkEnd_iff : checkEnd env s = .ok () s' ↔
    s' = s ∧ s.opened = [] ∧ s.seenRoot = true := by
  rw [checkEnd, get_bind]
  cases ho : s.opened with
  | cons name opened => exact ⟨fun h => (by cases h), fun h => (by cases h.2.1)⟩
  | nil =>
    dsimp only
    by_cases hr : s.seenRoot = true
    · rw [if_pos hr]
      constructor
      · intro h
        cases h
        exact ⟨rfl, rfl, hr⟩
      · rintro ⟨rfl, -, -⟩
        rfl
    · rw [if_neg hr]
      exact ⟨fun h => (by cases h), fun h => absurd h.2.2 hr⟩

/-- Where no element was begun yet, what derives a document is accepted, whatever entities are
declared, and no flaw is told. -/
theorem accepted_of_derives (env : Env) (ho : s.opened = []) (hr : s.seenRoot = false)
    (h : Derives [] false text) :
    ∃ s', (content env 0 text >>= fun _ => flush >>= fun _ => checkEnd env) s = .ok () s' ∧
      TellsNoFlaw s s' := by
  rw [← ho, ← hr] at h
  obtain ⟨tokens, ht, hc⟩ := h
  obtain ⟨hf, ho', hr'⟩ := completes_iff.mp hc
  obtain ⟨anchor, hcontent⟩ := content_of_tokens env ht hf
  refine ⟨((Token.run s tokens).anchored anchor).flush, ?_, ?_⟩
  · rw [bind_of_ok hcontent]
    refine checkEnd_iff.mpr ⟨rfl, ?_, ?_⟩
    · rw [State.opened_flush]
      exact ho'
    · rw [State.seenRoot_flush]
      exact hr'
  · exact ((tellsNoFlaw_run s tokens).trans (.of_events rfl)).trans (.flush _)

/-- **What is accepted where a document can begin.** -/
theorem derives_iff_accepted (env : Env) (h : Ready s) :
    Derives [] false text ↔
      ∃ s', (content env 0 text >>= fun _ => flush >>= fun _ => checkEnd env) s = .ok () s' ∧
        ¬ Spoilt s' := by
  constructor
  · intro hd
    obtain ⟨s', hs', hflaw⟩ := accepted_of_derives env h.opened h.seenRoot hd
    exact ⟨s', hs', fun hbad => h.good (hflaw.spoilt_iff.mp hbad)⟩
  · rintro ⟨s', hs', hgood⟩
    obtain ⟨_, s₁, hcontent, hend⟩ := bind_eq_ok hs'
    obtain ⟨rfl, ho, hr⟩ := checkEnd_iff.mp hend
    rw [spoilt_flush] at hgood
    obtain ⟨tokens, ht, hf⟩ := exists_tokens_of_content h.entities hcontent hgood
    rw [← h.opened, ← h.seenRoot]
    refine ⟨tokens, ht, completes_iff.mpr ⟨hf, ?_⟩⟩
    obtain ⟨anchor, hcontent'⟩ := content_of_tokens env ht hf
    rw [hcontent] at hcontent'
    cases hcontent'
    rw [State.opened_flush] at ho
    rw [State.seenRoot_flush] at hr
    exact ⟨ho, hr⟩

theorem Ready.told (h : Ready s) {event : Event} (he : isFlaw event = false) :
    Ready (s.told event) :=
  ⟨h.entities, h.opened, h.seenRoot, fun hbad => h.good ((spoilt_told_of_not he).mp hbad)⟩

/-- Of a value of `standalone` that is neither `yes` nor `no` a warning is told. -/
theorem standaloneValue_eq_ok (value : Option String) (s : State) :
    ∃ a s₁, standaloneValue value s = .ok a s₁ ∧ (s₁ = s ∨ ∃ w, s₁ = s.told (.warning w)) := by
  rw [standaloneValue.eq_def]
  split
  · exact ⟨_, s, rfl, .inl rfl⟩
  · exact ⟨_, s, rfl, .inl rfl⟩
  · exact ⟨_, s, rfl, .inl rfl⟩
  · exact ⟨_, _, rfl, .inr ⟨_, rfl⟩⟩

theorem takeXmlDeclaration_of (env : Env) {inside : List Char} {d : XmlDeclaration} (h : Ready s)
    (hd : readXmlDeclaration inside = .ok (d, rest)) (hv : d.version.isSome) :
    ∃ s', takeXmlDeclaration env inside s = .ok rest s' ∧ Ready s' := by
  obtain ⟨version, hv⟩ := Option.isSome_iff_exists.mp hv
  obtain ⟨standalone, s₁, hs₁, hwarned⟩ := standaloneValue_eq_ok d.standalone s
  have h₁ : Ready s₁ := by
    rcases hwarned with rfl | ⟨w, rfl⟩
    · exact h
    · exact h.told rfl
  refine ⟨s₁.told (.xmlDeclaration version d.encoding standalone), ?_, h₁.told rfl⟩
  rw [takeXmlDeclaration, hd]
  simp only [hv]
  rw [bind_of_ok hs₁]
  rfl

theorem takeXmlDeclaration_eq_ok {inside : List Char}
    (h : takeXmlDeclaration env inside s = .ok rest s') :
    ∃ d version standalone s₁, readXmlDeclaration inside = .ok (d, rest) ∧
      d.version = some version ∧ standaloneValue d.standalone s = .ok standalone s₁ ∧
      s' = s₁.told (.xmlDeclaration version d.encoding standalone) := by
  rw [takeXmlDeclaration] at h
  cases hd : readXmlDeclaration inside with
  | error problem =>
    rw [hd] at h
    cases h
  | ok found =>
    obtain ⟨d, tail⟩ := found
    rw [hd] at h
    cases hv : d.version with
    | none =>
      simp only [hv] at h
      cases h
    | some version =>
      simp only [hv] at h
      obtain ⟨standalone, s₁, hs₁, h⟩ := bind_eq_ok h
      obtain ⟨_, _, htell, h⟩ := bind_eq_ok h
      cases htell
      cases h
      exact ⟨d, version, standalone, s₁, rfl, hv, hs₁, rfl⟩

theorem document_iff_derives : Grammar.Document text ↔
    ∃ declaration rest, (declaration = [] ∨ Declaration declaration) ∧ Derives [] false rest ∧
      text = declaration ++ rest := by
  constructor
  · rintro ⟨hd, hb, he, ha⟩
    exact ⟨_, _, hd, derives_iff_misc.mpr ⟨_, _, _, hb, he, ha, rfl⟩, by simp⟩
  · rintro ⟨declaration, rest, hd, h, rfl⟩
    obtain ⟨before, element, after, hb, he, ha, rfl⟩ := derives_iff_misc.mp h
    simpa using Grammar.Document.mk hd hb he ha

/-- **Documents are what is accepted** without a flaw. -/
theorem document_iff (env : Env) (h : Ready s) :
    (∃ s', document env s = .ok () s' ∧ ¬ Spoilt s') ↔ Grammar.Document env.text := by
  rw [document_iff_derives]
  cases hx : xmlDeclaration? env.text with
  | none =>
    have hrun : document env s =
        (content env 0 env.text >>= fun _ => flush >>= fun _ => checkEnd env) s := by
      rw [document, hx]
      rfl
    rw [hrun, ← derives_iff_accepted env h]
    constructor
    · exact fun hd => ⟨[], env.text, .inl rfl, hd, rfl⟩
    · rintro ⟨declaration, rest, rfl | hd, h, htext⟩
      · rwa [htext]
      · obtain ⟨inside, -, hsome, -⟩ := exists_declaration_iff.mpr ⟨declaration, hd, htext⟩
        rw [hx] at hsome
        cases hsome
  | some inside =>
    have hrun : document env s = (takeXmlDeclaration env inside >>= fun rest =>
        content env 0 rest >>= fun _ => flush >>= fun _ => checkEnd env) s := by
      rw [document, hx]
    rw [hrun]
    constructor
    · rintro ⟨s', hok, hgood⟩
      obtain ⟨rest, s₁, hdecl, hok⟩ := bind_eq_ok hok
      obtain ⟨d, version, -, -, hd, hversion, -⟩ := takeXmlDeclaration_eq_ok hdecl
      have hv : d.version.isSome := by rw [hversion]; rfl
      obtain ⟨s₂, hdecl', h₂⟩ := takeXmlDeclaration_of env h hd hv
      rw [hdecl] at hdecl'
      cases hdecl'
      obtain ⟨declaration, hdeclaration, htext⟩ := exists_declaration_iff.mp ⟨inside, d, hx, hd, hv⟩
      exact ⟨declaration, rest, .inr hdeclaration,
        (derives_iff_accepted env h₂).mpr ⟨s', hok, hgood⟩, htext⟩
    · rintro ⟨declaration, rest, rfl | hd, hderives, htext⟩
      · obtain ⟨tokens, ht, -⟩ := hderives
        rw [htext, nil_append, xmlDeclaration?_eq_none ht] at hx
        cases hx
      · obtain ⟨inside', d, hsome, hread, hv⟩ :=
          exists_declaration_iff.mpr ⟨declaration, hd, htext⟩
        rw [hx] at hsome
        cases hsome
        obtain ⟨s₁, hdecl, h₁⟩ := takeXmlDeclaration_of env h hread hv
        obtain ⟨s', hok, hgood⟩ := (derives_iff_accepted env h₁).mp hderives
        exact ⟨s', by rw [bind_of_ok hdecl, hok], hgood⟩

theorem ready_begin : Ready { events := #[.startDocument] } where
  entities := rfl
  opened := rfl
  seenRoot := rfl
  good := by
    rintro ⟨event, hmem, hflaw⟩
    rw [mem_singleton.mp (Array.mem_toList_iff.mpr hmem)] at hflaw
    cases hflaw

/-- An event that a scan tells last does not show in whether there was a flaw. -/
theorem spoilt_iff_mem {s : State} (last : Event) (hl : isFlaw last = false) :
    ¬ Spoilt s ↔ (∀ e, Event.error e ∉ (s.told last).events.toList) ∧
      ∀ d, Event.doctype d ∉ (s.told last).events.toList := by
  rw [← spoilt_told_of_not hl]
  constructor
  · intro h
    exact ⟨fun e he => h ⟨_, Array.mem_toList_iff.mp he, rfl⟩,
      fun d hd => h ⟨_, Array.mem_toList_iff.mp hd, rfl⟩⟩
  · rintro ⟨he, hd⟩ ⟨event, hmem, hflaw⟩
    cases event with
    | error e => exact he e (Array.mem_toList_iff.mpr hmem)
    | doctype d => exact hd d (Array.mem_toList_iff.mpr hmem)
    | _ => cases hflaw

end Scan

open Scan

/-- **A text is scanned to its end, with neither a mistake nor a document type told, exactly when it
is a document of the grammar**, whatever the options and the files are. -/
theorem scanText_accepts_iff_document (text : List Char) (options : ParseOptions) (files : Files) :
    ((scanText text options files).fatal = none ∧
      (∀ e, Event.error e ∉ (scanText text options files).events) ∧
      ∀ d, Event.doctype d ∉ (scanText text options files).events) ↔ Grammar.Document text := by
  rw [← document_iff ⟨text, options, files⟩ ready_begin, scanText, run]
  cases document ⟨text, options, files⟩ { events := #[.startDocument] } with
  | ok a s =>
    have hgood : ¬ Spoilt s ↔ _ := spoilt_iff_mem .endDocument rfl
    constructor
    · rintro ⟨-, h⟩
      exact ⟨s, rfl, hgood.mpr h⟩
    · rintro ⟨s', hs', h⟩
      cases hs'
      exact ⟨rfl, hgood.mp h⟩
  | error e s =>
    constructor
    · rintro ⟨hfatal, -⟩
      cases hfatal
    · rintro ⟨s', hs', -⟩
      cases hs'

end Xml
