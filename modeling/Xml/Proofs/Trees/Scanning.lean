import Xml.Proofs.Trees.Spelling

/-!
# The events of markup

Scanning the markup of canonical trees tells the events that `Tree.events` lists, and no problem
(`scanText_markup`). Text is told when the markup behind it is met; so what a state stands for is
its `record`, the events told with the character data that is still pending behind them.
-/

namespace Xml

open Text Grammar Scan List

namespace Scan

/-- The events that were told, with the pending character data. -/
def State.record (s : State) : List Event :=
  s.flush.events.toList

theorem State.record_of_pending {s : State} (h : s.pending = "") : s.record = s.events.toList := by
  rw [record, flush, if_pos (String.isEmpty_iff.mpr h)]

theorem State.record_start (s : State) (name : String) (attributes : List Attribute) :
    (s.flush.start name attributes).record = s.record ++ [.startElement name attributes] := by
  have hp : (s.flush.start name attributes).pending = "" := s.flush_pending
  rw [record_of_pending hp]
  exact Array.toList_push

theorem State.record_finish (s : State) (name : String) (others : List String) :
    (s.flush.finish name others).record = s.record ++ [.endElement name] := by
  have hp : (s.flush.finish name others).pending = "" := s.flush_pending
  rw [record_of_pending hp]
  exact Array.toList_push

/-- A CDATA section adds its events and changes nothing else. -/
theorem State.cdata_eq (s : State) (content : String) :
    s.cdata content.toList = { s with events := s.events ++
      if content.isEmpty then #[.startCData, .endCData]
      else #[.startCData, .characters content, .endCData] } := by
  have hempty : content.toList.isEmpty = content.isEmpty := by
    rw [Bool.eq_iff_iff, List.isEmpty_iff, String.isEmpty_iff, ← String.toList_inj]
    rfl
  rw [cdata, hempty, String.ofList_toList]
  split <;> rfl

namespace Token

theorem run_append (s : State) (tokens more : List Token) :
    run s (tokens ++ more) = run (run s tokens) more :=
  foldl_append

theorem fitAll_append {s : State} {tokens more : List Token} :
    FitAll s (tokens ++ more) ↔ FitAll s tokens ∧ FitAll (run s tokens) more := by
  induction tokens generalizing s with
  | nil => exact ⟨fun h => ⟨trivial, h⟩, fun h => h.2⟩
  | cons token tokens ih =>
    rw [cons_append, FitAll, FitAll, ih, ← and_assoc]
    rfl

end Token

end Scan

namespace Tree

/-- **The events that the markup of a tree stands for.** -/
def events : Tree → List Event
  | .element name declarations attributes children =>
    .startElement name (tagAttributes declarations attributes) :: children.flatMap events ++
      [.endElement name]
  | .text content => [.characters content]
  | .cdata content =>
    if content.isEmpty then [.startCData, .endCData]
    else [.startCData, .characters content, .endCData]
  | .comment content => [.comment content]
  | .instruction target content =>
    [.instruction target (if content.isEmpty then none else some content)]
  | .other => []

/-- From the state `s` on, the tokens of the trees may stand where they stand and tell the events of
the trees. -/
structure Takes (s : State) (trees : List Tree) : Prop where
  fits : Token.FitAll s (trees.flatMap tokens)
  record : (Token.run s (trees.flatMap tokens)).record = s.record ++ trees.flatMap events
  opened : (Token.run s (trees.flatMap tokens)).opened = s.opened
  seenRoot : (Token.run s (trees.flatMap tokens)).seenRoot = (s.seenRoot || trees.any isElement)
  /-- Behind a tree that is no text nothing is pending. -/
  pending : ∀ t, trees.getLast? = some t → t.isText = false →
    (Token.run s (trees.flatMap tokens)).pending = ""

variable {s : State} {t : Tree} {trees more : List Tree}

theorem takes_nil (s : State) : Takes s [] where
  fits := trivial
  record := (append_nil _).symm
  opened := rfl
  seenRoot := (Bool.or_false _).symm
  pending _ h _ := by cases h

theorem Takes.single (hf : Token.FitAll s t.tokens)
    (hr : (Token.run s t.tokens).record = s.record ++ t.events)
    (ho : (Token.run s t.tokens).opened = s.opened)
    (hs : (Token.run s t.tokens).seenRoot = (s.seenRoot || t.isElement))
    (hp : t.isText = false → (Token.run s t.tokens).pending = "") : Takes s [t] := by
  refine ⟨?_, ?_, ?_, ?_, fun last hl htext => ?_⟩ <;> rw [flatMap_singleton]
  · exact hf
  · rw [flatMap_singleton, hr]
  · exact ho
  · rw [hs, any_cons, any_nil, Bool.or_false]
  · cases hl
    exact hp htext

theorem Takes.cons (h : Takes s [t]) (ht : Takes (Token.run s t.tokens) trees) :
    Takes s (t :: trees) := by
  obtain ⟨hf, hr, ho, hs, hp⟩ := h
  obtain ⟨hf', hr', ho', hs', hp'⟩ := ht
  rw [flatMap_singleton] at hf hr ho hs hp
  refine ⟨?_, ?_, ?_, ?_, fun last hl htext => ?_⟩ <;> rw [flatMap_cons]
  · exact Token.fitAll_append.mpr ⟨hf, hf'⟩
  · rw [Token.run_append, hr', hr, flatMap_singleton, flatMap_cons, append_assoc]
  · rw [Token.run_append, ho', ho]
  · rw [Token.run_append, hs', hs, any_cons, any_cons, any_nil, Bool.or_false,
      Bool.or_assoc]
  · rw [Token.run_append]
    cases trees with
    | nil => exact hp last hl htext
    | cons next trees => exact hp' last hl htext

/-- Trees inside an element, if each of them is taken in there. -/
theorem takes_inner (htrees : ∀ t ∈ trees, ∀ s : State, s.opened ≠ [] →
      (t.isText = true → s.pending = "") → Takes s [t])
    (hsep : Separated trees) (ho : s.opened ≠ [])
    (hp : (trees.head?.any isText) = true → s.pending = "") : Takes s trees := by
  induction trees generalizing s with
  | nil => exact takes_nil s
  | cons t trees ih =>
    obtain ⟨ht, htrees⟩ := forall_mem_cons.mp htrees
    have hone := ht s ho hp
    have hopened := hone.opened
    rw [flatMap_singleton] at hopened
    refine hone.cons (ih htrees hsep.tail (hopened ▸ ho) fun hnext => ?_)
    have hpending := hone.pending t rfl (hsep.isText_eq_false hnext)
    rwa [flatMap_singleton] at hpending

/-! ## Text -/

theorem effect_char (ho : s.opened ≠ []) (c : Char) (text : List Char) :
    Token.effect s (.text (c :: text)) =
      Token.effect { s with pending := s.pending.push c } (.text text) := by
  have hne : ¬ s.opened.isEmpty = true := not_isEmpty_opened ho
  rw [Token.effect, Token.effect, if_neg hne, if_neg hne, push_append_ofList]

theorem effect_singleton (ho : s.opened ≠ []) (c : Char) :
    Token.effect s (.text [c]) = { s with pending := s.pending.push c } := by
  rw [effect_char ho, Token.effect, if_neg (not_isEmpty_opened ho)]
  simp

/-- **A text and the references in it only add to what is pending.** -/
theorem run_textTokens (text : List Char) (ho : s.opened ≠ []) :
    Token.FitAll s (textTokens text) ∧
      Token.run s (textTokens text) = { s with pending := s.pending ++ String.ofList text } := by
  induction text generalizing s with
  | nil => exact ⟨trivial, by simp [textTokens, Token.run]⟩
  | cons c text ih =>
    obtain ⟨hf, hr⟩ := ih (s := { s with pending := s.pending.push c }) ho
    rw [← push_append_ofList, textTokens]
    split
    · split
      · next chars more htext =>
        rw [htext] at hf hr
        rw [Token.run, foldl_cons, Token.FitAll, effect_char ho]
        exact ⟨⟨fun h => absurd h ho, hf.2⟩, hr⟩
      · rw [Token.run, foldl_cons, Token.FitAll, effect_singleton ho]
        exact ⟨⟨fun h => absurd h ho, hf⟩, hr⟩
    · exact ⟨⟨ho, hf⟩, hr⟩

/-! ## One tree -/

/-- A tree that is one piece of markup tells its events behind the pending text. -/
theorem Takes.ofToken (token : Token) (h : t.tokens = [token]) (hf : token.Fits s)
    (hp : (token.effect s).pending = "")
    (he : (token.effect s).events.toList = s.flush.events.toList ++ t.events)
    (ho : (token.effect s).opened = s.opened)
    (hs : (token.effect s).seenRoot = (s.seenRoot || t.isElement)) : Takes s [t] := by
  have hrun : Token.run s t.tokens = token.effect s := by
    rw [h]
    rfl
  refine .single ?_ ?_ ?_ ?_ fun _ => ?_
  · rw [h]
    exact ⟨hf, trivial⟩
  · rw [hrun, State.record_of_pending hp, he]
    rfl
  · rw [hrun, ho]
  · rw [hrun, hs]
  · rw [hrun, hp]

/-- An element, if what is below it tells its events there. -/
theorem Takes.ofNested {name : String} {declarations : List NamespaceDecl}
    {attributes : List Attribute} {children : List Tree} (hne : ¬ children.isEmpty = true)
    (hroot : s.opened = [] → s.seenRoot = false)
    (h : Takes (s.flush.start name (tagAttributes declarations attributes)) children) :
    Takes s [.element name declarations attributes children] := by
  let inner := s.flush.start name (tagAttributes declarations attributes)
  let last := Token.run inner (children.flatMap tokens)
  have hopened : last.opened = name :: s.opened := by
    rw [h.opened]
    exact congrArg (name :: ·) s.opened_flush
  have htokens : Tree.tokens (.element name declarations attributes children) =
      .start name (tagAttributes declarations attributes) ::
        (children.flatMap tokens ++ [.finish name]) := by
    rw [tokens, if_neg hne, cons_append]
  have hrun : Token.run s (Tree.tokens (.element name declarations attributes children)) =
      last.flush.finish name s.opened := by
    rw [htokens, Token.run, foldl_cons, ← Token.run, Token.run_append]
    exact congrArg (last.flush.finish name) (congrArg List.tail hopened)
  refine .single ?_ ?_ ?_ ?_ fun _ => ?_
  · rw [htokens]
    refine ⟨hroot, Token.fitAll_append.mpr ⟨h.fits, ?_, trivial⟩⟩
    exact congrArg List.head? hopened
  · rw [hrun, State.record_finish, h.record, State.record_start, events]
    simp
  · rw [hrun]
    rfl
  · rw [hrun]
    refine (State.seenRoot_flush last).trans (h.seenRoot.trans ?_)
    exact (Bool.true_or _).trans (Bool.or_true _).symm
  · rw [hrun]
    exact last.flush_pending

/-- **A canonical tree tells its events**, wherever it can stand. -/
theorem Canonical.takes (h : t.Canonical)
    (htop : s.opened = [] → t.isElement = true ∧ s.seenRoot = false ∨ t.isAside = true)
    (hp : t.isText = true → s.pending = "") : Takes s [t] := by
  induction h generalizing s with
  | @element name declarations attributes children tag separated hc ih =>
    have hroot : s.opened = [] → s.seenRoot = false := fun ho =>
      (htop ho).elim (·.2) fun hf => by cases hf
    by_cases hnil : children.isEmpty = true
    · refine .ofToken (.startEmpty name _) (by rw [tokens, if_pos hnil]) hroot s.flush_pending ?_ s.opened_flush ?_
      · rw [events, List.isEmpty_iff.mp hnil]
        simp [Token.effect, State.startEmpty]
      · exact (Bool.or_true _).symm
    · refine .ofNested hnil hroot (takes_inner (fun c hm s ho => ?_) separated ?_ fun _ => ?_)
      · exact ih c hm fun h => absurd h ho
      · exact cons_ne_nil _ _
      · exact s.flush_pending
  | @text content hne hx =>
    have ho : s.opened ≠ [] := fun ho => by simpa [isElement, isAside] using htop ho
    obtain ⟨hf, hr⟩ := run_textTokens content.toList ho
    rw [hp rfl, String.empty_append, String.ofList_toList] at hr
    have hflush : ¬ content.isEmpty = true := fun he => hne (String.isEmpty_iff.mp he)
    refine .single ?_ ?_ ?_ ?_ fun hf => by cases hf
    · rwa [tokens]
    · rw [tokens, hr, State.record_of_pending (hp rfl), State.record, State.flush, if_neg hflush,
        events]
      exact Array.toList_push
    · rw [tokens, hr]
    · rw [tokens, hr]
      exact (Bool.or_false _).symm
  | @cdata content hx he =>
    have ho : s.opened ≠ [] := fun ho => by simpa [isElement, isAside] using htop ho
    have heffect := s.flush.cdata_eq content
    refine .ofToken (.cdata _) (by rw [tokens]) ho ?_ ?_ ?_ ?_ <;> rw [Token.effect, heffect]
    · exact s.flush_pending
    · rw [events, Array.toList_append]
      split <;> rfl
    · exact s.opened_flush
    · exact s.seenRoot_flush.trans (Bool.or_false _).symm
  | @comment content hx hl =>
    refine .ofToken (.comment _) (by rw [tokens]) trivial s.flush_pending ?_ s.opened_flush ?_
    · rw [events]
      simp [Token.effect, State.told]
    · simp [Token.effect, State.told, isElement]
  | @instruction target content hn ht he hs =>
    refine .ofToken (.instruction target _) (by rw [tokens]) trivial s.flush_pending ?_ s.opened_flush ?_
    · rw [events]
      simp [Token.effect, State.told]
    · simp [Token.effect, State.told, isElement]

/-! ## Whole documents -/

/-- Trees of which each stands on a line, as tokens. -/
def lines (trees : List Tree) : List Token :=
  trees.flatMap fun t => t.tokens ++ [.text ['\n']]

theorem tokens_lines (hc : ∀ t ∈ trees, t.Canonical) (htext : ∀ t ∈ trees, t.isText = false) :
    Tokens (lines trees) (trees.flatMap fun t => t.markup ++ ['\n']) := by
  induction trees with
  | nil => exact .nil
  | cons t trees ih =>
    obtain ⟨hc, hcs⟩ := forall_mem_cons.mp hc
    obtain ⟨ht, hts⟩ := forall_mem_cons.mp htext
    have hnewline : CharData ['\n'] :=
      charData_of_isSpace (forall_mem_singleton.mpr rfl)
    have hstop : StopsAt isTextChar (trees.flatMap fun t => t.markup ++ ['\n']) := by
      cases trees with
      | nil => exact stopsAt_nil _
      | cons next trees =>
        rw [flatMap_cons, append_assoc]
        exact (hcs next mem_cons_self).stopsAt (hts next mem_cons_self) _
    have hrest := Tokens.cons (.text hnewline (cons_ne_nil _ _)) (fun _ => hstop) (ih hcs hts)
    rw [lines, flatMap_cons, flatMap_cons, append_assoc, append_assoc]
    refine hc.tokens_markup (fun htext => ?_) hrest
    rw [ht] at htext
    cases htext

theorem isText_eq_false (h : t.isElement = true ∨ t.isAside = true) : t.isText = false := by
  cases t with
  | text content => rcases h with h | h <;> cases h
  | _ => rfl

theorem separated_of_isText_eq_false (h : ∀ t ∈ trees, t.isText = false) : Separated trees := by
  refine (pairwise_of_forall_mem_list fun a ha b _ => ?_).isChain
  rintro ⟨htext, -⟩
  rw [h a ha] at htext
  cases htext

/-- **The document element and what stands beside it**: at most one element is taken in, and line
ends are passed over. -/
theorem takes_lines (hc : ∀ t ∈ trees, t.Canonical)
    (htop : ∀ t ∈ trees, t.isElement = true ∨ t.isAside = true)
    (hroot : s.seenRoot.toNat + trees.countP isElement ≤ 1) (ho : s.opened = []) :
    Token.FitAll s (lines trees) ∧
      (Token.run s (lines trees)).record = s.record ++ trees.flatMap events ∧
      (Token.run s (lines trees)).opened = [] ∧
      (Token.run s (lines trees)).seenRoot = (s.seenRoot || trees.any isElement) := by
  induction trees generalizing s with
  | nil => exact ⟨trivial, (append_nil _).symm, ho, (Bool.or_false _).symm⟩
  | cons t trees ih =>
    obtain ⟨hc, hcs⟩ := forall_mem_cons.mp hc
    obtain ⟨ht, hts⟩ := forall_mem_cons.mp htop
    -- there is at most one element, seen already or still to come
    have hfirst : t.isElement = true → s.seenRoot = false := fun he => by
      rw [countP_cons_of_pos he] at hroot
      cases hseen : s.seenRoot with
      | false => rfl
      | true => rw [hseen, Bool.toNat_true] at hroot; omega
    obtain ⟨hf, hr, ho', hs, -⟩ : Takes s [t] := by
      refine hc.takes (fun _ => ht.imp_left fun he => ⟨he, hfirst he⟩) fun htext => ?_
      rw [isText_eq_false ht] at htext
      cases htext
    rw [flatMap_singleton] at hf hr ho' hs
    rw [any_cons, any_nil, Bool.or_false] at hs
    rw [ho] at ho'
    -- the line end changes nothing
    have hline : Token.effect (Token.run s t.tokens) (.text ['\n']) = Token.run s t.tokens := by
      rw [Token.effect, ho']
      rfl
    have hrun : Token.run s (lines (t :: trees)) =
        Token.run (Token.run s t.tokens) (lines trees) := by
      rw [lines, flatMap_cons, append_assoc, Token.run_append, Token.run,
        singleton_append, foldl_cons, hline]
      rfl
    have hroot' : (Token.run s t.tokens).seenRoot.toNat + trees.countP isElement ≤ 1 := by
      rw [hs]
      cases he : t.isElement with
      | true =>
        rw [countP_cons_of_pos he] at hroot
        rw [Bool.or_true, Bool.toNat_true]
        omega
      | false =>
        rw [countP_cons_of_neg (he ▸ Bool.false_ne_true)] at hroot
        rwa [Bool.or_false]
    obtain ⟨hfs, hrs, hos, hss⟩ := ih hcs hts hroot' ho'
    rw [hrun]
    refine ⟨?_, ?_, hos, ?_⟩
    · rw [lines, flatMap_cons, append_assoc]
      refine Token.fitAll_append.mpr ⟨hf, fun _ => forall_mem_singleton.mpr rfl, ?_⟩
      rwa [hline]
    · rw [hrs, hr, flatMap_singleton, flatMap_cons, append_assoc]
    · rw [hss, hs, any_cons, Bool.or_assoc]

end Tree

/-- A text written with tokens that fit and leave nothing open is scanned to its end. -/
theorem scanText_of_tokens {text : List Char} {tokens : List Token} (options : ParseOptions)
    (files : Files) (h : Tokens tokens text)
    (hf : Token.FitAll { events := #[.startDocument] } tokens)
    (ho : (Token.run { events := #[.startDocument] } tokens).opened = [])
    (hr : (Token.run { events := #[.startDocument] } tokens).seenRoot = true) :
    scanText text options files =
      ⟨(Token.run { events := #[.startDocument] } tokens).record ++ [.endDocument], none⟩ := by
  obtain ⟨anchor, hcontent⟩ := content_of_tokens ⟨text, options, files⟩ h hf
  let last := (Token.run { events := #[.startDocument] } tokens).anchored anchor
  have hend : checkEnd ⟨text, options, files⟩ last.flush = .ok () last.flush := by
    refine checkEnd_iff.mpr ⟨rfl, ?_, ?_⟩
    · rw [State.opened_flush]
      exact ho
    · rw [State.seenRoot_flush]
      exact hr
  have hrun : document ⟨text, options, files⟩ { events := #[.startDocument] } =
      .ok () last.flush := by
    rw [document, xmlDeclaration?_eq_none h]
    exact (bind_of_ok hcontent).trans hend
  have hrecord : last.flush.events.toList =
      (Token.run { events := #[.startDocument] } tokens).record := by
    rw [flush_anchor]
    rfl
  rw [scanText, run, hrun, ← hrecord]
  exact congrArg (Outcome.mk · none) Array.toList_push

theorem scanText_element {t : Tree} (h : t.Canonical) (he : t.isElement = true)
    (options : ParseOptions) (files : Files) :
    scanText t.markup options files = ⟨.startDocument :: t.events ++ [.endDocument], none⟩ := by
  have htext : t.isText = true → False := fun ht => by
    rw [Tree.isText_eq_false (.inl he)] at ht
    cases ht
  have ht := h.tokens_markup (fun ht => (htext ht).elim) .nil
  obtain ⟨hf, hr, ho, hs, -⟩ : Tree.Takes { events := #[.startDocument] } [t] :=
    h.takes (fun _ => .inl ⟨he, rfl⟩) fun ht => (htext ht).elim
  rw [flatMap_singleton] at hf hr ho hs
  rw [append_nil, append_nil] at ht
  rw [flatMap_singleton] at hr
  rw [scanText_of_tokens options files ht hf ho (by rw [hs]; simp [he]), hr]
  rfl

/-- **Scanning the markup of a document tells the events of its trees.** -/
theorem scanText_markup {trees : List Tree} (h : Tree.CanonicalDocument trees)
    (options : ParseOptions) (files : Files) :
    scanText (trees.flatMap fun t => t.markup ++ ['\n']) options files =
      ⟨.startDocument :: trees.flatMap Tree.events ++ [.endDocument], none⟩ := by
  have ht := Tree.tokens_lines h.canonical fun t hm => Tree.isText_eq_false (h.top t hm)
  obtain ⟨hf, hr, ho, hs⟩ := Tree.takes_lines (s := { events := #[.startDocument] }) h.canonical
    h.top (by rw [h.root]; rfl) rfl
  have hroot : trees.any Tree.isElement = true := by
    rw [any_eq_true, ← countP_pos_iff, h.root]
    exact Nat.one_pos
  rw [scanText_of_tokens options files ht hf ho (by rw [hs, hroot]; rfl), hr]
  rfl

end Xml
