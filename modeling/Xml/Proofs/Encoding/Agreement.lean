import Xml.Proofs.Encoding.Ascii
import Xml.Proofs.Scan.Acceptance

/-!
# The readers of the XML declaration

Three readers look for an XML declaration: the search for an encoding before decoding, the scan, and
the one that takes the declaration off an external entity. The scan wants white space behind the
`<?xml` and reads pseudo-attributes; the search looks for the first word `encoding`, in the first
512 bytes; the third looks at `<?xml` only. `Misleads` lists where the first two part. The search
reads bytes and the scan decoded text, and these differ in one more case: with a label of ISO-2022-JP
and an escape among the bytes.

* `declared_eq_told_iff` — when the search finds the encoding that the scan tells
-/

namespace Xml.Scan

open Text

def encoding? : Event → Option (Option String)
  | .xmlDeclaration _ encoding _ => some encoding
  | _ => none

/-- The encodings of the XML declarations among events. -/
def encodings (events : List Event) : List (Option String) :=
  events.filterMap encoding?

theorem encodings_told (s : State) (event : Event) :
    encodings (s.told event).events.toList =
      encodings s.events.toList ++ (encoding? event).toList := by
  rw [State.told, Array.toList_push, encodings, List.filterMap_append]
  cases h : encoding? event with
  | none => simp [encodings, h]
  | some encoding => simp [encodings, h]

theorem encodings_told_of_none (s : State) {event : Event} (h : encoding? event = none) :
    encodings (s.told event).events.toList = encodings s.events.toList := by
  rw [encodings_told, h, Option.toList_none, List.append_nil]

/-- **Behind its beginning a scan tells no XML declaration.** -/
theorem Closed.encodings (told : List (Option String)) :
    Closed fun p s => p ≠ .begin ∧ Scan.encodings s.events.toList = told := by
  rintro p s q s' hmove ⟨hp, hs⟩
  have other {s : State} {event : Event} (h : encoding? event = none)
      (hs : Scan.encodings s.events.toList = told) :
      Scan.encodings (s.told event).events.toList = told := by rwa [encodings_told_of_none s h]
  cases hmove with
  | @problem _ _ event h =>
    refine ⟨hp, other ?_ hs⟩
    cases event with
    | error | warning => rfl
    | _ => cases h
  | bookkeeping h => exact ⟨hp, by rwa [show s'.events = s.events from congrArg Prod.fst h]⟩
  | text => exact ⟨hp, hs⟩
  | flush =>
    refine ⟨by simp, ?_⟩
    rw [State.flush]
    split
    · exact hs
    · exact other rfl hs
  | @aside _ event hpending h =>
    refine ⟨by simp, other ?_ hs⟩
    cases event with
    | comment | instruction => rfl
    | _ => cases h
  | declaration => exact absurd rfl hp
  | reference => exact ⟨by simp, other rfl hs⟩
  | cdata hpending ho text =>
    refine ⟨by simp, ?_⟩
    rw [State.cdata]
    split
    · exact other rfl (other rfl hs)
    · exact other rfl (other rfl (other rfl hs))
  | start => exact ⟨by simp, other rfl hs⟩
  | startEmpty => exact ⟨by simp, other rfl (other rfl hs)⟩
  | finish => exact ⟨by simp, other rfl hs⟩
  | doctype => exact ⟨by simp, other rfl hs⟩

theorem encodings_takeXmlDeclaration {env : Env} {inside rest : List Char} {s s' : State}
    (h : takeXmlDeclaration env inside s = .ok rest s') :
    ∃ d, readXmlDeclaration inside = .ok (d, rest) ∧ d.version.isSome ∧
      encodings s'.events.toList = encodings s.events.toList ++ [d.encoding] := by
  obtain ⟨d, version, standalone, s₁, hd, hv, hstandalone, rfl⟩ := takeXmlDeclaration_eq_ok h
  refine ⟨d, hd, by rw [hv]; rfl, ?_⟩
  have hs₁ : encodings s₁.events.toList = encodings s.events.toList := by
    obtain ⟨_, _, hvalue, hwarned⟩ := standaloneValue_eq_ok d.standalone s
    rw [hstandalone] at hvalue
    cases hvalue
    rcases hwarned with rfl | ⟨w, rfl⟩
    · rfl
    · exact encodings_told_of_none s rfl
  rw [encodings_told, hs₁]
  rfl

/-- **Where the told encoding comes from**: from the XML declaration, if the text begins with one. -/
theorem encodings_scanText {text : List Char} {options : ParseOptions} {files : Files}
    (h : (scanText text options files).fatal = none) :
    xmlDeclaration? text = none ∧ encodings (scanText text options files).events = [] ∨
      ∃ inside d rest, xmlDeclaration? text = some inside ∧
        readXmlDeclaration inside = .ok (d, rest) ∧ d.version.isSome ∧
        encodings (scanText text options files).events = [d.encoding] := by
  obtain ⟨s, hrun, hevents⟩ := scanText_of_success h
  have hend : encodings (s.events.toList ++ [.endDocument]) = encodings s.events.toList := by
    rw [encodings, List.filterMap_append]
    exact List.append_nil _
  rw [hevents, hend]
  -- what follows the declaration, or the beginning if there is none, tells no other
  have hrest {env : Env} {rest : List Char} {s₁ : State}
      (h : (content env 0 rest >>= fun _ => flush >>= fun _ => checkEnd env) s₁ = .ok () s) :
      encodings s.events.toList = encodings s₁.events.toList := by
    obtain ⟨_, s₂, hcontent, h⟩ := bind_eq_ok h
    obtain ⟨_, s₃, hflush, h⟩ := bind_eq_ok h
    have hclosed := Closed.encodings (encodings s₁.events.toList)
    have hs₂ := (hclosed.triple_content env 0 rest).ok ⟨by simp, rfl⟩ hcontent
    have hs₃ := (hclosed.triple_flush (E := fun _ => True)).ok hs₂ hflush
    exact ((Closed.triple_checkEnd (P := fun s => encodings s.events.toList = _) env).ok
      hs₃.1.2 h).1
  cases hx : xmlDeclaration? text with
  | none =>
    rw [document, hx] at hrun
    exact .inl ⟨rfl, hrest hrun⟩
  | some inside =>
    rw [document, hx] at hrun
    obtain ⟨rest, s₁, hdecl, hrun⟩ := bind_eq_ok hrun
    obtain ⟨d, hd, hv, htold⟩ := encodings_takeXmlDeclaration hdecl
    exact .inr ⟨inside, d, rest, rfl, hd, hv, (hrest hrun).trans htold⟩

end Xml.Scan

namespace Xml.Encoding

open Text Grammar Scan

/-- The encoding that an XML declaration among the events carries. -/
def toldEncoding (events : List Event) : Option String :=
  (encodings events).head?.join

/-- The value of the last pseudo-attribute `encoding`. -/
def lastEncoding : List (List Char × List Char) → Option (List Char)
  | [] => none
  | (key, value) :: more =>
    (lastEncoding more).or (if key = "encoding".toList then some value else none)

/-- The encoding that the scan makes of pseudo-attributes: a later one replaces an earlier one, and
line ends were normalized before. -/
def scanned (items : List (List Char × List Char)) : Option String :=
  (lastEncoding items).map fun value => String.ofList (normalizeNewlines value)

theorem lastEncoding_map (f : List Char → List Char) (items : List (List Char × List Char)) :
    lastEncoding (items.map fun item => (item.1, f item.2)) = (lastEncoding items).map f := by
  induction items with
  | nil => rfl
  | cons item items ih =>
    rw [List.map_cons, lastEncoding, lastEncoding, ih]
    cases lastEncoding items with
    | some value => rfl
    | none => split <;> rfl

theorem encoding_set? {d e : XmlDeclaration} {key value : List Char}
    (h : d.set? (String.ofList key) (String.ofList value) = some e) :
    e.encoding =
      (if key = "encoding".toList then some (String.ofList value) else none).or d.encoding := by
  have hkey (known : String) : String.ofList key = known ↔ key = known.toList := by
    rw [← String.toList_inj, String.toList_ofList]
  unfold XmlDeclaration.set? at h
  split at h
  case h_4 => cases h
  all_goals
    next hk =>
      cases h
      rw [(hkey _).mp hk]
      rfl

variable {items : List (List Char × List Char)} {text : List Char}

theorem encoding_setAll {d e : XmlDeclaration} (h : setAll d items = some e) :
    e.encoding = ((lastEncoding items).map String.ofList).or d.encoding := by
  induction items generalizing d with
  | nil => cases h; rfl
  | cons item items ih =>
    obtain ⟨key, value⟩ := item
    rw [setAll, List.foldlM_cons] at h
    obtain ⟨d', hset, hrest⟩ := Option.bind_eq_some_iff.mp h
    rw [ih hrest, encoding_set? hset, lastEncoding]
    cases lastEncoding items with
    | some value => rfl
    | none => split <;> rfl

/-- A text has its pseudo-attributes in one way only, as far as the encoding goes. -/
theorem lastEncoding_unique {others : List (List Char × List Char)}
    (h : PseudoAttributes items text) (h' : PseudoAttributes others text) :
    lastEncoding items = lastEncoding others := by
  obtain ⟨d, hd, -⟩ := exists_setAll h.keys {}
  obtain ⟨e, he, -⟩ := exists_setAll h'.keys {}
  have hread := readPseudoAttributes?_eq_some_iff.mpr ⟨items, h, hd⟩
  have hread' := readPseudoAttributes?_eq_some_iff.mpr ⟨others, h', he⟩
  obtain rfl := Option.some.inj (hread.symm.trans hread')
  have heq := (encoding_setAll hd).symm.trans (encoding_setAll he)
  rw [Option.or_none, Option.or_none] at heq
  exact Option.map_injective (fun _ _ => String.ofList_injective) heq

/-- The beginning of a text leads the search for an encoding astray. -/
inductive Misleads (text : List Char) : Prop where
  /-- An instruction whose target only begins with `xml`. -/
  | target {inside : List Char} (ho : Opening text inside) (hb : startsBlank inside = false)
      (hle : inside.length ≤ 505) (hf : encodingIn? inside ≠ none)
  /-- An XML declaration that does not end among the first 512 characters. -/
  | tooLong {inside : List Char} {items : List (List Char × List Char)} (ho : Opening text inside)
      (hb : startsBlank inside = true) (hp : PseudoAttributes items inside)
      (hlt : 505 < inside.length) (he : scanned items ≠ none)
  /-- An XML declaration with the word in another value, with two encodings, or with a carriage
  return in one. -/
  | values {inside : List Char} {items : List (List Char × List Char)} (ho : Opening text inside)
      (hb : startsBlank inside = true) (hp : PseudoAttributes items inside)
      (hle : inside.length ≤ 505) (hne : announced items ≠ scanned items)

/-- The text begins with an XML declaration that names the encoding. -/
def Declares (text : List Char) (label : String) : Prop :=
  ∃ inside items, Opening text inside ∧ startsBlank inside = true ∧
    PseudoAttributes items inside ∧ scanned items = some label

/-- What the scan of a text tells of its encoding. -/
theorem toldEncoding_eq {options : ParseOptions} {files : Files}
    (h : (scanText (normalizeNewlines text) options files).fatal = none) :
    (∀ inside, Opening text inside → startsBlank inside = false) ∧
        toldEncoding (scanText (normalizeNewlines text) options files).events = none ∨
      ∃ inside items, Opening text inside ∧ startsBlank inside = true ∧
        PseudoAttributes items inside ∧
        toldEncoding (scanText (normalizeNewlines text) options files).events = scanned items := by
  rcases encodings_scanText h with ⟨hx, htold⟩ | ⟨inside, d, rest, hx, hd, -, htold⟩
  · refine .inl ⟨?_, by rw [toldEncoding, htold]; rfl⟩
    rintro inside ⟨rest, rfl, -⟩
    rw [Bool.eq_false_iff]
    intro hblank
    have hmark : '\r' ∉ "<?xml".toList := by decide
    have hdecl : xmlDeclaration? (normalizeNewlines
        ("<?xml".toList ++ inside ++ "?>".toList ++ rest)) =
          some (normalizeNewlines (inside ++ ("?>".toList ++ rest))) := by
      rw [List.append_assoc, List.append_assoc, normalizeNewlines_append_of_not_mem hmark]
      refine xmlDeclaration?_eq_some_iff.mpr ⟨rfl, ?_⟩
      rw [startsBlank_normalizeNewlines]
      exact startsBlank_append hblank
    rw [hdecl] at hx
    cases hx
  · obtain ⟨htext, hblank⟩ := xmlDeclaration?_eq_some_iff.mp hx
    obtain ⟨body, hb, hp⟩ := readXmlDeclaration_eq_ok_iff.mp hd
    obtain ⟨rfl, hi⟩ := (breakOn_eq_some_iff (by decide) (by decide)).mp hb
    obtain ⟨items, hitems, hall⟩ := readPseudoAttributes?_eq_some_iff.mp hp
    obtain ⟨behind, rfl, hbehind⟩ := exists_of_normalizeNewlines_eq_mark_append htext (by decide)
    rw [List.append_assoc] at hbehind
    obtain ⟨inside, tail, rfl, rfl, htail⟩ := exists_of_normalizeNewlines_eq_append hbehind
    obtain ⟨tail, rfl, -⟩ := exists_of_normalizeNewlines_eq_mark_append htail (by decide)
    obtain ⟨raws, hraws, rfl⟩ := hitems.of_normalizeNewlines
    refine .inr ⟨inside, raws, ⟨tail, by simp, ?_⟩, ?_, hraws, ?_⟩
    · rwa [infix_normalizeNewlines_iff (by decide) (by decide)] at hi
    · rw [← startsBlank_normalizeNewlines]
      cases hnorm : normalizeNewlines inside with
      | nil =>
        rw [hnorm] at hblank
        cases hblank
      | cons c more =>
        rw [hnorm] at hblank
        exact hblank
    · rw [toldEncoding, htold]
      refine (encoding_setAll hall).trans ?_
      rw [Option.or_none, lastEncoding_map, Option.map_map]
      rfl

theorem scanned_unique {others : List (List Char × List Char)} (h : PseudoAttributes items text)
    (h' : PseudoAttributes others text) : scanned items = scanned others := by
  rw [scanned, scanned, lastEncoding_unique h h']

/-- Where the scan sees no declaration, the search is misled by the target of an instruction or not
at all. -/
theorem declared?_eq_none_iff {bytes : List UInt8} (hascii : IsAscii bytes)
    (hno : ∀ inside, Opening (textOf bytes) inside → startsBlank inside = false) :
    declared? bytes = none ↔ ¬ Misleads (textOf bytes) := by
  constructor
  · intro hnone hm
    cases hm with
    | target ho _ hle hf => exact hf (declared?_of_opening hascii ho hle ▸ hnone)
    | tooLong ho hb => exact absurd (hno _ ho) (by simp [hb])
    | values ho hb => exact absurd (hno _ ho) (by simp [hb])
  · intro hm
    rw [Option.eq_none_iff_forall_ne_some]
    intro label hlabel
    obtain ⟨inside, ho, hle⟩ := exists_opening_of_declared? hlabel
    rw [declared?_of_opening hascii ho hle] at hlabel
    exact hm (.target ho (hno _ ho) hle (by simp [hlabel]))

/-- Where there is a declaration, its length and its values decide. -/
theorem declared?_eq_scanned_iff {bytes : List UInt8} (hascii : IsAscii bytes)
    (hplain : ∀ label, declared? bytes = some label → PlainLabel label) {inside : List Char}
    (ho : Opening (textOf bytes) inside) (hb : startsBlank inside = true)
    (hp : PseudoAttributes items inside) :
    declared? bytes = scanned items ↔ ¬ Misleads (textOf bytes) := by
  by_cases hle : inside.length ≤ 505
  · rw [declared?_of_opening hascii ho hle] at hplain ⊢
    have hfound := encodingIn?_eq_announced hp hplain
    constructor
    · intro heq hm
      cases hm with
      | target ho' hb' =>
        rw [ho.unique ho', hb'] at hb
        cases hb
      | tooLong ho' _ _ hlt =>
        rw [ho.unique ho'] at hle
        omega
      | values ho' _ hp' _ hne =>
        cases ho.unique ho'
        rw [← encodingIn?_eq_announced hp' hplain, heq] at hne
        exact hne (scanned_unique hp hp')
    · intro hm
      by_contra hne
      exact hm (.values ho hb hp hle (hfound ▸ hne))
  · have hnone : declared? bytes = none := by
      rw [Option.eq_none_iff_forall_ne_some]
      intro label hlabel
      obtain ⟨other, ho', hle'⟩ := exists_opening_of_declared? hlabel
      exact hle (ho.unique ho' ▸ hle')
    rw [hnone]
    constructor
    · intro heq hm
      cases hm with
      | target ho' hb' =>
        rw [ho.unique ho', hb'] at hb
        cases hb
      | tooLong ho' _ hp' _ he =>
        cases ho.unique ho'
        exact he (scanned_unique hp' hp ▸ heq.symm)
      | values ho' _ _ hle' => exact hle (ho.unique ho' ▸ hle')
    · intro hm
      by_contra hne
      exact hm (.tooLong ho hb hp (Nat.lt_of_not_le hle) (Ne.symm hne))

theorem stripTextDeclaration_ne_iff (text : List Char) :
    stripTextDeclaration text ≠ text ↔ "<?xml".toList <+: text ∧ "?>".toList <:+: text := by
  rw [stripTextDeclaration]
  cases ha : after? "<?xml".toList text with
  | none =>
    exact ⟨fun h => absurd rfl h, fun h => absurd h.1 (not_prefix_of_after?_eq_none ha)⟩
  | some inside =>
    have hbegins : "<?xml".toList <+: text := after?_eq ha ▸ List.prefix_append _ _
    cases hb : breakOn "?>".toList text with
    | none =>
      exact ⟨fun h => absurd rfl h, fun h => absurd h.2 ((breakOn_eq_none_iff (by decide)).mp hb)⟩
    | some found =>
      obtain ⟨before, rest⟩ := found
      have heq := breakOn_eq hb
      refine ⟨fun _ => ⟨hbegins, before, rest, heq.symm⟩, fun _ hrest => ?_⟩
      have hlen : rest.length = (before ++ "?>".toList ++ rest).length :=
        congrArg List.length (hrest.trans heq)
      simp at hlen
      omega

/-- Whatever the bytes were, the scan tells an encoding if the text declares it. -/
theorem toldEncoding_eq_some_iff {options : ParseOptions} {files : Files} {label : String}
    (h : (scanText (normalizeNewlines text) options files).fatal = none) :
    toldEncoding (scanText (normalizeNewlines text) options files).events = some label ↔
      Declares text label := by
  rcases toldEncoding_eq h with ⟨hno, htold⟩ | ⟨inside, items, ho, hb, hp, htold⟩
  · rw [htold]
    refine ⟨fun he => (by cases he), ?_⟩
    rintro ⟨inside, items, ho, hb, -⟩
    rw [hno inside ho] at hb
    cases hb
  · rw [htold]
    refine ⟨fun he => ⟨inside, items, ho, hb, hp, he⟩, ?_⟩
    rintro ⟨inside', items', ho', -, hp', he⟩
    obtain rfl := ho.unique ho'
    exact (scanned_unique hp hp').trans he

/-- **The readers of the XML declaration.** Given character sets that read ASCII byte by byte, or as
UTF-16, or by the escapes of ISO-2022-JP: an accepted document in ASCII is read byte by byte, or it
declares ISO-2022-JP and has an escape in it. In the first case the search before the decoding finds
the encoding that the scan tells, or none if it tells none, exactly if the beginning of the document
does not mislead it; in the second, exactly if the decoded text declares what the search has found.
From an external entity something is taken off exactly if it begins with `<?xml`, whatever follows
that, and has a `?>` in it. -/
theorem declared_eq_told_iff (bytes : List UInt8) (hascii : IsAscii bytes)
    (options : ParseOptions) (files : Files) (hcharsets : files.charsets.KeepsAscii)
    (h : (scanBytes bytes none options files).fatal = none) :
    (∃ text, decode bytes none files.charsets = .ok text ∧
      (text = textOf bytes ∧
          (declared? bytes = toldEncoding (scanBytes bytes none options files).events ↔
            ¬ Misleads (textOf bytes)) ∨
        ∃ label, declared? bytes = some label ∧ labelKey label ∈ escapingLabels ∧ 0x1B ∈ bytes ∧
          (declared? bytes = toldEncoding (scanBytes bytes none options files).events ↔
            Declares text label))) ∧
      ∀ text, stripTextDeclaration text ≠ text ↔
        "<?xml".toList <+: text ∧ "?>".toList <:+: text := by
  refine ⟨?_, stripTextDeclaration_ne_iff⟩
  obtain ⟨text, hdecode, hplain, hreading⟩ := decode_of_accepted hascii hcharsets h
  have hscan : scanBytes bytes none options files =
      scanText (normalizeNewlines text) options files := by
    rw [scanBytes, hdecode]
  rw [hscan] at h ⊢
  refine ⟨text, hdecode, ?_⟩
  rcases hreading with rfl | ⟨label, hlabel, hkey, hescape⟩
  · refine .inl ⟨rfl, ?_⟩
    rcases toldEncoding_eq h with ⟨hno, htold⟩ | ⟨inside, items, ho, hb, hp, htold⟩
    · rw [htold]
      exact declared?_eq_none_iff hascii hno
    · rw [htold]
      exact declared?_eq_scanned_iff hascii hplain ho hb hp
  · refine .inr ⟨label, hlabel, hkey, hescape, ?_⟩
    rw [hlabel, eq_comm]
    exact toldEncoding_eq_some_iff h

/-- An element behind an instruction whose target begins with `xml`. -/
def instructionText : List Char :=
  "<?xml-x encoding='l1'?><r/>".toList

def instructionBytes : List UInt8 :=
  instructionText.map fun c => UInt8.ofNat c.toNat

/-- The instruction is taken for a declaration by the search, and taken off an external entity. -/
theorem instruction_taken_for_declaration :
    IsAscii instructionBytes ∧ Files.none.charsets.KeepsAscii ∧
      (scanBytes instructionBytes none {} .none).fatal = none ∧
      Misleads (textOf instructionBytes) ∧
      declared? instructionBytes ≠
        toldEncoding (scanBytes instructionBytes none {} .none).events ∧
      stripTextDeclaration instructionText ≠ instructionText := by
  have hascii : IsAscii instructionBytes := by decide +kernel
  have htext : textOf instructionBytes = instructionText := by decide +kernel
  have hdecode : decode instructionBytes none Files.none.charsets =
      .ok instructionText := by decide +kernel
  have hdocument : Grammar.Document instructionText := by
    have hname : IsName ['r'] := (isName_iff ['r']).mp (by decide)
    have htarget : IsName "xml-x".toList := (isName_iff _).mp (by decide)
    have helement : Element "<r/>".toList :=
      .empty (.mk hname .nil List.nodup_nil (List.forall_mem_nil _) (List.forall_mem_nil _))
    have hinstruction :
        Aside ("<?".toList ++ "xml-x".toList ++ " encoding='l1'".toList ++ "?>".toList) :=
      .instruction htarget (by decide) (.inr rfl) (by decide)
    exact .mk (.inl rfl) (.aside hinstruction .nil) helement .nil
  have hfatal : (scanBytes instructionBytes none {} .none).fatal = none := by
    obtain ⟨s, hs, -⟩ := (document_iff ⟨instructionText, {}, .none⟩ ready_begin).mpr hdocument
    have hnewlines : normalizeNewlines instructionText = instructionText := by decide +kernel
    rw [scanBytes, hdecode]
    dsimp only
    rw [hnewlines, scanText, run, hs]
  have hmisled : Misleads (textOf instructionBytes) := by
    have hopening : Opening instructionText "-x encoding='l1'".toList :=
      ⟨"<r/>".toList, rfl, by decide⟩
    rw [htext]
    exact .target hopening rfl (by decide) (by decide +kernel)
  obtain ⟨⟨text, -, hcases⟩, hstrip⟩ := declared_eq_told_iff instructionBytes hascii {} .none
    Charsets.western_keepsAscii hfatal
  have hunread : declared? instructionBytes ≠
      toldEncoding (scanBytes instructionBytes none {} .none).events := by
    rcases hcases with ⟨-, hiff⟩ | ⟨label, -, -, hescape, -⟩
    · exact fun heq => hiff.mp heq hmisled
    · exact absurd hescape (by decide +kernel)
  refine ⟨hascii, Charsets.western_keepsAscii, hfatal, hmisled, hunread, (hstrip _).mpr ⟨?_, ?_⟩⟩
  · decide +kernel
  · decide +kernel

end Xml.Encoding
