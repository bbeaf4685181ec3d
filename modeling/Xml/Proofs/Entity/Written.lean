import Xml.Proofs.Scan.Lexical
import Xml.Proofs.Scan.Subset

/-!
# What an entity declaration says

The reader of an entity declaration is characterised by the texts it accepts: `Written` ones, as
they should be, and `Strayed` ones, where an opening quote that nothing closes stands in front of the
identifiers of an external entity. An entity is in the table only if the text holds such a
declaration of it.

* `readEntity_eq_ok_iff` — what is accepted
* `declared_entity_was_written` — where the entities of a table come from
-/

namespace Xml.Declarations

open Text Grammar

/-! ## Texts of declarations -/

/-- The mark of a parameter entity, with white space behind it, or nothing. -/
inductive Mark : Bool → List Char → Prop where
  | general : Mark false []
  | parameter {space : List Char} (hs : IsSpace space) : Mark true ('%' :: space)

/-- The identifiers of an external entity. -/
inductive Identifiers : Option String → String → List Char → Prop where
  | bySystem {space id literal : List Char} (hs : IsSpace space) (h : Literal id literal) :
      Identifiers none (String.ofList id) ("SYSTEM".toList ++ space ++ literal)
  | byPublic {before between publicId publicLiteral systemId systemLiteral : List Char}
      (hb : IsSpace before) (hp : Literal publicId publicLiteral) (hs : IsSpace between)
      (h : Literal systemId systemLiteral) :
      Identifiers (some (String.ofList publicId)) (String.ofList systemId)
        ("PUBLIC".toList ++ before ++ publicLiteral ++ between ++ systemLiteral)

/-- An external entity with `after` behind its identifiers. It is unparsed if that goes on with
`NDATA`. -/
inductive ExternalText : EntityValue → List Char → List Char → Prop where
  | parsed {publicId : Option String} {systemId : String} {text after : List Char}
      (h : Identifiers publicId systemId text) (hn : ¬ "NDATA".toList <+: skipBlanks after) :
      ExternalText (.external publicId systemId) text after
  | unparsed {publicId : Option String} {systemId : String} {text after : List Char}
      (h : Identifiers publicId systemId text) (hn : "NDATA".toList <+: skipBlanks after) :
      ExternalText .unparsed text after

/-- The value of an entity with `after` behind it. -/
inductive ValueText : EntityValue → List Char → List Char → Prop where
  | internal {value literal after : List Char} (h : Literal value literal) :
      ValueText (.internal (String.ofList (expandCharRefs value))) literal after
  | external {value : EntityValue} {text after : List Char} (h : ExternalText value text after) :
      ValueText value text after

/-- The beginning of a declaration behind its keyword, up to the place of the value. -/
inductive Head (isParameter : Bool) (name : String) : List Char → List Char → Prop where
  | mk {space mark gap place : List Char} (hs : IsSpace space) (hne : space ≠ [])
      (hm : Mark isParameter mark) (hn : IsName name.toList) (hg : IsSpace gap)
      (hstop : StopsAt continuesName (gap ++ place)) :
      Head isParameter name (space ++ mark ++ name.toList ++ gap ++ place) place

inductive Written (d : EntityDeclaration) : List Char → Prop where
  | mk {behind text after : List Char} (hh : Head d.isParameter d.name behind (text ++ after))
      (hv : ValueText d.value text after) : Written d behind

/-- A declaration of an external entity with a quote in front of the identifiers that nothing
closes. -/
inductive Strayed (d : EntityDeclaration) : List Char → Prop where
  | mk {behind text after : List Char} {q : Char} (hq : q = '"' ∨ q = '\'')
      (hout : q ∉ text ++ after) (hh : Head d.isParameter d.name behind (q :: (text ++ after)))
      (hv : ExternalText d.value text after) : Strayed d behind

end Xml.Declarations

namespace Xml.Grammar

open Text

theorem Literal.readLiteral_append {value literal : List Char} (h : Literal value literal)
    (rest : List Char) : readLiteral (literal ++ rest) = (some value, rest) := by
  have hread := readQuoted?_eq_some_iff_literal.mpr
    ⟨literal, h, (rfl : literal ++ rest = literal ++ rest)⟩
  rw [readQuoted?] at hread
  split at hread
  · next hl =>
    cases hread
    exact hl
  · cases hread

theorem Literal.skipBlanks_append {value literal space : List Char} (h : Literal value literal)
    (hs : IsSpace space) (rest : List Char) :
    skipBlanks (space ++ (literal ++ rest)) = literal ++ rest :=
  Text.skipBlanks_append hs h.stopsAt

end Xml.Grammar

namespace Xml.Declarations

open Text Grammar List

variable {text rest after place : List Char} {value : EntityValue} {isParameter : Bool}
  {name : String} {d : EntityDeclaration}

/-! ## Values -/

theorem exists_literal_of_readLiteral {value : List Char}
    (h : readLiteral text = (some value, rest)) :
    ∃ literal, Literal value literal ∧ text = literal ++ rest :=
  readQuoted?_eq_some_iff_literal.mp (by rw [readQuoted?, h])

/-- Where there is no literal, nothing is passed but an opening quote that nothing closes. -/
theorem readLiteral_eq_none_iff :
    readLiteral text = (none, rest) ↔
      (rest = text ∧ ∀ q, q = '"' ∨ q = '\'' → text.head? ≠ some q) ∨
        ∃ q, (q = '"' ∨ q = '\'') ∧ text = q :: rest ∧ q ∉ rest := by
  cases text with
  | nil => simp [readLiteral, eq_comm]
  | cons c text =>
    rw [readLiteral]
    by_cases hquote : c = '"' ∨ c = '\''
    · rw [if_pos (by simpa using hquote)]
      cases hfound : breakOn [c] text with
      | none =>
        rw [breakOn_eq_none_iff (cons_ne_nil _ _), singleton_infix_iff] at hfound
        constructor
        · intro h
          cases h
          exact .inr ⟨c, hquote, rfl, hfound⟩
        · rintro (⟨rfl, hno⟩ | ⟨q, -, heq, -⟩)
          · exact absurd rfl (hno c hquote)
          · rw [(List.cons.inj heq).2]
      | some found =>
        obtain ⟨rfl, -⟩ := breakOn_singleton_iff.mp hfound
        constructor
        · intro h
          cases h
        · rintro (⟨rfl, hno⟩ | ⟨q, -, heq, hout⟩)
          · exact absurd rfl (hno c hquote)
          · obtain ⟨rfl, rfl⟩ := List.cons.inj heq
            exact absurd (mem_append_right _ mem_cons_self) hout
    · rw [if_neg (by simpa using hquote)]
      constructor
      · intro h
        cases h
        exact .inl ⟨rfl, fun q hq hhead => hquote (Option.some.inj hhead ▸ hq)⟩
      · rintro (⟨rfl, -⟩ | ⟨q, hq, heq, -⟩)
        · rfl
        · exact absurd ((List.cons.inj heq).1 ▸ hq) hquote

/-- What the text behind the identifiers makes of an external entity. -/
def externalValue (publicId : Option String) (systemId : String) (after : List Char) :
    EntityValue :=
  if "NDATA".toList <+: skipBlanks after then .unparsed else .external publicId systemId

theorem externalText_iff :
    ExternalText value text after ↔ ∃ publicId systemId, Identifiers publicId systemId text ∧
      value = externalValue publicId systemId after := by
  constructor
  · intro h
    cases h with
    | parsed h hn => exact ⟨_, _, h, (if_neg hn).symm⟩
    | unparsed h hn => exact ⟨_, _, h, (if_pos hn).symm⟩
  · rintro ⟨publicId, systemId, h, rfl⟩
    rw [externalValue]
    split
    · next hn => exact .unparsed h hn
    · next hn => exact .parsed h hn

theorem readSystemId_eq_ok_iff {publicId : Option String} :
    readSystemId name publicId text = (.ok value, rest) ↔
      ∃ id literal after, Literal id literal ∧ text = literal ++ after ∧ rest = skipBlanks after ∧
        value = externalValue publicId (String.ofList id) after := by
  constructor
  · intro h
    unfold readSystemId at h
    split at h
    · cases h
    · next id tail hl =>
      obtain ⟨literal, hlit, rfl⟩ := exists_literal_of_readLiteral hl
      refine ⟨id, literal, tail, hlit, rfl, ?_⟩
      dsimp only at h
      split at h
      · next found ha =>
        cases h
        exact ⟨rfl, (if_pos (after?_eq ha ▸ prefix_append _ _)).symm⟩
      · next ha =>
        cases h
        exact ⟨rfl, (if_neg (not_prefix_of_after?_eq_none ha)).symm⟩
  · rintro ⟨id, literal, after, hl, rfl, rfl, rfl⟩
    simp only [readSystemId, hl.readLiteral_append, externalValue]
    by_cases hn : "NDATA".toList <+: skipBlanks after
    · obtain ⟨tail, ht⟩ := hn
      rw [← ht, after?_append, if_pos (prefix_append _ _)]
    · rw [after?_eq_none hn, if_neg hn]

theorem exists_space_of_skipBlanks (h : skipBlanks text = place) :
    ∃ space, IsSpace space ∧ text = space ++ place := by
  obtain ⟨space, hs, htext, -⟩ := exists_space_append text
  exact ⟨space, hs, h ▸ htext⟩

/-- **The identifiers of an external entity**, where no literal is. -/
theorem readEntityValue_eq_ok_iff_of_none (h : readLiteral text = (none, place)) (name : String) :
    readEntityValue name text = (.ok value, rest) ↔
      ∃ ids after, ExternalText value ids after ∧ place = ids ++ after ∧
        rest = skipBlanks after := by
  simp only [readEntityValue, h, externalText_iff]
  constructor
  · intro hread
    split at hread
    · next tail ha =>
      obtain ⟨id, literal, after, hl, htail, rfl, rfl⟩ := readSystemId_eq_ok_iff.mp hread
      obtain ⟨space, hs, rfl⟩ := exists_space_of_skipBlanks htail
      exact ⟨_, after, ⟨_, _, .bySystem hs hl, rfl⟩, by rw [after?_eq ha]; simp, rfl⟩
    · split at hread
      · next tail ha =>
        split at hread
        · next publicId tail' hp =>
          obtain ⟨id, literal, after, hl, htail, rfl, rfl⟩ := readSystemId_eq_ok_iff.mp hread
          obtain ⟨between, hs, rfl⟩ := exists_space_of_skipBlanks htail
          obtain ⟨publicLiteral, hpl, hplace⟩ := exists_literal_of_readLiteral hp
          obtain ⟨before, hb, rfl⟩ := exists_space_of_skipBlanks hplace
          exact ⟨_, after, ⟨_, _, .byPublic hb hpl hs hl, rfl⟩, by rw [after?_eq ha]; simp, rfl⟩
        · cases hread
      · cases hread
  · rintro ⟨ids, after, ⟨publicId, systemId, hids, rfl⟩, rfl, rfl⟩
    cases hids with
    | @bySystem space id literal hs hl =>
      have hread : readSystemId name none (literal ++ after) =
          (.ok (externalValue none (String.ofList id) after), skipBlanks after) :=
        readSystemId_eq_ok_iff.mpr ⟨id, literal, after, hl, rfl, rfl, rfl⟩
      simp only [append_assoc, after?_append, hl.skipBlanks_append hs, hread]
    | @byPublic before between publicId publicLiteral systemId systemLiteral hb hp hs hl =>
      have hsystem : after? "SYSTEM".toList ("PUBLIC".toList ++
          (before ++ (publicLiteral ++ (between ++ (systemLiteral ++ after))))) = none :=
        after?_eq_none fun hpre => by cases (cons_prefix_cons.mp hpre).1
      have hread : readSystemId name (some (String.ofList publicId)) (systemLiteral ++ after) =
          (.ok (externalValue (some (String.ofList publicId)) (String.ofList systemId) after),
            skipBlanks after) :=
        readSystemId_eq_ok_iff.mpr ⟨systemId, systemLiteral, after, hl, rfl, rfl, rfl⟩
      simp only [append_assoc, hsystem, after?_append, hp.skipBlanks_append hb,
        hp.readLiteral_append,
        hl.skipBlanks_append hs, hread]

/-! ## Declarations -/

theorem StopsAt.mark {mark name : List Char} (hm : Mark isParameter mark) (hn : IsName name) :
    StopsAt isBlank (mark ++ (name ++ rest)) := by
  cases hm with
  | general =>
    obtain ⟨c, more, rfl, hc, -⟩ := hn
    exact stopsAt_cons.mpr (not_isBlank_of_startsName hc)
  | parameter hs => exact stopsAt_cons.mpr (by decide)

theorem readParameterMark_append {mark name : List Char} (hm : Mark isParameter mark)
    (hn : IsName name) :
    readParameterMark (mark ++ (name ++ rest)) = (isParameter, name ++ rest) := by
  obtain ⟨c, more, rfl, hc, -⟩ := hn
  cases hm with
  | general =>
    have hne : c ≠ '%' := by
      rintro rfl
      exact absurd hc (by decide)
    simp [readParameterMark, hne]
  | parameter hs =>
    exact congrArg (Prod.mk true)
      (skipBlanks_append hs (stopsAt_cons.mpr (not_isBlank_of_startsName hc)))

theorem exists_mark (text : List Char) :
    ∃ mark, Mark (readParameterMark text).1 mark ∧ text = mark ++ (readParameterMark text).2 := by
  unfold readParameterMark
  split
  · next rest =>
    obtain ⟨space, hs, hrest, -⟩ := exists_space_append rest
    exact ⟨'%' :: space, .parameter hs, congrArg ('%' :: ·) hrest⟩
  · exact ⟨[], .general, rfl⟩

/-- A text that begins with white space is some of it and the rest. -/
theorem exists_space_of_startsBlank (h : startsBlank text = true) :
    ∃ space, IsSpace space ∧ space ≠ [] ∧ text = space ++ skipBlanks text := by
  obtain ⟨space, hs, htext, hstop⟩ := exists_space_append text
  refine ⟨space, hs, ?_, htext⟩
  rintro rfl
  rw [nil_append] at htext
  rw [← htext] at hstop
  cases text with
  | nil => cases h
  | cons c text => exact absurd h (by simp [startsBlank, stopsAt_cons.mp hstop])

theorem Head.reads (h : Head isParameter name text place) (hp : StopsAt isBlank place) :
    startsBlank text = true ∧ ∃ tail,
      readParameterMark (skipBlanks text) = (isParameter, name.toList ++ tail) ∧
      readName? (name.toList ++ tail) = some (name.toList, tail) ∧ skipBlanks tail = place := by
  cases h with
  | @mk space mark gap place hs hne hm hn hg hstop =>
    simp only [append_assoc]
    refine ⟨?_, gap ++ place, ?_, readName?_eq_some_iff.mpr ⟨rfl, hn, hstop⟩,
      skipBlanks_append hg hp⟩
    · cases space with
      | nil => exact absurd rfl hne
      | cons c space => exact hs c mem_cons_self
    · rw [skipBlanks_append hs (StopsAt.mark hm hn), readParameterMark_append hm hn]

theorem Head.readEntity (h : Head isParameter name text place) (hp : StopsAt isBlank place) :
    readEntity text = ((readEntityValue name place).1.map fun value => ⟨name, value, isParameter⟩,
      (readEntityValue name place).2) := by
  obtain ⟨hblank, tail, hmark, hname, rfl⟩ := h.reads hp
  simp only [Declarations.readEntity, hblank, if_true, hmark, hname, String.ofList_toList]

theorem Head.place_unique {other : List Char} (h : Head isParameter name text place)
    (h' : Head isParameter name text other) (hp : StopsAt isBlank place)
    (hp' : StopsAt isBlank other) : place = other := by
  obtain ⟨-, tail, hmark, -, rfl⟩ := h.reads hp
  obtain ⟨-, tail', hmark', -, rfl⟩ := h'.reads hp'
  rw [hmark] at hmark'
  rw [append_cancel_left (Prod.mk.inj hmark').2]

theorem exists_head_of_readEntity (h : readEntity text = (.ok d, rest)) :
    ∃ place, Head d.isParameter d.name text place ∧ StopsAt isBlank place ∧
      readEntityValue d.name place = (.ok d.value, rest) := by
  unfold Declarations.readEntity at h
  split at h
  · next hblank =>
    obtain ⟨space, hs, hne, htext⟩ := exists_space_of_startsBlank hblank
    obtain ⟨mark, hm, hmark⟩ := exists_mark (skipBlanks text)
    dsimp only at h
    split at h
    · cases h
    · next name tail hname =>
      obtain ⟨heq, hn, hstop⟩ := readName?_eq_some_iff.mp hname
      obtain ⟨gap, hg, htail, hplace⟩ := exists_space_append tail
      obtain ⟨⟨found, rest'⟩, hread⟩ : ∃ found, readEntityValue (String.ofList name)
        (skipBlanks tail) = found := ⟨_, rfl⟩
      rw [hread] at h
      cases found with
      | error problem => cases h
      | ok value =>
        cases h
        refine ⟨skipBlanks tail, ?_, hplace, hread⟩
        have hhead : Head _ (String.ofList name)
            (space ++ mark ++ (String.ofList name).toList ++ gap ++ skipBlanks tail) _ :=
          .mk hs hne hm (by rwa [String.toList_ofList]) hg (htail ▸ hstop)
        rw [String.toList_ofList, append_assoc _ gap, ← htail, append_assoc _ name, ← heq,
          append_assoc, ← hmark, ← htext] at hhead
        exact hhead
  · cases h

theorem ExternalText.exists_cons (h : ExternalText value text after) :
    ∃ c more, text = c :: more ∧ (c = 'S' ∨ c = 'P') := by
  obtain ⟨publicId, systemId, hids, -⟩ := externalText_iff.mp h
  cases hids with
  | bySystem => exact ⟨'S', _, rfl, .inl rfl⟩
  | byPublic => exact ⟨'P', _, rfl, .inr rfl⟩

theorem ExternalText.readLiteral_eq (h : ExternalText value text after) :
    readLiteral (text ++ after) = (none, text ++ after) := by
  obtain ⟨c, more, rfl, hc⟩ := h.exists_cons
  refine readLiteral_eq_none_iff.mpr (.inl ⟨rfl, fun q hq hhead => ?_⟩)
  cases hhead
  rcases hc with rfl | rfl <;> simp at hq

theorem ValueText.stopsAt (h : ValueText value text after) : StopsAt isBlank (text ++ after) := by
  cases h with
  | internal h => exact h.stopsAt
  | external h =>
    obtain ⟨c, more, rfl, hc⟩ := h.exists_cons
    exact stopsAt_cons.mpr (by rcases hc with rfl | rfl <;> decide)

/-- A value is read, and white space behind the identifiers of an external entity with it. -/
theorem ValueText.readEntityValue (h : ValueText value text after) (name : String) :
    ∃ rest, readEntityValue name (text ++ after) = (.ok value, rest) ∧
      (rest = after ∨ rest = skipBlanks after) := by
  cases h with
  | internal h =>
    refine ⟨after, ?_, .inl rfl⟩
    simp only [Declarations.readEntityValue, h.readLiteral_append]
  | external h =>
    exact ⟨_, (readEntityValue_eq_ok_iff_of_none h.readLiteral_eq name).mpr ⟨text, after, h, rfl, rfl⟩,
      .inr rfl⟩

/-- **A declaration that is written out is read.** -/
theorem Written.readEntity {behind : List Char}
    (hh : Head d.isParameter d.name behind (text ++ after)) (hv : ValueText d.value text after) :
    ∃ rest, readEntity behind = (.ok d, rest) ∧ (rest = after ∨ rest = skipBlanks after) := by
  obtain ⟨rest, hread, hrest⟩ := hv.readEntityValue d.name
  exact ⟨rest, by rw [hh.readEntity hv.stopsAt, hread]; rfl, hrest⟩

theorem stopsAt_quote {q : Char} (hq : q = '"' ∨ q = '\'') (rest : List Char) :
    StopsAt isBlank (q :: rest) :=
  stopsAt_cons.mpr (by rcases hq with rfl | rfl <;> decide)

/-- **What is read as a declaration of an entity.** -/
theorem readEntity_eq_ok_iff : (readEntity text).1 = .ok d ↔ Written d text ∨ Strayed d text := by
  constructor
  · intro h
    obtain ⟨rest, hread⟩ : ∃ rest, Declarations.readEntity text = (.ok d, rest) :=
      ⟨_, Prod.ext h rfl⟩
    obtain ⟨place, hh, hplace, hvalue⟩ := exists_head_of_readEntity hread
    cases hl : readLiteral place with
    | mk found tail =>
      cases found with
      | some value =>
        obtain ⟨literal, hlit, rfl⟩ := exists_literal_of_readLiteral hl
        simp only [Declarations.readEntityValue, hl] at hvalue
        have hd := Except.ok.inj (Prod.mk.inj hvalue).1
        exact .inl (.mk hh (hd ▸ .internal hlit))
      | none =>
        obtain ⟨ids, after, hext, rfl, -⟩ := (readEntityValue_eq_ok_iff_of_none hl _).mp hvalue
        rcases readLiteral_eq_none_iff.mp hl with ⟨rfl, -⟩ | ⟨q, hq, rfl, hout⟩
        · exact .inl (.mk hh (.external hext))
        · exact .inr (.mk hq hout hh hext)
  · rintro (⟨hh, hv⟩ | ⟨hq, hout, hh, hv⟩)
    · obtain ⟨rest, hread, -⟩ := Written.readEntity hh hv
      rw [hread]
    · have hl := readLiteral_eq_none_iff.mpr (.inr ⟨_, hq, rfl, hout⟩)
      have hvalue := (readEntityValue_eq_ok_iff_of_none hl d.name).mpr ⟨_, _, hv, rfl, rfl⟩
      rw [hh.readEntity (stopsAt_quote hq _), hvalue]
      rfl

theorem Strayed.not_written (h : Strayed d text) : ¬ Written d text := by
  rintro ⟨hh, hv⟩
  obtain ⟨hq, hout, hh', -⟩ := h
  have hplace := hh.place_unique hh' hv.stopsAt (stopsAt_quote hq _)
  generalize d.value = value at hv
  cases hv with
  | internal hl =>
    cases hl with
    | mk hq' _ =>
      obtain ⟨rfl, htail⟩ := List.cons.inj hplace
      rw [← htail] at hout
      simp at hout
  | external hext =>
    obtain ⟨c, more, rfl, hc⟩ := hext.exists_cons
    obtain ⟨rfl, -⟩ := List.cons.inj hplace
    rcases hc with rfl | rfl <;> simp at hq

end Xml.Declarations

namespace Xml

/-! ## Tables -/

namespace EntityTable

/-- The entity of a name, among the parameter entities or among the general ones. -/
def entity? (table : EntityTable) (isParameter : Bool) (name : String) : Option EntityValue :=
  (if isParameter then table.parameter else table.general).lookup name

theorem entity?_empty (isParameter : Bool) (name : String) :
    ({} : EntityTable).entity? isParameter name = none := by
  cases isParameter <;> rfl

theorem lookup_insertNew (entries : List (String × EntityValue)) (name : String)
    (value : EntityValue) (other : String) :
    (insertNew entries name value).lookup other =
      (entries.lookup other).or (if name = other then some value else none) := by
  rw [insertNew]
  split
  · next hsome =>
    by_cases hother : name = other
    · obtain ⟨found, hfound⟩ := Option.isSome_iff_exists.mp (hother ▸ hsome)
      rw [hfound, Option.some_or]
    · rw [if_neg hother, Option.or_none]
  · rw [List.lookup_append, List.lookup_cons]
    by_cases hother : name = other
    · simp [hother]
    · simp [hother, beq_eq_false_iff_ne.mpr (Ne.symm hother)]

theorem entity?_declare (table : EntityTable) (d : EntityDeclaration) (isParameter : Bool)
    (name : String) :
    (table.declare d.name d.value d.isParameter).entity? isParameter name =
      (table.entity? isParameter name).or
        (if d.isParameter = isParameter ∧ d.name = name then some d.value else none) := by
  obtain ⟨dname, dvalue, dparameter⟩ := d
  cases dparameter <;> cases isParameter <;> simp [declare, entity?, lookup_insertNew]

end EntityTable

namespace Declarations

open Text

variable {value : EntityValue} {isParameter : Bool} {name : String} {r : Reading}

/-- Somewhere in the text a declaration of the entity is read. -/
def Declares (text : List Char) (d : EntityDeclaration) : Prop :=
  ∃ before behind, text = before ++ "<!ENTITY".toList ++ behind ∧ (readEntity behind).1 = .ok d

theorem Declares.of_suffix {text tail : List Char} {d : EntityDeclaration} (h : Declares tail d)
    (hs : tail <:+ text) : Declares text d := by
  obtain ⟨front, rfl⟩ := hs
  obtain ⟨before, behind, rfl, hread⟩ := h
  exact ⟨front ++ before, behind, by simp, hread⟩

theorem Reading.entity?_add {found : Except DeclarationProblem EntityDeclaration}
    (h : (r.add found).table.entity? isParameter name = some value) :
    r.table.entity? isParameter name = some value ∨ found = .ok ⟨name, value, isParameter⟩ := by
  cases found with
  | error problem => exact .inl h
  | ok d =>
    rw [Reading.add, EntityTable.entity?_declare, Option.or_eq_some_iff] at h
    rcases h with h | ⟨-, h⟩
    · exact .inl h
    · split at h
      · next hd =>
        obtain ⟨dname, dvalue, dparameter⟩ := d
        obtain ⟨rfl, rfl⟩ := hd
        cases h
        exact .inr rfl
      · cases h

/-- **Where an entity of a table comes from.** -/
theorem entity?_readFrom {text : List Char}
    (h : (readFrom r text).table.entity? isParameter name = some value) :
    r.table.entity? isParameter name = some value ∨ Declares text ⟨name, value, isParameter⟩ := by
  fun_induction readFrom r text with
  | case1 r => exact .inl h
  | case2 r c rest inside hc before tail hb _ _ ih =>
    exact (ih h).imp_right fun hd => hd.of_suffix ((breakOn_suffix hb).trans (after?_suffix hc))
  | case3 r c rest inside hc hb => exact .inl h
  | case4 r c rest hc inside hp before tail hb _ ih =>
    exact (ih h).imp_right fun hd => hd.of_suffix (breakOn_suffix hb)
  | case5 r c rest hc inside hp hb => exact .inl h
  | case6 r c rest hc hp inside he _ _ _ ih =>
    have hinside : c :: rest = [] ++ "<!ENTITY".toList ++ inside := after?_eq he
    rcases ih h with hadd | hd
    · rcases Reading.entity?_add hadd with hr | hread
      · exact .inl hr
      · exact .inr ⟨[], inside, hinside, hread⟩
    · refine .inr (hd.of_suffix ?_)
      exact (skipDeclaration_suffix _).trans ((readEntity_suffix inside).trans (after?_suffix he))
  | case7 r c rest hc hp he tail ht _ ih =>
    exact (ih h).imp_right fun hd =>
      hd.of_suffix ((skipDeclaration_cons_suffix c rest).trans (List.suffix_cons c rest))
  | case8 r c rest hc hp he ht ih =>
    exact (ih h).imp_right fun hd => hd.of_suffix (List.suffix_cons c rest)

theorem Reading.entity?_add_of_eq_some (h : r.table.entity? isParameter name = some value)
    (found : Except DeclarationProblem EntityDeclaration) :
    (r.add found).table.entity? isParameter name = some value := by
  cases found with
  | error problem => exact h
  | ok d => rw [Reading.add, EntityTable.entity?_declare, h, Option.some_or]

theorem entity?_readFrom_of_eq_some (h : r.table.entity? isParameter name = some value)
    (text : List Char) : (readFrom r text).table.entity? isParameter name = some value := by
  fun_induction readFrom r text with
  | case1 => exact h
  | case2 _ _ _ _ _ _ _ _ _ _ ih => exact ih h
  | case3 => exact h
  | case4 _ _ _ _ _ _ _ _ _ _ ih => exact ih h
  | case5 => exact h
  | case6 _ _ _ _ _ inside _ _ _ _ ih => exact ih (Reading.entity?_add_of_eq_some h _)
  | case7 _ _ _ _ _ _ _ _ _ ih => exact ih h
  | case8 _ _ _ _ _ _ _ ih => exact ih h

theorem readFrom_entity (r : Reading) (behind : List Char) :
    readFrom r ("<!ENTITY".toList ++ behind) =
      readFrom (r.add (readEntity behind).1) (skipDeclaration (readEntity behind).2) := by
  have hcomment : after? "<!--".toList ('<' :: ("!ENTITY".toList ++ behind)) = none :=
    after?_eq_none fun h => by simp at h
  have hinstruction : after? "<?".toList ('<' :: ("!ENTITY".toList ++ behind)) = none :=
    after?_eq_none fun h => by simp at h
  have hentity : after? "<!ENTITY".toList ('<' :: ("!ENTITY".toList ++ behind)) = some behind :=
    after?_append "<!ENTITY".toList behind
  have htext : "<!ENTITY".toList ++ behind = '<' :: ("!ENTITY".toList ++ behind) := rfl
  rw [htext, readFrom_cons]
  simp only [hcomment, hinstruction, hentity]

end Declarations

open Declarations

/-- **Where the entities of a text come from.** Every entity that is in the table after a text was
read into an empty one stands in the text behind a `<!ENTITY`, either written out, with the value that
was recorded, or as an external entity with an opening quote in front of its identifiers that nothing
closes. What strays like that is not written out, and an entity whose declaration strays at the front
of a text is declared all the same. -/
theorem declared_entity_was_written (text : List Char) (d : EntityDeclaration) :
    ((readDeclarations text {}).1.entity? d.isParameter d.name = some d.value →
        ∃ before behind, text = before ++ "<!ENTITY".toList ++ behind ∧
          (Written d behind ∨ Strayed d behind)) ∧
      (Strayed d text →
        ¬ Written d text ∧
        (readDeclarations ("<!ENTITY".toList ++ text) {}).1.entity? d.isParameter d.name =
          some d.value) := by
  constructor
  · intro h
    rcases entity?_readFrom h with hempty | ⟨before, behind, htext, hread⟩
    · rw [EntityTable.entity?_empty] at hempty
      cases hempty
    · exact ⟨before, behind, htext, readEntity_eq_ok_iff.mp hread⟩
  · intro h
    refine ⟨h.not_written, ?_⟩
    have hread := readEntity_eq_ok_iff.mpr (.inr h)
    rw [readDeclarations, readFrom_entity, hread]
    refine entity?_readFrom_of_eq_some ?_ _
    rw [Reading.add, EntityTable.entity?_declare, if_pos ⟨rfl, rfl⟩, EntityTable.entity?_empty,
      Option.none_or]

/-- An opening quote in front of the identifiers of an external entity. -/
def strayText : List Char :=
  " e \"SYSTEM 'x'>".toList

theorem entity_declared_behind_stray_quote :
    Strayed ⟨"e", .external none "x", false⟩ strayText ∧
      ¬ Written ⟨"e", .external none "x", false⟩ strayText ∧
      (readDeclarations ("<!ENTITY".toList ++ strayText) {}).1.entity? false "e" =
        some (.external none "x") := by
  have hliteral : Grammar.Literal ['x'] ['\'', 'x', '\''] := .mk (.inr rfl) (by decide)
  have hids : Identifiers none (String.ofList ['x']) ("SYSTEM".toList ++ [' '] ++ _) :=
    .bySystem (fun c hc => List.mem_singleton.mp hc ▸ rfl) hliteral
  have hvalue : ExternalText (.external none "x") "SYSTEM 'x'".toList ['>'] :=
    .parsed hids (by decide)
  have hhead : Head false "e" ([' '] ++ [] ++ "e".toList ++ [' '] ++ _)
      ('"' :: ("SYSTEM 'x'".toList ++ ['>'])) :=
    .mk (fun c hc => List.mem_singleton.mp hc ▸ rfl) (by decide) .general
      ⟨'e', [], rfl, rfl, nofun⟩ (fun c hc => List.mem_singleton.mp hc ▸ rfl)
      (Text.stopsAt_cons.mpr rfl)
  have hstray : Strayed ⟨"e", .external none "x", false⟩ strayText :=
    .mk (.inl rfl) (by decide) hhead hvalue
  exact ⟨hstray, (declared_entity_was_written _ _).2 hstray⟩

end Xml
