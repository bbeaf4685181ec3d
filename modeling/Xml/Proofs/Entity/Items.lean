import Xml.Proofs.Entity.Written

/-!
# Whole subsets

What may stand in an internal subset, said by rules that build its text from items and list the
entities the items declare. Two loops go over such a text: one looks for the `]` behind it, the other
reads the declarations. Both pass each item whole, with the brackets, quotes and declarations that
stand inside of literals, comments and instructions.

* `Items` — the texts, with the entities they declare
* `subset_read_whole` — what the two loops make of them
-/

namespace Xml

open List

variable {text subset keyword : List Char} {c : Char} {ds : List EntityDeclaration}

namespace Declarations

open Text Grammar

/-! ## Texts of subsets -/

/-- Text inside of a declaration: complete literals, and characters other than quotes, `<`, `>` and
`]`. -/
inductive Body : List Char → Prop where
  | nil : Body []
  | plain {c : Char} {body : List Char} (hc : c ∉ ['"', '\'', '<', '>', ']']) (hb : Body body) :
      Body (c :: body)
  | literal {value literal body : List Char} (hl : Literal value literal) (hb : Body body) :
      Body (literal ++ body)

/-- What stands behind the name of an entity, and the value it gives. An external entity with a
notation is unparsed. -/
inductive Definition : EntityValue → List Char → Prop where
  | internal {value literal : List Char} (h : Literal value literal) :
      Definition (.internal (String.ofList (expandCharRefs value))) literal
  | external {publicId : Option String} {systemId : String} {text : List Char}
      (h : Identifiers publicId systemId text) : Definition (.external publicId systemId) text
  | unparsed {publicId : Option String} {systemId : String} {text before after format : List Char}
      (h : Identifiers publicId systemId text) (hb : IsSpace before) (ha : IsSpace after)
      (hf : IsName format) :
      Definition .unparsed (text ++ before ++ "NDATA".toList ++ after ++ format)

/-- A declaration of an entity, between its keyword and its `>`. -/
inductive EntityText (d : EntityDeclaration) : List Char → Prop where
  | mk {space mark gap text after : List Char} (hs : IsSpace space) (hne : space ≠ [])
      (hm : Mark d.isParameter mark) (hn : IsName d.name.toList) (hg : IsSpace gap) (hgap : gap ≠ [])
      (hd : Definition d.value text) (ha : IsSpace after) :
      EntityText d (space ++ mark ++ d.name.toList ++ gap ++ text ++ after)

/-- The keywords of the declarations that are passed over. -/
def otherKeywords : List (List Char) :=
  ["ELEMENT".toList, "ATTLIST".toList, "NOTATION".toList]

/-- One item of a subset and what it declares. -/
inductive Item : List EntityDeclaration → List Char → Prop where
  | blank {c : Char} (hc : isBlank c = true) : Item [] [c]
  | comment {text : List Char} (h : ¬ "-->".toList <:+: text) :
      Item [] ("<!--".toList ++ text ++ "-->".toList)
  | instruction {target data : List Char} (hn : IsName target)
      (h : ¬ "?>".toList <:+: target ++ data) :
      Item [] ("<?".toList ++ (target ++ data) ++ "?>".toList)
  | reference {name : List Char} (hn : IsName name) : Item [] ('%' :: name ++ [';'])
  | declaration {keyword body : List Char} (hk : keyword ∈ otherKeywords) (hb : Body body) :
      Item [] ("<!".toList ++ (keyword ++ body) ++ ['>'])
  | entity {d : EntityDeclaration} {text : List Char} (h : EntityText d text) :
      Item [d] ("<!ENTITY".toList ++ text ++ ['>'])

/-- **A subset**: items one after the other, and what they declare in this order. -/
inductive Items : List EntityDeclaration → List Char → Prop where
  | nil : Items [] []
  | cons {ds more : List EntityDeclaration} {text rest : List Char} (h : Item ds text)
      (hr : Items more rest) : Items (ds ++ more) (text ++ rest)

/-! ## Bodies -/

theorem Body.of_forall (h : ∀ c ∈ text, c ∉ ['"', '\'', '<', '>', ']']) : Body text := by
  induction text with
  | nil => exact .nil
  | cons c text ih =>
    exact .plain (h c mem_cons_self) (ih fun x hx => h x (mem_cons_of_mem c hx))

theorem Body.of_all (h : text.all (fun c => !(['"', '\'', '<', '>', ']'].contains c)) = true) :
    Body text := by
  refine .of_forall fun c hc hmem => ?_
  have hno := all_eq_true.mp h c hc
  rw [contains_iff_mem.mpr hmem] at hno
  cases hno

theorem Body.append {body more : List Char} (hb : Body body) (hm : Body more) :
    Body (body ++ more) := by
  induction hb with
  | nil => exact hm
  | plain hc _ ih => exact .plain hc ih
  | literal hl _ ih =>
    rw [append_assoc]
    exact .literal hl ih

theorem Body.of_literal {value literal : List Char} (h : Literal value literal) : Body literal :=
  append_nil literal ▸ .literal h .nil

theorem Body.of_space {space : List Char} (h : IsSpace space) : Body space := by
  have hno : ['"', '\'', '<', '>', ']'].any isBlank = false := by decide
  exact .of_forall fun c hc hmem => any_eq_false.mp hno c hmem (h c hc)

theorem Body.of_name {name : List Char} (h : IsName name) : Body name := by
  have hstarts : ['"', '\'', '<', '>', ']'].any startsName = false := by decide
  have hcontinues : ['"', '\'', '<', '>', ']'].any continuesName = false := by decide
  obtain ⟨c, more, rfl, hc, hmore⟩ := h
  refine .plain (fun hmem => any_eq_false.mp hstarts c hmem hc) ?_
  exact .of_forall fun x hx hmem => any_eq_false.mp hcontinues x hmem (hmore x hx)

theorem Mark.body {isParameter : Bool} {mark : List Char} (h : Mark isParameter mark) :
    Body mark := by
  cases h with
  | general => exact .nil
  | parameter hs => exact .plain (by decide) (.of_space hs)

theorem Identifiers.body {publicId : Option String} {systemId : String}
    (h : Identifiers publicId systemId text) : Body text := by
  cases h with
  | bySystem hs hl =>
    have hword : Body "SYSTEM".toList := .of_all (by decide)
    exact (hword.append (.of_space hs)).append (.of_literal hl)
  | byPublic hb hp hs hl =>
    have hword : Body "PUBLIC".toList := .of_all (by decide)
    exact (((hword.append (.of_space hb)).append (.of_literal hp)).append (.of_space hs)).append
      (.of_literal hl)

theorem Definition.body {value : EntityValue} (h : Definition value text) : Body text := by
  cases h with
  | internal hl => exact .of_literal hl
  | external hids => exact hids.body
  | unparsed hids hb ha hf =>
    have hword : Body "NDATA".toList := .of_all (by decide)
    exact (((hids.body.append (.of_space hb)).append hword).append (.of_space ha)).append
      (.of_name hf)

theorem EntityText.body {d : EntityDeclaration} (h : EntityText d text) : Body text := by
  cases h with
  | mk hs _ hm hn hg _ hd ha =>
    exact (((((Body.of_space hs).append hm.body).append (.of_name hn)).append (.of_space hg)).append
      hd.body).append (.of_space ha)

/-! ## The end of a declaration -/

theorem skipDeclaration_end (rest : List Char) : skipDeclaration ('>' :: rest) = rest := by
  rw [skipDeclaration, if_pos (by decide)]

theorem skipDeclaration_plain (hc : c ∉ ['"', '\'', '>']) (rest : List Char) :
    skipDeclaration (c :: rest) = skipDeclaration rest := by
  simp only [mem_cons, not_mem_nil, or_false, not_or] at hc
  rw [skipDeclaration, if_neg (by simpa using hc.2.2), if_neg (by simpa using ⟨hc.1, hc.2.1⟩)]

theorem skipDeclaration_literal {value literal : List Char} (h : Literal value literal)
    (rest : List Char) : skipDeclaration (literal ++ rest) = skipDeclaration rest := by
  cases h with
  | @mk q hq hv =>
    have hb : breakOn [q] (value ++ [q] ++ rest) = some (value, rest) :=
      breakOn_singleton_iff.mpr ⟨by simp, hv⟩
    have hend : ¬ (q == '>') = true := by rcases hq with rfl | rfl <;> decide
    rw [cons_append, cons_append, skipDeclaration, if_neg hend,
      if_pos (by simpa using hq)]
    split
    · next hfound =>
      rw [hb] at hfound
      cases hfound
      rfl
    · next hfound =>
      rw [hb] at hfound
      cases hfound

theorem Body.skipDeclaration_append {body : List Char} (h : Body body) (rest : List Char) :
    skipDeclaration (body ++ rest) = skipDeclaration rest := by
  induction h with
  | nil => rfl
  | plain hc _ ih =>
    have hsub : ['"', '\'', '>'] ⊆ ['"', '\'', '<', '>', ']'] := by decide
    rw [cons_append, skipDeclaration_plain (fun hmem => hc (hsub hmem)), ih]
  | literal hl _ ih => rw [append_assoc, skipDeclaration_literal hl, ih]

theorem skipDeclaration_skipBlanks (text : List Char) :
    skipDeclaration (skipBlanks text) = skipDeclaration text := by
  obtain ⟨space, hs, htext, -⟩ := exists_space_append text
  conv_rhs => rw [htext, (Body.of_space hs).skipDeclaration_append]

/-! ## The end of the subset -/

theorem IsSubset.plain (hc : c ∉ ['"', '\'', '<', ']']) (h : IsSubset subset) :
    IsSubset (c :: subset) := by
  intro rest
  simp only [mem_cons, not_mem_nil, or_false, not_or] at hc
  have hmark (mark : List Char) : after? ('<' :: mark) (c :: (subset ++ ']' :: rest)) = none :=
    after?_eq_none fun hp => hc.2.2.1 (cons_prefix_cons.mp hp).1.symm
  have hcomment : after? "<!--".toList (c :: (subset ++ ']' :: rest)) = none := hmark _
  have hinstruction : after? "<?".toList (c :: (subset ++ ']' :: rest)) = none := hmark _
  rw [cons_append, subsetEnd?_cons, if_neg (by simpa using hc.2.2.2),
    if_neg (by simpa using ⟨hc.1, hc.2.1⟩)]
  simp only [hcomment, hinstruction]
  exact h rest

theorem IsSubset.body {body : List Char} (hb : Body body) (h : IsSubset subset) :
    IsSubset (body ++ subset) := by
  induction hb with
  | nil => exact h
  | plain hc _ ih =>
    have hsub : ['"', '\'', '<', ']'] ⊆ ['"', '\'', '<', '>', ']'] := by decide
    exact ih.plain fun hmem => hc (hsub hmem)
  | literal hl _ ih =>
    cases hl with
    | mk hq hv =>
      have hlit := ih.literal hq hv
      simpa using hlit

theorem IsSubset.declaration {body : List Char} (hc : c ≠ '-') (hb : Body (c :: body))
    (h : IsSubset subset) : IsSubset ("<!".toList ++ (c :: body) ++ ['>'] ++ subset) := by
  have hclose : IsSubset ('>' :: subset) := h.plain (by decide)
  have hbody : IsSubset ('!' :: (c :: body ++ '>' :: subset)) := (hclose.body hb).plain (by decide)
  intro rest
  have hcomment : after? "<!--".toList ('<' :: '!' :: c :: (body ++ '>' :: subset ++ ']' :: rest)) =
      none := after?_eq_none fun hp => hc (by simp at hp; exact hp.1.symm)
  have hinstruction : after? "<?".toList ('<' :: '!' :: c :: (body ++ '>' :: subset ++ ']' :: rest)) =
      none := after?_eq_none fun hp => by simp at hp
  have htext : "<!".toList ++ (c :: body) ++ ['>'] ++ subset ++ ']' :: rest =
      '<' :: '!' :: c :: (body ++ '>' :: subset ++ ']' :: rest) := by simp
  rw [htext, subsetEnd?_cons, if_neg (by decide), if_neg (by decide)]
  simp only [hcomment, hinstruction]
  exact hbody rest

theorem exists_cons_of_otherKeywords (h : keyword ∈ otherKeywords) :
    ∃ c more, keyword = c :: more ∧ c ≠ '-' := by
  simp only [otherKeywords, mem_cons, not_mem_nil, or_false] at h
  rcases h with rfl | rfl | rfl
  · exact ⟨'E', _, rfl, by decide⟩
  · exact ⟨'A', _, rfl, by decide⟩
  · exact ⟨'N', _, rfl, by decide⟩

theorem Body.of_otherKeywords (h : keyword ∈ otherKeywords) : Body keyword := by
  have hplain : otherKeywords.all (fun keyword =>
      keyword.all fun c => !(['"', '\'', '<', '>', ']'].contains c)) = true := by decide
  exact .of_all (all_eq_true.mp hplain keyword h)

theorem Item.isSubset (h : Item ds text) (hs : IsSubset subset) : IsSubset (text ++ subset) := by
  cases h with
  | blank hc => exact hs.body (.of_space fun x hx => mem_singleton.mp hx ▸ hc)
  | comment h => exact hs.comment h
  | instruction _ h => exact hs.instruction h
  | reference hn =>
    have hbody : Body ('%' :: _ ++ [';']) :=
      .plain (by decide) ((Body.of_name hn).append (.plain (by decide) .nil))
    exact hs.body hbody
  | declaration hk hb =>
    have hbody := (Body.of_otherKeywords hk).append hb
    obtain ⟨c, more, rfl, hc⟩ := exists_cons_of_otherKeywords hk
    exact hs.declaration hc hbody
  | @entity d text h =>
    have hword : Body "ENTITY".toList := .of_all (by decide)
    have hsubset : IsSubset ("<!".toList ++ ("ENTITY".toList ++ text) ++ ['>'] ++ subset) :=
      hs.declaration (by decide) (hword.append h.body)
    exact hsubset

theorem Items.isSubset (h : Items ds text) : IsSubset text := by
  induction h with
  | nil => exact isSubset_nil
  | cons h _ ih => exact h.isSubset ih

/-! ## The declarations -/

/-- What reading has when these declarations were found. -/
def Reading.addAll (r : Reading) (ds : List EntityDeclaration) : Reading :=
  ds.foldl (fun r d => r.add (.ok d)) r

theorem Reading.problems_addAll (r : Reading) (ds : List EntityDeclaration) :
    (r.addAll ds).problems = r.problems := by
  induction ds generalizing r with
  | nil => rfl
  | cons d ds ih => exact ih (r.add (.ok d))

/-- The first declaration of a name counts, and what was declared before comes first. -/
theorem Reading.entity?_addAll (r : Reading) (ds : List EntityDeclaration) (isParameter : Bool)
    (name : String) :
    (r.addAll ds).table.entity? isParameter name =
      (r.table.entity? isParameter name).or
        ((ds.find? fun d => d.isParameter = isParameter ∧ d.name = name).map (·.value)) := by
  induction ds generalizing r with
  | nil => exact Option.or_none.symm
  | cons d ds ih =>
    have hadd : (r.addAll (d :: ds)) = (r.add (.ok d)).addAll ds := rfl
    rw [hadd, ih, Reading.add, EntityTable.entity?_declare, Option.or_assoc, find?_cons]
    by_cases hd : d.isParameter = isParameter ∧ d.name = name
    · simp [hd]
    · simp [hd]

theorem readFrom_plain (hc : c ≠ '<') (r : Reading) (rest : List Char) :
    readFrom r (c :: rest) = readFrom r rest := by
  have hmark (mark : List Char) : after? ('<' :: mark) (c :: rest) = none :=
    after?_eq_none fun hp => hc (cons_prefix_cons.mp hp).1.symm
  have hcomment : after? "<!--".toList (c :: rest) = none := hmark _
  have hinstruction : after? "<?".toList (c :: rest) = none := hmark _
  have hentity : after? "<!ENTITY".toList (c :: rest) = none := hmark _
  have hother : after? "<!".toList (c :: rest) = none := hmark _
  rw [readFrom_cons]
  simp only [hcomment, hinstruction, hentity, hother]

theorem readFrom_append_of_not_mem (h : '<' ∉ text) (r : Reading) (rest : List Char) :
    readFrom r (text ++ rest) = readFrom r rest := by
  induction text with
  | nil => rfl
  | cons c text ih =>
    rw [mem_cons, not_or] at h
    rw [cons_append, readFrom_plain (Ne.symm h.1), ih h.2]

theorem readFrom_comment (h : ¬ "-->".toList <:+: text) (r : Reading) (rest : List Char) :
    readFrom r ("<!--".toList ++ text ++ "-->".toList ++ rest) = readFrom r rest := by
  have hcomment : after? "<!--".toList ('<' :: ("!--".toList ++ (text ++ "-->".toList ++ rest))) =
      some (text ++ "-->".toList ++ rest) := after?_append _ _
  have hb : breakOn "-->".toList (text ++ "-->".toList ++ rest) = some (text, rest) :=
    breakOn_append (by decide) (by decide) h _
  have htext : "<!--".toList ++ text ++ "-->".toList ++ rest =
      '<' :: ("!--".toList ++ (text ++ "-->".toList ++ rest)) := by
    simp only [append_assoc]
    rfl
  rw [htext, readFrom_cons]
  simp only [hcomment, hb]

/-- Reading looks for the end of an instruction from its `<?` on, so the name behind it is needed:
in `<?>` the end would be there already. -/
theorem readFrom_instruction {target data : List Char} (hn : IsName target)
    (h : ¬ "?>".toList <:+: target ++ data) (r : Reading) (rest : List Char) :
    readFrom r ("<?".toList ++ (target ++ data) ++ "?>".toList ++ rest) = readFrom r rest := by
  obtain ⟨c, more, rfl, hc, -⟩ := hn
  have hout : ¬ "?>".toList <:+: "<?".toList ++ (c :: more ++ data) := by
    have hne : c ≠ '>' := by
      rintro rfl
      exact absurd hc (by decide)
    simpa [infix_cons_iff, hne.symm] using h
  have hb : breakOn "?>".toList ("<?".toList ++ (c :: more ++ data) ++ "?>".toList ++ rest) =
      some ("<?".toList ++ (c :: more ++ data), rest) :=
    breakOn_append (by decide) (by decide) hout _
  have hcomment : after? "<!--".toList
      ("<?".toList ++ (c :: more ++ data) ++ "?>".toList ++ rest) = none :=
    after?_eq_none fun hp => by simp at hp
  have hinstruction : after? "<?".toList
      ("<?".toList ++ (c :: more ++ data) ++ "?>".toList ++ rest) =
        some ((c :: more ++ data) ++ "?>".toList ++ rest) := by
    rw [append_assoc, append_assoc, after?_append, ← append_assoc]
  have htext : "<?".toList ++ (c :: more ++ data) ++ "?>".toList ++ rest =
      '<' :: ('?' :: (c :: more ++ data) ++ "?>".toList ++ rest) := rfl
  rw [htext] at hb hcomment hinstruction ⊢
  rw [readFrom_cons]
  simp only [hcomment, hinstruction, hb]

theorem readFrom_declaration {body : List Char} (hk : keyword ∈ otherKeywords) (hb : Body body)
    (r : Reading) (rest : List Char) :
    readFrom r ("<!".toList ++ (keyword ++ body) ++ ['>'] ++ rest) = readFrom r rest := by
  have hskip : skipDeclaration ('<' :: '!' :: (keyword ++ body ++ ['>'] ++ rest)) = rest := by
    rw [skipDeclaration_plain (by decide), skipDeclaration_plain (by decide), append_assoc,
      ((Body.of_otherKeywords hk).append hb).skipDeclaration_append]
    exact skipDeclaration_end rest
  have hother : after? "<!".toList ('<' :: '!' :: (keyword ++ body ++ ['>'] ++ rest)) =
      some (keyword ++ body ++ ['>'] ++ rest) := after?_append _ _
  have hnone : ∀ mark ∈ ["<!--".toList, "<?".toList, "<!ENTITY".toList],
      after? mark ('<' :: '!' :: (keyword ++ body ++ ['>'] ++ rest)) = none := by
    intro mark hmark
    refine after?_eq_none fun hp => ?_
    simp only [otherKeywords, mem_cons, not_mem_nil, or_false] at hk hmark
    rcases hk with rfl | rfl | rfl <;> rcases hmark with rfl | rfl | rfl <;> simp at hp
  have htext : "<!".toList ++ (keyword ++ body) ++ ['>'] ++ rest =
      '<' :: '!' :: (keyword ++ body ++ ['>'] ++ rest) := rfl
  rw [htext, readFrom_cons]
  simp only [hnone _ mem_cons_self, hnone "<?".toList (by simp),
    hnone "<!ENTITY".toList (by simp), hother, hskip]

/-- In front of the end of the declaration, the text behind a name is a value and what follows it. -/
theorem Definition.valueText {value : EntityValue} {space : List Char} (h : Definition value text)
    (hs : IsSpace space) (rest : List Char) :
    ∃ front after, text ++ space ++ '>' :: rest = front ++ after ∧ ValueText value front after ∧
      skipDeclaration after = rest := by
  have hend : skipDeclaration (space ++ '>' :: rest) = rest := by
    rw [(Body.of_space hs).skipDeclaration_append, skipDeclaration_end]
  cases h with
  | internal hl => exact ⟨_, space ++ '>' :: rest, by simp, .internal hl, hend⟩
  | external hids =>
    have hblank : skipBlanks (space ++ '>' :: rest) = '>' :: rest :=
      skipBlanks_append hs (stopsAt_cons.mpr (by decide))
    refine ⟨_, space ++ '>' :: rest, by simp, .external (.parsed hids ?_), hend⟩
    rw [hblank]
    simp
  | @unparsed publicId systemId ids before gap format hids hb hg hf =>
    have hblank : skipBlanks (before ++ ("NDATA".toList ++ (gap ++ format ++ space ++ '>' :: rest))) =
        "NDATA".toList ++ (gap ++ format ++ space ++ '>' :: rest) :=
      skipBlanks_append hb (stopsAt_cons.mpr (by decide))
    have hbody : Body (before ++ "NDATA".toList ++ gap ++ format) :=
      (((Body.of_space hb).append (.of_all (by decide))).append (.of_space hg)).append (.of_name hf)
    refine ⟨ids, before ++ ("NDATA".toList ++ (gap ++ format ++ space ++ '>' :: rest)),
      by simp only [append_assoc], .external (.unparsed hids ?_), ?_⟩
    · rw [hblank]
      exact prefix_append _ _
    · have htext : before ++ ("NDATA".toList ++ (gap ++ format ++ space ++ '>' :: rest)) =
          before ++ "NDATA".toList ++ gap ++ format ++ (space ++ '>' :: rest) := by
        simp only [append_assoc]
      rw [htext, hbody.skipDeclaration_append, hend]

theorem readFrom_entityText {d : EntityDeclaration} (h : EntityText d text) (r : Reading)
    (rest : List Char) :
    readFrom r ("<!ENTITY".toList ++ text ++ ['>'] ++ rest) = readFrom (r.add (.ok d)) rest := by
  cases h with
  | @mk space mark gap value after hs hne hm hn hg hgap hd ha =>
    obtain ⟨front, back, htext, hvalue, hend⟩ := hd.valueText ha rest
    have hstop : StopsAt continuesName (gap ++ (front ++ back)) := by
      cases gap with
      | nil => exact absurd rfl hgap
      | cons c gap => exact stopsAt_cons.mpr (not_continuesName_of_isBlank (hg c mem_cons_self))
    have hhead : Head d.isParameter d.name _ (front ++ back) := .mk hs hne hm hn hg hstop
    obtain ⟨tail, hread, htail⟩ := Written.readEntity hhead hvalue
    have hskip : skipDeclaration tail = rest := by
      rcases htail with rfl | rfl
      · exact hend
      · rw [skipDeclaration_skipBlanks, hend]
    have hwhole : "<!ENTITY".toList ++ (space ++ mark ++ d.name.toList ++ gap ++ value ++ after) ++
        ['>'] ++ rest = "<!ENTITY".toList ++ (space ++ mark ++ d.name.toList ++ gap ++
          (front ++ back)) := by
      rw [← htext]
      simp only [append_assoc, cons_append, nil_append]
    rw [hwhole, readFrom_entity, hread, hskip]

/-- **An item is passed whole**, and what it declares is taken in. -/
theorem Item.readFrom (h : Item ds text) (r : Reading) (rest : List Char) :
    readFrom r (text ++ rest) = readFrom (r.addAll ds) rest := by
  cases h with
  | @blank c hc =>
    refine readFrom_plain ?_ r rest
    rintro rfl
    exact absurd hc (by decide)
  | comment h => exact readFrom_comment h r rest
  | instruction hn h => exact readFrom_instruction hn h r rest
  | @reference name hn =>
    refine readFrom_append_of_not_mem ?_ r rest
    obtain ⟨c, more, rfl, hc, hmore⟩ := hn
    simp only [cons_append, mem_cons, mem_append, not_mem_nil, or_false]
    rintro (h | rfl | h | h)
    · cases h
    · exact absurd hc (by decide)
    · exact absurd (hmore _ h) (by decide)
    · cases h
  | declaration hk hb => exact readFrom_declaration hk hb r rest
  | entity h => exact readFrom_entityText h r rest

theorem Items.readFrom (h : Items ds text) (r : Reading) : readFrom r text = r.addAll ds := by
  induction h generalizing r with
  | nil =>
    rw [Declarations.readFrom]
    rfl
  | cons h _ ih =>
    rw [h.readFrom, ih, Reading.addAll, Reading.addAll, Reading.addAll, foldl_append]

end Declarations

open Declarations

/-- **Internal subsets are read completely.** Whatever follows the `]` behind a subset, the subset
ends there. Its declarations are read without a problem, and for every name among the parameter
entities and among the general ones, what the table had stays, and otherwise the first declaration
of the name counts. -/
theorem subset_read_whole {ds : List EntityDeclaration} {text : List Char} (h : Items ds text)
    (table : EntityTable) :
    (∀ rest, splitSubset? (text ++ ']' :: rest) = some (text, rest)) ∧
      (readDeclarations text table).2 = [] ∧
      ∀ (isParameter : Bool) (name : String),
        (readDeclarations text table).1.entity? isParameter name =
          (table.entity? isParameter name).or
            ((ds.find? fun d => d.isParameter = isParameter ∧ d.name = name).map (·.value)) := by
  refine ⟨splitSubset?_append h.isSubset, ?_, fun isParameter name => ?_⟩
  · rw [readDeclarations, h.readFrom, Reading.problems_addAll, List.reverse_nil]
  · rw [readDeclarations, h.readFrom, Reading.entity?_addAll]

/-- A bracket in a comment and in a literal, and two declarations of one name. -/
def bracketSubset : List Char :=
  "<!--]'-->".toList ++ "<!ENTITY e ']&#65;'>".toList ++ "<!ENTITY e 'b'>".toList

theorem bracket_subset_read_whole :
    Items [⟨"e", .internal "]A", false⟩, ⟨"e", .internal "b", false⟩] bracketSubset ∧
      (∀ rest, splitSubset? (bracketSubset ++ ']' :: rest) = some (bracketSubset, rest)) ∧
      (readDeclarations bracketSubset {}).2 = [] ∧
      (readDeclarations bracketSubset {}).1.entity? false "e" = some (.internal "]A") := by
  have hspace : Text.IsSpace [' '] := fun c hc => List.mem_singleton.mp hc ▸ rfl
  have hname : Text.IsName "e".toList := ⟨'e', [], rfl, rfl, nofun⟩
  have hentity {value literal : List Char} (hl : Grammar.Literal value literal) :
      Item [⟨"e", .internal (String.ofList (Text.expandCharRefs value)), false⟩]
        ("<!ENTITY".toList ++ ([' '] ++ [] ++ "e".toList ++ [' '] ++ literal ++ []) ++ ['>']) :=
    .entity (.mk hspace (by decide) .general hname hspace (by decide) (.internal hl) nofun)
  have hcomment : Item [] "<!--]'-->".toList := @Item.comment "]'".toList (by decide)
  have hfirst : Item [⟨"e", .internal "]A", false⟩] "<!ENTITY e ']&#65;'>".toList := by
    have hl : Grammar.Literal "]&#65;".toList "']&#65;'".toList := .mk (.inr rfl) (by decide)
    have hA : Text.expandCharRefs "]&#65;".toList = "]A".toList := by decide +kernel
    have h := hentity hl
    rw [hA] at h
    exact h
  have hsecond : Item [⟨"e", .internal "b", false⟩] "<!ENTITY e 'b'>".toList := by
    have hl : Grammar.Literal "b".toList "'b'".toList := .mk (.inr rfl) (by decide)
    have hb : Text.expandCharRefs "b".toList = "b".toList := by decide +kernel
    have h := hentity hl
    rw [hb] at h
    exact h
  have hitems : Items [⟨"e", .internal "]A", false⟩, ⟨"e", .internal "b", false⟩] bracketSubset := by
    have h := Items.cons hcomment (.cons hfirst (.cons hsecond .nil))
    rw [List.append_nil, ← List.append_assoc] at h
    exact h
  obtain ⟨hend, hproblems, htable⟩ := subset_read_whole hitems {}
  exact ⟨hitems, hend, hproblems, htable false "e"⟩

end Xml
