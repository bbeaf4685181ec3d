import Xml.Proofs.Scan.Budget
import Xml.Proofs.Scan.Calls

/-!
# What the parts of a scan pay

Each part of a scan, from the text of a value to a whole document, tells no more than the text that
it passes and what it counts on the way.
-/

namespace Xml.Scan

open Text

variable {α : Type} {n n' : Nat}

/-! ## Values of attributes -/

/-- The bytes of a value that has been read so far and of the rest of its text. -/
def valueRest (found : List Char × String) : Nat :=
  byteSize found.1 + found.2.utf8ByteSize

variable (env : Env) (place : List Char) (depth : Nat) (rest text : List Char)

/-- What a step of a value does apart from the entity that it may expand. -/
theorem Affords.ofValueStepOutside (c : Char) (after : List Char) (out : String) :
    Affords (byteSize (c :: after) + out.utf8ByteSize)
      (valueStep env place (fun _ _ out => pure out) c after out) valueRest := by
  unfold valueStep
  rw [byteSize_cons]
  split
  · next hc =>
    obtain rfl : c = '&' := beq_iff_eq.mp hc
    have hamp : '&'.utf8Size = 1 := rfl
    -- The `&` stands for itself.
    have hplain : Affords ('&'.utf8Size + byteSize after + out.utf8ByteSize)
        (do report env .badEntityRef place; return (after, out.push '&')) valueRest := by
      refine (Free.ofReport env _ _).andThen fun _ => .ofPure ?_
      simp only [valueRest, String.utf8ByteSize_push]
      omega
    split
    · exact hplain
    · next reference rest hb =>
      have hsize := byteSize_breakOn hb
      have hend : byteSize [';'] = 1 := rfl
      split
      · next body hbody =>
        rw [after?_eq hbody, byteSize_append] at hsize
        have hmark : byteSize ['#'] = 1 := rfl
        split
        · next c hc =>
          have hle := utf8Size_le_of_charRef? hc
          refine .ofPure ?_
          simp only [valueRest, String.utf8ByteSize_push]
          omega
        · refine (Free.ofReport env _ _).andThen fun _ => .ofPure ?_
          simp only [valueRest]
          omega
      · split
        · next c hc =>
          have hone := utf8Size_of_predefined? hc
          refine .ofPure ?_
          simp only [valueRest, String.utf8ByteSize_push]
          omega
        · split
          · have hgone : Affords ('&'.utf8Size + byteSize after + out.utf8ByteSize)
                (pure (rest, out)) valueRest := by
              refine .ofPure ?_
              simp only [valueRest]
              omega
            refine .ask fun s => ?_
            split
            · exact hgone
            · exact (Free.ofReport env _ _).andThen fun _ => hgone
            · exact (Free.ofReport env _ _).andThen fun _ => hgone
          · exact hplain
  · refine .ofPure ?_
    have hle := utf8Size_normalizeBlank_le c
    simp only [valueRest, String.utf8ByteSize_push]
    omega

theorem Affords.ofValueStep {expand : String → String → String → ScanM String}
    (he : ∀ name value out, Affords out.utf8ByteSize (expand name value out) String.utf8ByteSize)
    (c : Char) (after : List Char) (out : String) :
    Affords (byteSize (c :: after) + out.utf8ByteSize) (valueStep env place expand c after out)
      valueRest := by
  intro s hs
  have hout := Affords.ofValueStepOutside env place c after out s hs
  rcases valueStep_expandsOnce env place c after out s with ⟨r, hr⟩ | ⟨name, value, tail, hcall⟩
  · rw [hr] at hout ⊢
    exact hout
  · rw [hcall] at hout ⊢
    obtain ⟨-, -, hle⟩ := hout
    simp only [valueRest] at hle
    have hexpand : Affords (out.utf8ByteSize + byteSize tail)
        (expand name value out >>= fun out' => pure (tail, out')) valueRest :=
      .andThen ((he name value out).frame (byteSize tail)) fun _ => .ofPure (Nat.add_comm _ _).le
    exact hexpand.mono (by omega) (fun _ => le_rfl) s hs

theorem Affords.ofExpandValueAt (level : Nat)
    (h : level < maxEntityDepth → ∀ text out, Affords (byteSize text + out.utf8ByteSize)
      (attributeText env place (level + 1) text out) String.utf8ByteSize)
    (name value out : String) : Affords out.utf8ByteSize
      (expandValueAt env place level name value out) String.utf8ByteSize := by
  unfold expandValueAt
  split
  · next hlevel =>
    refine .entity env name ?_
    rw [← byteSize_toList]
    exact h hlevel value.toList out
  · exact .ask fun _ => .ofFail env _ _

/-- **The value of an attribute is not longer than its text and what was counted for it.** The
induction is on the levels of entities that are left, and on each of them on the text. -/
theorem Affords.ofAttributeText (level : Nat) (text : List Char) (out : String) :
    Affords (byteSize text + out.utf8ByteSize)
      (attributeText env place level text out) String.utf8ByteSize := by
  induction hk : maxEntityDepth - level using Nat.strong_induction_on
    generalizing level text out with
  | _ k ihlevel =>
    have hexpand := Affords.ofExpandValueAt env place level fun hlevel text out =>
      ihlevel _ (by omega) (level + 1) text out rfl
    induction hn : text.length using Nat.strong_induction_on generalizing text out with
    | _ n ih =>
      cases text with
      | nil =>
        rw [attributeText]
        exact .ofPure (by simp)
      | cons c after =>
        rw [attributeText_cons]
        refine (Affords.ofValueStep env place hexpand c after out).thenFrom ?_
        rintro ⟨rest, out'⟩ s s' hstep
        have hlen := (valueStep_suffix hstep).length_le
        rw [List.length_cons] at hn
        exact ih rest.length (by omega) rest out' rfl

theorem Affords.ofAttributeValue (raw : RawAttribute) :
    Affords (byteSize raw.raw) (attributeValue env depth raw) String.utf8ByteSize := by
  unfold attributeValue
  refine (Free.ofPlaceOf depth _).andThen fun place => ?_
  refine (Free.ofCheckChars env _ _ _).andThen fun _ => ?_
  refine Free.perhaps (Free.ofReport env _ _) fun _ => ?_
  split
  · refine Free.perhaps (Free.ofModify (fun _ => rfl) fun _ => rfl) fun _ => ?_
    exact Affords.ofAttributeText env place 0 raw.raw ""
  · exact .ofPure (utf8ByteSize_ofList _).le

def valueSize (attributes : List Attribute) : Nat :=
  (attributes.map fun a => a.value.utf8ByteSize).sum

theorem Affords.ofAttributeValues (tag : List Char) (raws : List RawAttribute)
    (kept : List Attribute) :
    Affords (rawSize raws + valueSize kept) (attributeValues env depth tag kept raws)
      valueSize := by
  induction raws generalizing kept with
  | nil =>
    refine .ofPure ?_
    simp [valueSize, rawSize]
  | cons raw raws ih =>
    have hcons : rawSize (raw :: raws) = byteSize raw.raw + rawSize raws := List.sum_cons
    have hvalue := (Affords.ofAttributeValue env depth raw).frame (rawSize raws + valueSize kept)
    unfold attributeValues
    rw [hcons, Nat.add_assoc]
    refine hvalue.andThen fun value => ?_
    split
    · refine (Free.ofPlaceOf depth tag).andThen fun place => ?_
      refine (Free.ofReport env _ _).andThen fun _ => (ih kept).mono ?_ fun _ => le_rfl
      omega
    · have hkept : valueSize (⟨raw.name, value⟩ :: kept) = value.utf8ByteSize + valueSize kept :=
        List.sum_cons
      refine (ih _).mono ?_ fun _ => le_rfl
      omega

/-! ## Tags -/

theorem Affords.ofOpenTag (raws : List RawAttribute) :
    Affords (rawSize raws) (openTag env depth rest raws) valueSize := by
  refine .ask fun s₀ => Free.perhaps (Affords.ofFail env _ _) fun _ => ?_
  exact Affords.ofAttributeValues env depth rest raws []

theorem Affords.ofTakeStartTag (name : String) (raws : List RawAttribute) (isEmpty : Bool) :
    Affords (rawSize raws) (takeStartTag env depth rest name raws isEmpty) fun _ => 0 := by
  refine (Affords.ofOpenTag env depth rest raws).andThen fun attributes => ?_
  refine Free.andThen (.ofModify (fun _ => rfl) fun _ => rfl) fun _ => ?_
  have htell : Affords (valueSize attributes) (tell (.startElement name attributes)) fun _ => 0 :=
    .ofTell le_rfl
  refine htell.andThen fun _ => ?_
  split
  · exact Free.ofTell rfl
  · exact Free.ofModify (fun _ => rfl) fun _ => rfl

/-- What is left behind a part that hands back the rest of the text. -/
theorem Affords.ofReturning {effect : ScanM Unit} {tail : List Char}
    (h : Affords n effect fun _ => 0) (hn : n + byteSize tail ≤ n') :
    Affords n' (returning tail effect) byteSize := by
  refine .andThen ((h.frame (byteSize tail)).mono hn fun _ => le_rfl) fun _ => .ofPure ?_
  omega

theorem Affords.ofStartTag (after : List Char) :
    Affords (byteSize after) (startTag env depth rest after) byteSize := by
  unfold startTag
  split
  · exact .ofFailAt env depth _ rest
  · next name inside hname =>
    have hinside := byteSize_le_of_suffix (readName?_suffix hname)
    have hsize := size_readAttributes inside
    -- A tag that is not finished is read up to where it breaks off.
    have hbroken (raws : List RawAttribute) (problem : Problem) (place : List Char)
        (h : rawSize raws ≤ byteSize inside) : Affords (byteSize after)
          (openTag env depth rest raws >>= fun _ => failAt env depth problem place)
          byteSize :=
      .andThen ((Affords.ofOpenTag env depth rest raws).mono (h.trans hinside) fun _ => le_rfl)
        fun _ => .ofFailAt env depth problem place
    dsimp only
    split
    · next raws tail hread =>
      rw [hread] at hsize
      exact (Affords.ofTakeStartTag env depth rest _ raws _).ofReturning (hsize.trans hinside)
    · next raws tail hread =>
      rw [hread] at hsize
      exact (Affords.ofTakeStartTag env depth rest _ raws _).ofReturning (hsize.trans hinside)
    · next raws hread =>
      rw [hread] at hsize
      exact hbroken raws _ _ hsize
    · next raws _ _ hread =>
      rw [hread] at hsize
      exact hbroken raws _ _ ((Nat.le_add_right _ _).trans hsize)

/-! ## Other markup -/

theorem Free.ofTakeEndTag (name : String) : Free (takeEndTag env depth rest name) := by
  intro s hs
  unfold takeEndTag
  rw [get_bind]
  dsimp only
  generalize hb : (if depth = 0 then 0 else s.entityBase) = base
  cases s.opened with
  | nil => exact .ofError hs
  | cons top others =>
    dsimp only
    by_cases hl : (top :: others).length ≤ base
    · rw [if_pos hl]
      exact .ofError hs
    rw [if_neg hl]
    by_cases hn : (top != name) = true
    · rw [if_pos hn]
      exact .ofError hs
    rw [if_neg hn]
    refine .ofOk hs rfl ?_
    exact ((State.load_told { s with opened := others } (.endElement name)).le)

theorem Free.ofTakeComment : Free (takeComment env depth rest text) := by
  refine (Free.ofPlaceOf depth rest).andThen fun place => ?_
  refine (Free.ofCheckChars env _ _ _).andThen fun _ => ?_
  exact Free.perhaps (Free.ofReport env _ _) fun _ => Free.ofTell rfl

theorem Free.ofTakeDoctype (doctype : Doctype) : Free (takeDoctype env depth rest doctype) := by
  refine (Free.ofRequireProlog env depth rest).andThen fun _ => ?_
  refine (Free.ofPlaceOf depth rest).andThen fun place => ?_
  refine Free.andThen (.ofModify (fun _ => rfl) fun _ => rfl) fun _ => ?_
  have htell : Free (tell (.doctype doctype)) := .ofTell rfl
  dsimp only
  split
  · refine (Free.ofDeclareAll _ _ fun _ => rfl).andThen fun _ => ?_
    split
    · exact (Free.ofLoadSubset env _).andThen fun _ => htell
    · exact htell
  · split
    · exact (Free.ofLoadSubset env _).andThen fun _ => htell
    · exact htell

theorem Affords.ofTakeCData :
    Affords (byteSize text) (takeCData env depth rest text) fun _ => 0 := by
  refine (Free.ofPlaceOf depth rest).andThen fun place => ?_
  refine (Free.ofRequireOpen env place).andThen fun _ => ?_
  refine (Free.ofCheckChars env _ _ _).andThen fun _ => ?_
  refine Free.andThen (.ofTell rfl) fun _ => ?_
  split
  · exact .mono (Free.ofTell rfl) (Nat.zero_le _) fun _ => le_rfl
  · have htell : Affords (byteSize text) (tell (.characters (String.ofList text))) fun _ => 0 :=
      .ofTell (utf8ByteSize_ofList text).le
    exact htell.andThen fun _ => Free.ofTell rfl

theorem Affords.ofAfterPiece {env : Env} {depth : Nat} {rest : List Char}
    {piece : Except Problem (α × List Char)} {check : ScanM Unit} {effect : α → ScanM Unit}
    (hcheck : Free check)
    (heffect : ∀ found tail, piece = .ok (found, tail) →
      ∃ k, Affords k (effect found) (fun _ => 0) ∧ k + byteSize tail ≤ n) :
    Affords n (afterPiece env depth rest piece check effect) byteSize := by
  cases piece with
  | ok piece =>
    obtain ⟨k, hk, hle⟩ := heffect piece.1 piece.2 rfl
    exact hk.ofReturning hle
  | error problem => exact hcheck.andThen fun _ => .ofFailAt env depth problem rest

theorem Affords.ofMarkup (after : List Char) :
    Affords (byteSize after) (markup env depth after) byteSize := by
  -- A piece that costs nothing leaves the rest behind it.
  have hfree {α : Type} {inside : List Char} {piece : Except Problem (α × List Char)}
      {effect : α → ScanM Unit} (he : ∀ found, Free (effect found))
      (hi : inside <:+ after) (hp : ∀ found tail, piece = .ok (found, tail) → tail <:+ inside)
      (found : α) (tail : List Char) (h : piece = .ok (found, tail)) :
      ∃ k, Affords k (effect found) (fun _ => 0) ∧ k + byteSize tail ≤ byteSize after := by
    refine ⟨0, he found, ?_⟩
    rw [Nat.zero_add]
    exact byteSize_le_of_suffix ((hp found tail h).trans hi)
  unfold markup
  split
  · next inside ha =>
    exact .ofAfterPiece (.ofPure _) (hfree (Free.ofTakeEndTag env depth _) (after?_suffix ha)
      fun _ _ => readEndTag_suffix)
  split
  · next inside ha =>
    exact .ofAfterPiece (.ofPure _) (hfree (Free.ofTakeComment env depth _) (after?_suffix ha)
      fun _ _ => readUpTo_suffix)
  split
  · next inside ha =>
    have hcheck := (Free.ofPlaceOf depth ('<' :: after)).andThen fun place =>
      Free.ofRequireOpen env place
    refine .ofAfterPiece hcheck fun text tail h =>
      ⟨byteSize text, Affords.ofTakeCData env depth _ text, ?_⟩
    have hle := byteSize_le_of_suffix (after?_suffix ha)
    unfold readCData readUpTo at h
    split at h
    · next hb =>
      cases h
      have hsize := byteSize_breakOn hb
      omega
    · cases h
  split
  · next inside ha =>
    exact .ofAfterPiece (Free.ofRequireProlog env depth _) (hfree (Free.ofTakeDoctype env depth _)
      (after?_suffix ha) fun _ _ => readDoctype_suffix)
  split
  · next inside ha =>
    exact .ofAfterPiece (.ofPure _) (hfree (fun _ => Free.ofTell rfl) (after?_suffix ha)
      fun _ _ => readInstruction_suffix)
  split
  · exact .ofStartTag env depth _ after
  · exact .ofFailAt env depth _ _

/-! ## Text and references -/

theorem Affords.ofTakeText : Affords (byteSize text) (takeText env depth rest text) fun _ => 0 := by
  refine .ask fun s₀ => ?_
  dsimp only
  split
  · split
    · exact .ofPure (Nat.zero_le _)
    · exact .ofFail env _ _
  · refine (Free.ofCheckChars env _ _ _).andThen fun _ => ?_
    have hadd := Affords.ofAddText (String.ofList text)
    rw [utf8ByteSize_ofList] at hadd
    exact Free.perhaps (Free.ofReport env _ _) fun _ => hadd

/-- What a step does apart from the entity that it may expand. -/
theorem Affords.ofStepOutside (c : Char) (after : List Char) :
    Affords (byteSize (c :: after)) (step env depth (fun _ _ => pure ()) c after) byteSize := by
  have huse (name replacement : String) (rest : List Char) :
      Free (useEntity env depth (fun _ _ => pure ()) name replacement rest) := by
    unfold useEntity
    split
    · exact Free.perhaps (.ofModify (fun _ => rfl) fun _ => rfl) fun _ => Free.ofPure ()
    · exact Free.ofFlush.andThen fun _ => Free.ofTell rfl
  have hentity (name : String) (rest : List Char) :
      Free (takeEntity env depth (fun _ _ => pure ()) name rest) := by
    refine Affords.ask fun s₀ => ?_
    dsimp only
    split
    · refine (Free.ofReport env _ _).andThen fun _ => ?_
      exact Free.ofFlush.andThen fun _ => Free.ofTell rfl
    · exact Free.ofReport env _ _
    · exact huse name _ rest
    · exact (Free.ofLoadEntity env name _).andThen fun _ => huse name _ rest
  have hreference (rest : List Char) (reference : Reference) :
      Affords reference.load (takeReference env depth (fun _ _ => pure ()) rest reference)
        fun _ => 0 := by
    refine (Free.ofPlaceOf depth rest).andThen fun place => ?_
    refine (Free.ofRequireOpen env place).andThen fun _ => ?_
    cases reference with
    | char c =>
      cases c with
      | some c => exact .ofAddChar c
      | none => exact Free.ofReport env _ _
    | plain => exact (Free.ofReport env _ _).andThen fun _ => .ofAddChar '&'
    | entity name =>
      dsimp only
      split
      · next c hc =>
        exact (Affords.ofAddChar c).mono (utf8Size_of_predefined? hc).le fun _ => le_rfl
      · exact .mono (hentity _ rest) (Nat.zero_le _) fun _ => le_rfl
  unfold step
  rw [byteSize_cons]
  split
  · refine Free.ofFlush.andThen fun _ => ?_
    exact (Affords.ofMarkup env depth after).mono (Nat.le_add_left _ _) fun _ => le_rfl
  split
  · next hc =>
    obtain rfl : c = '&' := beq_iff_eq.mp hc
    have hsize := load_readReference after
    have hamp : '&'.utf8Size = 1 := rfl
    have hreturn : Affords ('&'.utf8Size + byteSize after)
        (returning (readReference after).2 (takeReference env depth (fun _ _ => pure ())
          ('&' :: after) (readReference after).1)) byteSize :=
      (hreference _ _).ofReturning (by omega)
    exact hreturn
  · refine (Affords.ofTakeText env depth _ _).ofReturning ?_
    have hsplit := congrArg byteSize
      (List.takeWhile_append_dropWhile (p := fun c => c != '<' && c != '&') (l := after))
    rw [byteSize_append] at hsplit
    rw [byteSize_cons]
    omega

theorem Affords.ofStep {expand : String → String → ScanM Unit}
    (he : ∀ name replacement, Free (expand name replacement)) (c : Char) (after : List Char) :
    Affords (byteSize (c :: after)) (step env depth expand c after) byteSize := by
  intro s hs
  have hout := Affords.ofStepOutside env depth c after s hs
  rcases step_expandsOnce env depth c after s with ⟨r, hr⟩ | ⟨name, replacement, tail, s₁, hcall⟩
  · rw [hr] at hout ⊢
    exact hout
  · rw [hcall] at hout ⊢
    obtain ⟨hwithin, hsame, hle⟩ := hout
    have hexpand : Affords (byteSize tail) (returning tail (expand name replacement)) byteSize :=
      Affords.ofReturning (he name replacement) (Nat.zero_add _).le
    exact (hexpand s₁ hwithin).trade (k := 0) hsame hle fun _ => Nat.le_refl _

/-! ## Content and documents -/

theorem Free.ofExpandAt (h : depth < maxEntityDepth → ∀ text,
    Affords (byteSize text) (content env (depth + 1) text) fun _ => 0) (name replacement : String) :
    Free (expandAt env depth name replacement) := by
  unfold expandAt
  split
  · next hdepth => exact .ofWithEntity env name replacement (h hdepth)
  · exact .ask fun _ => .ofFail env _ _

/-- **Content tells no more than its text and what was counted for it.** -/
theorem Affords.ofContent : Affords (byteSize text) (content env depth text) fun _ => 0 := by
  induction hk : maxEntityDepth - depth using Nat.strong_induction_on generalizing depth text with
  | _ k ihdepth =>
    have hexpand := Free.ofExpandAt env depth fun hdepth text =>
      ihdepth _ (by omega) (depth + 1) text rfl
    induction hn : text.length using Nat.strong_induction_on generalizing text with
    | _ n ih =>
      cases text with
      | nil =>
        intro s hs
        rw [content_nil]
        exact .ofOk hs rfl le_rfl
      | cons c after =>
        have hloop : content env depth (c :: after) =
            step env depth (expandAt env depth) c after >>= content env depth := by
          funext s
          rw [content_cons]
          simp only [bind, EStateM.bind]
          cases step env depth (expandAt env depth) c after s <;> rfl
        rw [hloop]
        refine (Affords.ofStep env depth hexpand c after).thenFrom fun rest s s' hstep => ?_
        have hlen := (step_suffix hstep).length_le
        rw [List.length_cons] at hn
        exact ih rest.length (by omega) rest rfl

theorem Affords.ofPrologue : Affords (byteSize env.text) (prologue env) byteSize := by
  unfold prologue
  split
  · next inside hx =>
    have hinside : inside <:+ env.text := by
      unfold xmlDeclaration? at hx
      split at hx
      · next ha =>
        split at hx
        · cases hx
          exact after?_suffix ha
        · cases hx
      · cases hx
    unfold takeXmlDeclaration
    split
    · exact .ofFail env _ _
    · next d rest hr =>
      have hrest : rest <:+ inside := by
        unfold readXmlDeclaration at hr
        split at hr
        · cases hr
        · next hb =>
          split at hr
          · cases hr
            exact breakOn_suffix hb
          · cases hr
      split
      · exact .ofFail env _ _
      · have hstandalone (value : Option String) : Free (standaloneValue value) := by
          rw [standaloneValue.eq_def]
          split
          · exact .ofPure _
          · exact .ofPure _
          · exact .ofPure _
          · exact Free.andThen (.ofTell rfl) fun _ => .ofPure le_rfl
        refine (hstandalone _).andThen fun standalone => ?_
        refine Free.andThen (.ofTell rfl) fun _ => .ofPure ?_
        exact byteSize_le_of_suffix (hrest.trans hinside)
  · exact .ofPure le_rfl

/-- **A document is told from its text and what was counted for it.** -/
theorem Affords.ofDocument : Affords (byteSize env.text) (document env) fun _ => 0 := by
  have hend : Free (checkEnd env) := by
    refine .ask fun s₀ => ?_
    split
    · exact .ofFail env _ _
    · split
      · exact .ofPure (Nat.zero_le _)
      · exact .ofFail env _ _
  have hdocument : document env = (do
      let rest ← prologue env
      content env 0 rest
      flush
      checkEnd env) := by
    unfold document prologue
    cases xmlDeclaration? env.text <;> rfl
  rw [hdocument]
  refine (Affords.ofPrologue env).andThen fun rest => ?_
  refine (Affords.ofContent env 0 rest).andThen fun _ => ?_
  exact Free.ofFlush.andThen fun _ => hend

end Xml.Scan
