import RuleFlow.Logic.Wording
import RuleFlow.Proofs.Artifact.Summary
import RuleFlow.Proofs.Logic.Phrase

/-!
# Reading infix texts

An infix text is read by a grammar of three categories: alternatives joined by OR, each made of
units joined by AND, where a unit is a plain text or a text in parentheses.  `Reads` says what the
texts of each category stand for.

A text stands for one phrase only (`Reads.unambiguous`).  The induction is on the derivation, over
all texts that may follow: a text of a category stops at the end, at a closing parenthesis or at a
separator that binds less tight (`MayFollow`).  The infix text of a tree is the text of its phrase
(`Logic.toList_infixWithin`), and a merged phrase is read from its text (`Phrase.Merged.reads`).
-/

namespace RuleFlow.Infix

open Logic (precedence)

/-! ## The grammar -/

/-- What stands between the parts of a group. -/
def separator (kind : Combinator) : List Char := ' ' :: (kind.word.toList ++ [' '])

/-- A text without parentheses that has no word of a combinator between single blanks. -/
structure IsPlain (cs : List Char) : Prop where
  opening : '(' ∉ cs
  closing : ')' ∉ cs
  word : ∀ kind : Combinator, kind.word.toList ∉ cs.splitOn ' '

instance (cs : List Char) : Decidable (IsPlain cs) :=
  decidable_of_iff
    ('(' ∉ cs ∧ ')' ∉ cs ∧ Combinator.and.word.toList ∉ cs.splitOn ' ' ∧
      Combinator.or.word.toList ∉ cs.splitOn ' ')
    ⟨fun ⟨ho, hc, hand, hor⟩ => ⟨ho, hc, fun | .and => hand | .or => hor⟩,
      fun h => ⟨h.opening, h.closing, h.word .and, h.word .or⟩⟩

/-- The categories of the grammar. -/
inductive Category where
  | unit
  | joined (kind : Combinator)

/-- The category of the parts that a combinator joins. -/
def operand : Combinator → Category
  | .and => .unit
  | .or => .joined .and

/-- The text of parts that are joined, each given with what it stands for. -/
def joinedText (kind : Combinator) (parts : List (List Char × Phrase String)) : List Char :=
  (separator kind).intercalate (parts.map Prod.fst)

/-- What a text of a category stands for. -/
inductive Reads : Category → List Char → Phrase String → Prop
  | atom {cs : List Char} (h : IsPlain cs) : Reads .unit cs (.atom (String.ofList cs))
  | parentheses {cs : List Char} {p : Phrase String} (h : Reads (.joined .or) cs p) :
      Reads .unit ('(' :: (cs ++ [')'])) p
  | joined {kind : Combinator} {parts : List (List Char × Phrase String)} (hne : parts ≠ [])
      (h : ∀ x ∈ parts, Reads (operand kind) x.1 x.2) :
      Reads (.joined kind) (joinedText kind parts) (.ofParts kind (parts.map Prod.snd))

/-- What a whole text stands for. -/
def Denotes (text : String) (p : Phrase String) : Prop := Reads (.joined .or) text.toList p

/-! ## Where texts stop -/

/-- What may follow a text: a separator must bind less tight than the bound. -/
inductive MayFollow (bound : Nat) : List Char → Prop
  | nothing : MayFollow bound []
  | closing (rest : List Char) : MayFollow bound (')' :: rest)
  | separator (kind : Combinator) (rest : List Char) (h : precedence kind < bound) :
      MayFollow bound (separator kind ++ rest)

/-- The bound of what may follow a text of a category. -/
def Category.bound : Category → Nat
  | .unit => precedence .and + 1
  | .joined kind => precedence kind

theorem bound_operand (kind : Combinator) : (operand kind).bound = precedence kind + 1 := by
  cases kind <;> rfl

/-- A separator is told from the other one whatever follows them. -/
theorem separator_append_inj {k l : Combinator} {cs ds : List Char}
    (h : separator k ++ cs = separator l ++ ds) : k = l ∧ cs = ds := by
  cases k <;> cases l <;> simp_all [separator, Combinator.word]

namespace MayFollow

variable {m n : Nat} {cs t : List Char}

/-- What may follow a looser category may follow a tighter one. -/
theorem mono (h : MayFollow m t) (hle : m ≤ n) : MayFollow n t := by
  cases h with
  | nothing => exact .nothing
  | closing rest => exact .closing rest
  | separator kind rest hlt => exact .separator kind rest (Nat.lt_of_lt_of_le hlt hle)

/-- No opening parenthesis may follow anything. -/
theorem ne_opening (h : MayFollow n t) : t ≠ '(' :: cs := by
  intro ht
  cases h with
  | nothing => cases ht
  | closing rest => cases ht
  | separator kind rest _ =>
    rw [Infix.separator, List.cons_append] at ht
    cases ht

/-- A separator that follows a text binds less tight. -/
theorem precedence_lt (h : MayFollow n t) {kind : Combinator}
    (ht : t = Infix.separator kind ++ cs) :
    precedence kind < n := by
  cases h with
  | nothing => simp [Infix.separator] at ht
  | closing rest => simp [Infix.separator] at ht
  | separator k rest hlt => rwa [← (separator_append_inj ht).1]

end MayFollow

/-! ## Plain texts -/

/-- Whether a piece between blanks is no word of a combinator. -/
def isOrdinary (piece : List Char) : Bool :=
  piece != Combinator.and.word.toList && piece != Combinator.or.word.toList

/-- The plain text at the front of a text: it stops before a closing parenthesis and before a word
of a combinator. -/
def plainFront (cs : List Char) : List Char :=
  [' '].intercalate (((cs.takeWhile (· != ')')).splitOn ' ').takeWhile isOrdinary)

theorem isOrdinary_of_isPlain {cs piece : List Char} (h : IsPlain cs)
    (hp : piece ∈ cs.splitOn ' ') :
    isOrdinary piece = true := by
  have hand : piece ≠ Combinator.and.word.toList := fun he => h.word .and (he ▸ hp)
  have hor : piece ≠ Combinator.or.word.toList := fun he => h.word .or (he ▸ hp)
  simp [isOrdinary, hand, hor]

theorem splitOn_separator (kind : Combinator) (cs ds : List Char) :
    (cs ++ (separator kind ++ ds)).splitOn ' ' =
      cs.splitOn ' ' ++ kind.word.toList :: ds.splitOn ' ' := by
  have hword : kind.word.toList.splitOn ' ' = [kind.word.toList] := by cases kind <;> rfl
  rw [separator, List.cons_append, List.splitOn_append_cons_self, List.append_assoc,
    List.singleton_append, List.splitOn_append_cons_self, hword, List.singleton_append]

/-- A plain text is found again in front of what may follow it. -/
theorem IsPlain.plainFront_append {cs t : List Char} {n : Nat} (h : IsPlain cs)
    (ht : MayFollow n t) : plainFront (cs ++ t) = cs := by
  have hclosing : ∀ c ∈ cs, (c != ')') = true :=
    fun c hc => bne_iff_ne.mpr fun he => h.closing (he ▸ hc)
  have hpieces : ∀ piece ∈ cs.splitOn ' ', isOrdinary piece = true :=
    fun piece hp => isOrdinary_of_isPlain h hp
  have hwhole : (cs.splitOn ' ').takeWhile isOrdinary = cs.splitOn ' ' := by
    rw [← List.append_nil (cs.splitOn ' '), List.takeWhile_append_of_pos hpieces]
    rfl
  rw [plainFront, List.takeWhile_append_of_pos hclosing]
  cases ht with
  | nothing => rw [List.takeWhile_nil, List.append_nil, hwhole, List.intercalate_splitOn]
  | closing rest =>
    rw [List.takeWhile_cons_of_neg (by simp), List.append_nil, hwhole, List.intercalate_splitOn]
  | separator kind rest _ =>
    have hsep : ∀ c ∈ separator kind, (c != ')') = true := by
      cases kind <;> simp [separator, Combinator.word]
    have hword : isOrdinary kind.word.toList = false := by cases kind <;> simp [isOrdinary]
    rw [List.takeWhile_append_of_pos hsep, splitOn_separator, List.takeWhile_append_of_pos hpieces,
      List.takeWhile_cons_of_neg (by simp [hword]), List.append_nil, List.intercalate_splitOn]

/-! ## A text stands for one phrase -/

/-- A reading that no other reading of the category shares its text with, whatever follows. -/
def Unambiguous (category : Category) (cs : List Char) (p : Phrase String) : Prop :=
  ∀ ⦃ds : List Char⦄ ⦃q : Phrase String⦄ ⦃t t' : List Char⦄, Reads category ds q →
    MayFollow category.bound t → MayFollow category.bound t' → cs ++ t = ds ++ t' →
      cs = ds ∧ p = q

/-- A plain text is one piece up to the next separator or parenthesis, so it is read as one atom. -/
theorem unambiguous_atom {cs : List Char} (h : IsPlain cs) :
    Unambiguous .unit cs (.atom (String.ofList cs)) := by
  intro ds q t t' hq ht ht' heq
  cases hq with
  | atom hds =>
    have hcs : cs = ds := by
      rw [← h.plainFront_append ht, heq, hds.plainFront_append ht']
    exact ⟨hcs, by rw [hcs]⟩
  | parentheses hq =>
    cases cs with
    | nil => exact absurd heq ht.ne_opening
    | cons c cs =>
      rw [List.cons_append, List.cons_append, List.cons.injEq] at heq
      exact absurd (heq.1 ▸ List.mem_cons_self) h.opening

/-- A text in parentheses is read as what stands in them, up to the parenthesis that closes it. -/
theorem unambiguous_parentheses {cs : List Char} {p : Phrase String}
    (ih : Unambiguous (.joined .or) cs p) : Unambiguous .unit ('(' :: (cs ++ [')'])) p := by
  intro ds q t t' hq ht ht' heq
  cases hq with
  | atom hds =>
    cases ds with
    | nil => exact absurd heq.symm ht'.ne_opening
    | cons c ds =>
      rw [List.cons_append, List.cons_append, List.cons.injEq] at heq
      exact absurd (heq.1 ▸ List.mem_cons_self) hds.opening
  | @parentheses ds _ hq =>
    simp only [List.cons_append, List.append_assoc, List.nil_append, List.cons.injEq,
      true_and] at heq
    obtain ⟨rfl, rfl⟩ := ih hq (.closing t) (.closing t') heq
    exact ⟨rfl, rfl⟩

/-- What follows the part before some parts. -/
def afterPart (kind : Combinator) (parts : List (List Char × Phrase String)) (t : List Char) :
    List Char :=
  if parts = [] then t else separator kind ++ (joinedText kind parts ++ t)

theorem joinedText_cons_append (kind : Combinator) (x : List Char × Phrase String)
    (parts : List (List Char × Phrase String)) (t : List Char) :
    joinedText kind (x :: parts) ++ t = x.1 ++ afterPart kind parts t := by
  rw [joinedText, afterPart, List.map_cons]
  split
  case _ h => rw [h, List.map_nil, List.intercalate_singleton]
  case _ h =>
    rw [List.intercalate_cons_of_ne_nil (List.map_eq_nil_iff.not.mpr h), List.append_assoc,
      List.append_assoc, joinedText]

/-- After a part comes a separator of the kind or what comes after all of them. -/
theorem mayFollow_afterPart {kind : Combinator} {t : List Char} (ht : MayFollow (precedence kind) t)
    (parts : List (List Char × Phrase String)) :
    MayFollow (operand kind).bound (afterPart kind parts t) := by
  rw [bound_operand, afterPart]
  split
  · exact ht.mono (Nat.le_succ _)
  · exact .separator kind _ (Nat.lt_succ_self _)

/-- Whether parts go on can be told from what follows, as no separator of the kind may follow the
last part. -/
theorem afterPart_inj {kind : Combinator} {t t' : List Char} (ht : MayFollow (precedence kind) t)
    (ht' : MayFollow (precedence kind) t') {parts parts' : List (List Char × Phrase String)}
    (h : afterPart kind parts t = afterPart kind parts' t') :
    parts = [] ∧ parts' = [] ∨
      parts ≠ [] ∧ parts' ≠ [] ∧ joinedText kind parts ++ t = joinedText kind parts' ++ t' := by
  rw [afterPart, afterPart] at h
  split at h <;> split at h
  case isTrue.isTrue hp hp' => exact .inl ⟨hp, hp'⟩
  case isTrue.isFalse => exact absurd (ht.precedence_lt h) (Nat.lt_irrefl _)
  case isFalse.isTrue => exact absurd (ht'.precedence_lt h.symm) (Nat.lt_irrefl _)
  case isFalse.isFalse hp hp' => exact .inr ⟨hp, hp', (separator_append_inj h).2⟩

/-- Texts of one kind with the same whole have the same parts, one after the other. -/
theorem joinedText_append_inj {kind : Combinator} {t t' : List Char}
    (ht : MayFollow (precedence kind) t) (ht' : MayFollow (precedence kind) t')
    {parts : List (List Char × Phrase String)}
    (hparts : ∀ x ∈ parts, Unambiguous (operand kind) x.1 x.2) :
    ∀ {parts' : List (List Char × Phrase String)}, parts ≠ [] → parts' ≠ [] →
      (∀ x ∈ parts', Reads (operand kind) x.1 x.2) →
      joinedText kind parts ++ t = joinedText kind parts' ++ t' → parts = parts' := by
  induction parts with
  | nil => exact fun hne => absurd rfl hne
  | cons x parts ih =>
    intro parts' _ hne' hparts' heq
    obtain ⟨y, parts', rfl⟩ := List.exists_cons_of_ne_nil hne'
    obtain ⟨hx, hparts⟩ := List.forall_mem_cons.mp hparts
    obtain ⟨hy, hparts'⟩ := List.forall_mem_cons.mp hparts'
    rw [joinedText_cons_append, joinedText_cons_append] at heq
    obtain ⟨htext, hphrase⟩ := hx hy (mayFollow_afterPart ht _) (mayFollow_afterPart ht' _) heq
    rw [htext, List.append_cancel_left_eq] at heq
    have hxy : x = y := Prod.ext htext hphrase
    rcases afterPart_inj ht ht' heq with ⟨rfl, rfl⟩ | ⟨hne, hne', hrest⟩
    · rw [hxy]
    · rw [hxy, ih hparts hne hne' hparts' hrest]

/-- A joined text is read as its parts, if each of them is read in one way. -/
theorem unambiguous_joined {kind : Combinator} {parts : List (List Char × Phrase String)}
    (hne : parts ≠ []) (ih : ∀ x ∈ parts, Unambiguous (operand kind) x.1 x.2) :
    Unambiguous (.joined kind) (joinedText kind parts) (.ofParts kind (parts.map Prod.snd)) := by
  intro ds q t t' hq ht ht' heq
  cases hq with
  | joined hne' hparts' =>
    obtain rfl := joinedText_append_inj ht ht' ih hne hne' hparts' heq
    exact ⟨rfl, rfl⟩

/-- No text of a category has two readings, nor does one text begin with another so that both stop
where a text of the category may. -/
theorem Reads.unambiguous {category : Category} {cs : List Char} {p : Phrase String}
    (h : Reads category cs p) : Unambiguous category cs p := by
  induction h with
  | atom h => exact unambiguous_atom h
  | parentheses _ ih => exact unambiguous_parentheses ih
  | joined hne _ ih => exact unambiguous_joined hne ih

/-- A part is read as a chain of one part. -/
theorem Reads.joined_of_operand {kind : Combinator} {cs : List Char} {p : Phrase String}
    (h : Reads (operand kind) cs p) : Reads (.joined kind) cs p := by
  have hread := Reads.joined (List.cons_ne_nil (cs, p) []) (by simpa using h)
  rwa [joinedText, List.map_singleton, List.intercalate_singleton] at hread

theorem Reads.operand_of_unit {cs : List Char} {p : Phrase String} (h : Reads .unit cs p)
    (kind : Combinator) : Reads (operand kind) cs p := by
  cases kind with
  | and => exact h
  | or =>
    have hand : Reads (operand .and) cs p := h
    exact hand.joined_of_operand

/-- A text stands for one phrase at most. -/
theorem Denotes.unique {text : String} {p q : Phrase String} (hp : Denotes text p)
    (hq : Denotes text q) : p = q :=
  (hp.unambiguous hq .nothing .nothing rfl).2

end RuleFlow.Infix

namespace RuleFlow

open Infix
open Logic (precedence)

/-! ## The text of a phrase -/

namespace Phrase

mutual

/-- The text of a phrase within a text that binds as tight as `outer`. -/
def text (outer : Nat) : Phrase String → List Char
  | .atom a => a.toList
  | .group kind parts =>
    let body := (separator kind).intercalate (textAll (precedence kind) parts)
    if precedence kind < outer then '(' :: (body ++ [')']) else body

def textAll (outer : Nat) : List (Phrase String) → List (List Char)
  | [] => []
  | p :: ps => p.text outer :: textAll outer ps

end

theorem textAll_eq_map (outer : Nat) (ps : List (Phrase String)) :
    textAll outer ps = ps.map (text outer) := by
  induction ps with
  | nil => rfl
  | cons p ps ih => rw [textAll, ih, List.map_cons]

/-- A group is written with its separator, in parentheses if it binds less tight than what is around
it. -/
theorem text_group (outer : Nat) (kind : Combinator) (parts : List (Phrase String)) :
    (group kind parts).text outer =
      if precedence kind < outer then
        '(' :: ((separator kind).intercalate (parts.map (text (precedence kind))) ++ [')'])
      else (separator kind).intercalate (parts.map (text (precedence kind))) := by
  rw [text, textAll_eq_map]

/-- Nothing binds less tight than `or`, so at the top it stands without parentheses. -/
theorem text_zero (p : Phrase String) : p.text 0 = p.text (precedence .or) := by
  cases p with
  | atom a => rfl
  | group kind parts =>
    have hor : ¬ precedence kind < precedence .or := by cases kind <;> decide
    rw [text_group, text_group, if_neg hor, if_neg (Nat.not_lt_zero _)]

/-- A group as the parts of the text between its parentheses. -/
theorem reads_body {kind : Combinator} {parts : List (Phrase String)} (htwo : 2 ≤ parts.length)
    (h : ∀ p ∈ parts, Reads (operand kind) (p.text (precedence kind)) p) :
    Reads (.joined kind) ((separator kind).intercalate (parts.map (text (precedence kind))))
      (.group kind parts) := by
  have hne : parts.map (fun p => (p.text (precedence kind), p)) ≠ [] := by
    rw [ne_eq, List.map_eq_nil_iff, ← List.length_eq_zero_iff]
    omega
  have hread : Reads (.joined kind) _ _ := .joined hne (List.forall_mem_map.mpr h)
  have htexts : (parts.map fun p => (p.text (precedence kind), p)).map Prod.fst =
      parts.map (text (precedence kind)) := List.map_map
  have hphrases : (parts.map fun p => (p.text (precedence kind), p)).map Prod.snd = parts := by
    rw [List.map_map]
    exact List.map_id parts
  rwa [joinedText, htexts, hphrases, ofParts_of_two_le htwo] at hread

/-- A merged phrase of plain atoms is read from its text among the parts of a group. -/
theorem Merged.reads_operand {p : Phrase String} (h : p.Merged) :
    (∀ a ∈ p.atoms, IsPlain a.toList) → ∀ kind, partsIn kind p = [p] →
      Reads (operand kind) (p.text (precedence kind)) p := by
  induction h with
  | atom a =>
    intro hplain kind _
    have hread := Reads.atom (hplain a (by simp [atoms]))
    rw [String.ofList_toList] at hread
    exact hread.operand_of_unit kind
  | @group k parts htwo _ hkind ih =>
    intro hplain kind hsingle
    have hbody := reads_body htwo fun q hq =>
      ih q hq (fun a ha => hplain a (mem_atomsOfAll.mpr ⟨q, hq, ha⟩)) k (hkind q hq)
    have hne : k ≠ kind := by
      rintro rfl
      rw [partsIn, if_pos rfl] at hsingle
      rw [hsingle] at htwo
      cases htwo with
      | step h => cases h
    rw [text_group]
    cases k with
    | and =>
      cases kind with
      | and => exact absurd rfl hne
      | or => exact hbody
    | or =>
      cases kind with
      | and => exact .parentheses hbody
      | or => exact absurd rfl hne

/-- A merged phrase of plain atoms is read from its text. -/
theorem Merged.reads {p : Phrase String} (h : p.Merged) (hplain : ∀ a ∈ p.atoms, IsPlain a.toList) :
    Reads (.joined .or) (p.text (precedence .or)) p := by
  cases h with
  | atom a => exact ((Merged.atom a).reads_operand hplain .or rfl).joined_of_operand
  | @group k parts htwo hparts hkind =>
    cases k with
    | and =>
      exact ((Merged.group htwo hparts hkind).reads_operand hplain .or rfl).joined_of_operand
    | or =>
      rw [text_group, if_neg (Nat.lt_irrefl _)]
      exact reads_body htwo fun q hq => (hparts q hq).reads_operand
        (fun a ha => hplain a (mem_atomsOfAll.mpr ⟨q, hq, ha⟩)) .or (hkind q hq)

/-! ## The text of what has been joined -/

theorem intercalate_append {α : Type} {sep : List α} {xss yss : List (List α)} (hxss : xss ≠ [])
    (hyss : yss ≠ []) : sep.intercalate (xss ++ yss) =
      sep.intercalate xss ++ sep ++ sep.intercalate yss := by
  induction xss with
  | nil => exact absurd rfl hxss
  | cons xs xss ih =>
    rw [List.cons_append]
    rcases Decidable.em (xss = []) with rfl | h
    · rw [List.nil_append, List.intercalate_cons_of_ne_nil hyss, List.intercalate_singleton]
    · rw [List.intercalate_cons_of_ne_nil (List.append_ne_nil_of_left_ne_nil h yss), ih h,
        List.intercalate_cons_of_ne_nil h]
      simp only [List.append_assoc]

/-- The parts that a phrase adds to a group make up its text there. -/
theorem intercalate_text_partsIn (kind : Combinator) (p : Phrase String) :
    (separator kind).intercalate ((partsIn kind p).map (text (precedence kind))) =
      p.text (precedence kind) := by
  cases p with
  | atom a => exact List.intercalate_singleton
  | group k parts =>
    rw [partsIn]
    split
    case isTrue hk => rw [hk, text_group, if_neg (Nat.lt_irrefl _)]
    case isFalse => exact List.intercalate_singleton

/-- Parts of parts of the same kind can be written as parts, with the same text. -/
theorem intercalate_text_flatMap (kind : Combinator) {ps : List (Phrase String)}
    (h : ∀ p ∈ ps, p.Merged) :
    (separator kind).intercalate ((ps.flatMap (partsIn kind)).map (text (precedence kind))) =
      (separator kind).intercalate (ps.map (text (precedence kind))) := by
  induction ps with
  | nil => rfl
  | cons p ps ih =>
    obtain ⟨hp, hps⟩ := List.forall_mem_cons.mp h
    rw [List.flatMap_cons, List.map_append, List.map_cons]
    rcases Decidable.em (ps = []) with rfl | hne
    · rw [List.flatMap_nil, List.map_nil, List.append_nil, intercalate_text_partsIn,
        List.intercalate_singleton]
    · have hfirst : (partsIn kind p).map (text (precedence kind)) ≠ [] :=
        List.map_eq_nil_iff.not.mpr (hp.partsIn_ne_nil kind)
      have hrest : (ps.flatMap (partsIn kind)).map (text (precedence kind)) ≠ [] :=
        List.map_eq_nil_iff.not.mpr (flatMap_partsIn_ne_nil hne hps)
      rw [intercalate_append hfirst hrest, ih hps, intercalate_text_partsIn,
        List.intercalate_cons_of_ne_nil (List.map_eq_nil_iff.not.mpr hne)]

end Phrase

/-! ## The text of a tree -/

namespace Logic

/-- A tree as a phrase about labels. -/
def labelPhrase (t : Logic) : Phrase String := t.phrase.map Condition.label

/-- The phrase of a group is that of its children, joined. -/
theorem labelPhrase_group (kind : Combinator) (children : List Logic) :
    (group kind children).labelPhrase = .join kind (children.map labelPhrase) := by
  rw [labelPhrase, phrase, phrases_eq_map, ← Phrase.join_map, List.map_map]
  rfl

theorem merged_labelPhrase {t : Logic} (h : t.NoEmptyGroup) : t.labelPhrase.Merged :=
  (merged_phrase h).map Condition.label

mutual

/-- The infix text of a tree is the text of its phrase. -/
theorem toList_infixWithin : ∀ (outer : Nat) {t : Logic}, t.NoEmptyGroup →
    (t.infixWithin outer).toList = t.labelPhrase.text outer
  | _, .leaf c, _ => rfl
  -- a group of one child reads as the child
  | outer, .group kind [t], h => by
    have ht := (noEmptyGroup_group.mp h).2 t List.mem_cons_self
    rw [infixWithin, labelPhrase_group, List.map_singleton, (merged_labelPhrase ht).join_singleton,
      toList_infixWithin outer ht]
  | outer, .group kind (t :: t' :: ts), h => by
    have hchildren := (noEmptyGroup_group.mp h).2
    have hmerged : ∀ p ∈ (t :: t' :: ts).map labelPhrase, p.Merged :=
      List.forall_mem_map.mpr fun u hu => merged_labelPhrase (hchildren u hu)
    have hsep : (" " ++ kind.word ++ " ").toList = separator kind := by simp [separator]
    have htwo : 2 ≤ (((t :: t' :: ts).map labelPhrase).flatMap (Phrase.partsIn kind)).length :=
      Nat.le_trans (by simp) (Phrase.length_le_length_flatMap_partsIn hmerged kind)
    have hbody : ((" " ++ kind.word ++ " ").intercalate
        (infixAll (precedence kind) (t :: t' :: ts))).toList =
          (separator kind).intercalate ((((t :: t' :: ts).map labelPhrase).flatMap
            (Phrase.partsIn kind)).map (Phrase.text (precedence kind))) := by
      rw [String.toList_intercalate, hsep, toList_infixAll (precedence kind) hchildren,
        Phrase.intercalate_text_flatMap kind hmerged, List.map_map]
      rfl
    rw [labelPhrase_group, Phrase.join, Phrase.ofParts_of_two_le htwo, Phrase.text_group, ← hbody,
      infixWithin]
    · split <;> simp
    · simp
  | _, .group _ [], h => absurd rfl (noEmptyGroup_group.mp h).1

theorem toList_infixAll : ∀ (outer : Nat) {ts : List Logic}, (∀ t ∈ ts, t.NoEmptyGroup) →
    (infixAll outer ts).map String.toList = ts.map fun t => t.labelPhrase.text outer
  | _, [], _ => rfl
  | outer, t :: ts, h => by
    obtain ⟨ht, hts⟩ := List.forall_mem_cons.mp h
    rw [infixAll, List.map_cons, List.map_cons, toList_infixWithin outer ht,
      toList_infixAll outer hts]

end

/-- The labels of the comparisons are plain texts. -/
def PlainLabels (t : Logic) : Prop := ∀ c ∈ t.conditions, IsPlain c.label.toList

instance (t : Logic) : Decidable t.PlainLabels :=
  inferInstanceAs (Decidable (∀ c ∈ t.conditions, IsPlain c.label.toList))

/-- The canonical form, in which a comparison is known by its label. -/
def canonicalLabels? (t : Logic) : Option (Phrase String) :=
  t.canonical?.map (Phrase.map Condition.label)

theorem canonicalLabels?_eq (t : Logic) : t.canonicalLabels? = t.normalize.map labelPhrase := by
  rw [canonicalLabels?, canonical?, Option.map_map]
  rfl

/-- The infix text is written from the canonical form. -/
theorem toList_infixText (t : Logic) :
    t.infixText.toList = t.canonicalLabels?.elim "always".toList (Phrase.text 0) := by
  rw [infixText, canonicalLabels?_eq]
  cases h : t.normalize with
  | none => rfl
  | some s => exact toList_infixWithin 0 (noEmptyGroup_normalize h)

/-- The canonical form is read from the infix text. -/
theorem denotes_infixText {t : Logic} (ht : t.PlainLabels) {p : Phrase String}
    (hp : t.canonicalLabels? = some p) : Denotes t.infixText p := by
  rw [canonicalLabels?_eq, Option.map_eq_some_iff] at hp
  obtain ⟨s, hs, rfl⟩ := hp
  have hplain : ∀ a ∈ s.labelPhrase.atoms, IsPlain a.toList := by
    rw [labelPhrase, Phrase.atoms_map, atoms_phrase, conditions_of_normalize hs,
      List.forall_mem_map]
    exact ht
  have htext : t.infixText.toList = s.labelPhrase.text (precedence .or) := by
    rw [toList_infixText, canonicalLabels?_eq, hs, ← Phrase.text_zero]
    rfl
  rw [Denotes, htext]
  exact (merged_labelPhrase (noEmptyGroup_normalize hs)).reads hplain

/-- Trees with plain labels have one text exactly if they have one canonical form of labels. -/
theorem infixText_eq_iff {t t' : Logic} (ht : t.PlainLabels) (ht' : t'.PlainLabels) :
    t.infixText = t'.infixText ↔ t.canonicalLabels? = t'.canonicalLabels? := by
  constructor
  · intro h
    have halways : t.canonicalLabels? = none ↔ t'.canonicalLabels? = none := by
      rw [canonicalLabels?_eq, canonicalLabels?_eq, Option.map_eq_none_iff, Option.map_eq_none_iff,
        ← infixText_eq_always_iff, ← infixText_eq_always_iff, h]
    cases hp : t.canonicalLabels? with
    | none => rw [halways.mp hp]
    | some p =>
      cases hp' : t'.canonicalLabels? with
      | none => rw [halways.mpr hp'] at hp; cases hp
      | some p' =>
        have hread := denotes_infixText ht hp
        rw [h] at hread
        rw [hread.unique (denotes_infixText ht' hp')]
  · intro h
    rw [← String.toList_inj, toList_infixText, toList_infixText, h]

/-- Canonical forms are told apart by labels that tell the comparisons apart. -/
theorem canonicalLabels?_eq_iff {t t' : Logic}
    (hlabel : ∀ c ∈ t.conditions, ∀ c' ∈ t'.conditions, c.label = c'.label → c = c') :
    t.canonicalLabels? = t'.canonicalLabels? ↔ t.canonical? = t'.canonical? := by
  refine ⟨fun h => ?_, fun h => by rw [canonicalLabels?, h, canonicalLabels?]⟩
  rw [canonicalLabels?, canonicalLabels?, canonical?, canonical?] at h
  rw [canonical?, canonical?]
  cases hs : t.normalize with
  | none => cases hs' : t'.normalize with
    | none => rfl
    | some s' => simp [hs, hs'] at h
  | some s => cases hs' : t'.normalize with
    | none => simp [hs, hs'] at h
    | some s' =>
      rw [← conditions_of_normalize hs, ← conditions_of_normalize hs', ← atoms_phrase,
        ← atoms_phrase] at hlabel
      rw [hs, hs'] at h
      simp only [Option.map_some, Option.some.injEq] at h ⊢
      exact Phrase.eq_of_map_eq hlabel h

/-- The infix text means the same as the tree, if comparisons are known by their labels.  What is
read from it is the canonical form and nothing else, so that trees have one text exactly if they
have one canonical form, and its truth value is that of the tree without its empty groups.  A text
shows of a comparison only the label: a comparison is what the label says, and if two trees have no
two comparisons of one label, their canonical forms can be compared themselves. -/
theorem infixText_means_canonical {t : Logic} (ht : t.PlainLabels) :
    (t.infixText = "always" ↔ t.conditions = []) ∧
    (∀ form, t.canonical? = some form → form.Merged ∧
      ∀ p, Denotes t.infixText p ↔ p = form.map Condition.label) ∧
    (∀ s, t.normalize = some s → ∀ (v : Condition → Bool) (w : String → Bool),
      (∀ c ∈ t.conditions, w c.label = v c) →
        ∀ p, Denotes t.infixText p → p.eval w = s.eval v) ∧
    ∀ t' : Logic, t'.PlainLabels →
      (t.infixText = t'.infixText ↔ t.canonicalLabels? = t'.canonicalLabels?) ∧
      ((∀ c ∈ t.conditions, ∀ c' ∈ t'.conditions, c.label = c'.label → c = c') →
        (t.infixText = t'.infixText ↔ t.canonical? = t'.canonical?)) := by
  refine ⟨?_, ?_, ?_, fun t' ht' => ⟨infixText_eq_iff ht ht', fun hlabel => ?_⟩⟩
  · rw [infixText_eq_always_iff, normalize_eq_none_iff]
  · intro form hform
    have hread : Denotes t.infixText (form.map Condition.label) :=
      denotes_infixText ht (by rw [canonicalLabels?, hform, Option.map_some])
    refine ⟨?_, fun p => ⟨fun hp => hp.unique hread, fun hp => hp ▸ hread⟩⟩
    rw [canonical?, Option.map_eq_some_iff] at hform
    obtain ⟨s, hs, rfl⟩ := hform
    exact merged_phrase (noEmptyGroup_normalize hs)
  · intro s hs v w hvw p hp
    have hread : Denotes t.infixText s.labelPhrase :=
      denotes_infixText ht (by rw [canonicalLabels?_eq, hs, Option.map_some])
    rw [hp.unique hread, labelPhrase, Phrase.eval_map, eval_phrase]
    rwa [atoms_phrase, conditions_of_normalize hs]
  · rw [infixText_eq_iff ht ht', canonicalLabels?_eq_iff hlabel]

/-- Groups of one child between AND and OR, and an empty group. -/
def nestedTree : Logic :=
  .group .and [.group .or [.group .and [.group .or [.leaf ⟨"paid", .equal, .bool true⟩,
    .leaf ⟨"total", .lessThan, .text "5"⟩]]], .group .or [],
    .group .or [.leaf ⟨"day", .equal, .null⟩]]

def plainTree : Logic :=
  .group .and [.group .or [.leaf ⟨"paid", .equal, .bool true⟩,
    .leaf ⟨"total", .lessThan, .text "5"⟩], .leaf ⟨"day", .equal, .null⟩]

theorem infixText_means_canonical_nestedTree :
    nestedTree.PlainLabels ∧ plainTree.PlainLabels ∧
    (∀ p, Denotes "(paid == true OR total < 5) AND day == null" p ↔
      p = .group .and [.group .or [.atom "paid == true", .atom "total < 5"], .atom "day == null"]) ∧
    (∀ p, Denotes nestedTree.infixText p → p.eval (· != "total < 5") = true) ∧
    nestedTree.canonical? = plainTree.canonical? := by
  have hnested : nestedTree.PlainLabels := by decide
  have hplain : plainTree.PlainLabels := by decide
  have htext : nestedTree.infixText = "(paid == true OR total < 5) AND day == null" := by decide
  obtain ⟨-, hforms, htruth, htrees⟩ := infixText_means_canonical hnested
  refine ⟨hnested, hplain, ?_, ?_, ?_⟩
  · rw [← htext]
    exact (hforms _ rfl).2
  · exact htruth _ rfl (fun c => c.field != "total") _ (by decide)
  · exact ((htrees plainTree hplain).2 (by decide)).mp (by decide)

/-- A total below the number 5. -/
def belowNumber : Condition := ⟨"total", .lessThan, .number (.ofNat 5)⟩

/-- A total below the text `5`. -/
def belowText : Condition := ⟨"total", .lessThan, .text "5"⟩

theorem label_belowNumber : belowNumber.label = belowText.label := by decide

/-- The infix text does not show whether a value is a number or a text.  Two comparisons that differ
in this have one text and two canonical forms, and no way to evaluate texts does justice to
assignments that tell the two apart. -/
theorem infixText_hides_values :
    (leaf belowNumber).PlainLabels ∧ (leaf belowText).PlainLabels ∧
    (leaf belowNumber).infixText = (leaf belowText).infixText ∧
    (leaf belowNumber).canonical? ≠ (leaf belowText).canonical? ∧
    ¬ ∃ value : String → (Condition → Bool) → Bool, ∀ t s : Logic,
      t.PlainLabels → t.normalize = some s → ∀ v, value t.infixText v = s.eval v := by
  have hne : belowNumber ≠ belowText := by decide
  have htext : (leaf belowNumber).infixText = (leaf belowText).infixText := label_belowNumber
  have hnumber : (leaf belowNumber).PlainLabels := by decide
  have hplain : (leaf belowText).PlainLabels := by decide
  refine ⟨hnumber, hplain, htext, fun h => ?_, ?_⟩
  · exact hne (Phrase.atom.inj (Option.some.inj h))
  · rintro ⟨value, hvalue⟩
    -- the text of both would have to hold for the one and to fail for the other
    have h := hvalue _ _ hnumber rfl (· = belowNumber)
    rw [htext, hvalue _ _ hplain rfl] at h
    simp [eval, hne.symm] at h

end Logic

end RuleFlow
