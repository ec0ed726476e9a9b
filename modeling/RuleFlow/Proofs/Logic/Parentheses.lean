import Mathlib.Algebra.Order.BigOperators.Group.List
import RuleFlow.Proofs.Logic.Infix

/-!
# The parentheses of infix texts

An infix text has the fewest parentheses of all texts that stand for the same phrase
(`Phrase.count_text_le`): the induction is on the reading, and what is compared is the text of the
merged phrase.  A matching pair of parentheses can be deleted from any text that is read, so that
the text is still read (`Reads.exists_place`).  The text without the pair therefore stands for
something else.
-/

namespace RuleFlow.Infix

open Logic (precedence)

/-! ## Matching parentheses -/

/-- As many parentheses are opened as closed, and none is closed before it is opened. -/
structure Balanced (cs : List Char) : Prop where
  closed : cs.count '(' = cs.count ')'
  opened : ∀ ds, ds <+: cs → ds.count ')' ≤ ds.count '('

instance (cs : List Char) : Decidable (Balanced cs) :=
  decidable_of_iff
    (cs.count '(' = cs.count ')' ∧ ∀ ds ∈ cs.inits, ds.count ')' ≤ ds.count '(')
    ⟨fun ⟨hclosed, hopened⟩ => ⟨hclosed, fun ds hds => hopened ds ((List.mem_inits ds cs).mpr hds)⟩,
      fun h => ⟨h.closed, fun ds hds => h.opened ds ((List.mem_inits ds cs).mp hds)⟩⟩

namespace Balanced

variable {cs ds a m b : List Char}

theorem of_not_mem (ho : '(' ∉ cs) (hc : ')' ∉ cs) : Balanced cs where
  closed := by rw [List.count_eq_zero.mpr ho, List.count_eq_zero.mpr hc]
  opened := by
    intro ds hds
    rw [List.count_eq_zero.mpr fun h => hc (hds.subset h)]
    exact Nat.zero_le _

theorem append (hcs : Balanced cs) (hds : Balanced ds) : Balanced (cs ++ ds) where
  closed := by rw [List.count_append, List.count_append, hcs.closed, hds.closed]
  opened := by
    intro es hes
    rcases List.prefix_or_prefix_of_prefix hes (List.prefix_append cs ds) with h | ⟨es, rfl⟩
    · exact hcs.opened es h
    · have hle := hds.opened es ((List.prefix_append_right_inj cs).mp hes)
      rw [List.count_append, List.count_append, hcs.closed]
      exact Nat.add_le_add_left hle _

theorem parentheses (h : Balanced cs) : Balanced ('(' :: (cs ++ [')'])) where
  closed := by simp [h.closed]
  opened := by
    intro ds hds
    rcases List.prefix_cons_iff.mp hds with rfl | ⟨es, rfl, hes⟩
    · exact Nat.le_refl _
    · rcases List.prefix_concat_iff.mp hes with rfl | hes
      · simp [h.closed]
      · have hle := h.opened es hes
        simp
        omega

/-- What follows an opening parenthesis closes more than it opens. -/
theorem count_lt (h : Balanced (a ++ '(' :: cs)) : cs.count '(' < cs.count ')' := by
  have hclosed := h.closed
  have hopened := h.opened a (List.prefix_append a _)
  simp only [List.count_append, List.count_cons] at hclosed
  simp at hclosed
  omega

/-- A matching pair in a text that begins with a balanced one is inside that one or behind it. -/
theorem pair_in_append (hcs : Balanced cs) (hm : Balanced m)
    (h : cs ++ ds = a ++ '(' :: (m ++ ')' :: b)) :
    (∃ b', cs = a ++ '(' :: (m ++ ')' :: b') ∧ b = b' ++ ds) ∨
      ∃ a', a = cs ++ a' ∧ ds = a' ++ '(' :: (m ++ ')' :: b) := by
  rcases List.append_eq_append_iff.mp h with ⟨a', rfl, rfl⟩ | ⟨e, rfl, he⟩
  · exact .inr ⟨a', rfl, rfl⟩
  · rcases List.cons_eq_append_iff.mp he with ⟨rfl, rfl⟩ | ⟨c, rfl, hc⟩
    · exact .inr ⟨[], by simp, rfl⟩
    · -- the pair is opened in the first text, so it is closed there
      have hlt := hcs.count_lt
      rcases List.append_eq_append_iff.mp hc with ⟨e, rfl, hb⟩ | ⟨e, rfl, rfl⟩
      · rcases List.cons_eq_append_iff.mp hb with ⟨rfl, rfl⟩ | ⟨b', rfl, rfl⟩
        · rw [List.append_nil, hm.closed] at hlt
          exact absurd hlt (Nat.lt_irrefl _)
        · exact .inl ⟨b', rfl, rfl⟩
      · exact absurd hlt (Nat.not_lt.mpr (hm.opened c (List.prefix_append c e)))

/-- A balanced text ends where it is closed. -/
theorem eq_of_append_closing (hcs : Balanced cs) (hm : Balanced m)
    (h : cs ++ [')'] = m ++ ')' :: b) : m = cs ∧ b = [] := by
  rcases List.append_eq_append_iff.mp h with ⟨e, rfl, he⟩ | ⟨e, rfl, he⟩
  · cases e with
    | nil => simpa using he
    | cons c e => simp at he
  · cases e with
    | nil => simpa using he
    | cons c e =>
      rw [List.cons_append, List.cons.injEq] at he
      obtain ⟨rfl, -⟩ := he
      have hopened := hcs.opened (m ++ [')']) (by simp)
      simp [hm.closed] at hopened

/-- A matching pair in a text in parentheses is that pair or is between its parentheses. -/
theorem pair_in_parentheses (hcs : Balanced cs) (hm : Balanced m)
    (h : '(' :: (cs ++ [')']) = a ++ '(' :: (m ++ ')' :: b)) :
    (a = [] ∧ m = cs ∧ b = []) ∨
      ∃ a' b', a = '(' :: a' ∧ b = b' ++ [')'] ∧ cs = a' ++ '(' :: (m ++ ')' :: b') := by
  cases a with
  | nil =>
    rw [List.nil_append, List.cons.injEq] at h
    exact .inl ⟨rfl, hcs.eq_of_append_closing hm h.2⟩
  | cons c a =>
    rw [List.cons_append, List.cons.injEq] at h
    obtain ⟨rfl, h⟩ := h
    rcases hcs.pair_in_append hm h with ⟨b', rfl, rfl⟩ | ⟨a', rfl, h'⟩
    · exact .inr ⟨a, b', rfl, rfl, rfl⟩
    · simp [List.singleton_eq_append_iff] at h'

end Balanced

/-! ## Where a pair stands -/

theorem balanced_separator (kind : Combinator) : Balanced (separator kind) := by
  cases kind <;> exact .of_not_mem (by decide) (by decide)

theorem IsPlain.balanced {cs : List Char} (h : IsPlain cs) : Balanced cs :=
  .of_not_mem h.opening h.closing

/-- What stands before a part. -/
def textBefore (kind : Combinator) (parts : List (List Char × Phrase String)) : List Char :=
  parts.flatMap fun x => x.1 ++ separator kind

theorem joinedText_cons (kind : Combinator) (x : List Char × Phrase String)
    (parts : List (List Char × Phrase String)) :
    joinedText kind (x :: parts) = x.1 ++ afterPart kind parts [] := by
  rw [← joinedText_cons_append, List.append_nil]

@[simp]
theorem afterPart_nil (kind : Combinator) : afterPart kind [] [] = [] := rfl

/-- Behind a part stands a separator with the other parts. -/
theorem afterPart_cons (kind : Combinator) (x : List Char × Phrase String)
    (parts : List (List Char × Phrase String)) :
    afterPart kind (x :: parts) [] = separator kind ++ joinedText kind (x :: parts) := by
  rw [afterPart, if_neg (List.cons_ne_nil x parts), List.append_nil]

/-- The text of parts, seen from one of them. -/
theorem joinedText_append_cons (kind : Combinator) (xs ys : List (List Char × Phrase String))
    (x : List Char × Phrase String) :
    joinedText kind (xs ++ x :: ys) = textBefore kind xs ++ (x.1 ++ afterPart kind ys []) := by
  induction xs with
  | nil => exact joinedText_cons kind x ys
  | cons y xs ih =>
    obtain ⟨z, zs, hzs⟩ := List.exists_cons_of_ne_nil (List.append_ne_nil_of_right_ne_nil xs
      (List.cons_ne_nil x ys))
    rw [List.cons_append, joinedText_cons, hzs, afterPart_cons, ← hzs, ih]
    simp only [textBefore, List.flatMap_cons, List.append_assoc]

theorem balanced_joinedText {kind : Combinator} {parts : List (List Char × Phrase String)}
    (h : ∀ x ∈ parts, Balanced x.1) : Balanced (joinedText kind parts) := by
  induction parts with
  | nil => exact .of_not_mem List.not_mem_nil List.not_mem_nil
  | cons x parts ih =>
    obtain ⟨hx, hparts⟩ := List.forall_mem_cons.mp h
    rw [joinedText_cons]
    cases parts with
    | nil => simpa using hx
    | cons y parts =>
      rw [afterPart_cons]
      exact hx.append ((balanced_separator kind).append (ih hparts))

/-- A matching pair in the text of parts is in one of the parts. -/
theorem pair_in_joinedText {kind : Combinator} {parts : List (List Char × Phrase String)}
    (hparts : ∀ x ∈ parts, Balanced x.1) {m : List Char} (hm : Balanced m) {b : List Char} :
    ∀ {a : List Char}, joinedText kind parts = a ++ '(' :: (m ++ ')' :: b) →
      ∃ xs x ys a' b', parts = xs ++ x :: ys ∧ x.1 = a' ++ '(' :: (m ++ ')' :: b') ∧
        a = textBefore kind xs ++ a' ∧ b = b' ++ afterPart kind ys [] := by
  induction parts with
  | nil =>
    intro a h
    simp [joinedText] at h
  | cons x parts ih =>
    intro a h
    obtain ⟨hx, hparts⟩ := List.forall_mem_cons.mp hparts
    rw [joinedText_cons] at h
    rcases hx.pair_in_append hm h with ⟨b', hx', rfl⟩ | ⟨a', rfl, hrest⟩
    · exact ⟨[], x, parts, a, b', rfl, hx', rfl, rfl⟩
    · cases parts with
      | nil => simp at hrest
      | cons y parts =>
        rw [afterPart_cons] at hrest
        rcases (balanced_separator kind).pair_in_append hm hrest with
          ⟨b', hsep, -⟩ | ⟨a'', rfl, htail⟩
        · have hmem : '(' ∈ separator kind := by simp [hsep]
          cases kind <;> simp [separator, Combinator.word] at hmem
        · obtain ⟨xs, z, ys, a', b', hsplit, hz, rfl, rfl⟩ := ih hparts htail
          refine ⟨x :: xs, z, ys, a', b', by rw [hsplit, List.cons_append], hz, ?_, rfl⟩
          simp [textBefore]

/-- A text that is read is balanced. -/
theorem Reads.balanced {category : Category} {cs : List Char} {p : Phrase String}
    (h : Reads category cs p) : Balanced cs := by
  induction h with
  | atom h => exact h.balanced
  | parentheses _ ih => exact ih.parentheses
  | joined _ _ ih => exact balanced_joinedText ih

/-! ## Texts without a pair -/

/-- A text that stands for something. -/
def Readable (cs : List Char) : Prop := ∃ p, Reads (.joined .or) cs p

/-- A text of any category is a whole text. -/
theorem Reads.whole {category : Category} {cs : List Char} {p : Phrase String}
    (h : Reads category cs p) : Reads (.joined .or) cs p := by
  cases category with
  | unit => exact (h.operand_of_unit .or).joined_of_operand
  | joined kind =>
    cases kind with
    | and =>
      have hor : Reads (operand .or) cs p := h
      exact hor.joined_of_operand
    | or => exact h

theorem Reads.readable {category : Category} {cs : List Char} {p : Phrase String}
    (h : Reads category cs p) : Readable cs :=
  ⟨p, h.whole⟩

/-- Two texts of a kind make up one. -/
theorem Reads.append {kind : Combinator} {cs ds : List Char} {p q : Phrase String}
    (hcs : Reads (.joined kind) cs p) (hds : Reads (.joined kind) ds q) :
    ∃ r, Reads (.joined kind) (cs ++ (separator kind ++ ds)) r := by
  cases hcs with
  | @joined _ xs hxs hx =>
    cases hds with
    | @joined _ ys hys hy =>
      have hread := Reads.joined (List.append_ne_nil_of_left_ne_nil hxs ys)
        (List.forall_mem_append.mpr ⟨hx, hy⟩)
      rw [joinedText, List.map_append, Phrase.intercalate_append (List.map_eq_nil_iff.not.mpr hxs)
        (List.map_eq_nil_iff.not.mpr hys), List.append_assoc] at hread
      exact ⟨_, hread⟩

/-- Texts that are read can be joined by any word. -/
theorem Readable.append {cs ds : List Char} (hcs : Readable cs) (hds : Readable ds)
    (kind : Combinator) : Readable (cs ++ (separator kind ++ ds)) := by
  obtain ⟨p, hp⟩ := hcs
  obtain ⟨q, hq⟩ := hds
  cases kind with
  | or => exact hp.append hq
  | and =>
    -- the last alternative of the one and the first of the other become one alternative
    cases hp with
    | @joined _ xs hxs hx =>
      cases hq with
      | @joined _ ys hys hy =>
        obtain ⟨xs, x, rfl⟩ := (List.eq_nil_or_concat' xs).resolve_left hxs
        obtain ⟨y, ys, rfl⟩ := List.exists_cons_of_ne_nil hys
        rw [List.forall_mem_append, List.forall_mem_singleton] at hx
        rw [List.forall_mem_cons] at hy
        have hlast : Reads (.joined .and) x.1 x.2 := hx.2
        obtain ⟨r, hr⟩ := hlast.append hy.1
        have hread : Reads (.joined .or) _ _ :=
          .joined (List.append_ne_nil_of_right_ne_nil xs (List.cons_ne_nil (_, r) ys))
            (List.forall_mem_append.mpr ⟨hx.1, List.forall_mem_cons.mpr ⟨hr, hy.2⟩⟩)
        have htext : joinedText .or (xs ++ [x]) ++ (separator .and ++ joinedText .or (y :: ys)) =
            joinedText .or (xs ++ (x.1 ++ (separator .and ++ y.1), r) :: ys) := by
          rw [joinedText_append_cons, joinedText_append_cons, joinedText_cons]
          simp only [afterPart_nil, List.append_nil, List.append_assoc]
        rw [htext]
        exact ⟨_, hread⟩

theorem Readable.textBefore_append {kind : Combinator} {xs : List (List Char × Phrase String)}
    (hxs : ∀ x ∈ xs, Reads (operand kind) x.1 x.2) {cs : List Char} (hcs : Readable cs) :
    Readable (textBefore kind xs ++ cs) := by
  induction xs with
  | nil => exact hcs
  | cons x xs ih =>
    obtain ⟨hx, hxs⟩ := List.forall_mem_cons.mp hxs
    have hread := hx.readable.append (ih hxs) kind
    simpa only [textBefore, List.flatMap_cons, List.append_assoc] using hread

theorem Readable.append_afterPart {kind : Combinator} {xs : List (List Char × Phrase String)}
    (hxs : ∀ x ∈ xs, Reads (operand kind) x.1 x.2) {cs : List Char} (hcs : Readable cs) :
    Readable (cs ++ afterPart kind xs []) := by
  cases xs with
  | nil => simpa using hcs
  | cons x xs =>
    rw [afterPart_cons]
    exact hcs.append (Reads.joined (List.cons_ne_nil x xs) hxs).readable kind

/-- What may stand between `a` and `b` in a text that stands for `p`: a unit for `r` leaves the
meaning as it is, and any text that is read leaves a text that is read. -/
structure Place (category : Category) (p r : Phrase String) (a b : List Char) : Prop where
  unit : ∀ {ds}, Reads .unit ds r → Reads category (a ++ (ds ++ b)) p
  readable : ∀ {ds}, Readable ds → Readable (a ++ (ds ++ b))

namespace Place

variable {p r : Phrase String} {a b : List Char}

theorem whole : Place .unit r r [] [] where
  unit := by
    intro ds h
    rwa [List.append_nil]
  readable := by
    intro ds h
    rwa [List.append_nil]

theorem parentheses (h : Place (.joined .or) p r a b) :
    Place .unit p r ('(' :: a) (b ++ [')']) where
  unit := by
    intro ds hds
    have hread := Reads.parentheses (h.unit hds)
    simpa only [List.cons_append, List.append_assoc] using hread
  readable := by
    intro ds hds
    obtain ⟨q, hq⟩ := h.readable hds
    have hread := (Reads.parentheses hq).readable
    simpa only [List.cons_append, List.append_assoc] using hread

theorem joined {kind : Combinator} {xs ys : List (List Char × Phrase String)}
    (hxs : ∀ x ∈ xs, Reads (operand kind) x.1 x.2) (hys : ∀ y ∈ ys, Reads (operand kind) y.1 y.2)
    (h : Place (operand kind) p r a b) :
    Place (.joined kind) (.ofParts kind (xs.map Prod.snd ++ p :: ys.map Prod.snd)) r
      (textBefore kind xs ++ a) (b ++ afterPart kind ys []) where
  unit := by
    intro ds hds
    have hread : Reads (.joined kind) _ _ :=
      .joined (List.append_ne_nil_of_right_ne_nil xs (List.cons_ne_nil (a ++ (ds ++ b), p) ys))
        (List.forall_mem_append.mpr ⟨hxs, List.forall_mem_cons.mpr ⟨h.unit hds, hys⟩⟩)
    rw [joinedText_append_cons, List.map_append, List.map_cons] at hread
    simpa only [List.append_assoc] using hread
  readable := by
    intro ds hds
    have hread := ((h.readable hds).append_afterPart hys).textBefore_append hxs
    simpa only [List.append_assoc] using hread

end Place

/-- The text in a matching pair of parentheses stands for something of its own. -/
theorem Reads.exists_place {category : Category} {cs : List Char} {p : Phrase String}
    (h : Reads category cs p) {m : List Char} (hm : Balanced m) :
    ∀ {a b : List Char}, cs = a ++ '(' :: (m ++ ')' :: b) →
      ∃ r, Reads (.joined .or) m r ∧ Place category p r a b := by
  induction h with
  | atom hplain =>
    intro a b hcs
    exact absurd (by simp [hcs]) hplain.opening
  | @parentheses cs p hread ih =>
    intro a b hcs
    rcases hread.balanced.pair_in_parentheses hm hcs with
      ⟨rfl, rfl, rfl⟩ | ⟨a', b', rfl, rfl, hbody⟩
    · exact ⟨p, hread, .whole⟩
    · obtain ⟨r, hr, hplace⟩ := ih hbody
      exact ⟨r, hr, hplace.parentheses⟩
  | @joined kind parts _ hparts ih =>
    intro a b hcs
    obtain ⟨xs, x, ys, a', b', rfl, hx, rfl, rfl⟩ :=
      pair_in_joinedText (fun x hx => (hparts x hx).balanced) hm hcs
    obtain ⟨hxs, -, hys⟩ := by
      simpa only [List.forall_mem_append, List.forall_mem_cons] using hparts
    obtain ⟨r, hr, hplace⟩ := ih x (by simp) hx
    refine ⟨r, hr, ?_⟩
    rw [List.map_append, List.map_cons]
    exact hplace.joined hxs hys

end RuleFlow.Infix

namespace RuleFlow

open Infix
open Logic (precedence)

/-! ## Counting parentheses -/

namespace Phrase

/-- The text of a phrase has the more parentheses the tighter the text around it binds. -/
theorem count_text_mono {m n : Nat} (h : m ≤ n) (p : Phrase String) :
    (p.text m).count '(' ≤ (p.text n).count '(' := by
  cases p with
  | atom a => exact Nat.le_refl _
  | group kind parts =>
    rw [text_group, text_group]
    split <;> split
    · exact Nat.le_refl _
    · omega
    · simp
    · exact Nat.le_refl _

/-- The text around a phrase decides on one pair of parentheses only. -/
theorem count_text_le_succ (m n : Nat) (p : Phrase String) :
    (p.text m).count '(' ≤ (p.text n).count '(' + 1 := by
  cases p with
  | atom a => exact Nat.le_succ _
  | group kind parts =>
    rw [text_group, text_group]
    split
    · split <;> simp
    · split
      · simp
        omega
      · simp

theorem count_intercalate (kind : Combinator) (texts : List (List Char)) :
    ((separator kind).intercalate texts).count '(' = (texts.map (List.count '(')).sum := by
  have hsep : (separator kind).count '(' = 0 := by cases kind <;> decide
  induction texts with
  | nil => rfl
  | cons cs texts ih =>
    rcases Decidable.em (texts = []) with rfl | hne
    · simp
    · rw [List.intercalate_cons_of_ne_nil hne, List.count_append, List.count_append, hsep, ih,
        List.map_cons, List.sum_cons, Nat.add_zero]

theorem text_ofParts {kind : Combinator} : ∀ {ps : List (Phrase String)}, ps ≠ [] →
    (ofParts kind ps).text (precedence kind) =
      (separator kind).intercalate (ps.map (text (precedence kind)))
  | [], h => absurd rfl h
  | [p], _ => List.intercalate_singleton.symm
  | p :: q :: ps, _ => by rw [ofParts_of_two_le (by simp), text_group, if_neg (Nat.lt_irrefl _)]

/-- The text of what has been joined. -/
theorem text_join {kind : Combinator} {ps : List (Phrase String)} (hne : ps ≠ [])
    (h : ∀ p ∈ ps, p.Merged) : (join kind ps).text (precedence kind) =
      (separator kind).intercalate (ps.map (text (precedence kind))) := by
  rw [join, text_ofParts (flatMap_partsIn_ne_nil hne h), intercalate_text_flatMap kind h]

/-- What is read from a text can be merged, and its text then has no more parentheses. -/
theorem count_text_le {category : Category} {cs : List Char} {p : Phrase String}
    (h : Reads category cs p) :
    p.merge.Merged ∧ (p.merge.text category.bound).count '(' ≤ cs.count '(' := by
  induction h with
  | @atom cs _ =>
    refine ⟨.atom _, ?_⟩
    rw [merge, text, String.toList_ofList]
  | @parentheses cs p _ ih =>
    obtain ⟨hmerged, hle⟩ := ih
    refine ⟨hmerged, (count_text_le_succ _ (Category.joined .or).bound _).trans ?_⟩
    simpa using hle
  | @joined kind parts hne _ ih =>
    have hparts : ∀ p ∈ parts.map Prod.snd, p.merge.Merged :=
      List.forall_mem_map.mpr fun x hx => (ih x hx).1
    have hmerges : ∀ p ∈ (parts.map Prod.snd).map merge, p.Merged := List.forall_mem_map.mpr hparts
    have hne' : (parts.map Prod.snd).map merge ≠ [] := by simpa using hne
    rw [merge_ofParts kind hparts]
    refine ⟨merged_join hne' hmerges, ?_⟩
    rw [Category.bound, text_join hne' hmerges, joinedText, count_intercalate, count_intercalate]
    simp only [List.map_map]
    refine List.sum_le_sum fun x hx => (count_text_mono ?_ _).trans (ih x hx).2
    rw [bound_operand]
    exact Nat.le_succ _

end Phrase

namespace Logic

variable {t : Logic} {text : String} {p q : Phrase String}

theorem merged_of_canonicalLabels? (h : t.canonicalLabels? = some p) : p.Merged := by
  rw [canonicalLabels?_eq, Option.map_eq_some_iff] at h
  obtain ⟨s, hs, rfl⟩ := h
  exact merged_labelPhrase (noEmptyGroup_normalize hs)

/-- Of the texts that stand for a tree, its infix text has the fewest parentheses. -/
theorem count_infixText_le (hq : Denotes text q) (h : t.canonicalLabels? = some q.merge) :
    t.infixText.toList.count '(' ≤ text.toList.count '(' := by
  rw [toList_infixText, h, Option.elim_some, Phrase.text_zero]
  exact (Phrase.count_text_le hq).2

theorem balanced_infixText (ht : t.PlainLabels) : Balanced t.infixText.toList := by
  cases hp : t.canonicalLabels? with
  | none =>
    rw [toList_infixText, hp]
    decide
  | some p => exact (denotes_infixText ht hp).balanced

/-- The text of a tree that vanishes has no parentheses. -/
theorem exists_canonicalLabels? (h : '(' ∈ t.infixText.toList) :
    ∃ p, t.canonicalLabels? = some p := by
  cases hp : t.canonicalLabels? with
  | none =>
    rw [toList_infixText, hp, Option.elim_none] at h
    simp at h
  | some p => exact ⟨p, rfl⟩

/-- All parentheses of an infix text are needed.  They match, and without any matching pair the text
stands for one phrase only, which is not the tree, also when groups of one kind are merged.  No pair
is around the whole text, and none is around a plain text alone, such as a label. -/
theorem infixText_parentheses_needed (ht : t.PlainLabels) :
    Balanced t.infixText.toList ∧
    ∀ a m b, t.infixText = a ++ "(" ++ m ++ ")" ++ b → Balanced m.toList →
      (∃ q, (∀ p, Denotes (a ++ m ++ b) p ↔ p = q) ∧ t.canonicalLabels? ≠ some q.merge) ∧
        ¬ (a = "" ∧ b = "") ∧ ¬ IsPlain m.toList := by
  refine ⟨balanced_infixText ht, ?_⟩
  intro a m b h hm
  have hlist : t.infixText.toList = a.toList ++ '(' :: (m.toList ++ ')' :: b.toList) := by
    simp [h]
  obtain ⟨p, hp⟩ := exists_canonicalLabels? (t := t) (by simp [hlist])
  have hread := denotes_infixText ht hp
  obtain ⟨r, hr, hplace⟩ := hread.exists_place hm hlist
  obtain ⟨q, hq⟩ := hplace.readable ⟨r, hr⟩
  have hdenotes : Denotes (a ++ m ++ b) q := by
    simpa [Denotes] using hq
  have hne : t.canonicalLabels? ≠ some q.merge := by
    intro heq
    have hle := count_infixText_le hdenotes heq
    simp [h] at hle
  -- what is read without the pair is not what is read with it
  have hother : ¬ Denotes (a ++ m ++ b) p := by
    intro hsame
    rw [hdenotes.unique hsame, (merged_of_canonicalLabels? hp).merge_eq] at hne
    exact hne hp
  refine ⟨⟨q, fun p => ⟨fun hp => hp.unique hdenotes, fun hpq => hpq ▸ hdenotes⟩, hne⟩, ?_, ?_⟩
  · rintro ⟨rfl, rfl⟩
    have hwhole : Denotes t.infixText r := by
      rw [Denotes, hlist]
      exact (Reads.parentheses hr).whole
    refine hother ?_
    rw [hread.unique hwhole]
    simpa [Denotes] using hr
  · intro hplain
    have hatom : Reads .unit m.toList (.atom (String.ofList m.toList)) := .atom hplain
    have hrm : Denotes m r := hr
    rw [← hrm.unique hatom.whole] at hatom
    have hsame := hplace.unit hatom
    exact hother (by simpa [Denotes] using hsame)

/-- In the text of this tree one pair is needed. -/
theorem infixText_parentheses_needed_nestedTree :
    nestedTree.PlainLabels ∧
    nestedTree.infixText = "" ++ "(" ++ "paid == true OR total < 5" ++ ")" ++ " AND day == null" ∧
    ∃ q, (∀ p, Denotes "paid == true OR total < 5 AND day == null" p ↔ p = q) ∧
      nestedTree.canonicalLabels? ≠ some q.merge := by
  have hplain : nestedTree.PlainLabels := by decide
  have htext : nestedTree.infixText =
      "" ++ "(" ++ "paid == true OR total < 5" ++ ")" ++ " AND day == null" := by
    decide
  obtain ⟨-, hpairs⟩ := infixText_parentheses_needed hplain
  exact ⟨hplain, htext,
    (hpairs "" "paid == true OR total < 5" " AND day == null" htext (by decide)).1⟩

end Logic

end RuleFlow
