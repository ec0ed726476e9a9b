import Mathlib.Data.List.Forall2
import Mathlib.Data.String.Basic
import RuleFlow.Json.Record
import RuleFlow.Proofs.Json.Lexeme

/-!
# Readers of what is written

`Step.Reads` says that a step takes the text of a value for its meaning, whatever follows the text
and whatever has been set aside.
-/

namespace RuleFlow.Json

variable {α β : Type} {s rest : List Char} {aside : List Json} {ch : Char} {v : Json} {a : α}

/-! ## Single steps -/

namespace Step

/-- Of two steps the second goes on from the cursor of the first, unless that has a fault. -/
@[simp]
theorem bind_run (step : Step α) (f : α → Step β) (c : Cursor) :
    (step >>= f) c = match step c with
      | .ok a c => f a c
      | .error e c => .error e c := by
  change EStateM.bind step f c = _
  rw [EStateM.bind]
  cases step c <;> rfl

/-- A function of the result leaves the cursor where the step has put it. -/
@[simp]
theorem map_run (f : α → β) (step : Step α) (c : Cursor) :
    (f <$> step) c = match step c with
      | .ok a c => .ok (f a) c
      | .error e c => .error e c := by
  change EStateM.map f step c = _
  rw [EStateM.map]
  cases step c <;> rfl

@[simp]
theorem pure_run (a : α) (c : Cursor) : (pure a : Step α) c = .ok a c := rfl

@[simp]
theorem get_run (c : Cursor) : (get : Step Cursor) c = .ok c c := rfl

@[simp]
theorem next_nil : next ⟨[], aside⟩ = .ok none ⟨[], aside⟩ := rfl

/-- A character that is no blank is seen and not consumed. -/
theorem next_cons (h : isBlankChar ch = false) :
    next ⟨ch :: s, aside⟩ = .ok (some ch) ⟨ch :: s, aside⟩ := by
  simp [next, skipBlanks, h]

@[simp]
theorem take_cons : take ⟨ch :: s, aside⟩ = .ok () ⟨s, aside⟩ := rfl

theorem lex_of_ok {lexer : Lexer α} (h : lexer s = .ok (a, rest)) :
    lex lexer ⟨s, aside⟩ = .ok a ⟨rest, aside⟩ := by
  rw [lex, h]

/-! ### Brackets, commas and colons -/

/-- A closing bracket ends the items, before the first one or after any. -/
@[simp]
theorem hasItem_end (first : Bool) :
    hasItem first ⟨']' :: s, aside⟩ = .ok false ⟨']' :: s, aside⟩ := by
  simp [hasItem, next_cons, isBlankChar]

/-- Before the first item there is no comma. -/
theorem hasItem_first (h : isBlankChar ch = false) (hend : ch ≠ ']') :
    hasItem true ⟨ch :: s, aside⟩ = .ok true ⟨ch :: s, aside⟩ := by
  simp [hasItem, next_cons h]

/-- Before any other item there is one, and no closing bracket may come after it. -/
theorem hasItem_comma (h : isBlankChar ch = false) (hend : ch ≠ ']') :
    hasItem false ⟨',' :: ch :: s, aside⟩ = .ok true ⟨ch :: s, aside⟩ := by
  have hcomma : isBlankChar ',' = false := rfl
  simp [hasItem, next_cons h, next_cons hcomma]

@[simp]
theorem closeArray_run : closeArray ⟨']' :: s, aside⟩ = .ok () ⟨s, aside⟩ := by
  simp [closeArray, next_cons, isBlankChar]

@[simp]
theorem hasMember_end (first : Bool) :
    hasMember first ⟨'\x7d' :: s, aside⟩ = .ok false ⟨'\x7d' :: s, aside⟩ := by
  simp [hasMember, next_cons, isBlankChar]

@[simp]
theorem hasMember_first (k : String) :
    hasMember true ⟨quote k ++ s, aside⟩ = .ok true ⟨quote k ++ s, aside⟩ := by
  simp [hasMember, quote, next_cons, isBlankChar]

@[simp]
theorem hasMember_comma (k : String) :
    hasMember false ⟨',' :: (quote k ++ s), aside⟩ = .ok true ⟨quote k ++ s, aside⟩ := by
  simp [hasMember, quote, next_cons, isBlankChar]

@[simp]
theorem closeObject_run : closeObject ⟨'\x7d' :: s, aside⟩ = .ok () ⟨s, aside⟩ := by
  simp [closeObject, next_cons, isBlankChar]

@[simp]
theorem colon_run : colon ⟨':' :: s, aside⟩ = .ok () ⟨s, aside⟩ := by
  simp [colon, next_cons, isBlankChar]

/-- A key is read from its quotation, up to the closing quote. -/
@[simp]
theorem key_quote (k : String) : key ⟨quote k ++ s, aside⟩ = .ok k ⟨s, aside⟩ := by
  simp [key, quote, lex_of_ok (readString_quote k)]

end Step

/-! ## Values of arrays and objects -/

open Step

/-- The step takes the text of a value and gives `a`, whatever follows the text. It may set values
aside. -/
structure Step.Reads (step : Step α) (v : Json) (a : α) : Prop where
  head : ∃ ch s, v.compact = ch :: s ∧ isBlankChar ch = false ∧ ch ≠ ']'
  run : ∀ rest aside, Follows rest →
    ∃ aside', step ⟨v.compact ++ rest, aside⟩ = .ok a ⟨rest, aside'⟩

/-- A step that sets nothing aside. -/
theorem Step.Reads.of_run {step : Step α} (hcompact : v.compact = ch :: s)
    (hblank : isBlankChar ch = false) (hend : ch ≠ ']')
    (hrun : ∀ rest aside, Follows rest → step ⟨v.compact ++ rest, aside⟩ = .ok a ⟨rest, aside⟩) :
    step.Reads v a :=
  ⟨⟨ch, s, hcompact, hblank, hend⟩, fun rest aside hrest => ⟨aside, hrun rest aside hrest⟩⟩

/-- What is done with a value that has been read, without reading on. -/
theorem Step.Reads.bind {step : Step α} {f : α → Step β} {b : β} (h : step.Reads v a)
    (hf : ∀ rest aside, ∃ aside', f a ⟨rest, aside⟩ = .ok b ⟨rest, aside'⟩) :
    (step >>= f).Reads v b := by
  refine ⟨h.head, fun rest aside hrest => ?_⟩
  obtain ⟨aside₁, hrun⟩ := h.run rest aside hrest
  obtain ⟨aside₂, hf⟩ := hf rest aside₁
  exact ⟨aside₂, by rw [bind_run, hrun]; exact hf⟩

/-- The items of an array and its end. -/
def itemsText : List Json → List Char
  | [] => [']']
  | v :: vs => v.compact ++ compactItems vs

/-- The members of an object and its end. -/
def membersText : List (String × Json) → List Char
  | [] => ['\x7d']
  | (k, v) :: ms => quote k ++ ':' :: v.compact ++ compactMembers ms

theorem compact_array (vs : List Json) : (Json.array vs).compact = '[' :: itemsText vs := by
  cases vs <;> simp [compact, itemsText]

theorem compact_object (ms : List (String × Json)) :
    (Json.object ms).compact = '\x7b' :: membersText ms := by
  rcases ms with _ | ⟨⟨k, v⟩, ms⟩ <;> simp [compact, membersText]

/-- After an item comes a comma or the closing bracket, neither of which carries a number on. -/
theorem follows_compactItems (vs : List Json) : Follows (compactItems vs ++ rest) := by
  cases vs <;> simp [compactItems, Follows]

theorem follows_compactMembers (ms : List (String × Json)) :
    Follows (compactMembers ms ++ rest) := by
  rcases ms with _ | ⟨⟨k, v⟩, ms⟩ <;> simp [compactMembers, Follows]

/-- Every item takes a character at least, so the length of the text is fuel enough for all of
them. -/
theorem length_lt_compactItems (vs : List Json) : vs.length < (compactItems vs).length := by
  induction vs with
  | nil => simp [compactItems]
  | cons v vs ih => simp [compactItems]; omega

theorem length_lt_compactMembers (ms : List (String × Json)) :
    ms.length < (compactMembers ms).length := by
  induction ms with
  | nil => simp [compactMembers]
  | cons m ms ih => simp [compactMembers]; omega

/-- After the first item, the others are read one by one, by induction on the values. -/
theorem itemsFrom_compactItems {item : Step α} {vs : List Json} {as : List α}
    (h : List.Forall₂ item.Reads vs as) {fuel : ℕ} (hfuel : vs.length < fuel) (acc : List α)
    (aside : List Json) :
    ∃ aside', itemsFrom item fuel false acc ⟨compactItems vs ++ rest, aside⟩ =
      .ok (acc.reverse ++ as) ⟨']' :: rest, aside'⟩ := by
  induction h generalizing fuel acc aside with
  | nil =>
    obtain ⟨fuel, rfl⟩ := Nat.exists_eq_add_one_of_ne_zero (by omega : fuel ≠ 0)
    exact ⟨aside, by simp [itemsFrom, compactItems]⟩
  | @cons v a vs as hv hvs ih =>
    obtain ⟨fuel, rfl⟩ := Nat.exists_eq_add_one_of_ne_zero (by omega : fuel ≠ 0)
    obtain ⟨⟨ch, s, hcompact, hblank, hend⟩, hrun⟩ := hv
    obtain ⟨aside₁, hread⟩ := hrun (compactItems vs ++ rest) aside (follows_compactItems vs)
    rw [hcompact, List.cons_append] at hread
    have hlen : vs.length < fuel := by simpa using hfuel
    obtain ⟨aside₂, hitems⟩ := ih hlen (a :: acc) aside₁
    refine ⟨aside₂, ?_⟩
    simp [itemsFrom, compactItems, hcompact, hasItem_comma hblank hend, hread, hitems]

/-- The items of an array are read up to the closing bracket. -/
theorem items_itemsText {item : Step α} {vs : List Json} {as : List α}
    (h : List.Forall₂ item.Reads vs as) (rest : List Char) (aside : List Json) :
    ∃ aside', items item ⟨itemsText vs ++ rest, aside⟩ = .ok as ⟨']' :: rest, aside'⟩ := by
  cases h with
  | nil => exact ⟨aside, by simp [items, itemsFrom, itemsText]⟩
  | @cons v a vs as hv hvs =>
    obtain ⟨⟨ch, s, hcompact, hblank, hend⟩, hrun⟩ := hv
    obtain ⟨aside₁, hread⟩ := hrun (compactItems vs ++ rest) aside (follows_compactItems vs)
    rw [hcompact, List.cons_append] at hread
    have hlen := length_lt_compactItems vs
    have hfuel : vs.length < (ch :: (s ++ (compactItems vs ++ rest))).length := by simp; omega
    obtain ⟨aside₂, hitems⟩ := itemsFrom_compactItems hvs hfuel [a] aside₁
    refine ⟨aside₂, ?_⟩
    rw [items, bind_run, get_run]
    simp only [itemsText, hcompact, List.cons_append, List.append_assoc]
    rw [itemsFrom, bind_run, hasItem_first hblank hend]
    simp only [if_true, bind_run, hread]
    exact hitems

/-! ## Free-form values -/

/-- A key that is greater than all others stands last. -/
theorem insert_eq_append {k : String} {ms : List (String × Json)} (h : ∀ m ∈ ms, m.1 < k) :
    Json.insert k v ms = ms ++ [(k, v)] := by
  induction ms with
  | nil => rfl
  | cons m ms ih =>
    have hm := h m (by simp)
    obtain ⟨k', v'⟩ := m
    rw [Json.insert, if_neg hm.not_gt, if_neg hm.ne', ih fun m hm => h m (by simp [hm])]
    rfl

/-- A member is read with its key. -/
def ReadsMember (value : Step Json) (m m' : String × Json) : Prop :=
  m.1 = m'.1 ∧ value.Reads m.2 m'.2

/-- After the first member, the others are read one by one.  As the keys ascend, each of them is
inserted at the end. -/
theorem membersFrom_compactMembers {value : Step Json} {ms ms' acc : List (String × Json)}
    (h : List.Forall₂ (ReadsMember value) ms ms')
    (hsorted : ((acc ++ ms').map Prod.fst).Pairwise (· < ·)) {fuel : ℕ} (hfuel : ms.length < fuel)
    (aside : List Json) :
    ∃ aside', membersFrom value fuel false acc ⟨compactMembers ms ++ rest, aside⟩ =
      .ok (acc ++ ms') ⟨'\x7d' :: rest, aside'⟩ := by
  induction h generalizing fuel acc aside with
  | nil =>
    obtain ⟨fuel, rfl⟩ := Nat.exists_eq_add_one_of_ne_zero (by omega : fuel ≠ 0)
    exact ⟨aside, by simp [membersFrom, compactMembers]⟩
  | @cons m m' ms ms' hm hms ih =>
    obtain ⟨fuel, rfl⟩ := Nat.exists_eq_add_one_of_ne_zero (by omega : fuel ≠ 0)
    obtain ⟨⟨k, v⟩, ⟨k', v'⟩⟩ := m, m'
    obtain ⟨rfl : k = k', hv⟩ := hm
    obtain ⟨aside₁, hread⟩ := hv.run (compactMembers ms ++ rest) aside (follows_compactMembers ms)
    have hlen : ms.length < fuel := by simpa using hfuel
    have hk : ∀ m ∈ acc, m.1 < k := by
      simp only [List.map_append, List.map_cons, List.pairwise_append] at hsorted
      exact fun m hm => hsorted.2.2 m.1 (List.mem_map_of_mem hm) k (by simp)
    have hsorted' : ((acc ++ [(k, v')] ++ ms').map Prod.fst).Pairwise (· < ·) := by
      simpa using hsorted
    obtain ⟨aside₂, hmembers⟩ := ih hsorted' hlen aside₁
    refine ⟨aside₂, ?_⟩
    simp only [List.append_assoc, List.singleton_append] at hmembers
    simp [membersFrom, compactMembers, hread, insert_eq_append hk, hmembers]

/-- The members of an object are read up to the closing brace. -/
theorem members_membersText {value : Step Json} {ms ms' : List (String × Json)}
    (h : List.Forall₂ (ReadsMember value) ms ms')
    (hsorted : (ms'.map Prod.fst).Pairwise (· < ·)) (rest : List Char) (aside : List Json) :
    ∃ aside', members value ⟨membersText ms ++ rest, aside⟩ = .ok ms' ⟨'\x7d' :: rest, aside'⟩ := by
  cases h with
  | nil => exact ⟨aside, by simp [members, membersFrom, membersText]⟩
  | @cons m m' ms ms' hm hms =>
    obtain ⟨⟨k, v⟩, ⟨k', v'⟩⟩ := m, m'
    obtain ⟨rfl : k = k', hv⟩ := hm
    obtain ⟨aside₁, hread⟩ := hv.run (compactMembers ms ++ rest) aside (follows_compactMembers ms)
    have hlen := length_lt_compactMembers ms
    have hfuel : ms.length <
        (quote k ++ ':' :: (v.compact ++ (compactMembers ms ++ rest))).length := by simp; omega
    have hsorted' : (([(k, v')] ++ ms').map Prod.fst).Pairwise (· < ·) := by simpa using hsorted
    obtain ⟨aside₂, hmembers⟩ := membersFrom_compactMembers hms hsorted' hfuel aside₁
    refine ⟨aside₂, ?_⟩
    rw [members, bind_run, get_run]
    simp only [membersText, List.cons_append, List.append_assoc]
    rw [membersFrom, bind_run, hasMember_first]
    simp only [if_true, bind_run, key_quote, colon_run, hread]
    exact hmembers

/-! ## Values -/

/-- What a free-form value can be when it is read at a depth: nested no deeper than that, with the
keys of every object in order, and with numbers of which `p` holds. -/
inductive Fits (p : Number → Prop) : ℕ → Json → Prop
  | null {d : ℕ} : Fits p d .null
  | bool {d : ℕ} (b : Bool) : Fits p d (.bool b)
  | number {d : ℕ} {n : Number} (hn : p n) : Fits p d (.number n)
  | string {d : ℕ} (text : String) : Fits p d (.string text)
  | array {d : ℕ} {vs : List Json} (hvs : ∀ v ∈ vs, Fits p d v) : Fits p (d + 1) (.array vs)
  | object {d : ℕ} {ms : List (String × Json)} (hsorted : (ms.map Prod.fst).Pairwise (· < ·))
      (hms : ∀ m ∈ ms, Fits p d m.2) : Fits p (d + 1) (.object ms)

theorem Fits.imp {p q : Number → Prop} {d : ℕ} (h : Fits p d v) (hpq : ∀ n, p n → q n) :
    Fits q d v := by
  induction h with
  | null => exact .null
  | bool b => exact .bool b
  | number hn => exact .number (hpq _ hn)
  | string text => exact .string text
  | array _ ih => exact .array ih
  | object hsorted _ ih => exact .object hsorted ih

/-- There is no harm in more depth. -/
theorem Fits.of_le {p : Number → Prop} {d e : ℕ} (h : Fits p d v) (hde : d ≤ e) : Fits p e v := by
  induction h generalizing e with
  | null => exact .null
  | bool b => exact .bool b
  | number hn => exact .number hn
  | string text => exact .string text
  | array _ ih =>
    obtain ⟨e, rfl⟩ := Nat.exists_eq_add_one_of_ne_zero (by omega : e ≠ 0)
    exact .array fun v hv => ih v hv (by omega)
  | object hsorted _ ih =>
    obtain ⟨e, rfl⟩ := Nat.exists_eq_add_one_of_ne_zero (by omega : e ≠ 0)
    exact .object hsorted fun m hm => ih m hm (by omega)

/-! ### Numbers and values written and read -/

/-- The number that is read from the text of a number. -/
def Number.reread (n : Number) : Number :=
  match readNumber n.text with
  | .ok (m, _) => m
  | .error _ => n

/-- A number whose text is that of a number, perhaps of another one. -/
def Number.Readable (n : Number) : Prop := readNumber n.text = .ok (n.reread, [])

/-- A number that is read back from its text. -/
def Number.ReadsBack (n : Number) : Prop := readNumber n.text = .ok (n, [])

theorem Number.ReadsBack.reread_eq {n : Number} (h : n.ReadsBack) : n.reread = n := by
  rw [ReadsBack] at h
  rw [reread, h]

theorem Number.ReadsBack.readable {n : Number} (h : n.ReadsBack) : n.Readable := by
  rw [Readable, h.reread_eq]
  exact h

mutual

/-- The value that is read from the text of a value. -/
def reread : Json → Json
  | .null => .null
  | .bool b => .bool b
  | .number n => .number n.reread
  | .string s => .string s
  | .array items => .array (rereadItems items)
  | .object members => .object (rereadMembers members)

def rereadItems : List Json → List Json
  | [] => []
  | v :: vs => v.reread :: rereadItems vs

def rereadMembers : List (String × Json) → List (String × Json)
  | [] => []
  | (k, v) :: ms => (k, v.reread) :: rereadMembers ms

end

theorem rereadItems_eq_map (vs : List Json) : rereadItems vs = vs.map reread := by
  induction vs with
  | nil => rfl
  | cons v vs ih => rw [rereadItems, ih, List.map_cons]

theorem rereadMembers_eq_map (ms : List (String × Json)) :
    rereadMembers ms = ms.map fun m => (m.1, m.2.reread) := by
  induction ms with
  | nil => rfl
  | cons m ms ih => rw [rereadMembers, ih, List.map_cons]

/-- If all numbers are read back, so is the value. -/
theorem Fits.reread_eq {d : ℕ} (h : Fits Number.ReadsBack d v) : v.reread = v := by
  induction h with
  | number hn => rw [reread, hn.reread_eq]
  | array _ ih => rw [reread, rereadItems_eq_map, List.map_congr_left ih, List.map_id']
  | @object d ms _ _ ih =>
    have hms : ∀ m ∈ ms, (m.1, m.2.reread) = id m := fun m hm => by rw [ih m hm, id]
    rw [reread, rereadMembers_eq_map, List.map_congr_left hms, List.map_id]
  | _ => rw [reread]

theorem ne_of_startsNumber {other : Char} (h : ch = '-' ∨ ch.isDigit = true)
    (hother : ¬(other = '-' ∨ other.isDigit = true)) : ch ≠ other := by
  rintro rfl
  exact hother h

/-- The text of a number begins with a sign or a digit, never with a blank. -/
theorem Number.Readable.head {n : Number} (h : n.Readable) :
    ∃ ch s, n.text = ch :: s ∧ (ch = '-' ∨ ch.isDigit = true) ∧ isBlankChar ch = false := by
  obtain ⟨ch, s, hs, hch⟩ := head_of_readNumber h
  have hblank : ch ≠ ' ' := ne_of_startsNumber hch (by decide)
  have hline : ch ≠ '\n' := ne_of_startsNumber hch (by decide)
  have htab : ch ≠ '\t' := ne_of_startsNumber hch (by decide)
  have hreturn : ch ≠ '\r' := ne_of_startsNumber hch (by decide)
  exact ⟨ch, s, hs, hch, by simp [isBlankChar, hblank, hline, htab, hreturn]⟩

section anyValue

variable {array object : Step Json}

theorem anyValue_reads_null : (anyValue array object).Reads .null .null :=
  .of_run rfl (by decide) (by decide) fun rest aside _ => by
    simp [anyValue, compact, next_cons, isBlankChar, word, lex]

theorem anyValue_reads_bool (b : Bool) : (anyValue array object).Reads (.bool b) (.bool b) := by
  cases b with
  | true =>
    exact .of_run rfl (by decide) (by decide) fun rest aside _ => by
      simp [anyValue, compact, next_cons, isBlankChar, word, lex]
  | false =>
    exact .of_run rfl (by decide) (by decide) fun rest aside _ => by
      simp [anyValue, compact, next_cons, isBlankChar, word, lex]

theorem anyValue_reads_string (text : String) :
    (anyValue array object).Reads (.string text) (.string text) :=
  .of_run rfl (by decide) (by decide) fun rest aside _ => by
    simp [anyValue, compact, next_cons, isBlankChar, quote, lex, readString_quote]

/-- A number is read as the one that its text names, since its first character begins no other kind
of value. -/
theorem anyValue_reads_number {n : Number} (h : n.Readable) :
    (anyValue array object).Reads (.number n) (.number n.reread) := by
  obtain ⟨ch, s, hs, hch, hblank⟩ := h.head
  refine .of_run hs hblank (ne_of_startsNumber hch (by decide)) fun rest aside hrest => ?_
  have hread := readNumber_append hrest h
  rw [hs, List.cons_append] at hread
  -- the facts from which the simplifier finds the last case of the match
  have hn : ch ≠ 'n' := ne_of_startsNumber hch (by decide)
  have ht : ch ≠ 't' := ne_of_startsNumber hch (by decide)
  have hf : ch ≠ 'f' := ne_of_startsNumber hch (by decide)
  have hquote : ch ≠ '"' := ne_of_startsNumber hch (by decide)
  have harray : ch ≠ '[' := ne_of_startsNumber hch (by decide)
  have hobject : ch ≠ '\x7b' := ne_of_startsNumber hch (by decide)
  simp [anyValue, compact, hs, next_cons, hblank, lex, hread, hch]

end anyValue

/-- What is written in the form in which values are read is read, with the numbers that their texts
name. -/
theorem Fits.reads_reread {d : ℕ} (h : Fits Number.Readable d v) :
    (Reader.value d).Reads v v.reread := by
  have hvalue (d : ℕ) : ∃ array object, Reader.value d = anyValue array object := by
    cases d <;> exact ⟨_, _, rfl⟩
  induction h with
  | @null d =>
    obtain ⟨array, object, hvalue⟩ := hvalue d
    rw [hvalue, reread]
    exact anyValue_reads_null
  | @bool d b =>
    obtain ⟨array, object, hvalue⟩ := hvalue d
    rw [hvalue, reread]
    exact anyValue_reads_bool b
  | @number d n hn =>
    obtain ⟨array, object, hvalue⟩ := hvalue d
    rw [hvalue, reread]
    exact anyValue_reads_number hn
  | @string d text =>
    obtain ⟨array, object, hvalue⟩ := hvalue d
    rw [hvalue, reread]
    exact anyValue_reads_string text
  | @array d vs _ ih =>
    have hvs : List.Forall₂ (Reader.value d).Reads vs (vs.map reread) :=
      List.forall₂_map_right_iff.mpr (List.forall₂_same.mpr ih)
    refine ⟨⟨'[', _, compact_array vs, by decide, by decide⟩, fun rest aside _ => ?_⟩
    obtain ⟨aside', hitems⟩ := items_itemsText hvs rest aside
    refine ⟨aside', ?_⟩
    simp [Reader.value, anyValue, compact_array, next_cons, isBlankChar, hitems, reread,
      rereadItems_eq_map]
  | @object d ms hsorted _ ih =>
    have hms : List.Forall₂ (ReadsMember (Reader.value d)) ms
        (ms.map fun m => (m.1, m.2.reread)) :=
      List.forall₂_map_right_iff.mpr (List.forall₂_same.mpr fun m hm => ⟨rfl, ih m hm⟩)
    have hkeys : ((ms.map fun m => (m.1, m.2.reread)).map Prod.fst).Pairwise (· < ·) := by
      simpa [List.map_map, Function.comp_def] using hsorted
    refine ⟨⟨'\x7b', _, compact_object ms, by decide, by decide⟩, fun rest aside _ => ?_⟩
    obtain ⟨aside', hmembers⟩ := members_membersText hms hkeys rest aside
    refine ⟨aside', ?_⟩
    simp [Reader.value, anyValue, compact_object, next_cons, isBlankChar, hmembers, reread,
      rereadMembers_eq_map]

/-- What is written with numbers that are read back is read back. -/
theorem Fits.reads {d : ℕ} (h : Fits Number.ReadsBack d v) : (Reader.value d).Reads v v := by
  have hread := (h.imp fun _ => Number.ReadsBack.readable).reads_reread
  rwa [h.reread_eq] at hread

/-! ## Typed values -/

theorem reads_string (d : ℕ) (text : String) : (Reader.string d).Reads (.string text) text :=
  .of_run rfl (by decide) (by decide) fun rest aside _ => by
    simp [Reader.string, compact, next_cons, isBlankChar, quote, lex, readString_quote]

theorem reads_boolean (d : ℕ) (b : Bool) : (Reader.boolean d).Reads (.bool b) b := by
  cases b with
  | true =>
    exact .of_run rfl (by decide) (by decide) fun rest aside _ => by
      simp [Reader.boolean, compact, next_cons, isBlankChar, word, lex]
  | false =>
    exact .of_run rfl (by decide) (by decide) fun rest aside _ => by
      simp [Reader.boolean, compact, next_cons, isBlankChar, word, lex]

/-- Where a number is due, it is read whatever the reader says it expects. -/
theorem reads_numberAs {n : Number} (h : n.ReadsBack) (expected : String) :
    (Reader.numberAs expected).Reads (.number n) n := by
  obtain ⟨ch, s, hs, hch, hblank⟩ := h.readable.head
  refine .of_run hs hblank (ne_of_startsNumber hch (by decide)) fun rest aside hrest => ?_
  have hread := readNumber_append hrest h
  rw [hs, List.cons_append] at hread
  simp [Reader.numberAs, compact, hs, next_cons hblank, hch, lex, hread]

/-- Where a double is due, a double is read that is written as one. -/
theorem reads_double {x : Double} (h : (Number.real x).ReadsBack) (d : ℕ) :
    (Reader.double d).Reads (.number (.real x)) x :=
  (reads_numberAs h "f64").bind fun _ aside => ⟨aside, rfl⟩

/-- Where a count is due, a number of 64 bits is read. -/
theorem reads_count {n : ℕ} (h : n < 2 ^ 64) (d : ℕ) : (Reader.count d).Reads (.ofNat n) n := by
  have hn : (Number.integer n).ReadsBack := readNumber_integerText (by omega) (by omega)
  refine (reads_numberAs hn "usize").bind fun rest aside => ⟨aside, ?_⟩
  dsimp only
  rw [if_neg (by omega), Int.toNat_natCast, pure_run]

/-- What is made from a value is read from its text. -/
theorem Step.Reads.map {reader : Reader α} {d : ℕ} (h : (reader d).Reads v a) (f : α → β) :
    (reader.map f d).Reads v (f a) :=
  h.bind fun _ aside => ⟨aside, rfl⟩

/-- What is made from a value that is not refused is read from its text. -/
theorem Step.Reads.refine {reader : Reader α} {d : ℕ} {make : α → Except String β} {b : β}
    (h : (reader d).Reads v a) (hmake : make a = .ok b) : (reader.refine make d).Reads v b :=
  h.bind fun _ aside => ⟨aside, by rw [hmake]; rfl⟩

/-- Where a value may be missing, null stands for none. -/
theorem reads_optional_null {reader : Reader α} {d : ℕ} : (reader.optional d).Reads .null none :=
  .of_run rfl (by decide) (by decide) fun rest aside _ => by
    simp [Reader.optional, compact, next_cons, isBlankChar, word, lex]

/-- A value that is not written like null is read as the value. -/
theorem Step.Reads.optional {reader : Reader α} {d : ℕ} (h : (reader d).Reads v a)
    (hhead : v.compact.head? ≠ some 'n') : (reader.optional d).Reads v (some a) := by
  obtain ⟨⟨ch, s, hs, hblank, hend⟩, hrun⟩ := h
  refine ⟨⟨ch, s, hs, hblank, hend⟩, fun rest aside hrest => ?_⟩
  obtain ⟨aside', hread⟩ := hrun rest aside hrest
  have hn : ch ≠ 'n' := by simpa [hs] using hhead
  rw [hs, List.cons_append] at hread ⊢
  exact ⟨aside', by simp [Reader.optional, next_cons hblank, hn, hread]⟩

/-- Only null is written like null. -/
theorem Fits.head?_compact_ne {d : ℕ} (h : Fits Number.Readable d v) (hv : v ≠ .null) :
    v.compact.head? ≠ some 'n' := by
  cases h with
  | null => exact absurd rfl hv
  | bool b => cases b <;> simp [compact]
  | number hn =>
    obtain ⟨ch, s, hs, hch, -⟩ := hn.head
    simpa [compact, hs] using ne_of_startsNumber hch (by decide)
  | string text => simp [compact, quote]
  | array _ => simp [compact_array]
  | object _ _ => simp [compact_object]

/-- What is written in the form in which values are read is read as a value or null, and as the same
one at every greater depth. -/
theorem Fits.exists_reads_optional {d : ℕ} (h : Fits Number.Readable d v) :
    ∃ o, o.getD .null = v.reread ∧ ∀ e, d ≤ e → (Reader.value.optional e).Reads v o := by
  by_cases hv : v = .null
  · subst hv
    exact ⟨none, by rw [reread]; rfl, fun e _ => reads_optional_null⟩
  · exact ⟨some v.reread, rfl,
      fun e he => (h.of_le he).reads_reread.optional (h.head?_compact_ne hv)⟩

/-- A string is not written like null. -/
theorem head?_compact_string_ne (text : String) : (Json.string text).compact.head? ≠ some 'n' := by
  simp [compact, quote]

/-- A value that may be missing, and that is written as a string. -/
theorem reads_ofOption {reader : Reader α} {write : α → Json} {d : ℕ}
    (h : ∀ a, (reader d).Reads (write a) a) (hwrite : ∀ a, ∃ text, write a = .string text)
    (o : Option α) : (reader.optional d).Reads (.ofOption write o) o := by
  cases o with
  | none => exact reads_optional_null
  | some a =>
    obtain ⟨text, htext⟩ := hwrite a
    exact (h a).optional (by rw [htext]; exact head?_compact_string_ne text)

theorem reads_optional_string (d : ℕ) (o : Option String) :
    (Reader.string.optional d).Reads (.ofOption .string o) o :=
  reads_ofOption (reads_string d) (fun text => ⟨text, rfl⟩) o

/-- Where a list is due, the items of an array are read one by one. -/
theorem reads_list {item : Reader α} {d : ℕ} {vs : List Json} {as : List α}
    (h : List.Forall₂ (item d).Reads vs as) : (item.list (d + 1)).Reads (.array vs) as := by
  refine ⟨⟨'[', _, compact_array vs, by decide, by decide⟩, fun rest aside _ => ?_⟩
  obtain ⟨aside', hitems⟩ := items_itemsText h rest aside
  refine ⟨aside', ?_⟩
  simp [Reader.list, nested, compact_array, next_cons, isBlankChar, hitems]

/-! ## Records -/

/-- The keys that a field answers to. -/
def Field.keys (f : Field α) : List String := f.name :: f.aliases

theorem Field.answersTo_iff {f : Field α} {k : String} : f.answersTo k = true ↔ k ∈ f.keys := by
  simp [answersTo, keys]

namespace Fields

variable {τ σ : Type} {fs : Fields τ σ}

def keys : {τ σ : Type} → Fields τ σ → List String
  | _, _, .done => []
  | _, _, .field f fs => f.keys ++ fs.keys

/-- No field answers to a key of a later one. -/
def apart : {τ σ : Type} → Fields τ σ → Bool
  | _, _, .done => true
  | _, _, .field f fs => fs.keys.all (fun k => !f.answersTo k) && fs.apart

/-- The slots that hold the values of all fields. -/
def filled : {τ σ : Type} → Fields τ σ → τ → σ
  | _, _, .done, _ => ()
  | _, _, .field _ fs, (a, t) => (some a, fs.filled t)

/-- When all slots are filled, no field is missing. -/
theorem collect_filled (fs : Fields τ σ) (t : τ) : fs.collect (fs.filled t) = .ok t := by
  induction fs with
  | done => rfl
  | field f fs ih =>
    obtain ⟨a, t⟩ := t
    simp [collect, filled, ih]

/-- The members hold values of all fields, in the order of the fields. -/
inductive Takes (depth : ℕ) :
    {τ σ : Type} → Fields τ σ → List (String × Json) → τ → Prop
  | done : Takes depth .done [] ()
  | field {α τ σ : Type} {f : Field α} {fs : Fields τ σ} {v : Json} {a : α}
      {ms : List (String × Json)} {t : τ} (hv : (f.reader depth).Reads v a)
      (hms : Takes depth fs ms t) : Takes depth (.field f fs) ((f.name, v) :: ms) (a, t)
  /-- A field under any of its keys. -/
  | keyed {α τ σ : Type} {f : Field α} {fs : Fields τ σ} {k : String} {v : Json} {a : α}
      {ms : List (String × Json)} {t : τ} (hk : k ∈ f.keys) (hv : (f.reader depth).Reads v a)
      (hms : Takes depth fs ms t) : Takes depth (.field f fs) ((k, v) :: ms) (a, t)

/-- Reading a member turns slots into others. -/
def Puts (depth : ℕ) (fs : Fields τ σ) (m : String × Json) (slots slots' : σ) : Prop :=
  ∀ rest aside, Follows rest → ∃ aside',
    fs.readInto depth m.1 slots ⟨':' :: (m.2.compact ++ rest), aside⟩ =
      .ok (some slots') ⟨rest, aside'⟩

/-- A member with a key of the first field fills the first slot. -/
theorem Puts.here {f : Field α} {k : String} {depth : ℕ} {slots : σ} (hk : k ∈ f.keys)
    (h : (f.reader depth).Reads v a) :
    Puts depth (.field f fs) (k, v) (none, slots) (some a, slots) := by
  intro rest aside hrest
  obtain ⟨aside', hread⟩ := h.run rest aside hrest
  exact ⟨aside', by simp [readInto, Field.answersTo_iff.mpr hk, hread]⟩

/-- A member with no key of the first field is left to the others. -/
theorem Puts.there {f : Field α} {m : String × Json} {depth : ℕ} {slot : Option α}
    {slots slots' : σ} (hk : f.answersTo m.1 = false) (h : Puts depth fs m slots slots') :
    Puts depth (.field f fs) m (slot, slots) (slot, slots') := by
  intro rest aside hrest
  obtain ⟨aside', hread⟩ := h rest aside hrest
  exact ⟨aside', by simp [readInto, hk, hread]⟩

/-- Reading members one after the other turns slots into others. -/
inductive PutsAll (depth : ℕ) {τ σ : Type} (fs : Fields τ σ) : List (String × Json) → σ → σ → Prop
  | nil {slots : σ} : PutsAll depth fs [] slots slots
  | cons {m : String × Json} {ms : List (String × Json)} {slots slots' slots'' : σ}
      (hm : Puts depth fs m slots slots') (hms : PutsAll depth fs ms slots' slots'') :
      PutsAll depth fs (m :: ms) slots slots''

/-- Members with no key of the first field leave the first slot as it is. -/
theorem PutsAll.there {f : Field α} {ms : List (String × Json)} {depth : ℕ} {slot : Option α}
    {slots slots' : σ} (h : PutsAll depth fs ms slots slots')
    (hk : ∀ m ∈ ms, f.answersTo m.1 = false) :
    PutsAll depth (.field f fs) ms (slot, slots) (slot, slots') := by
  induction h with
  | nil => exact .nil
  | cons hm _ ih =>
    exact .cons (hm.there (hk _ (by simp))) (ih fun m hm => hk m (by simp [hm]))

/-- Every member that holds a field has one of the keys. -/
theorem Takes.mem_keys {depth : ℕ} {ms : List (String × Json)} {t : τ} (h : Takes depth fs ms t) :
    ∀ m ∈ ms, m.1 ∈ fs.keys := by
  induction h with
  | done => simp
  | field _ _ ih =>
    rw [List.forall_mem_cons]
    exact ⟨by simp [keys, Field.keys], fun m hm => List.mem_append_right _ (ih m hm)⟩
  | keyed hk _ _ ih =>
    rw [List.forall_mem_cons]
    exact ⟨List.mem_append_left _ hk, fun m hm => List.mem_append_right _ (ih m hm)⟩

/-- Members that hold the fields fill all slots, if no field answers to a key of another. -/
theorem Takes.putsAll {depth : ℕ} {ms : List (String × Json)} {t : τ} (h : Takes depth fs ms t)
    (hfs : fs.apart = true) : PutsAll depth fs ms fs.emptySlots (fs.filled t) := by
  -- the first member goes into the first slot, and the others pass that slot by
  induction h with
  | done => exact .nil
  | field hv hms ih =>
    simp only [apart, Bool.and_eq_true, List.all_eq_true, Bool.not_eq_true'] at hfs
    exact .cons (.here (by simp [Field.keys]) hv)
      ((ih hfs.2).there fun m hm => hfs.1 m.1 (hms.mem_keys m hm))
  | keyed hk hv hms ih =>
    simp only [apart, Bool.and_eq_true, List.all_eq_true, Bool.not_eq_true'] at hfs
    exact .cons (.here hk hv) ((ih hfs.2).there fun m hm => hfs.1 m.1 (hms.mem_keys m hm))

/-- After the first member, the others fill their slots one by one. -/
theorem PutsAll.readMembers {depth : ℕ} {ms : List (String × Json)} {slots slots' : σ}
    (h : PutsAll depth fs ms slots slots') {fuel : ℕ} (hfuel : ms.length < fuel)
    (aside : List Json) :
    ∃ aside', fs.readMembers depth fuel false slots ⟨compactMembers ms ++ rest, aside⟩ =
      .ok slots' ⟨'\x7d' :: rest, aside'⟩ := by
  induction h generalizing fuel aside with
  | nil =>
    obtain ⟨fuel, rfl⟩ := Nat.exists_eq_add_one_of_ne_zero (by omega : fuel ≠ 0)
    exact ⟨aside, by simp [Fields.readMembers, compactMembers]⟩
  | @cons m ms _ _ _ hm _ ih =>
    obtain ⟨fuel, rfl⟩ := Nat.exists_eq_add_one_of_ne_zero (by omega : fuel ≠ 0)
    have hlen : ms.length < fuel := by simpa using hfuel
    obtain ⟨aside₁, hread⟩ := hm (compactMembers ms ++ rest) aside (follows_compactMembers ms)
    obtain ⟨aside₂, hmembers⟩ := ih hlen aside₁
    exact ⟨aside₂, by simp [Fields.readMembers, compactMembers, hread, hmembers]⟩

/-- The members of an object fill their slots, up to the closing brace. -/
theorem PutsAll.readMembers_membersText {depth : ℕ} {ms : List (String × Json)} {slots slots' : σ}
    (h : PutsAll depth fs ms slots slots') (rest : List Char) (aside : List Json) :
    ∃ aside', fs.readMembers depth ((membersText ms ++ rest).length + 1) true slots
      ⟨membersText ms ++ rest, aside⟩ = .ok slots' ⟨'\x7d' :: rest, aside'⟩ := by
  cases h with
  | nil => exact ⟨aside, by simp [Fields.readMembers, membersText]⟩
  | @cons m ms _ slots₁ _ hm hms =>
    obtain ⟨aside₁, hread⟩ := hm (compactMembers ms ++ rest) aside (follows_compactMembers ms)
    have hlen := length_lt_compactMembers ms
    have hfuel : ms.length < (membersText (m :: ms) ++ rest).length := by simp [membersText]; omega
    obtain ⟨aside₂, hmembers⟩ := hms.readMembers hfuel aside₁
    refine ⟨aside₂, ?_⟩
    simp only [membersText, List.cons_append, List.append_assoc] at hmembers ⊢
    rw [Fields.readMembers, bind_run, hasMember_first]
    simp only [if_true, bind_run, key_quote, hread]
    exact hmembers

/-- When the members have filled all slots, the object is read as the record of their values. -/
theorem PutsAll.readObject {depth : ℕ} {ms : List (String × Json)} {t : τ}
    (h : PutsAll depth fs ms fs.emptySlots (fs.filled t)) (rest : List Char) (aside : List Json) :
    ∃ aside', fs.readObject depth ⟨membersText ms ++ rest, aside⟩ = .ok t ⟨rest, aside'⟩ := by
  obtain ⟨aside', hmembers⟩ := h.readMembers_membersText rest aside
  refine ⟨aside', ?_⟩
  rw [Fields.readObject, bind_run, get_run]
  simp only [bind_run, hmembers, collect_filled]
  simp

end Fields

/-- A record is read from the object of its fields in their order. -/
theorem reads_record {τ σ : Type} {fs : Fields τ σ} {make : τ → α} {name : String} {d : ℕ}
    {ms : List (String × Json)} {t : τ} (h : fs.Takes d ms t) (hfs : fs.apart = true) :
    (Reader.record name fs make (d + 1)).Reads (.object ms) (make t) := by
  refine ⟨⟨'\x7b', _, compact_object ms, by decide, by decide⟩, fun rest aside _ => ?_⟩
  obtain ⟨aside', hobject⟩ := (h.putsAll hfs).readObject rest aside
  refine ⟨aside', ?_⟩
  simp [Reader.record, nested, compact_object, next_cons, isBlankChar, hobject]

/-! ## Unions -/

/-- A variant without content is read from its name. -/
theorem reads_union {variants : List (Variant α)} {w : Variant α} {d : ℕ} {name : String}
    (hfind : variants.find? (·.name == name) = some w) (hbare : w.bare = .ok a) :
    (Reader.union variants d).Reads (.string name) a :=
  .of_run rfl (by decide) (by decide) fun rest aside _ => by
    simp [Reader.union, compact, next_cons, isBlankChar, quote, key, lex, readString_quote,
      findVariant, hfind, hbare]

@[simp]
theorem variantName_quote (name : String) :
    variantName ⟨quote name ++ s, aside⟩ = .ok name ⟨s, aside⟩ := by
  simp [variantName, quote, next_cons, isBlankChar, key, lex, readString_quote]

/-- A variant with content is read from the object that has the content under its name. -/
theorem reads_union_content {variants : List (Variant α)} {w : Variant α} {d : ℕ} {name : String}
    (hfind : variants.find? (·.name == name) = some w) (h : (w.content d).Reads v a) :
    (Reader.union variants (d + 1)).Reads (.object [(name, v)]) a := by
  refine ⟨⟨'\x7b', _, compact_object _, by decide, by decide⟩, fun rest aside _ => ?_⟩
  obtain ⟨aside', hcontent⟩ := h.run ('\x7d' :: rest) aside (by simp [Follows])
  refine ⟨aside', ?_⟩
  simp [Reader.union, nested, compact_object, membersText, compactMembers, next_cons, isBlankChar,
    findVariant, hfind, hcontent]

/-! ## Whole texts -/

/-- A reader that takes the text of a value takes it as a whole text. -/
theorem Step.Reads.read_text {reader : Reader α} (h : (reader depthLimit).Reads v a) :
    reader.read v.text = .ok a := by
  obtain ⟨aside, hread⟩ := h.run [] [] follows_nil
  rw [List.append_nil] at hread
  simp [Reader.read, Reader.run, text, hread, EStateM.run]

end RuleFlow.Json
