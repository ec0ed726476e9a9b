import RuleFlow.Logic.Json
import RuleFlow.Proofs.Json.Results
import RuleFlow.Proofs.Logic.Position

/-!
# Condition trees read back

Trees are read in many spellings and written in one.  A tree that has been read (`Logic.Loaded`) is
written no deeper than the value that it came from, and it is read back from there but for the sign
of zero.  For the latter the comparisons alone matter (`exists_ofJson_toJson`): their operators are
those of symbols and their numbers finite, as they are in every tree that is read from a value of
finite numbers (`readAmong_ofJson`).
-/

namespace RuleFlow

open Json (Fits Number)

variable {d : ℕ} {v : Json}

/-! ## Names, operators and literals -/

theorem Combinator.ofName?_key (kind : Combinator) : ofName? kind.key = some kind := by
  cases kind <;> decide

theorem Combinator.ofName?_word (kind : Combinator) : ofName? kind.word = some kind := by
  cases kind <;> decide

/-- Known or not, an operator carries the symbol of which it is made. -/
theorem Operator.symbol_ofSymbol (s : String) : (ofSymbol s).symbol = s := by
  rw [ofSymbol]
  cases h : known.find? (·.symbol == s) with
  | none => rfl
  | some op => simpa using List.find?_some h

/-- An operator that is made of a symbol is made again of the one it carries. -/
theorem Operator.ofSymbol_symbol {op : Operator} (h : ∃ symbol, op = .ofSymbol symbol) :
    ofSymbol op.symbol = op := by
  obtain ⟨symbol, rfl⟩ := h
  rw [symbol_ofSymbol]

/-- An operator of a symbol is read back from its symbol. -/
theorem Operator.reads_reader {op : Operator} (h : ∃ symbol, op = .ofSymbol symbol) :
    (reader d).Reads op.toJson op := by
  have hread := (Json.reads_string d op.symbol).map ofSymbol
  rwa [ofSymbol_symbol h] at hread

/-- The text of a double in a data file is read as this double. -/
def Double.ReadsBack (x : Double) : Prop := Json.readNumber x.dataText = .ok (.real x, [])

namespace Scalar

/-- What a literal is when it has been read. -/
def Loaded : Scalar → Prop
  | .number x => x.isFinite = true
  | _ => True

/-- What a literal needs so that it can be read back: a number that is not written as an integer has
a text that names it. -/
def Named : Scalar → Prop
  | .number x => x.isSmallWhole = false → x.ReadsBack
  | _ => True

/-- A literal of a value whose numbers are finite is one that has been read. -/
theorem loaded_ofJson (h : Fits Number.IsFinite d v) : (ofJson v).Loaded := by
  cases h with
  | number hn => exact hn
  | _ => trivial

/-- A small whole number is written as an integer, without a sign if it is zero. -/
theorem toJson_of_isSmallWhole {x : Double} (h : x.isSmallWhole = true) :
    (number x).toJson = .number (.integer x.truncate) := by
  rw [toJson, if_pos h]
  rfl

/-- Any other finite number is written as a double. -/
theorem toJson_of_isFinite {x : Double} (h : x.isSmallWhole = false) (hx : x.isFinite = true) :
    (number x).toJson = .number (.real x) := by
  rw [toJson, if_neg (by simp [h]), Json.ofDouble, if_pos hx]

/-- A literal that has been read is written so that it can be read back. -/
theorem fits_toJson {s : Scalar} (hs : s.Loaded) (hnamed : s.Named) :
    Fits Number.ReadsBack d s.toJson := by
  cases s with
  | number x =>
    cases hwhole : x.isSmallWhole
    · rw [toJson_of_isFinite hwhole hs]
      refine .number ?_
      rw [Number.ReadsBack, Number.text, if_pos (show x.isFinite = true from hs)]
      exact hnamed hwhole
    · have hlt := Double.natAbs_truncate_lt hwhole
      rw [toJson_of_isSmallWhole hwhole]
      exact .number (Json.readNumber_integerText (by omega) (by omega))
  | bool b => exact .bool b
  | text s => exact .string s
  | null => exact .null

/-- A literal comes back from its JSON form but for the sign of zero, which the form does not
have. -/
theorem ofJson_toJson {s : Scalar} (hs : s.Loaded) :
    (ofJson s.toJson).agrees s = true ∧ (ofJson s.toJson).toJson = s.toJson := by
  cases s with
  | number x =>
    cases hwhole : x.isSmallWhole
    · rw [toJson_of_isFinite hwhole hs]
      exact ⟨Double.agrees_self hs, toJson_of_isFinite hwhole hs⟩
    · obtain ⟨hwhole', htruncate⟩ := Double.isSmallWhole_ofInt_truncate hwhole
      rw [toJson_of_isSmallWhole hwhole]
      refine ⟨Double.agrees_ofInt_truncate (Bool.and_eq_true_iff.mp hwhole).1, ?_⟩
      exact (toJson_of_isSmallWhole hwhole').trans (by rw [htruncate])
  | bool b => simp [toJson, ofJson, agrees]
  | text s => simp [toJson, ofJson, agrees]
  | null => simp [toJson, ofJson, agrees]

end Scalar

/-! ## Trees that have been read -/

/-- What a comparison is when it has been read. -/
structure Condition.Loaded (c : Condition) : Prop where
  operator : ∃ symbol, c.operator = .ofSymbol symbol
  value : c.value.Loaded

namespace Logic

/-- What a tree is when it has been read from a value at a depth: a comparison takes an object, and
a group an object and the array of its children. -/
inductive Loaded : ℕ → Logic → Prop
  | leaf {d : ℕ} {c : Condition} (hc : c.Loaded) : Loaded (d + 1) (.leaf c)
  | group {d : ℕ} {kind : Combinator} {children : List Logic}
      (hchildren : ∀ t ∈ children, Loaded d t) : Loaded (d + 2) (.group kind children)

/-- Every tree that is read from an array is read from one of its items. -/
theorem mem_treesIn {t : Logic} {vs : List Json} (h : t ∈ treesIn vs) :
    ∃ v ∈ vs, ofJson v = some t := by
  induction vs with
  | nil => simp [treesIn] at h
  | cons v vs ih =>
    rw [treesIn] at h
    split at h
    case _ t' ht' =>
      obtain rfl | h := List.mem_cons.mp h
      · exact ⟨v, by simp, ht'⟩
      · obtain ⟨v', hv', ht⟩ := ih h
        exact ⟨v', by simp [hv'], ht⟩
    case _ =>
      obtain ⟨v', hv', ht⟩ := ih h
      exact ⟨v', by simp [hv'], ht⟩

theorem mem_listsIn {key : String} {ts : List Logic} {ms : List (String × Json)}
    (h : (key, some ts) ∈ listsIn ms) : ∃ m ∈ ms, listIn m.2 = some ts := by
  induction ms with
  | nil => simp [listsIn] at h
  | cons m ms ih =>
    obtain ⟨k, v⟩ := m
    rw [listsIn] at h
    obtain heq | h := List.mem_cons.mp h
    · obtain ⟨rfl, hts⟩ := Prod.mk.inj heq
      exact ⟨(key, v), by simp, hts.symm⟩
    · obtain ⟨m, hm, hts⟩ := ih h
      exact ⟨m, by simp [hm], hts⟩

theorem mem_of_lookup_eq_some {β : Type} {key : String} {b : β} {l : List (String × β)}
    (h : l.lookup key = some b) : (key, b) ∈ l := by
  obtain ⟨l₁, l₂, rfl, -⟩ := List.lookup_eq_some_iff.mp h
  simp

/-- A tree is read from the members of an object as a comparison, or as a group of the trees in one
of the members. -/
theorem ofMembers_cases {ms : List (String × Json)} {lists : List (String × Option (List Logic))}
    {t : Logic} (h : ofMembers ms lists = some t) :
    (∃ field c, readCondition field ms = some c ∧ t = .leaf c) ∨
      ∃ key kind ts, (key, some ts) ∈ lists ∧ t = .group kind ts := by
  unfold ofMembers at h
  split at h
  case _ field _ =>
    obtain ⟨c, hc, rfl⟩ := Option.map_eq_some_iff.mp h
    exact .inl ⟨field, c, hc, rfl⟩
  case _ =>
    split at h
    case _ kind _ =>
      obtain ⟨ts, hts, rfl⟩ := Option.map_eq_some_iff.mp h
      obtain hlookup | ⟨-, hlookup⟩ := Option.or_eq_some_iff.mp (Option.join_eq_some_iff.mp hts)
      · exact .inr ⟨_, kind, ts, mem_of_lookup_eq_some hlookup, rfl⟩
      · exact .inr ⟨_, kind, ts, mem_of_lookup_eq_some hlookup, rfl⟩
    case _ =>
      split at h
      case _ key children =>
        obtain ⟨kind, -, rfl⟩ := Option.map_eq_some_iff.mp h
        exact .inr ⟨key, kind, children, by simp, rfl⟩
      case _ => cases h

/-- A comparison that is read from an object has an operator of some symbol and a finite number, if
any. -/
theorem loaded_readCondition {field : Json} {ms : List (String × Json)} {c : Condition}
    (hms : ∀ m ∈ ms, Fits Number.IsFinite d m.2)
    (h : readCondition field ms = some c) : c.Loaded := by
  simp only [readCondition, Option.bind_eq_bind, Option.bind_eq_some_iff] at h
  obtain ⟨_, -, _, -, symbol, -, heq⟩ := h
  cases heq
  refine ⟨⟨symbol, rfl⟩, ?_⟩
  cases hvalue : Json.member? ms "value" with
  | none => trivial
  | some v => exact Scalar.loaded_ofJson (hms _ (mem_of_lookup_eq_some hvalue))

/-- A tree that is read from a value fits the depth of the value. -/
theorem loaded_ofJson {t : Logic} (hv : Fits Number.IsFinite d v)
    (h : ofJson v = some t) : t.Loaded d := by
  -- a group is read through the arrays among its members, so both are followed down the value
  have hboth : (∀ t, ofJson v = some t → t.Loaded d) ∧
      ∀ ts, listIn v = some ts → ∃ e, d = e + 1 ∧ ∀ t ∈ ts, t.Loaded e := by
    clear h
    induction hv with
    | @array d vs _ ih =>
      refine ⟨by simp [ofJson], ?_⟩
      rintro ts ⟨⟩
      refine ⟨d, rfl, fun t ht => ?_⟩
      obtain ⟨v, hv, htree⟩ := mem_treesIn ht
      exact (ih v hv).1 t htree
    | @object d ms _ hms ih =>
      refine ⟨fun t ht => ?_, by simp [listIn]⟩
      rw [ofJson] at ht
      obtain ⟨field, c, hc, rfl⟩ | ⟨key, kind, ts, hts, rfl⟩ := ofMembers_cases ht
      · exact .leaf (loaded_readCondition hms hc)
      · obtain ⟨m, hm, hlist⟩ := mem_listsIn hts
        obtain ⟨e, rfl, hchildren⟩ := (ih m hm).2 ts hlist
        exact .group hchildren
    | _ => simp [ofJson, listIn]
  exact hboth.1 t h

/-! ## Trees read back -/

theorem toJsonAll_eq_map (ts : List Logic) : toJsonAll ts = ts.map toJson := by
  induction ts with
  | nil => rfl
  | cons t ts ih => rw [toJsonAll, ih, List.map_cons]

/-- A tree that has been read is written no deeper than it was read. -/
theorem Loaded.fits_toJson {t : Logic} (h : t.Loaded d)
    (hnamed : ∀ c ∈ t.conditions, c.value.Named) : Fits Number.ReadsBack d t.toJson := by
  induction h with
  | @leaf d c hc =>
    rw [toJson]
    have hsorted : ["field", "operator", "value"].Pairwise (· < ·) := by decide
    have hvalue := Scalar.fits_toJson (d := d) hc.value (hnamed c (by simp [conditions]))
    refine .object hsorted ?_
    simp only [List.forall_mem_cons]
    exact ⟨.string _, .string _, hvalue, by simp⟩
  | @group d kind children _ ih =>
    rw [toJson, toJsonAll_eq_map]
    refine .object (by simp) ?_
    simp only [List.forall_mem_cons]
    refine ⟨.array ?_, by simp⟩
    rw [List.forall_mem_map]
    exact fun t ht => ih t ht fun c hc => hnamed c (mem_conditionsOfAll.mpr ⟨t, ht, hc⟩)

/-- A comparison is read back with the literal that its JSON form has. -/
theorem ofJson_toJson_leaf {c : Condition} (hc : c.Loaded) :
    ofJson (toJson (.leaf c)) = some (.leaf { c with value := Scalar.ofJson c.value.toJson }) := by
  simp [toJson, ofJson, ofMembers, readCondition, Json.member?, List.lookup_cons, Json.string?,
    Operator.toJson, Operator.ofSymbol_symbol hc.operator]

/-- A group is read back from its key as a group of what is read from its children. -/
theorem ofJson_toJson_group (kind : Combinator) (children : List Logic) :
    ofJson (toJson (.group kind children)) = some (.group kind (treesIn (toJsonAll children))) := by
  have hname := kind.ofName?_key
  have hfield : ("field" == kind.key) = false := by cases kind <;> decide
  have hcombinator : ("combinator" == kind.key) = false := by cases kind <;> decide
  simp [toJson, ofJson, ofMembers, Json.member?, List.lookup_cons, listsIn, listIn, hfield,
    hcombinator, hname]

mutual

/-- A tree comes back from its JSON form but for the sign of zeros, if its comparisons do. -/
theorem exists_ofJson_toJson : ∀ {t : Logic}, (∀ c ∈ t.conditions, c.Loaded) →
    ∃ t', ofJson t.toJson = some t' ∧ t'.agrees t = true ∧ t'.toJson = t.toJson
  | .leaf c, h => by
    have hc : c.Loaded := h c (List.mem_singleton_self c)
    obtain ⟨hagrees, hjson⟩ := Scalar.ofJson_toJson hc.value
    refine ⟨_, ofJson_toJson_leaf hc, ?_, ?_⟩
    · simp [agrees, Condition.agrees, hagrees]
    · simp [toJson, hjson]
  | .group kind children, h => by
    have hchildren : ∀ c ∈ conditionsOfAll children, c.Loaded := h
    obtain ⟨hagrees, hjson⟩ := treesIn_toJsonAll hchildren
    refine ⟨_, ofJson_toJson_group kind children, ?_, ?_⟩
    · simp [agrees, hagrees]
    · rw [toJson, toJson, hjson]

/-- Of the trees in an array none is dropped. -/
theorem treesIn_toJsonAll : ∀ {ts : List Logic}, (∀ c ∈ conditionsOfAll ts, c.Loaded) →
    allAgree (treesIn (toJsonAll ts)) ts = true ∧
      toJsonAll (treesIn (toJsonAll ts)) = toJsonAll ts
  | [], _ => by simp [toJsonAll, treesIn, allAgree]
  | t :: ts, h => by
    rw [conditionsOfAll, List.forall_mem_append] at h
    obtain ⟨t', hread, hagrees, hjson⟩ := exists_ofJson_toJson h.1
    obtain ⟨hagreesAll, hjsonAll⟩ := treesIn_toJsonAll h.2
    simp [toJsonAll, treesIn, hread, allAgree, hagrees, hagreesAll, hjson, hjsonAll]

end

theorem Loaded.conditions {t : Logic} (h : t.Loaded d) : ∀ c ∈ t.conditions, c.Loaded := by
  induction h with
  | leaf hc => simpa [Logic.conditions] using hc
  | group _ ih =>
    intro c hmem
    obtain ⟨t, ht, hc⟩ := mem_conditionsOfAll.mp hmem
    exact ih t ht c hc

end Logic

/-! ## Trees of any value -/

namespace Json

mutual

/-- The numbers in a value, from left to right. -/
def numbers : Json → List Number
  | .number n => [n]
  | .array items => numbersOfItems items
  | .object members => numbersOfMembers members
  | _ => []

/-- The numbers in the items of an array. -/
def numbersOfItems : List Json → List Number
  | [] => []
  | v :: vs => v.numbers ++ numbersOfItems vs

/-- The numbers in the members of an object. -/
def numbersOfMembers : List (String × Json) → List Number
  | [] => []
  | (_, v) :: ms => v.numbers ++ numbersOfMembers ms

end

/-- The numbers in a member are among the numbers of the object. -/
theorem mem_numbersOfMembers {ms : List (String × Json)} {key : String} {v : Json} {n : Number}
    (hm : (key, v) ∈ ms) (hn : n ∈ v.numbers) : n ∈ numbersOfMembers ms := by
  induction ms with
  | nil => cases hm
  | cons m ms ih =>
    rw [numbersOfMembers, List.mem_append]
    obtain rfl | hm := List.mem_cons.mp hm
    · exact .inl hn
    · exact .inr (ih hm)

end Json

/-- A comparison that has been read out of a value in which these numbers stand. -/
structure Condition.ReadAmong (numbers : List Number) (c : Condition) : Prop where
  operator : ∃ symbol, c.operator = .ofSymbol symbol
  value : ∀ x, c.value = .number x → ∃ n ∈ numbers, n.toDouble = x

theorem Condition.ReadAmong.mono {numbers numbers' : List Number} {c : Condition}
    (h : c.ReadAmong numbers) (hsub : numbers ⊆ numbers') : c.ReadAmong numbers' where
  operator := h.operator
  value x hx := by
    obtain ⟨n, hn, hx⟩ := h.value x hx
    exact ⟨n, hsub hn, hx⟩

/-- A comparison from a value of finite numbers is one that has been read. -/
theorem Condition.ReadAmong.loaded {numbers : List Number} {c : Condition}
    (h : c.ReadAmong numbers) (hfinite : ∀ n ∈ numbers, n.IsFinite) : c.Loaded where
  operator := h.operator
  value := by
    cases hvalue : c.value with
    | number x =>
      obtain ⟨n, hn, rfl⟩ := h.value x hvalue
      exact hfinite n hn
    | _ => trivial

namespace Logic

/-- A comparison has its number from a member of the object that it is read from. -/
theorem readAmong_readCondition {field : Json} {ms : List (String × Json)} {c : Condition}
    (h : readCondition field ms = some c) : c.ReadAmong (Json.numbersOfMembers ms) := by
  simp only [readCondition, Option.bind_eq_bind, Option.bind_eq_some_iff] at h
  obtain ⟨_, -, _, -, symbol, -, heq⟩ := h
  cases heq
  refine ⟨⟨symbol, rfl⟩, fun x hx => ?_⟩
  cases hvalue : Json.member? ms "value" with
  | none => simp [hvalue] at hx
  | some v =>
    cases v with
    | number n =>
      refine ⟨n, Json.mem_numbersOfMembers (mem_of_lookup_eq_some hvalue) ?_, ?_⟩
      · rw [Json.numbers]
        exact List.mem_singleton_self n
      · simpa [hvalue, Scalar.ofJson] using hx
    | _ => simp [hvalue, Scalar.ofJson] at hx

mutual

/-- The comparisons of a tree that has been read come out of the value. -/
theorem readAmong_ofJson : ∀ (v : Json) {t : Logic} {c : Condition}, ofJson v = some t →
    c ∈ t.conditions → c.ReadAmong v.numbers
  | .object ms => by
    intro h hc
    rw [Json.numbers]
    rw [ofJson] at h
    obtain ⟨field, c', hread, rfl⟩ | ⟨key, kind, ts, hts, rfl⟩ := ofMembers_cases h
    · cases List.mem_singleton.mp hc
      exact readAmong_readCondition hread
    · obtain ⟨t, ht, hc⟩ := mem_conditionsOfAll.mp hc
      exact readAmong_listsIn ms hts ht hc
  | .null | .bool _ | .number _ | .string _ | .array _ => nofun

theorem readAmong_listsIn : ∀ (ms : List (String × Json)) {key : String} {ts : List Logic}
    {t : Logic} {c : Condition}, (key, some ts) ∈ listsIn ms → t ∈ ts → c ∈ t.conditions →
    c.ReadAmong (Json.numbersOfMembers ms)
  | [] => nofun
  | (k, v) :: ms => by
    intro h ht hc
    rw [Json.numbersOfMembers]
    obtain heq | h := List.mem_cons.mp h
    · exact (readAmong_listIn v (Prod.mk.inj heq).2.symm ht hc).mono (List.subset_append_left ..)
    · exact (readAmong_listsIn ms h ht hc).mono (List.subset_append_right ..)

theorem readAmong_listIn : ∀ (v : Json) {ts : List Logic} {t : Logic} {c : Condition},
    listIn v = some ts → t ∈ ts → c ∈ t.conditions → c.ReadAmong v.numbers
  | .array vs => by
    intro h ht hc
    cases h
    rw [Json.numbers]
    exact readAmong_treesIn vs ht hc
  | .null | .bool _ | .number _ | .string _ | .object _ => nofun

theorem readAmong_treesIn : ∀ (vs : List Json) {t : Logic} {c : Condition}, t ∈ treesIn vs →
    c ∈ t.conditions → c.ReadAmong (Json.numbersOfItems vs)
  | [] => nofun
  | v :: vs => by
    intro h hc
    rw [Json.numbersOfItems]
    rw [treesIn] at h
    split at h
    case _ t' hread =>
      obtain rfl | h := List.mem_cons.mp h
      · exact (readAmong_ofJson v hread hc).mono (List.subset_append_left ..)
      · exact (readAmong_treesIn vs h hc).mono (List.subset_append_right ..)
    case _ => exact (readAmong_treesIn vs h hc).mono (List.subset_append_right ..)

end

/-- A tree whose operators are those of symbols and whose numbers are finite comes back from its
JSON form, equal but for the sign of zeros, and has the same form then.  Every tree that is read
from a value of finite numbers is of this kind. -/
theorem ofJson_toJson_agrees :
    (∀ t : Logic, (∀ c ∈ t.conditions, c.Loaded) →
      ∃ t', ofJson t.toJson = some t' ∧ t'.agrees t = true ∧ t'.toJson = t.toJson) ∧
    ∀ (v : Json) (t : Logic), (∀ n ∈ v.numbers, n.IsFinite) → ofJson v = some t →
      ∀ c ∈ t.conditions, c.Loaded :=
  ⟨fun _ h => exists_ofJson_toJson h,
    fun _ _ hfinite hread _ hc => (readAmong_ofJson _ hread hc).loaded hfinite⟩

/-- A value spelled as no tree is written: other keys, a child that is no tree, a negative zero, an
integer that a signed word does not hold, and an array to compare with. -/
def spelledValue : Json :=
  .object [("ANY", .array
    [.object [("field", .string "a"), ("op", .string "~"),
      ("value", .ofDouble ⟨0x8000000000000000⟩)],
     .ofInt 7,
     .object [("children", .array
        [.object [("field", .string "b"), ("operator", .string "<"), ("value", .ofInt (2 ^ 63))],
         .object [("field", .string "c"), ("op", .string "=="),
           ("value", .array [.ofDouble ⟨0x3fe0000000000000⟩])]]),
      ("combinator", .string "All")]])]

/-- What `spelledValue` stands for. -/
def spelledTree : Logic :=
  .group .or
    [.leaf ⟨"a", .other "~", .number ⟨0x8000000000000000⟩⟩,
     .group .and
      [.leaf ⟨"b", .lessThan, .number ⟨0x43e0000000000000⟩⟩, .leaf ⟨"c", .equal, .text "[0.5]"⟩]]

/-- The sample value is read, and its tree is read back from its own form. -/
theorem ofJson_toJson_spelledTree : ofJson spelledValue = some spelledTree ∧
    (∀ n ∈ spelledValue.numbers, n.IsFinite) ∧
    ∃ t', ofJson spelledTree.toJson = some t' ∧ t'.agrees spelledTree = true ∧
      t'.toJson = spelledTree.toJson := by
  have hread : ofJson spelledValue = some spelledTree := by decide +kernel
  have hfinite : ∀ n ∈ spelledValue.numbers, n.toDouble.isFinite = true := by decide +kernel
  have hloaded := ofJson_toJson_agrees.2 spelledValue spelledTree hfinite hread
  exact ⟨hread, hfinite, ofJson_toJson_agrees.1 spelledTree hloaded⟩

end Logic

end RuleFlow
