import RuleFlow.Proofs.Logic.Json
import Mathlib.Data.List.DropRight
import Mathlib.Logic.Relation

/-!
# What the reading of trees tolerates

A tree has many spellings.  `Change` lists the changes of a value that must make no difference:
items that are no trees come and go, a group is respelled, and keys are added that nothing looks up.
Each of them leaves the tree that is read as it is (`Change.ofJson_eq`), in whatever group it is
made, and so does any number of them.

What is no tree counts as no logic where logic may be missing, and is refused where a tree is due.
-/

namespace RuleFlow

variable {ms : List (String × Json)} {key : String}

/-! ## Members -/

namespace Json

theorem member?_insert_self (key : String) (value : Json) (ms : List (String × Json)) :
    member? (insert key value ms) key = some value := by
  induction ms with
  | nil => simp [insert, member?]
  | cons m ms ih =>
    obtain ⟨k, v⟩ := m
    rw [insert]
    split
    · simp [member?]
    · split
      · simp [member?]
      · rename_i h
        rw [member?, List.lookup_cons, beq_eq_false_iff_ne.mpr h]
        exact ih

/-- Inserting under one key does not change what is found under others. -/
theorem member?_insert_of_ne {key key' : String} (h : key' ≠ key) (value : Json)
    (ms : List (String × Json)) : member? (insert key value ms) key' = member? ms key' := by
  have hne : (key' == key) = false := beq_eq_false_iff_ne.mpr h
  induction ms with
  | nil => simp [insert, member?, List.lookup_cons, hne]
  | cons m ms ih =>
    obtain ⟨k, v⟩ := m
    rw [insert]
    split
    · rw [member?, List.lookup_cons, hne]
      rfl
    · split
      case isTrue hk => rw [member?, member?, List.lookup_cons, List.lookup_cons, ← hk, hne]
      case isFalse =>
        rw [member?, member?, List.lookup_cons, List.lookup_cons]
        cases key' == k
        · exact ih
        · rfl

theorem member?_insert_of_notMem {key : String} {names : List String} (hkey : key ∉ names)
    (value : Json) (ms : List (String × Json)) :
    ∀ name ∈ names, member? (insert key value ms) name = member? ms name := by
  intro name hname
  refine member?_insert_of_ne ?_ value ms
  rintro rfl
  exact hkey hname

/-- An object without a key has the members of the other keys. -/
theorem member?_filter_of_ne {key key' : String} (h : key' ≠ key) (ms : List (String × Json)) :
    member? (ms.filter (·.1 != key)) key' = member? ms key' := by
  induction ms with
  | nil => rfl
  | cons m ms ih =>
    obtain ⟨k, v⟩ := m
    rw [member?, member?, List.filter_cons, List.lookup_cons]
    split
    · rw [List.lookup_cons]
      cases key' == k
      · exact ih
      · rfl
    case isFalse hk =>
      obtain rfl : k = key := by simpa using hk
      rw [beq_eq_false_iff_ne.mpr h]
      exact ih

end Json

namespace Logic

/-! ## Groups in JSON -/

/-- The list of trees under a key is that of the value under the key. -/
theorem lookup_listsIn (ms : List (String × Json)) (key : String) :
    (listsIn ms).lookup key = (Json.member? ms key).map listIn := by
  induction ms with
  | nil => rfl
  | cons m ms ih =>
    obtain ⟨k, v⟩ := m
    rw [listsIn, Json.member?, List.lookup_cons, List.lookup_cons]
    cases key == k
    · exact ih
    · rfl

/-- Items are read one by one, so lists of them are read one after the other. -/
theorem treesIn_append (xs ys : List Json) : treesIn (xs ++ ys) = treesIn xs ++ treesIn ys := by
  induction xs with
  | nil => rfl
  | cons x xs ih =>
    rw [List.cons_append, treesIn, treesIn, ih]
    cases ofJson x <;> rfl

theorem treesIn_cons_of_eq_none {x : Json} (h : ofJson x = none) (xs : List Json) :
    treesIn (x :: xs) = treesIn xs := by
  rw [treesIn, h]

theorem treesIn_cons_congr {x y : Json} (h : ofJson y = ofJson x) (xs : List Json) :
    treesIn (y :: xs) = treesIn (x :: xs) := by
  rw [treesIn, treesIn, h]

/-- An object that names its combinator, with the key and the items of its child array. -/
structure NamedGroup (kind : Combinator) (key : String) (ms : List (String × Json))
    (items : List Json) : Prop where
  noField : Json.member? ms "field" = none
  combinator : ∃ name, Json.member? ms "combinator" = some (.string name) ∧
    Combinator.ofName? name = some kind
  childKey : key = "children" ∨ key = "conditions" ∧ Json.member? ms "children" = none
  children : Json.member? ms key = some (.array items)

/-- An object that is a group, with the key and the items of its child array. -/
inductive IsGroup (kind : Combinator) : String → List (String × Json) → List Json → Prop
  | single {key : String} (h : Combinator.ofName? key = some kind) (items : List Json) :
      IsGroup kind key [(key, .array items)] items
  | named {key : String} {ms : List (String × Json)} {items : List Json}
      (h : NamedGroup kind key ms items) : IsGroup kind key ms items

variable {kind : Combinator} {items : List Json}

/-- A group that is spelled with its name is read as the group. -/
theorem NamedGroup.ofJson_eq (h : NamedGroup kind key ms items) :
    ofJson (.object ms) = some (.group kind (treesIn items)) := by
  obtain ⟨name, hname, hkind⟩ := h.combinator
  have hlist : ((listsIn ms).lookup "children").or ((listsIn ms).lookup "conditions") =
      some (listIn (.array items)) := by
    have hitems := h.children
    rw [lookup_listsIn, lookup_listsIn]
    rcases h.childKey with rfl | ⟨rfl, hnone⟩
    · rw [hitems, Option.map_some, Option.some_or]
    · rw [hnone, hitems, Option.map_none, Option.map_some, Option.none_or]
  simp only [ofJson, ofMembers, h.noField, hname, hlist, Option.bind_some, Json.string?, hkind]
  rfl

theorem ne_of_ofName?_eq_some {name : String} (hname : Combinator.ofName? name = none)
    (hkey : Combinator.ofName? key = some kind) : name ≠ key := by
  rintro rfl
  rw [hname] at hkey
  cases hkey

/-- A group is read as the group of the trees among its items. -/
theorem IsGroup.ofJson_eq (h : IsGroup kind key ms items) :
    ofJson (.object ms) = some (.group kind (treesIn items)) := by
  cases h with
  | single hkey items =>
    have hfield : "field" ≠ key := ne_of_ofName?_eq_some (by decide) hkey
    have hcombinator : "combinator" ≠ key := ne_of_ofName?_eq_some (by decide) hkey
    simp [ofJson, ofMembers, Json.member?, List.lookup_cons, beq_eq_false_iff_ne.mpr hfield,
      beq_eq_false_iff_ne.mpr hcombinator, listsIn, listIn, hkey]
  | named h => exact h.ofJson_eq

theorem listIn_eq_some {v : Json} {ts : List Logic} (h : listIn v = some ts) :
    ∃ items, v = .array items ∧ treesIn items = ts := by
  cases v with
  | array items => exact ⟨items, rfl, Option.some.inj h⟩
  | _ => cases h

theorem listsIn_eq_singleton {list : Option (List Logic)} (h : listsIn ms = [(key, list)]) :
    ∃ v, ms = [(key, v)] ∧ listIn v = list := by
  rcases ms with _ | ⟨⟨k, v⟩, _ | ⟨m, ms⟩⟩
  · cases h
  · rw [listsIn, listsIn] at h
    cases h
    exact ⟨v, rfl, rfl⟩
  · rw [listsIn, listsIn] at h
    cases h

/-- The objects that are read as groups are the groups. -/
theorem ofJson_eq_group_iff {ts : List Logic} : ofJson (.object ms) = some (.group kind ts) ↔
    ∃ key items, IsGroup kind key ms items ∧ treesIn items = ts := by
  constructor
  · intro h
    rw [ofJson] at h
    unfold ofMembers at h
    split at h
    case _ => simp at h
    case _ hfield =>
      split at h
      case _ k hk =>
        simp only [Option.map_eq_some_iff, Option.join_eq_some_iff, lookup_listsIn,
          Option.or_eq_some_iff, Option.map_eq_none_iff, group.injEq] at h
        obtain ⟨ts', hlist, rfl, rfl⟩ := h
        obtain ⟨name, hname, hkind⟩ := Option.bind_eq_some_iff.mp hk
        obtain ⟨v, hv, hstring⟩ := Option.bind_eq_some_iff.mp hname
        have hcombinator : ∃ name, Json.member? ms "combinator" = some (.string name) ∧
            Combinator.ofName? name = some k := by
          cases v <;> cases hstring
          exact ⟨name, hv, hkind⟩
        rcases hlist with ⟨v, hv, hlist⟩ | ⟨hnone, v, hv, hlist⟩ <;>
          obtain ⟨items, rfl, htrees⟩ := listIn_eq_some hlist
        · exact ⟨"children", items, .named ⟨hfield, hcombinator, .inl rfl, hv⟩, htrees⟩
        · exact ⟨"conditions", items, .named ⟨hfield, hcombinator, .inr ⟨rfl, hnone⟩, hv⟩, htrees⟩
      case _ =>
        split at h
        case _ key children hlists =>
          obtain ⟨k, hk, hgroup⟩ := Option.map_eq_some_iff.mp h
          cases hgroup
          obtain ⟨v, rfl, hv⟩ := listsIn_eq_singleton hlists
          obtain ⟨items, rfl, htrees⟩ := listIn_eq_some hv
          exact ⟨key, items, .single hk items, htrees⟩
        case _ => cases h
  · rintro ⟨key, items, hgroup, rfl⟩
    exact hgroup.ofJson_eq

theorem namedGroup_spellOut {name childKey : String} (hname : Combinator.ofName? name = some kind)
    (hchild : childKey = "children" ∨ childKey = "conditions") (items : List Json) :
    NamedGroup kind childKey (Json.insert "combinator" (.string name) [(childKey, .array items)])
      items := by
  have hother : ∀ key, key ≠ "combinator" → Json.member?
      (Json.insert "combinator" (.string name) [(childKey, .array items)]) key =
        if key = childKey then some (.array items) else none := by
    intro key hkey
    rw [Json.member?_insert_of_ne hkey, Json.member?, List.lookup_cons, List.lookup_nil]
    split <;> simp_all
  refine ⟨?_, ⟨name, Json.member?_insert_self .., hname⟩, ?_, ?_⟩
  · rw [hother _ (by simp)]
    rcases hchild with rfl | rfl <;> simp
  · rcases hchild with rfl | rfl
    · exact .inl rfl
    · refine .inr ⟨rfl, ?_⟩
      rw [hother _ (by simp), if_neg (by simp)]
  · rw [hother _ (by rcases hchild with rfl | rfl <;> simp), if_pos rfl]

/-- A key that is not looked up in groups may be added. -/
theorem NamedGroup.insert_of_notMem {childKey : String} (h : NamedGroup kind childKey ms items)
    (hkey : key ∉ ["field", "combinator", "children", "conditions"]) (value : Json) :
    NamedGroup kind childKey (Json.insert key value ms) items := by
  have hmember := Json.member?_insert_of_notMem hkey value ms
  have hchild : childKey ∈ ["field", "combinator", "children", "conditions"] := by
    rcases h.childKey with rfl | ⟨rfl, -⟩ <;> simp
  refine ⟨?_, ?_, ?_, ?_⟩
  · rw [hmember _ (by simp), h.noField]
  · rw [hmember _ (by simp)]
    exact h.combinator
  · rw [hmember _ (by simp)]
    exact h.childKey
  · rw [hmember _ hchild, h.children]

/-- The items of a group are replaced in its child array. -/
theorem IsGroup.insert (h : IsGroup kind key ms items) (items' : List Json) :
    IsGroup kind key (Json.insert key (.array items') ms) items' := by
  cases h with
  | single hkey items =>
    rw [Json.insert, if_neg (String.lt_irrefl key), if_pos rfl]
    exact .single hkey items'
  | named h =>
    have hne : ∀ name ∉ ["children", "conditions"], name ≠ key := by
      rintro name hname rfl
      rcases h.childKey with rfl | ⟨rfl, -⟩ <;> simp at hname
    obtain ⟨name, hname, hkind⟩ := h.combinator
    refine .named ⟨?_, ⟨name, ?_, hkind⟩, ?_, Json.member?_insert_self ..⟩
    · rw [Json.member?_insert_of_ne (hne _ (by decide)), h.noField]
    · rw [Json.member?_insert_of_ne (hne _ (by decide)), hname]
    · rcases h.childKey with hkey | ⟨hkey, hnone⟩
      · exact .inl hkey
      · refine .inr ⟨hkey, ?_⟩
        rw [Json.member?_insert_of_ne (by simp [hkey]), hnone]

/-! ## Comparisons in JSON -/

/-- An object with a field is read through the members of a comparison alone. -/
theorem ofJson_congr_of_field {ns : List (String × Json)}
    (hfield : (Json.member? ms "field").isSome = true)
    (hfield' : Json.member? ns "field" = Json.member? ms "field")
    (hoperator : (Json.member? ns "operator").or (Json.member? ns "op") =
      (Json.member? ms "operator").or (Json.member? ms "op"))
    (hvalue : Json.member? ns "value" = Json.member? ms "value") :
    ofJson (.object ns) = ofJson (.object ms) := by
  obtain ⟨field, hf⟩ := Option.isSome_iff_exists.mp hfield
  simp only [ofJson, ofMembers, hfield', hf, readCondition, hoperator, hvalue]

/-! ## Changes that make no difference -/

/-- A change of a value that the reading of trees must ignore, in a group at any depth. -/
inductive Change : Json → Json → Prop
  /-- An item that is no tree is put among the items of a group. -/
  | insertItem {kind : Combinator} {key : String} {ms : List (String × Json)}
      {before after : List Json} {x : Json} (h : IsGroup kind key ms (before ++ after))
      (hx : ofJson x = none) :
      Change (.object ms) (.object (Json.insert key (.array (before ++ x :: after)) ms))
  /-- An item that is no tree is taken from the items of a group. -/
  | removeItem {kind : Combinator} {key : String} {ms : List (String × Json)}
      {before after : List Json} {x : Json} (h : IsGroup kind key ms (before ++ x :: after))
      (hx : ofJson x = none) :
      Change (.object ms) (.object (Json.insert key (.array (before ++ after)) ms))
  /-- A group under a key that names the combinator is spelled with `combinator`. -/
  | spellOut {kind : Combinator} {key name childKey : String}
      (hkey : Combinator.ofName? key = some kind) (hname : Combinator.ofName? name = some kind)
      (hchild : childKey = "children" ∨ childKey = "conditions") (items : List Json) :
      Change (.object [(key, .array items)])
        (.object (Json.insert "combinator" (.string name) [(childKey, .array items)]))
  /-- A group with `combinator` is spelled with one key that names the combinator. -/
  | shorten {kind : Combinator} {key childKey : String} {ms : List (String × Json)}
      {items : List Json} (h : NamedGroup kind childKey ms items)
      (hkey : Combinator.ofName? key = some kind) :
      Change (.object ms) (.object [(key, .array items)])
  /-- A key is added to a group with `combinator`. -/
  | addToGroup {kind : Combinator} {key childKey : String} {ms : List (String × Json)}
      {items : List Json} (h : NamedGroup kind childKey ms items)
      (hkey : key ∉ ["field", "combinator", "children", "conditions"]) (value : Json) :
      Change (.object ms) (.object (Json.insert key value ms))
  /-- A key is added to a comparison. -/
  | addToCondition {key : String} {ms : List (String × Json)}
      (hfield : (Json.member? ms "field").isSome = true)
      (hkey : key ∉ ["field", "operator", "op", "value"]) (value : Json) :
      Change (.object ms) (.object (Json.insert key value ms))
  /-- The only operator of a comparison is moved from `op` to `operator`. -/
  | renameOp {ms : List (String × Json)} {operator : Json}
      (hfield : (Json.member? ms "field").isSome = true)
      (hoperator : Json.member? ms "operator" = none) (hop : Json.member? ms "op" = some operator) :
      Change (.object ms) (.object (Json.insert "operator" operator (ms.filter (·.1 != "op"))))
  /-- An item of a group is changed. -/
  | inside {kind : Combinator} {key : String} {ms : List (String × Json)} {before after : List Json}
      {x y : Json} (h : IsGroup kind key ms (before ++ x :: after)) (hxy : Change x y) :
      Change (.object ms) (.object (Json.insert key (.array (before ++ y :: after)) ms))

/-- Items are replaced by items in which the same trees are. -/
theorem IsGroup.ofJson_insert (h : IsGroup kind key ms items) {items' : List Json}
    (htrees : treesIn items' = treesIn items) :
    ofJson (.object (Json.insert key (.array items') ms)) = ofJson (.object ms) := by
  rw [(h.insert items').ofJson_eq, h.ofJson_eq, htrees]

/-- A change leaves the tree that is read as it is. -/
theorem Change.ofJson_eq {v w : Json} (h : Change v w) : ofJson w = ofJson v := by
  induction h with
  | insertItem h hx =>
    apply h.ofJson_insert
    rw [treesIn_append, treesIn_append, treesIn_cons_of_eq_none hx]
  | removeItem h hx =>
    apply h.ofJson_insert
    rw [treesIn_append, treesIn_append, treesIn_cons_of_eq_none hx]
  | spellOut hkey hname hchild items =>
    rw [(namedGroup_spellOut hname hchild items).ofJson_eq, (IsGroup.single hkey items).ofJson_eq]
  | shorten h hkey => rw [h.ofJson_eq, (IsGroup.single hkey _).ofJson_eq]
  | addToGroup h hkey value => rw [(h.insert_of_notMem hkey value).ofJson_eq, h.ofJson_eq]
  | @addToCondition key ms hfield hkey value =>
    have hmember := Json.member?_insert_of_notMem hkey value ms
    apply ofJson_congr_of_field hfield
    · rw [hmember _ (by simp)]
    · rw [hmember _ (by simp), hmember _ (by simp)]
    · rw [hmember _ (by simp)]
  | @renameOp ms operator hfield hoperator hop =>
    have hmember : ∀ name, name ≠ "operator" → name ≠ "op" →
        Json.member? (Json.insert "operator" operator (ms.filter (·.1 != "op"))) name =
          Json.member? ms name := by
      intro name hne hne'
      rw [Json.member?_insert_of_ne hne, Json.member?_filter_of_ne hne']
    apply ofJson_congr_of_field hfield
    · exact hmember _ (by simp) (by simp)
    · rw [Json.member?_insert_self, hoperator, hop, Option.some_or, Option.none_or]
    · exact hmember _ (by simp) (by simp)
  | inside h _ ih =>
    apply h.ofJson_insert
    rw [treesIn_append, treesIn_append, treesIn_cons_congr ih]

end Logic

/-! ## Readers of trees -/

namespace Json

open Step

variable {d : ℕ} {c c' : Cursor} {v : Json}

theorem next_skipBlanks (c : Cursor) : next { c with rest := skipBlanks c.rest } = next c := by
  simp [next, skipBlanks, List.dropWhile_idempotent]

/-- Blanks before a value are skipped. -/
theorem Reader.value_skipBlanks (d : ℕ) (c : Cursor) :
    value d { c with rest := skipBlanks c.rest } = value d c := by
  cases d <;> rw [value, anyValue, bind_run, bind_run, next_skipBlanks]

/-- Where a value is read, the same value or null is read. -/
theorem Reader.optional_of_value (h : value d c = .ok v c') :
    value.optional d c = .ok none c' ∧ v = .null ∨ value.optional d c = .ok (some v) c' := by
  have hnext : next c = .ok (skipBlanks c.rest).head? { c with rest := skipBlanks c.rest } := rfl
  rcases Decidable.em ((skipBlanks c.rest).head? = some 'n') with hn | hn
  · left
    have hnull : value d c = (do take; lex (word ['u', 'l', 'l']); pure .null : Step Json)
        { c with rest := skipBlanks c.rest } := by
      cases d <;> simp only [value, anyValue, bind_run, hnext, hn]
    rw [hnull] at h
    have htake : take { c with rest := skipBlanks c.rest } =
        .ok () { c with rest := (skipBlanks c.rest).tail } := rfl
    simp only [optional, hnext, hn, bind_run, htake] at h ⊢
    split at h
    case _ hlex =>
      cases h
      exact ⟨rfl, rfl⟩
    case _ => cases h
  · right
    simp only [optional, bind_run, hnext, value_skipBlanks, h, pure_run]

end Json

namespace Logic

open Json (Cursor)

variable {d : ℕ} {c c' : Cursor} {v : Json}

/-- Where a value is read that is no tree, no logic is read. The value is set aside unless it is
null. -/
theorem lenientReader_of_eq_none (h : Json.Reader.value d c = .ok v c') (hv : ofJson v = none) :
    lenientReader d c =
      .ok none { c' with setAside := c'.setAside ++ if v.isNull then [] else [v] } := by
  rw [lenientReader, Json.Step.bind_run]
  rcases Json.Reader.optional_of_value h with ⟨hread, rfl⟩ | hread
  · simp [hread, Json.isNull]
  · cases hnull : v.isNull <;> simp [hread, hv, hnull, Json.Step.setAside]

/-- Where a value is read that is no tree, the reading of a tree fails and shows the value. -/
theorem reader_of_eq_none (h : Json.Reader.value d c = .ok v c') (hv : ofJson v = none) :
    reader d c = .error (.refused ("malformed logic node: " ++ v.text)) c' := by
  rw [reader, Json.Reader.refine, Json.Step.bind_run, h]
  simp only [hv]
  rfl

/-- The reading of trees ignores what it should: any number of changes, in groups at any depth,
leave the tree that is read as it is.  A value that is no tree counts as no logic, and where a tree
is due it is refused. -/
theorem ofJson_tolerates_changes :
    (∀ (v w : Json) (t : Logic), ofJson v = some t → Relation.ReflTransGen Change v w →
      ofJson w = some t) ∧
    ∀ v : Json, ofJson v = none → ∀ (d : ℕ) (c c' : Cursor), Json.Reader.value d c = .ok v c' →
      lenientReader d c =
        .ok none { c' with setAside := c'.setAside ++ if v.isNull then [] else [v] } ∧
      reader d c = .error (.refused ("malformed logic node: " ++ v.text)) c' := by
  constructor
  · intro v w t ht hchanges
    induction hchanges with
    | refl => exact ht
    | tail _ hchange ih => rw [hchange.ofJson_eq, ih]
  · intro v hv d c c' hread
    exact ⟨lenientReader_of_eq_none hread hv, reader_of_eq_none hread hv⟩

def looseComparison : Json := .object [("field", .string "paid"), ("op", .string "==")]

/-- A group with an item that is no tree, and a comparison whose operator is under `op`. -/
def looseTree : Json := .object [("OR", .array [looseComparison, .bool true])]

def tidyTree : Json :=
  .object [("children", .array [.object [("field", .string "paid"), ("operator", .string "==")]]),
    ("combinator", .string "any"), ("note", .null)]

theorem ofJson_tolerates_changes_looseTree :
    ofJson looseTree = some (.group .or [.leaf ⟨"paid", .equal, .null⟩]) ∧
    Relation.ReflTransGen Change looseTree tidyTree ∧
    ofJson tidyTree = some (.group .or [.leaf ⟨"paid", .equal, .null⟩]) ∧
    ofJson (.bool true) = none ∧
    Json.Reader.value 1 ⟨[' ', 't', 'r', 'u', 'e', ']'], []⟩ = .ok (.bool true) ⟨[']'], []⟩ ∧
    lenientReader 1 ⟨[' ', 't', 'r', 'u', 'e', ']'], []⟩ = .ok none ⟨[']'], [.bool true]⟩ ∧
    reader 1 ⟨[' ', 't', 'r', 'u', 'e', ']'], []⟩ =
      .error (.refused "malformed logic node: true") ⟨[']'], []⟩ := by
  have htree : ofJson looseTree = some (.group .or [.leaf ⟨"paid", .equal, .null⟩]) := by decide
  have hvalue : Json.Reader.value 1 ⟨[' ', 't', 'r', 'u', 'e', ']'], []⟩ =
      .ok (.bool true) ⟨[']'], []⟩ := rfl
  have hremove : Change looseTree (.object [("OR", .array [looseComparison])]) :=
    @Change.removeItem .or "OR" _ [looseComparison] [] (.bool true) (.single (by decide) _) rfl
  have hspell : Change (.object [("OR", .array [looseComparison])])
      (.object [("children", .array [looseComparison]), ("combinator", .string "any")]) :=
    @Change.spellOut .or "OR" "any" "children" (by decide) (by decide) (.inl rfl) [looseComparison]
  have hnamed : NamedGroup .or "children"
      [("children", .array [looseComparison]), ("combinator", .string "any")] [looseComparison] :=
    ⟨rfl, ⟨"any", rfl, by decide⟩, .inl rfl, rfl⟩
  have hadd : Change
      (.object [("children", .array [looseComparison]), ("combinator", .string "any")])
      (.object [("children", .array [looseComparison]), ("combinator", .string "any"),
        ("note", .null)]) :=
    @Change.addToGroup .or "note" "children" _ _ hnamed (by simp) .null
  have hnoted : NamedGroup .or "children"
      [("children", .array [looseComparison]), ("combinator", .string "any"), ("note", .null)]
      [looseComparison] :=
    ⟨rfl, ⟨"any", rfl, by decide⟩, .inl rfl, rfl⟩
  have hrename : Change (.object [("children", .array [looseComparison]),
      ("combinator", .string "any"), ("note", .null)]) tidyTree :=
    @Change.inside .or "children" _ [] [] looseComparison _ (.named hnoted) (.renameOp rfl rfl rfl)
  have hchanges : Relation.ReflTransGen Change looseTree tidyTree :=
    (((Relation.ReflTransGen.single hremove).tail hspell).tail hadd).tail hrename
  obtain ⟨htolerant, hnone⟩ := ofJson_tolerates_changes
  obtain ⟨hlenient, hstrict⟩ := hnone (.bool true) rfl 1 _ _ hvalue
  exact ⟨htree, hchanges, htolerant _ _ _ htree hchanges, rfl, hvalue, hlenient, hstrict⟩

end Logic

end RuleFlow
