import RuleFlow.Proofs.Json.Reading

/-!
# What readers give

`Step.Ensures` is a postcondition: whatever the text, if the step ends well then its result has the
property.  Of a free-form value it says that it is one that can be written and read again.
-/

namespace RuleFlow.Json

variable {α β : Type} {p : α → Prop} {q : β → Prop}

/-! ## Postconditions -/

/-- Whatever the text, the step ends with a result of the property or not at all. -/
def Step.Ensures (step : Step α) (p : α → Prop) : Prop :=
  ∀ c a c', step c = .ok a c' → p a

namespace Step

theorem ensures_true (step : Step α) : step.Ensures fun _ => True := fun _ _ _ _ => trivial

theorem ensures_pure {a : α} (h : p a) : (pure a : Step α).Ensures p := by
  rintro c _ _ ⟨⟩
  exact h

/-- A fault is no result, so a step that only has faults ensures anything. -/
theorem ensures_throw (e : Fault) : (throw e : Step α).Ensures p := by
  rintro c a c' ⟨⟩

/-- A postcondition of the first step is what the second one may rely on. -/
theorem Ensures.bind {step : Step α} {f : α → Step β} (h : step.Ensures p)
    (hf : ∀ a, p a → (f a).Ensures q) : (step >>= f).Ensures q := by
  intro c b c'' hb
  rw [bind_run] at hb
  split at hb
  case _ a c' ha => exact hf a (h c a c' ha) c' b c'' hb
  case _ => cases hb

theorem ensures_bind {step : Step α} {f : α → Step β} (hf : ∀ a, (f a).Ensures q) :
    (step >>= f).Ensures q :=
  (ensures_true step).bind fun a _ => hf a

theorem ensures_lex {lexer : Lexer α} (h : ∀ s a r, lexer s = .ok (a, r) → p a) :
    (lex lexer).Ensures p := by
  intro c a c' ha
  unfold lex at ha
  split at ha
  case _ a r hlexer =>
    cases ha
    exact h _ _ _ hlexer
  case _ => cases ha

/-- A mismatch is a fault, however much of the value has to be read for its wording. -/
theorem ensures_mismatch (expected : String) : (mismatch expected : Step α).Ensures p := by
  refine ensures_bind fun ch => ?_
  split
  · exact ensures_bind fun _ => ensures_bind fun _ => ensures_throw _
  · exact ensures_bind fun _ => ensures_bind fun _ => ensures_throw _
  · exact ensures_bind fun _ => ensures_bind fun _ => ensures_throw _
  · exact ensures_bind fun _ => ensures_bind fun _ => ensures_throw _
  · exact ensures_throw _
  · exact ensures_throw _
  · split
    · exact ensures_bind fun _ => ensures_throw _
    · exact ensures_throw _
  · exact ensures_throw _

/-! ## Free-form values -/

/-- The items that have been collected keep the property, and each new one has it. -/
theorem ensures_itemsFrom {item : Step α} (h : item.Ensures p) (fuel : ℕ) (first : Bool)
    (acc : List α) (hacc : ∀ a ∈ acc, p a) :
    (itemsFrom item fuel first acc).Ensures fun as => ∀ a ∈ as, p a := by
  induction fuel generalizing first acc with
  | zero => exact ensures_throw _
  | succ fuel ih =>
    refine ensures_bind fun more => ?_
    split
    · exact h.bind fun a ha => ih false (a :: acc) (by simpa [ha] using hacc)
    · exact ensures_pure (by simpa using hacc)

theorem ensures_items {item : Step α} (h : item.Ensures p) :
    (items item).Ensures fun as => ∀ a ∈ as, p a :=
  ensures_bind fun c => ensures_itemsFrom h _ _ _ (by simp)

end Step

theorem mem_insert {k : String} {v : Json} {ms : List (String × Json)} {m : String × Json}
    (h : m ∈ Json.insert k v ms) : m = (k, v) ∨ m ∈ ms := by
  induction ms with
  | nil => simpa [Json.insert] using h
  | cons m' ms ih =>
    obtain ⟨k', v'⟩ := m'
    rw [Json.insert] at h
    split_ifs at h
    · simpa using h
    · grind
    · grind

/-- A member is inserted in its place, or instead of one with its key. -/
theorem insert_sorted {k : String} {v : Json} {ms : List (String × Json)}
    (h : (ms.map Prod.fst).Pairwise (· < ·)) :
    ((Json.insert k v ms).map Prod.fst).Pairwise (· < ·) := by
  induction ms with
  | nil => simp [Json.insert]
  | cons m ms ih =>
    obtain ⟨k', v'⟩ := m
    rw [Json.insert]
    rw [List.map_cons, List.pairwise_cons] at h
    split_ifs with hlt heq
    · simp only [List.map_cons, List.pairwise_cons, List.mem_cons, forall_eq_or_imp]
      exact ⟨⟨hlt, fun x hx => hlt.trans (h.1 x hx)⟩, h⟩
    · subst heq
      exact List.pairwise_cons.mpr h
    · refine List.pairwise_cons.mpr ⟨fun x hx => ?_, ih h.2⟩
      obtain ⟨m, hm, rfl⟩ := List.mem_map.mp hx
      obtain rfl | hm := mem_insert hm
      · exact lt_of_le_of_ne (not_lt.mp hlt) (Ne.symm heq)
      · exact h.1 m.1 (List.mem_map_of_mem hm)

/-- The double nearest to the number is finite. -/
def Number.IsFinite (n : Number) : Prop := n.toDouble.isFinite = true

/-- Members that can be written and read again: with their keys in order, and with such values. -/
def FitMembers (p : Number → Prop) (d : ℕ) (ms : List (String × Json)) : Prop :=
  (ms.map Prod.fst).Pairwise (· < ·) ∧ ∀ m ∈ ms, Fits p d m.2

namespace Step

/-- The members that have been collected stay in the order of their keys. -/
theorem ensures_membersFrom {value : Step Json} {p : Number → Prop} {d : ℕ}
    (h : value.Ensures (Fits p d)) (fuel : ℕ) (first : Bool) (acc : List (String × Json))
    (hacc : FitMembers p d acc) : (membersFrom value fuel first acc).Ensures (FitMembers p d) := by
  induction fuel generalizing first acc with
  | zero => exact ensures_throw _
  | succ fuel ih =>
    refine ensures_bind fun more => ?_
    split
    · refine ensures_bind fun k => ensures_bind fun _ => h.bind fun v hv => ih false _ ?_
      refine ⟨insert_sorted hacc.1, fun m hm => ?_⟩
      obtain rfl | hm := mem_insert hm
      · exact hv
      · exact hacc.2 m hm
    · exact ensures_pure hacc

/-- The members of an object are in the order of their keys, whatever their order in the text. -/
theorem ensures_members {value : Step Json} {p : Number → Prop} {d : ℕ}
    (h : value.Ensures (Fits p d)) : (members value).Ensures (FitMembers p d) :=
  ensures_bind fun _ => ensures_membersFrom h _ _ _ ⟨.nil, by simp⟩

/-- A value is null, a truth value, a string, a finite number, or what the steps for arrays and
objects give. -/
theorem ensures_anyValue {array object : Step Json} {d : ℕ}
    (harray : array.Ensures (Fits Number.IsFinite d))
    (hobject : object.Ensures (Fits Number.IsFinite d)) :
    (anyValue array object).Ensures (Fits Number.IsFinite d) := by
  refine ensures_bind fun ch => ?_
  split
  · exact ensures_throw _
  · exact ensures_bind fun _ => ensures_bind fun _ => ensures_pure .null
  · exact ensures_bind fun _ => ensures_bind fun _ => ensures_pure (.bool _)
  · exact ensures_bind fun _ => ensures_bind fun _ => ensures_pure (.bool _)
  · exact ensures_bind fun _ => ensures_bind fun _ => ensures_pure (.string _)
  · exact harray
  · exact hobject
  · split
    · exact (ensures_lex fun _ _ _ => isFinite_readNumber).bind fun n hn =>
        ensures_pure (.number hn)
    · exact ensures_throw _

end Step

namespace Reader

open Step

/-- A free-form value that is read at a depth is nested no deeper, its keys are in order, and its
numbers are finite. -/
theorem ensures_value (d : ℕ) : (value d).Ensures (Fits Number.IsFinite d) := by
  induction d with
  | zero => exact ensures_anyValue (ensures_throw _) (ensures_throw _)
  | succ d ih =>
    refine ensures_anyValue ?_ ?_
    · exact ensures_bind fun _ => (ensures_items ih).bind fun vs hvs => ensures_bind fun _ =>
        ensures_pure (.array hvs)
    · exact ensures_bind fun _ => (ensures_members ih).bind fun ms hms => ensures_bind fun _ =>
        ensures_pure (.object hms.1 hms.2)

/-- A value that may be missing has the property if it is there. -/
theorem ensures_optional {reader : Reader α} {d : ℕ} (h : (reader d).Ensures p) :
    (reader.optional d).Ensures fun r => ∀ a ∈ r, p a := by
  refine ensures_bind fun ch => ?_
  split
  · exact ensures_bind fun _ => ensures_bind fun _ => ensures_pure (by simp)
  · exact h.bind fun a ha => ensures_pure (by simpa using ha)

end Reader

/-! ## Records -/

namespace Fields

open Step

variable {τ σ : Type} {fs : Fields τ σ}

/-- Readers and defaults of all fields have properties that make up `p`. -/
inductive Ensure (depth : ℕ) : {τ σ : Type} → Fields τ σ → (τ → Prop) → Prop
  | done : Ensure depth .done fun _ => True
  | field {α τ σ : Type} {f : Field α} {fs : Fields τ σ} {p : α → Prop} {q : τ → Prop}
      (hreader : (f.reader depth).Ensures p) (habsent : ∀ a ∈ f.absent, p a)
      (hcutOff : ∀ a ∈ f.cutOff, p a) (hfs : Ensure depth fs q) :
      Ensure depth (.field f fs) fun t => p t.1 ∧ q t.2

/-- Slots keep what the readers of their fields ensure. -/
theorem Ensure.exists_slots {depth : ℕ} {q : τ → Prop} (h : Ensure depth fs q) :
    ∃ r : σ → Prop, r fs.emptySlots ∧
      (∀ key slots, r slots →
        (fs.readInto depth key slots).Ensures fun slots' => ∀ s ∈ slots', r s) ∧
      ∀ slots t, r slots → fs.collect slots = .ok t → q t := by
  induction h with
  | done =>
    refine ⟨fun _ => True, trivial, fun key slots _ => ?_, fun _ _ _ _ => trivial⟩
    exact Step.ensures_pure (by simp)
  | @field α τ σ f fs p q hreader habsent hcutOff hfs ih =>
    obtain ⟨r, hempty, hread, hcollect⟩ := ih
    refine ⟨fun slots => (∀ a ∈ slots.1, p a) ∧ r slots.2, ⟨by simp [emptySlots], hempty⟩, ?_, ?_⟩
    · rintro key ⟨slot, slots⟩ ⟨hslot, hslots⟩
      rw [readInto]
      split
      · split
        · exact (ensures_throw (p := fun _ => False) _).bind fun _ h => h.elim
        · exact ensures_bind fun _ => hreader.bind fun a ha =>
            ensures_pure (by simpa using ⟨ha, hslots⟩)
      · refine (hread key slots hslots).bind fun slots' hslots' => ?_
        split
        case _ slots' => exact ensures_pure (by simpa using ⟨hslot, hslots' slots' rfl⟩)
        case _ => exact ensures_pure (by simp)
    · rintro ⟨slot, slots⟩ ⟨a, t⟩ ⟨hslot, hslots⟩ ht
      rw [collect] at ht
      split at ht
      case _ a' ha' =>
        obtain ⟨t', ht', heq⟩ := bind_ok ht
        cases heq
        refine ⟨?_, hcollect slots t hslots ht'⟩
        obtain hslot' | habsent' := Option.or_eq_some_iff.mp ha'
        · exact hslot a hslot'
        · exact habsent a habsent'.2
      case _ => cases ht

/-- A record has what its fields ensure, read from an object.  Members under other keys are
skipped. -/
theorem Ensure.readObject {depth : ℕ} {q : τ → Prop} (h : Ensure depth fs q) :
    (fs.readObject depth).Ensures q := by
  obtain ⟨r, hempty, hread, hcollect⟩ := h.exists_slots
  have hmembers (fuel : ℕ) (first : Bool) (slots : σ) (hslots : r slots) :
      (fs.readMembers depth fuel first slots).Ensures r := by
    induction fuel generalizing first slots with
    | zero => exact ensures_throw _
    | succ fuel ih =>
      refine ensures_bind fun more => ?_
      split
      · refine ensures_bind fun k => (hread k slots hslots).bind fun slots' hslots' => ?_
        split
        · exact ih _ _ (hslots' _ rfl)
        · exact ensures_bind fun _ => ensures_bind fun _ => ih _ _ hslots
      · exact ensures_pure hslots
  refine ensures_bind fun c => (hmembers _ _ _ hempty).bind fun slots hslots => ?_
  split
  case _ t ht => exact ensures_bind fun _ => ensures_pure (hcollect slots t hslots ht)
  case _ => exact ensures_throw _

/-- A record has what its fields ensure, read from an array.  Fields behind its end have their
defaults. -/
theorem Ensure.readItems {expected : String} {depth : ℕ} {q : τ → Prop} (h : Ensure depth fs q)
    (index : ℕ) : (fs.readItems expected depth index).Ensures q := by
  induction h generalizing index with
  | done => exact ensures_pure trivial
  | @field α τ σ f fs p q hreader habsent hcutOff hfs ih =>
    refine ensures_bind fun more => ?_
    split
    · exact hreader.bind fun a ha => (ih _).bind fun t ht => ensures_pure ⟨ha, ht⟩
    · split
      case _ a ha => exact (ih _).bind fun t ht => ensures_pure ⟨hcutOff a ha, ht⟩
      case _ => exact ensures_throw _

end Fields

open Step in
/-- What the readers and defaults of its fields ensure holds of a record, read either way. -/
theorem Reader.ensures_record {τ σ : Type} {fs : Fields τ σ} {make : τ → α} {name : String} {d : ℕ}
    {q : τ → Prop} (h : fs.Ensure d q) (hmake : ∀ t, q t → p (make t)) :
    (Reader.record name fs make (d + 1)).Ensures p := by
  refine ensures_bind fun ch => ?_
  split
  · exact ensures_throw _
  · exact (ensures_bind fun _ => (h.readItems _).bind fun t ht => ensures_bind fun _ =>
      ensures_pure ht).bind fun t ht => ensures_pure (hmake t ht)
  · exact (ensures_bind fun _ => h.readObject).bind fun t ht => ensures_pure (hmake t ht)
  · exact ensures_mismatch _

/-! ## Whole texts -/

/-- What a reader ensures holds of what it reads from a whole text. -/
theorem Step.Ensures.of_read {reader : Reader α} {text : String} {a : α}
    (h : (reader depthLimit).Ensures p) (ha : reader.read text = .ok a) : p a := by
  rw [Reader.read, Reader.run] at ha
  simp only [EStateM.run] at ha
  split at ha
  case _ a' c hrun =>
    cases ha
    refine Step.Ensures.bind h (fun a ha => Step.ensures_bind fun ch => ?_) _ _ _ hrun
    split
    · exact Step.ensures_pure ha
    · exact Step.ensures_throw _
  case _ => cases ha

end RuleFlow.Json
