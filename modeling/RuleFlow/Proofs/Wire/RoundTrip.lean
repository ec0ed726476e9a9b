import RuleFlow.Wire.Codec

/-!
# Reading back what was written

A codec round-trips on a class of values if it reads each of them back from its bytes, whatever
bytes follow, and leaves those bytes over.  That nothing depends on what follows is what lets the
property pass from the parts to a pair, a list or a union: each section below says how it does for
one way of composing codecs, and the class of values is composed alongside.
-/

namespace RuleFlow.Wire

/-! ## Integers -/

/-- So many bytes are taken, and what follows is left over. -/
theorem takeBytes_append (bytes rest : List UInt8) :
    takeBytes bytes.length (bytes ++ rest) = .ok (bytes, rest) := by
  simp [takeBytes]

@[simp] theorem length_littleEndian (width n : Nat) : (littleEndian width n).length = width := by
  induction width generalizing n with
  | zero => rfl
  | succ width ih => rw [littleEndian, List.length_cons, ih]

/-- So many bytes hold every number below the power of 256. -/
theorem ofLittleEndian_littleEndian {width n : Nat} (h : n < 256 ^ width) :
    ofLittleEndian (littleEndian width n) = n := by
  induction width generalizing n with
  | zero =>
    rw [Nat.pow_zero] at h
    rw [littleEndian, ofLittleEndian]
    omega
  | succ width ih =>
    have hdiv : n / 256 < 256 ^ width := by
      rw [Nat.div_lt_iff_lt_mul (by decide), ← Nat.pow_succ]
      exact h
    rw [littleEndian, ofLittleEndian, ih hdiv, UInt8.toNat_ofNat']
    omega

/-- A number led by the announcement of its width. -/
theorem decodeVarint_announced {width announced n : Nat} {first : UInt8} (rest : List UInt8)
    (hfirst : ¬ first < 251) (hannounced : announcedWidth? first = some announced)
    (hwidth : announced ≤ width) (hn : n < 256 ^ announced) :
    decodeVarint width (first :: littleEndian announced n ++ rest) = .ok (n, rest) := by
  have htake := takeBytes_append (littleEndian announced n) rest
  rw [length_littleEndian] at htake
  rw [List.cons_append, decodeVarint, if_neg hfirst]
  simp only [hannounced, if_pos hwidth, htake]
  exact congrArg (fun m => Except.ok (m, rest)) (ofLittleEndian_littleEndian hn)

/-- A number of 64 bits is read back where eight bytes are allowed, and a small one anywhere. -/
theorem decodeVarint_encodeVarint {width n : Nat} (hn : n < 2 ^ 64) (hwidth : n < 251 ∨ 8 ≤ width)
    (rest : List UInt8) : decodeVarint width (encodeVarint n ++ rest) = .ok (n, rest) := by
  rw [encodeVarint]
  by_cases h₁ : n < 251
  · have hbyte : (UInt8.ofNat n).toNat = n := by
      rw [UInt8.toNat_ofNat']
      omega
    have hfirst : UInt8.ofNat n < 251 := by
      rw [UInt8.lt_iff_toNat_lt, hbyte]
      exact h₁
    rw [if_pos h₁, List.singleton_append, decodeVarint, if_pos hfirst, hbyte]
  · have h₈ : 8 ≤ width := hwidth.resolve_left h₁
    rw [if_neg h₁]
    split
    · exact decodeVarint_announced rest (by decide) rfl (by omega) (by omega)
    · split
      · exact decodeVarint_announced rest (by decide) rfl (by omega) (by omega)
      · exact decodeVarint_announced rest (by decide) rfl h₈ (by omega)

theorem fromUTF8?_toUTF8 (s : String) : String.fromUTF8? ⟨s.toUTF8.data⟩ = some s := by
  rw [String.fromUTF8?]
  exact dif_pos s.isValidUTF8

namespace Codec

/-- A codec reads back the values of a class from what it writes, and leaves over what follows. -/
def RoundTrips (codec : Codec α) (p : α → Prop) : Prop :=
  ∀ a, p a → ∀ rest, codec.decode (codec.encode a ++ rest) = .ok (a, rest)

/-! ## Leaves -/

/-- Numbers of 64 bits are read back, in each of the widths. -/
theorem roundTrips_nat : nat.RoundTrips (· < 2 ^ 64) := fun _ hn rest =>
  decodeVarint_encodeVarint hn (.inr (Nat.le_refl 8)) rest

/-- Doubles are read back bit by bit. -/
theorem roundTrips_double : double.RoundTrips fun _ => True := by
  intro x _ rest
  have htake := takeBytes_append (littleEndian 8 x.bits.toNat) rest
  rw [length_littleEndian] at htake
  have hbits : ofLittleEndian (littleEndian 8 x.bits.toNat) = x.bits.toNat :=
    ofLittleEndian_littleEndian (by have := x.bits.toNat_lt; omega)
  simp only [double, htake, bind, Except.bind, pure, Except.pure, hbits, UInt64.ofNat_toNat]

/-- Texts whose length a word holds. -/
theorem roundTrips_string : string.RoundTrips (·.utf8ByteSize < 2 ^ 64) := by
  intro s hs rest
  have hlen : s.utf8ByteSize = s.toUTF8.data.toList.length := rfl
  have htake := takeBytes_append s.toUTF8.data.toList rest
  rw [← hlen] at htake
  simp only [string, List.append_assoc, decodeVarint_encodeVarint hs (.inr (Nat.le_refl 8)), bind,
    Except.bind, htake, Array.toArray_toList, fromUTF8?_toUTF8, pure, Except.pure]

theorem roundTrips_unit : unit.RoundTrips fun _ => True := fun _ _ _ => rfl

/-! ## Composed values -/

variable {a : Codec α} {b : Codec β} {p : α → Prop} {q : β → Prop}

/-- Two values are read back one after the other. -/
theorem RoundTrips.pair (ha : a.RoundTrips p) (hb : b.RoundTrips q) :
    (a.pair b).RoundTrips fun x => p x.1 ∧ q x.2 := by
  rintro ⟨x, y⟩ ⟨hx, hy⟩ rest
  simp only [Codec.pair, List.append_assoc, ha x hx, hb y hy, bind, Except.bind, pure, Except.pure]

/-- A value that is made again from its parts. -/
theorem RoundTrips.via {make : α → β} {parts : β → α} (ha : a.RoundTrips p)
    (hmake : ∀ y, q y → make (parts y) = y) (hparts : ∀ y, q y → p (parts y)) :
    (a.via make parts).RoundTrips q := by
  intro y hy rest
  simp only [Codec.via, ha _ (hparts y hy), bind, Except.bind, pure, Except.pure, hmake y hy]

theorem roundTrips_bool : bool.RoundTrips fun _ => True := by
  intro x _ rest
  cases x <;> rfl

theorem RoundTrips.option (ha : a.RoundTrips p) : a.option.RoundTrips fun o => ∀ x ∈ o, p x := by
  intro o ho rest
  cases o with
  | none => rfl
  | some x =>
    have hone : ¬ (1 : UInt8) = 0 := by decide
    simp only [Codec.option, List.cons_append, if_neg hone, if_pos, ha x (ho x rfl), bind,
      Except.bind, pure, Except.pure]

/-- So many values are read back one after the other, by induction on the list. -/
theorem RoundTrips.decodeMany (ha : a.RoundTrips p) (xs : List α) (hxs : ∀ x ∈ xs, p x)
    (rest : List UInt8) :
    a.decodeMany xs.length (xs.flatMap a.encode ++ rest) = .ok (xs, rest) := by
  induction xs with
  | nil => rfl
  | cons x xs ih =>
    obtain ⟨hx, hxs⟩ := List.forall_mem_cons.mp hxs
    simp only [List.length_cons, List.flatMap_cons, List.append_assoc, Codec.decodeMany, ha x hx,
      ih hxs, bind, Except.bind, pure, Except.pure]

/-- Lists whose length a word holds. -/
theorem RoundTrips.list (ha : a.RoundTrips p) :
    a.list.RoundTrips fun xs => xs.length < 2 ^ 64 ∧ ∀ x ∈ xs, p x := by
  rintro xs ⟨hlen, hxs⟩ rest
  simp only [Codec.list, List.append_assoc, decodeVarint_encodeVarint hlen (.inr (Nat.le_refl 8)),
    bind, Except.bind]
  exact ha.decodeMany xs hxs rest

end Codec

/-! ## Variants -/

/-- A variant makes its values again from what its codec reads back of their contents. -/
def Case.RoundTrips (c : Case α) (p : α → Prop) : Prop :=
  ∀ a content, p a → c.content? a = some content →
    c.make content = a ∧
      ∀ rest, c.codec.decode (c.codec.encode content ++ rest) = .ok (content, rest)

/-- A variant is read back if its content is and the value can be made of it again. -/
theorem Case.roundTrips_of_codec {c : Case α} {p : α → Prop} {q : c.Content → Prop}
    (hcodec : c.codec.RoundTrips q)
    (hmake : ∀ a content, p a → c.content? a = some content → c.make content = a ∧ q content) :
    c.RoundTrips p := fun a content ha hcontent =>
  ⟨(hmake a content ha hcontent).1, hcodec content (hmake a content ha hcontent).2⟩

/-- The first variant that a value belongs to is the one written. -/
theorem Codec.encodeCase_eq {a : α} {cases : List (Case α)}
    (h : ∃ c ∈ cases, (c.content? a).isSome) (index : Nat) :
    ∃ i c content, cases[i]? = some c ∧ c.content? a = some content ∧
      encodeCase a index cases = encodeVarint (index + i) ++ c.codec.encode content := by
  induction cases generalizing index with
  | nil =>
    obtain ⟨c, hc, -⟩ := h
    cases hc
  | cons c cs ih =>
    cases hc : c.content? a with
    | some content => exact ⟨0, c, content, rfl, hc, by rw [encodeCase, hc]; rfl⟩
    | none =>
      obtain ⟨c', hmem, hsome⟩ := h
      have htail : ∃ c ∈ cs, (c.content? a).isSome := by
        rcases List.mem_cons.mp hmem with rfl | hmem
        · simp [hc] at hsome
        · exact ⟨c', hmem, hsome⟩
      obtain ⟨i, d, content, hget, hcontent, henc⟩ := ih htail (index + 1)
      refine ⟨i + 1, d, content, hget, hcontent, ?_⟩
      rw [encodeCase, hc]
      simp only [henc, Nat.add_assoc, Nat.add_comm 1]

/-- A union of few variants that cover the values. -/
theorem Codec.roundTrips_union {cases : List (Case α)} {p : α → Prop} (hfew : cases.length ≤ 251)
    (hcover : ∀ a, p a → ∃ c ∈ cases, (c.content? a).isSome)
    (hcases : ∀ c ∈ cases, c.RoundTrips p) : (Codec.union cases).RoundTrips p := by
  intro a ha rest
  obtain ⟨i, c, content, hget, hcontent, henc⟩ := encodeCase_eq (hcover a ha) 0
  obtain ⟨hmake, hdec⟩ := hcases c (List.mem_of_getElem? hget) a content ha hcontent
  have hi : i < 251 := by
    have := (List.getElem?_eq_some_iff.mp hget).1
    omega
  rw [Nat.zero_add] at henc
  simp only [Codec.union, henc, List.append_assoc,
    decodeVarint_encodeVarint (Nat.lt_trans hi (by decide)) (.inl hi), bind, Except.bind, hget,
    hdec, pure, Except.pure, hmake]

end RuleFlow.Wire
