import RuleFlow.Proofs.Wire.RoundTrip

/-!
# What is written is shortest

A reader takes several forms of one integer, and so of one value.  Of all bytes that are read as a
value, those that are written for it are the fewest, and no other bytes are as few
(`Codec.Shortest`).  Like the round trip, this passes from the parts to what is composed of them:
`NoLonger` adds up over bytes that follow one another, and `Decoder.Yields` follows a decoder
through its parts with the bytes read so far.

The class `p` of `Codec.Shortest p` is what reading guarantees of a value.  It is the class on which
the codec round-trips, so that what is read can be written and read again.
-/

namespace RuleFlow.Wire

/-- Some bytes are no more than others, and no fewer unless they are the same. -/
structure NoLonger (written read : List UInt8) : Prop where
  length_le : written.length ≤ read.length
  eq_of_length : written.length = read.length → written = read

namespace NoLonger

theorem refl (bytes : List UInt8) : NoLonger bytes bytes := ⟨Nat.le_refl _, fun _ => rfl⟩

theorem of_length_lt {written read : List UInt8} (h : written.length < read.length) :
    NoLonger written read := ⟨Nat.le_of_lt h, fun he => absurd he (Nat.ne_of_lt h)⟩

/-- Of two parts that are no longer, both together are no longer, and of one length only if both
parts are. -/
theorem append {w w' r r' : List UInt8} (h : NoLonger w r) (h' : NoLonger w' r') :
    NoLonger (w ++ w') (r ++ r') where
  length_le := by
    rw [List.length_append, List.length_append]
    exact Nat.add_le_add h.length_le h'.length_le
  eq_of_length he := by
    rw [List.length_append, List.length_append] at he
    have hle := h.length_le
    have hle' := h'.length_le
    rw [h.eq_of_length (by omega), h'.eq_of_length (by omega)]

theorem cons {w r : List UInt8} (h : NoLonger w r) (first : UInt8) :
    NoLonger (first :: w) (first :: r) := (refl [first]).append h

end NoLonger

/-! ## Decoders -/

/-- A decoder reads some bytes from the front, and these stand in a relation to the value. -/
def Decoder.Yields (d : Decoder α) (P : α → List UInt8 → Prop) : Prop :=
  ∀ bytes a rest, d bytes = .ok (a, rest) → ∃ read, bytes = read ++ rest ∧ P a read

namespace Decoder

variable {P : α → List UInt8 → Prop} {Q : β → List UInt8 → Prop}

/-- A value that is given without reading comes from no bytes. -/
theorem yields_ok {a : α} (h : P a []) : Yields (fun bytes => .ok (a, bytes)) P := by
  rintro bytes _ _ ⟨⟩
  exact ⟨[], rfl, h⟩

theorem yields_error (fault : Fault) : Yields (fun _ => .error fault) P := by
  rintro bytes _ _ ⟨⟩

/-- One decoder after the other, with the bytes that both read. -/
theorem Yields.bind {d : Decoder α} {k : α × List UInt8 → Except Fault (β × List UInt8)}
    (hd : d.Yields P)
    (hk : ∀ a read, P a read →
      Yields (fun left => k (a, left)) fun b read' => Q b (read ++ read')) :
    Yields (fun bytes => d bytes >>= k) Q := by
  intro bytes b rest h
  cases hbytes : d bytes with
  | error fault =>
    simp only [hbytes] at h
    cases h
  | ok result =>
    obtain ⟨a, left⟩ := result
    simp only [hbytes] at h
    obtain ⟨read, rfl, ha⟩ := hd bytes a left hbytes
    obtain ⟨read', rfl, hb⟩ := hk a read ha left b rest h
    exact ⟨read ++ read', (List.append_assoc ..).symm, hb⟩

theorem Yields.mono {P' : α → List UInt8 → Prop} {d : Decoder α} (hd : d.Yields P)
    (h : ∀ a read, P a read → P' a read) : d.Yields P' := fun bytes a rest ha =>
  have ⟨read, hbytes, hP⟩ := hd bytes a rest ha
  ⟨read, hbytes, h a read hP⟩

theorem Yields.ite {c : Prop} [Decidable c] {d d' : Decoder α} (h : c → d.Yields P)
    (h' : ¬ c → d'.Yields P) : Yields (fun bytes => if c then d bytes else d' bytes) P := by
  split
  case isTrue hc => exact h hc
  case isFalse hc => exact h' hc

/-- A decoder that needs a first byte. -/
theorem yields_of_first {d : Decoder α} (hnil : d [] = .error .unexpectedEnd)
    (hcons : ∀ first, Yields (fun left => d (first :: left)) fun a read => P a (first :: read)) :
    d.Yields P := by
  intro bytes a rest h
  cases bytes with
  | nil =>
    rw [hnil] at h
    cases h
  | cons first left =>
    obtain ⟨read, rfl, ha⟩ := hcons first left a rest h
    exact ⟨first :: read, rfl, ha⟩

/-- The bytes taken are the bytes read. -/
theorem yields_takeBytes (n : Nat) :
    Yields (takeBytes n) fun content read => content = read ∧ read.length = n := by
  intro bytes content rest h
  rw [takeBytes] at h
  split at h
  case isTrue hn =>
    cases h
    exact ⟨bytes.take n, (List.take_append_drop n bytes).symm, rfl,
      List.length_take_of_le hn⟩
  case isFalse => cases h

end Decoder

open Decoder

/-! ## Integers -/

/-- Bytes hold a number below the power of 256 of their count. -/
theorem ofLittleEndian_lt (bytes : List UInt8) : ofLittleEndian bytes < 256 ^ bytes.length := by
  induction bytes with
  | nil => exact Nat.one_pos
  | cons byte bytes ih =>
    have hbyte := byte.toNat_lt
    rw [ofLittleEndian, List.length_cons, Nat.pow_succ]
    omega

/-- Bytes are the ones of the number they hold, in as many bytes. -/
theorem littleEndian_ofLittleEndian (bytes : List UInt8) :
    littleEndian bytes.length (ofLittleEndian bytes) = bytes := by
  induction bytes with
  | nil => rfl
  | cons byte bytes ih =>
    have hbyte := byte.toNat_lt
    have hlow : UInt8.ofNat (byte.toNat + 256 * ofLittleEndian bytes) = byte := by
      rw [← UInt8.toNat_inj, UInt8.toNat_ofNat']
      omega
    have hhigh : (byte.toNat + 256 * ofLittleEndian bytes) / 256 = ofLittleEndian bytes := by omega
    rw [List.length_cons, ofLittleEndian, littleEndian, hlow, hhigh, ih]

/-- Three first bytes announce a width. -/
theorem announcedWidth?_eq_some {first : UInt8} {width : Nat} :
    announcedWidth? first = some width ↔
      first = 251 ∧ width = 2 ∨ first = 252 ∧ width = 4 ∨ first = 253 ∧ width = 8 := by
  rw [announcedWidth?]
  split
  case isTrue h => simp [h, eq_comm]
  case isFalse h =>
    split
    case isTrue h' => simp [h', eq_comm]
    case isFalse h' =>
      split
      case isTrue h'' => simp [h'', eq_comm]
      case isFalse h'' => simp [h, h', h'']

theorem announcedWidth?_inj {first first' : UInt8} {width : Nat}
    (h : announcedWidth? first = some width) (h' : announcedWidth? first' = some width) :
    first = first' := by
  rw [announcedWidth?_eq_some] at h h'
  rcases h with ⟨rfl, rfl⟩ | ⟨rfl, rfl⟩ | ⟨rfl, rfl⟩ <;> simpa [eq_comm] using h'

/-- The bytes of a number in the narrower of two widths are no longer. -/
theorem noLonger_announced {first first' : UInt8} {width : Nat} {content : List UInt8}
    (h : announcedWidth? first = some width) (h' : announcedWidth? first' = some content.length)
    (hwidth : width ≤ content.length) :
    NoLonger (first :: littleEndian width (ofLittleEndian content)) (first' :: content) := by
  rcases Nat.lt_or_eq_of_le hwidth with hlt | rfl
  · exact .of_length_lt (by simpa using hlt)
  · rw [announcedWidth?_inj h h', littleEndian_ofLittleEndian]
    exact .refl _

/-- An integer is written in the fewest bytes that hold it, whatever bytes it was read from. -/
theorem noLonger_encodeVarint {first : UInt8} {content : List UInt8}
    (h : announcedWidth? first = some content.length) :
    NoLonger (encodeVarint (ofLittleEndian content)) (first :: content) := by
  have hlt := ofLittleEndian_lt content
  have hlen : content.length = 2 ∨ content.length = 4 ∨ content.length = 8 := by
    rcases announcedWidth?_eq_some.mp h with ⟨-, h⟩ | ⟨-, h⟩ | ⟨-, h⟩ <;> simp [h]
  rw [encodeVarint]
  -- the number is below the bound of the width that was read, so the width written is no greater
  split
  case isTrue =>
    refine .of_length_lt ?_
    rw [List.length_singleton, List.length_cons]
    omega
  split
  case isTrue => exact noLonger_announced rfl h (by omega)
  split
  case isTrue =>
    refine noLonger_announced rfl h ?_
    rcases hlen with hlen | hlen | hlen <;> rw [hlen] at hlt ⊢ <;> omega
  case isFalse =>
    refine noLonger_announced rfl h ?_
    rcases hlen with hlen | hlen | hlen <;> rw [hlen] at hlt ⊢ <;> omega

theorem ofLittleEndian_lt_of_announced {first : UInt8} {content : List UInt8}
    (h : announcedWidth? first = some content.length) : ofLittleEndian content < 2 ^ 64 := by
  have hlt := ofLittleEndian_lt content
  rcases announcedWidth?_eq_some.mp h with ⟨-, h⟩ | ⟨-, h⟩ | ⟨-, h⟩ <;> rw [h] at hlt <;> omega

/-- An integer is written in the fewest bytes of all that are read as it, since each width is used
only where the one below is too narrow. -/
theorem yields_decodeVarint (width : Nat) :
    Yields (decodeVarint width) fun n read => n < 2 ^ 64 ∧ NoLonger (encodeVarint n) read := by
  refine yields_of_first rfl fun first => ?_
  unfold decodeVarint
  refine .ite (fun hfirst => yields_ok ?_) fun _ => ?_
  · have hlt : first.toNat < 251 := UInt8.lt_iff_toNat_lt.mp hfirst
    rw [encodeVarint, if_pos hlt, UInt8.ofNat_toNat]
    exact ⟨by omega, .refl _⟩
  · split
    case _ announced hannounced =>
      refine .ite (fun _ => (yields_takeBytes announced).bind fun content read h => ?_)
        fun _ => yields_error _
      obtain ⟨rfl, rfl⟩ := h
      refine yields_ok ?_
      rw [List.append_nil]
      exact ⟨ofLittleEndian_lt_of_announced hannounced, noLonger_encodeVarint hannounced⟩
    case _ => exact yields_error _

namespace Codec

/-- What is read has a property, and what is written for it is shortest among what is read as it. -/
def Shortest (codec : Codec α) (p : α → Prop) : Prop :=
  codec.decode.Yields fun a read => p a ∧ NoLonger (codec.encode a) read

/-! ## Leaves -/

theorem shortest_nat : nat.Shortest (· < 2 ^ 64) := yields_decodeVarint 8

theorem shortest_double : double.Shortest fun _ => True := by
  refine (yields_takeBytes 8).bind fun content read h => yields_ok ⟨trivial, ?_⟩
  obtain ⟨rfl, hlen⟩ := h
  have hlt := ofLittleEndian_lt content
  have hback := littleEndian_ofLittleEndian content
  rw [hlen] at hlt hback
  have hwritten : double.encode ⟨.ofNat (ofLittleEndian content)⟩ = content := by
    have hbits : (UInt64.ofNat (ofLittleEndian content)).toNat = ofLittleEndian content :=
      UInt64.toNat_ofNat_of_lt' hlt
    exact (congrArg (littleEndian 8) hbits).trans hback
  rw [hwritten, List.append_nil]
  exact .refl _

/-- A text has only one encoding. -/
theorem toUTF8_of_fromUTF8? {bytes : ByteArray} {s : String} (h : String.fromUTF8? bytes = some s) :
    s.toUTF8 = bytes := by
  rw [String.fromUTF8?] at h
  split at h
  case isTrue hvalid =>
    cases h
    rfl
  case isFalse => cases h

/-- A text has one encoding, and only its length has longer forms. -/
theorem shortest_string : string.Shortest (·.utf8ByteSize < 2 ^ 64) := by
  refine (yields_decodeVarint 8).bind fun n read hn =>
    (yields_takeBytes n).bind fun content read' hcontent => ?_
  obtain ⟨rfl, rfl⟩ := hcontent
  dsimp only
  split
  case _ s hs =>
    have hbytes : s.toUTF8.data.toList = content := by
      rw [toUTF8_of_fromUTF8? hs, List.toList_toArray]
    have hsize : s.utf8ByteSize = content.length := congrArg List.length hbytes
    have hwritten : string.encode s = encodeVarint content.length ++ content := by
      rw [← hsize, ← hbytes]
      rfl
    refine yields_ok ?_
    rw [hwritten, hsize, List.append_nil]
    exact ⟨hn.1, hn.2.append (.refl _)⟩
  case _ => exact yields_error _

theorem shortest_unit : unit.Shortest fun _ => True := yields_ok ⟨trivial, .refl _⟩

theorem shortest_bool : bool.Shortest fun _ => True := by
  refine yields_of_first rfl fun first =>
    .ite (fun h => ?_) fun _ => .ite (fun h => ?_) fun _ => yields_error _
  · subst h
    exact yields_ok ⟨trivial, .refl _⟩
  · subst h
    exact yields_ok ⟨trivial, .refl _⟩

/-! ## Composed values -/

variable {a : Codec α} {b : Codec β} {p : α → Prop} {q : β → Prop}

/-- Two values one after the other have the fewest bytes if each has. -/
theorem Shortest.pair (ha : a.Shortest p) (hb : b.Shortest q) :
    (a.pair b).Shortest fun x => p x.1 ∧ q x.2 := by
  refine ha.bind fun x read hx => hb.bind fun y read' hy => yields_ok ?_
  rw [List.append_nil]
  exact ⟨⟨hx.1, hy.1⟩, hx.2.append hy.2⟩

/-- A value whose parts are those that it was made of. -/
theorem Shortest.via {make : α → β} {parts : β → α} (ha : a.Shortest p)
    (hparts : ∀ x, parts (make x) = x) (hmake : ∀ x, p x → q (make x)) :
    (a.via make parts).Shortest q := by
  refine ha.bind fun x read hx => yields_ok (a := make x) ?_
  have hwritten : (a.via make parts).encode (make x) = a.encode x := congrArg a.encode (hparts x)
  rw [hwritten, List.append_nil]
  exact ⟨hmake x hx.1, hx.2⟩

theorem Shortest.option (ha : a.Shortest p) : a.option.Shortest fun o => ∀ x ∈ o, p x := by
  refine yields_of_first rfl fun first =>
    .ite (fun h => ?_) fun _ => .ite (fun h => ?_) fun _ => yields_error _
  · subst h
    exact yields_ok ⟨nofun, .refl _⟩
  · subst h
    refine ha.bind fun x read hx => yields_ok (a := some x) ?_
    rw [List.append_nil]
    exact ⟨by simpa using hx.1, hx.2.cons 1⟩

/-- Values that are read one after the other are as many as asked for, and written in the fewest
bytes. -/
theorem Shortest.decodeMany (ha : a.Shortest p) (n : Nat) :
    Yields (a.decodeMany n) fun xs read =>
      xs.length = n ∧ (∀ x ∈ xs, p x) ∧ NoLonger (xs.flatMap a.encode) read := by
  induction n with
  | zero => exact yields_ok ⟨rfl, nofun, .refl _⟩
  | succ n ih =>
    refine ha.bind fun x read hx => ih.bind fun xs read' hxs => yields_ok ?_
    obtain ⟨hlen, hp, hshort⟩ := hxs
    rw [List.append_nil, List.length_cons, hlen, List.flatMap_cons]
    exact ⟨rfl, List.forall_mem_cons.mpr ⟨hx.1, hp⟩, hx.2.append hshort⟩

/-- A list is written in the fewest bytes if its items are. -/
theorem Shortest.list (ha : a.Shortest p) :
    a.list.Shortest fun xs => xs.length < 2 ^ 64 ∧ ∀ x ∈ xs, p x := by
  refine (yields_decodeVarint 8).bind fun n read hn => (ha.decodeMany n).mono fun xs read' hxs => ?_
  obtain ⟨rfl, hp, hshort⟩ := hxs
  exact ⟨⟨hn.1, hp⟩, hn.2.append hshort⟩

end Codec

/-! ## Variants -/

/-- Variants that have no value in common, each of which has the values that it makes. -/
structure DisjointCases (cases : List (Case α)) : Prop where
  own : ∀ c ∈ cases, ∀ content, c.content? (c.make content) = some content
  others : cases.Pairwise fun c d => ∀ content, c.content? (d.make content) = none

/-- The variant of a value is the one that made it. -/
theorem DisjointCases.encodeCase_make {cases : List (Case α)} (h : DisjointCases cases) {i : Nat}
    {c : Case α} (hc : cases[i]? = some c) (content : c.Content) (index : Nat) :
    Codec.encodeCase (c.make content) index cases =
      encodeVarint (index + i) ++ c.codec.encode content := by
  induction cases generalizing i index with
  | nil => cases hc
  | cons d cases ih =>
    obtain ⟨hd, hothers⟩ := List.pairwise_cons.mp h.others
    obtain ⟨hown, hall⟩ := List.forall_mem_cons.mp h.own
    cases i with
    | zero =>
      cases hc
      rw [Codec.encodeCase, hown]
      rfl
    | succ i =>
      rw [Codec.encodeCase, hd c (List.mem_of_getElem? hc)]
      simp only [ih ⟨hall, hothers⟩ hc, Nat.add_assoc, Nat.add_comm 1]

/-- A union of disjoint variants. -/
theorem Codec.shortest_union {cases : List (Case α)} {p : α → Prop} (h : DisjointCases cases)
    (hcases : ∀ c ∈ cases, ∃ q, c.codec.Shortest q ∧ ∀ content, q content → p (c.make content)) :
    (Codec.union cases).Shortest p := by
  refine (yields_decodeVarint 4).bind fun i read hi => ?_
  dsimp only
  split
  case _ c hc =>
    obtain ⟨q, hshort, hmake⟩ := hcases c (List.mem_of_getElem? hc)
    refine hshort.bind fun content read' hcontent => yields_ok (a := c.make content) ?_
    have hwritten : (Codec.union cases).encode (c.make content) =
        encodeVarint i ++ c.codec.encode content := by
      rw [← Nat.zero_add i]
      exact h.encodeCase_make hc content 0
    rw [hwritten, List.append_nil]
    exact ⟨hmake content hcontent.1, hi.2.append hcontent.2⟩
  case _ => exact yields_error _

end RuleFlow.Wire
