import RuleFlow.Proofs.Wire.RoundTrip

/-!
# Reading no further than the value

A decoder is local if what it makes of some bytes does not depend on the bytes after those it reads:
with more bytes it gives the same value or the same fault, unless it had run out of bytes.  Decoders
are composed of a few parts, one after the other, and are local if the parts are (`Local.bind`).

With the round trip this decides what is made of a beginning of a written value.  It cannot be a
value, and it cannot be a fault of another kind, because either would be seen in the whole as well
(`RoundTrips.decode_of_prefix`).
-/

namespace RuleFlow.Wire

/-- More bytes change nothing about the value or the fault, unless there were too few. -/
def Decoder.Local (d : Decoder α) : Prop :=
  ∀ bytes, d bytes ≠ .error .unexpectedEnd → ∀ rest,
    d (bytes ++ rest) = (d bytes).map fun (a, left) => (a, left ++ rest)

namespace Decoder

/-! ## Parts of decoders -/

/-- Giving a value without reading is local. -/
theorem local_ok (a : α) : Local fun bytes => .ok (a, bytes) := fun _ _ _ => rfl

theorem local_error (fault : Fault) :
    Local fun _ => (.error fault : Except Fault (α × List UInt8)) := fun _ _ _ => rfl

/-- One decoder after the other. -/
theorem Local.bind {d : Decoder α} {k : α × List UInt8 → Except Fault (β × List UInt8)}
    (hd : d.Local) (hk : ∀ a, Local fun left => k (a, left)) :
    Local fun bytes => d bytes >>= k := by
  intro bytes hne rest
  cases hbytes : d bytes with
  | error fault =>
    have hfault : d bytes ≠ .error .unexpectedEnd := by
      intro hend
      simp only [hend] at hne
      exact hne rfl
    simp only [hd bytes hfault, hbytes]
    rfl
  | ok result =>
    obtain ⟨a, left⟩ := result
    have hok : d bytes ≠ .error .unexpectedEnd := by
      rw [hbytes]
      exact nofun
    simp only [hbytes] at hne
    simp only [hd bytes hok, hbytes]
    exact hk a left hne rest

theorem Local.ite {c : Prop} [Decidable c] {d d' : Decoder α} (h : d.Local) (h' : d'.Local) :
    Local fun bytes => if c then d bytes else d' bytes := by
  split
  · exact h
  · exact h'

/-- A decoder that needs a first byte. -/
theorem local_of_first {d : Decoder α} (hnil : d [] = .error .unexpectedEnd)
    (hcons : ∀ first, Local fun left => d (first :: left)) : d.Local := by
  intro bytes hne rest
  cases bytes with
  | nil => exact absurd hnil hne
  | cons first left => exact hcons first left hne rest

/-- Taking bytes is local, as there are too few of them or enough. -/
theorem local_takeBytes (n : Nat) : Local (takeBytes n) := by
  intro bytes hne rest
  have hn : n ≤ bytes.length := Decidable.by_contra fun hn => hne (if_neg hn)
  have hn' : n ≤ (bytes ++ rest).length := by
    rw [List.length_append]
    omega
  rw [takeBytes, takeBytes, if_pos hn, if_pos hn', List.take_append_of_le_length hn,
    List.drop_append_of_le_length hn]
  rfl

end Decoder

open Decoder

/-- The first byte of an integer says how many follow. -/
theorem local_decodeVarint (width : Nat) : Local (decodeVarint width) := by
  refine local_of_first rfl fun first => ?_
  unfold decodeVarint
  refine .ite (local_ok _) ?_
  split
  · exact .ite ((local_takeBytes _).bind fun _ => local_ok _) (local_error _)
  · exact local_error _

namespace Codec

/-! ## Codecs -/

theorem local_nat : nat.decode.Local := local_decodeVarint 8

theorem local_double : double.decode.Local := (local_takeBytes 8).bind fun _ => local_ok _

/-- A text is taken by its length, and whether it is UTF-8 depends on these bytes alone. -/
theorem local_string : string.decode.Local := by
  refine (local_decodeVarint 8).bind fun n => (local_takeBytes n).bind fun content => ?_
  dsimp only
  split
  · exact local_ok _
  · exact local_error _

theorem local_unit : unit.decode.Local := local_ok ()

theorem local_bool : bool.decode.Local :=
  local_of_first rfl fun _ => .ite (local_ok _) (.ite (local_ok _) (local_error _))

variable {a : Codec α} {b : Codec β}

/-- Two values are read one after the other. -/
theorem local_pair (ha : a.decode.Local) (hb : b.decode.Local) : (a.pair b).decode.Local :=
  ha.bind fun _ => hb.bind fun _ => local_ok _

/-- What is made of a value afterwards does not look at the bytes. -/
theorem local_via {make : α → β} {parts : β → α} (ha : a.decode.Local) :
    (a.via make parts).decode.Local :=
  ha.bind fun x => local_ok (make x)

theorem local_option (ha : a.decode.Local) : a.option.decode.Local :=
  local_of_first rfl fun _ =>
    .ite (local_ok _) (.ite (ha.bind fun x => local_ok (some x)) (local_error _))

/-- So many values are read one after the other, by induction on their number. -/
theorem local_decodeMany (ha : a.decode.Local) (n : Nat) : Local (a.decodeMany n) := by
  induction n with
  | zero => exact local_ok []
  | succ n ih => exact ha.bind fun _ => ih.bind fun _ => local_ok _

/-- A list is led by its length. -/
theorem local_list (ha : a.decode.Local) : a.list.decode.Local :=
  (local_decodeVarint 8).bind fun n => local_decodeMany ha n

/-- The index says which of the contents is read. -/
theorem local_union {cases : List (Case α)} (hcases : ∀ c ∈ cases, c.codec.decode.Local) :
    (Codec.union cases).decode.Local := by
  refine (local_decodeVarint 4).bind fun i => ?_
  dsimp only
  split
  case _ c hc => exact (hcases c (List.mem_of_getElem? hc)).bind fun x => local_ok (c.make x)
  case _ => exact local_error _

/-! ## Beginnings of what was written -/

/-- A proper beginning of the bytes of a value is too short, and nothing else is wrong with it. -/
theorem RoundTrips.decode_of_prefix {p : α → Prop} (h : a.RoundTrips p) (hlocal : a.decode.Local)
    {x : α} (hx : p x) {bytes : List UInt8} (hfront : bytes <+: a.encode x)
    (hne : bytes ≠ a.encode x) : a.decode bytes = .error .unexpectedEnd := by
  refine Classical.byContradiction fun hend => ?_
  obtain ⟨rest, hrest⟩ := hfront
  have hwhole := h x hx []
  rw [List.append_nil, ← hrest, hlocal bytes hend rest] at hwhole
  cases hbytes : a.decode bytes with
  | error fault =>
    rw [hbytes] at hwhole
    cases hwhole
  | ok result =>
    obtain ⟨y, left⟩ := result
    rw [hbytes] at hwhole
    have hnothing : left ++ rest = [] := (Prod.mk.inj (Except.ok.inj hwhole)).2
    rw [(List.append_eq_nil_iff.mp hnothing).2, List.append_nil] at hrest
    exact hne hrest

end Codec

end RuleFlow.Wire
