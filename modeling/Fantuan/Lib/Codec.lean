import Fantuan.Lib.Words

/-!
# Codecs — values as a fixed number of bytes

A list of values is packed without anything between them, and bytes are unpacked as far as they make
whole values.
-/

namespace Lib

universe u

/-- Each value is `width` bytes, and each `width` bytes are a value. -/
structure Codec (T : Type u) where
  width : ℕ
  encode : T → List UInt8
  decode : List UInt8 → T
  width_pos : 0 < width
  length_encode : ∀ v, (encode v).length = width
  decode_encode : ∀ v, decode (encode v) = v
  encode_decode : ∀ b, b.length = width → encode (decode b) = b

namespace Codec

variable {T : Type u} (codec : Codec T) {b c : List UInt8} {l m : List T} {v w : T}

def pack (l : List T) : List UInt8 := l.flatMap codec.encode

/-- The bytes of the value at index `i`. -/
def chunk (b : List UInt8) (i : ℕ) : List UInt8 := (b.drop (i * codec.width)).take codec.width

def unpack (b : List UInt8) : List T :=
  (List.range (b.length / codec.width)).map fun i ↦ codec.decode (codec.chunk b i)

theorem encode_inj : codec.encode v = codec.encode w ↔ v = w := by
  constructor
  · intro h
    rw [← codec.decode_encode v, h, codec.decode_encode]
  · exact congrArg codec.encode

/-! ## Packing -/

theorem pack_nil : codec.pack [] = [] := rfl

theorem pack_cons : codec.pack (v :: l) = codec.encode v ++ codec.pack l := List.flatMap_cons

theorem pack_append : codec.pack (l ++ m) = codec.pack l ++ codec.pack m := List.flatMap_append

theorem pack_singleton : codec.pack [v] = codec.encode v := by
  rw [pack_cons, pack_nil, List.append_nil]

theorem length_pack : (codec.pack l).length = l.length * codec.width := by
  induction l with
  | nil => rw [pack_nil, List.length_nil, List.length_nil, Nat.zero_mul]
  | cons v l ih =>
      rw [pack_cons, List.length_append, codec.length_encode, ih, List.length_cons,
        Nat.succ_mul, Nat.add_comm]

/-! ## Unpacking -/

theorem unpack_of_lt (h : b.length < codec.width) : codec.unpack b = [] := by
  rw [unpack, Nat.div_eq_of_lt h, List.range_zero, List.map_nil]

theorem unpack_encode_append : codec.unpack (codec.encode v ++ b) = v :: codec.unpack b := by
  have hw := codec.width_pos
  have hlen : (codec.encode v ++ b).length / codec.width = b.length / codec.width + 1 := by
    rw [List.length_append, codec.length_encode, Nat.add_div_left _ hw]
  have hhead : codec.chunk (codec.encode v ++ b) 0 = codec.encode v := by
    rw [chunk, Nat.zero_mul, List.drop_zero, ← codec.length_encode v, List.take_left]
  have htail : ∀ i, codec.chunk (codec.encode v ++ b) (i + 1) = codec.chunk b i := by
    intro i
    have hskip : (i + 1) * codec.width = (codec.encode v).length + i * codec.width := by
      rw [codec.length_encode, Nat.succ_mul, Nat.add_comm]
    rw [chunk, chunk, hskip, ← List.drop_drop, List.drop_left]
  rw [unpack, hlen, List.range_succ_eq_map, List.map_cons, hhead, codec.decode_encode,
    List.map_map, unpack]
  congr 1
  apply List.map_congr_left
  intro i _
  exact congrArg codec.decode (htail i)

/-- What was packed is unpacked. -/
theorem unpack_pack_append : codec.unpack (codec.pack l ++ b) = l ++ codec.unpack b := by
  induction l with
  | nil => rw [pack_nil, List.nil_append, List.nil_append]
  | cons v l ih =>
      rw [pack_cons, List.append_assoc, unpack_encode_append, ih, List.cons_append]

theorem pack_inj : codec.pack l = codec.pack m ↔ l = m := by
  constructor
  · intro h
    have hl := codec.unpack_pack_append (l := l) (b := [])
    rwa [h, codec.unpack_pack_append, List.append_left_inj, eq_comm] at hl
  · exact congrArg codec.pack

/-- What is unpacked was packed, and is followed by less than one value. -/
theorem pack_unpack (b : List UInt8) :
    ∃ rest, b = codec.pack (codec.unpack b) ++ rest ∧ rest.length < codec.width := by
  induction hn : b.length using Nat.strongRecOn generalizing b with
  | ind n ih =>
      by_cases hlt : b.length < codec.width
      · rw [codec.unpack_of_lt hlt]
        exact ⟨b, rfl, hlt⟩
      · have hw := codec.width_pos
        have hhead : (b.take codec.width).length = codec.width := by
          rw [List.length_take]
          omega
        have hb : b = codec.encode (codec.decode (b.take codec.width)) ++ b.drop codec.width := by
          rw [codec.encode_decode _ hhead, List.take_append_drop]
        rcases ih (b.drop codec.width).length (by rw [List.length_drop]; omega)
          (b.drop codec.width) rfl with ⟨rest, hrest, hshort⟩
        refine ⟨rest, ?_, hshort⟩
        have hunpack : codec.unpack b =
            codec.decode (b.take codec.width) :: codec.unpack (b.drop codec.width) := by
          conv_lhs => rw [hb]
          rw [unpack_encode_append]
        rw [hunpack, pack_cons, List.append_assoc, ← hrest]
        exact hb

/-- Bytes that unpack to `l` and more start with `l`. -/
theorem pack_prefix_of_unpack (h : l <+: codec.unpack b) : codec.pack l <+: b := by
  rcases codec.pack_unpack b with ⟨rest, hb, -⟩
  rcases h with ⟨m, hm⟩
  refine ⟨codec.pack m ++ rest, ?_⟩
  rw [← List.append_assoc, ← pack_append, hm]
  exact hb.symm

end Codec

/-! ## Words of a fixed width -/

theorem leBytes_leValue {k : ℕ} {b : List UInt8} (h : b.length = k) :
    leBytes k (leValue b) = b := by
  induction b generalizing k with
  | nil =>
      rw [← h]
      rfl
  | cons x b ih =>
      have hvalue : leValue (x :: b) = x.toNat + 256 * leValue b := by
        rw [leValue, List.map_cons, Nat.ofDigits_cons, leValue]
      have hx := x.toNat_lt
      rw [← h, List.length_cons, leBytes, hvalue]
      have hlow : UInt8.ofNat (x.toNat + 256 * leValue b) = x := by
        apply UInt8.toNat_inj.mp
        rw [UInt8.toNat_ofNat']
        omega
      have hhigh : (x.toNat + 256 * leValue b) / 256 = leValue b := by omega
      rw [hlow, hhigh, ih rfl]

theorem leValue_lt (b : List UInt8) : leValue b < 256 ^ b.length := by
  induction b with
  | nil => exact Nat.one_pos
  | cons x b ih =>
      have hvalue : leValue (x :: b) = x.toNat + 256 * leValue b := by
        rw [leValue, List.map_cons, Nat.ofDigits_cons, leValue]
      have hx := x.toNat_lt
      rw [hvalue, List.length_cons, Nat.pow_succ]
      omega

theorem leBytes_zero (k : ℕ) : leBytes k 0 = List.replicate k 0 := by
  induction k with
  | zero => rfl
  | succ k ih =>
      rw [leBytes, Nat.zero_div, ih, List.replicate_succ]
      rfl

namespace Codec

/-- One byte. -/
def uint8 : Codec UInt8 where
  width := 1
  encode v := [v]
  decode b := b.headD 0
  width_pos := Nat.one_pos
  length_encode _ := rfl
  decode_encode _ := rfl
  encode_decode b h := by
    obtain ⟨x, rfl⟩ := List.length_eq_one_iff.mp h
    rfl

/-- Two bytes, the low one first. -/
def uint16 : Codec UInt16 where
  width := 2
  encode v := leBytes 2 v.toNat
  decode b := UInt16.ofNat (leValue b)
  width_pos := Nat.two_pos
  length_encode _ := length_leBytes
  decode_encode v := by
    rw [leValue_leBytes (Nat.lt_of_lt_of_eq v.toNat_lt rfl), UInt16.ofNat_toNat]
  encode_decode b h := by
    have hlt := leValue_lt b
    rw [h] at hlt
    rw [UInt16.toNat_ofNat_of_lt' hlt, leBytes_leValue h]

/-- Four bytes, the low one first. -/
def uint32 : Codec UInt32 where
  width := 4
  encode v := leBytes 4 v.toNat
  decode b := UInt32.ofNat (leValue b)
  width_pos := Nat.succ_pos 3
  length_encode _ := length_leBytes
  decode_encode v := by
    rw [leValue_leBytes (Nat.lt_of_lt_of_eq v.toNat_lt rfl), UInt32.ofNat_toNat]
  encode_decode b h := by
    have hlt := leValue_lt b
    rw [h] at hlt
    rw [UInt32.toNat_ofNat_of_lt' hlt, leBytes_leValue h]

end Codec

end Lib
