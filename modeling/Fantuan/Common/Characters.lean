import Fantuan.Common.Strings
import Fantuan.Lib.Codec

/-!
# Characters in memory

The bytes of a `char` or a `wchar_t`, and the text that a function finds which gets a pointer to
characters and reads up to the first 0.
-/

open Lib

namespace Fantuan

/-- A character as `sizeof(T)` bytes; 0 is 0 in all of them. -/
class Encoded (T : Type) extends Character T where
  codec : Codec T
  width_codec : codec.width = sizeof
  encode_zero : codec.encode 0 = List.replicate sizeof 0

instance : Encoded UInt8 where
  codec := .uint8
  width_codec := rfl
  encode_zero := rfl

/-- `wchar_t`, as in Windows. -/
instance : Encoded UInt16 where
  zero := 0
  sizeof := 2
  sizeof_pos := Nat.two_pos
  clearBytes k c := c >>> (8 * k.toUInt16) <<< (8 * k.toUInt16)
  clearBytes_zero c := by
    show c >>> 0 <<< 0 = c
    rw [UInt16.shiftRight_zero, UInt16.shiftLeft_zero]
  sizeof_le := (by decide : 2 ≤ STRING_DEFAULT_SIZE)
  codec := .uint16
  width_codec := rfl
  encode_zero := leBytes_zero 2

/-- `wchar_t`, as in Linux. -/
instance : Encoded UInt32 where
  codec := .uint32
  width_codec := rfl
  encode_zero := leBytes_zero 4

section

variable {T : Type} [Encoded T] {l m : List T} {b : List UInt8}

/-- The bytes of the characters. -/
def pack (l : List T) : List UInt8 := Encoded.codec.pack l

theorem pack_append : pack (l ++ m) = pack l ++ pack m := Codec.pack_append _

theorem pack_inj : pack l = pack m ↔ l = m := Codec.pack_inj _

theorem length_pack : (pack l).length = l.length * Scalar.sizeof T := by
  rw [pack, Codec.length_pack, Encoded.width_codec]

theorem pack_zero : pack [(0 : T)] = List.replicate (Scalar.sizeof T) 0 := by
  rw [pack, Codec.pack_singleton, Encoded.encode_zero]

theorem Text.pack_pData (t : Text T) :
    pack t.pData = pack t.1 ++ List.replicate (Scalar.sizeof T) 0 := by
  rw [Text.pData, pack_append, pack_zero]

theorem Text.length_pack_pData (t : Text T) :
    (pack t.pData).length = Scalar.sizeof T * t.num := by
  rw [length_pack, t.length_pData, Nat.mul_comm]

-- A text has as many bytes as it has characters, and a terminator.
theorem Text.length_add_le (t : Text T) :
    t.1.length + Scalar.sizeof T ≤ (pack t.pData).length := by
  rw [t.length_pack_pData, Text.num, Nat.mul_succ]
  exact Nat.add_le_add_right (Nat.le_mul_of_pos_left _ Scalar.sizeof_pos) _

variable [DecidableEq T]

/-- The characters in memory up to the first 0, if there is one. -/
def readText (b : List UInt8) : Option (List T) :=
  FTString.untilZero (((Encoded.codec (T := T)).unpack b).map some)

theorem untilZero_map_some :
    FTString.untilZero (m.map some) = some l ↔ 0 ∉ l ∧ l ++ [0] <+: m := by
  induction m generalizing l with
  | nil =>
      rw [List.map_nil, FTString.untilZero, List.prefix_nil]
      · simp
      · simp
  | cons c m ih =>
      rw [List.map_cons, FTString.untilZero]
      cases l with
      | nil =>
          rw [List.nil_append, List.cons_prefix_cons]
          by_cases hc : c = 0 <;> simp [hc, eq_comm]
      | cons d l =>
          rw [List.cons_append, List.cons_prefix_cons, List.mem_cons, not_or]
          by_cases hc : c = 0
          · rw [if_pos hc]
            constructor
            · intro h
              cases h
            · intro h
              exact absurd (h.2.1.trans hc).symm h.1.1
          · rw [if_neg hc, Option.map_eq_some_iff]
            constructor
            · rintro ⟨l', hl', he⟩
              cases he
              have h := ih.mp hl'
              exact ⟨⟨Ne.symm hc, h.1⟩, rfl, h.2⟩
            · rintro ⟨⟨-, hl⟩, rfl, hpre⟩
              exact ⟨l, ih.mpr ⟨hl, hpre⟩, rfl⟩

-- A text is read exactly where its bytes stand, with a 0 behind them.
theorem readText_eq_some : readText b = some l ↔ 0 ∉ l ∧ pack (l ++ [0]) <+: b := by
  rw [readText, untilZero_map_some]
  apply and_congr_right
  intro _
  constructor
  · exact Codec.pack_prefix_of_unpack _
  · rintro ⟨rest, rfl⟩
    rw [pack, Codec.unpack_pack_append]
    exact List.prefix_append _ _

end

end Fantuan
