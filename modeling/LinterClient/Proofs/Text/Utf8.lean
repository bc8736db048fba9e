import Mathlib.Data.String.Basic
import LinterClient.Text.Utf8

/-!
The bytes of a text.

A text is read back from its bytes, an ASCII text has one byte for each character, and texts are ordered
as their bytes are.
-/

namespace LinterClient.Utf8

theorem toList_eq_data (bytes : ByteArray) : bytes.toList = bytes.data.toList := by
  have reads (i : Nat) (done : List UInt8) :
      ByteArray.toList.loop bytes i done = done.reverse ++ bytes.data.toList.drop i := by
    induction i, done using ByteArray.toList.loop.induct bytes with
    | case1 i done inside ih =>
      have same : bytes.get! i = bytes.data.toList[i] := getElem!_pos bytes.data i inside
      rw [ByteArray.toList.loop, if_pos inside, ih, List.drop_eq_getElem_cons inside]
      simp [same]
    | case2 i done past =>
      rw [ByteArray.toList.loop, if_neg past, List.drop_eq_nil_of_le (Nat.le_of_not_lt past),
        List.append_nil]
  rw [ByteArray.toList, reads, List.reverse_nil, List.nil_append, List.drop_zero]

theorem decode?_encode (s : String) : decode? (encode s) = some s := by
  have bytes : (⟨(encode s).toArray⟩ : ByteArray) = s.toByteArray := by
    rw [encode, toList_eq_data, Array.toArray_toList, String.toUTF8_eq_toByteArray]
  rw [decode?, bytes, String.fromUTF8?, dif_pos s.isValidUTF8]
  rfl

theorem encode_ofList (cs : List Char) (ascii : ∀ c ∈ cs, c.toNat < 128) :
    encode (String.ofList cs) = cs.map (·.toNat.toUInt8) := by
  rw [encode, toList_eq_data, String.toUTF8_eq_toByteArray, String.toByteArray_ofList, List.utf8Encode,
    List.toList_data_toByteArray]
  induction cs with
  | nil => rfl
  | cons c cs ih =>
    have size : c.utf8Size = 1 := by
      have small : c.val.toNat < 128 := ascii c List.mem_cons_self
      rw [Char.utf8Size, if_pos (UInt32.le_iff_toNat_le.mpr (Nat.le_of_lt_succ small))]
    have single : String.utf8EncodeChar c = [c.toNat.toUInt8] := by
      rw [String.utf8EncodeChar_eq_singleton size]
      rfl
    rw [List.flatMap_cons, single, ih fun c' member => ascii c' (List.mem_cons_of_mem _ member)]
    rfl

theorem encode_eq_flatMap (s : String) : encode s = s.toList.flatMap String.utf8EncodeChar := by
  conv_lhs => rw [← String.ofList_toList (s := s)]
  rw [encode, toList_eq_data, String.toUTF8_eq_toByteArray, String.toByteArray_ofList, List.utf8Encode,
    List.toList_data_toByteArray]

theorem ofNat_lt_iff {a b : Nat} (ha : a < 256) (hb : b < 256) :
    UInt8.ofNat a < UInt8.ofNat b ↔ a < b := by
  rw [UInt8.lt_iff_toNat_lt, UInt8.toNat_ofNat_of_lt' ha, UInt8.toNat_ofNat_of_lt' hb]

theorem ofNat_eq_iff {a b : Nat} (ha : a < 256) (hb : b < 256) :
    UInt8.ofNat a = UInt8.ofNat b ↔ a = b := by
  rw [← UInt8.toNat_inj, UInt8.toNat_ofNat_of_lt' ha, UInt8.toNat_ofNat_of_lt' hb]

/-- Of two characters the smaller one has the smaller bytes, whatever follows. -/
theorem encodeChar_append_lt {c d : Char} (less : c < d) (s t : List UInt8) :
    String.utf8EncodeChar c ++ s < String.utf8EncodeChar d ++ t := by
  have below : c.val.toNat < d.val.toNat := less
  have bound : d.val.toNat < 0x110000 := by
    rcases d.valid with low | high
    · omega
    · exact high.2
  have twice (n : Nat) : n / 4096 = n / 64 / 64 := by omega
  have thrice (n : Nat) : n / 262144 = n / 64 / 64 / 64 := by omega
  simp only [String.utf8EncodeChar, twice, thrice]
  -- one to four bytes on each side
  split_ifs <;>
    simp (disch := omega) only [List.cons_append, List.nil_append, List.cons_lt_cons_iff, ofNat_lt_iff,
      ofNat_eq_iff] <;> omega

/-- Texts are ordered as their bytes are. -/
theorem encode_lt_encode_iff (a b : String) : encode a < encode b ↔ a < b := by
  have forward {s t : List Char} (less : s < t) :
      s.flatMap String.utf8EncodeChar < t.flatMap String.utf8EncodeChar := by
    induction less with
    | nil =>
      rename_i c t
      obtain ⟨b, bytes, first⟩ := List.exists_cons_of_ne_nil (String.utf8EncodeChar_ne_nil (c := c))
      simp [first]
    | rel first => exact encodeChar_append_lt first _ _
    | cons _ ih =>
      rw [List.flatMap_cons, List.flatMap_cons]
      exact List.append_left_lt ih
  rw [encode_eq_flatMap, encode_eq_flatMap, String.lt_iff_toList_lt]
  refine ⟨fun less => ?_, forward⟩
  rcases lt_trichotomy a b with first | same | second
  · exact String.lt_iff_toList_lt.mp first
  · rw [same] at less
    exact absurd less (List.lt_irrefl _)
  · exact absurd (forward (String.lt_iff_toList_lt.mp second)) (List.lt_asymm less)

end LinterClient.Utf8
