import Mathlib.Data.String.Basic

/-!
# Order of texts by their bytes

Texts are ordered by code points. A larger code point is spelled by bytes that
are larger at the first place where they differ, and no spelling begins
another, so ordering texts by their bytes is the same.
-/

set_option autoImplicit false

namespace UseGraph.Text

def octets (s : String) : List UInt8 := s.toUTF8.data.toList

theorem octets_eq (s : String) : octets s = s.toList.flatMap String.utf8EncodeChar := by
  rw [octets, String.toUTF8_eq_toByteArray, ← String.utf8Encode_toList, List.utf8Encode,
    List.data_toByteArray]

theorem byte_lt_iff {m n : Nat} (hm : m < 256) (hn : n < 256) :
    UInt8.ofNat m < UInt8.ofNat n ↔ m < n := by
  rw [UInt8.lt_iff_toNat_lt, UInt8.toNat_ofNat_of_lt' hm, UInt8.toNat_ofNat_of_lt' hn]

theorem byte_inj_iff {m n : Nat} (hm : m < 256) (hn : n < 256) :
    UInt8.ofNat m = UInt8.ofNat n ↔ m = n := by
  rw [← UInt8.toNat_inj, UInt8.toNat_ofNat_of_lt' hm, UInt8.toNat_ofNat_of_lt' hn]

/-- Bytes tell at once which of two characters is larger, whatever follows. -/
theorem spelled_lt {c e : Char} (h : c < e) (s t : List UInt8) :
    String.utf8EncodeChar c ++ s < String.utf8EncodeChar e ++ t := by
  have hlt : c.val.toNat < e.val.toNat := h
  have hmax : e.val.toNat < 1114112 := by
    have := e.valid
    simp only [UInt32.isValidChar, Nat.isValidChar] at this
    omega
  have hlow : c.val.toNat / 64 < e.val.toNat / 64 ∨
      c.val.toNat / 64 = e.val.toNat / 64 ∧ c.val.toNat % 64 < e.val.toNat % 64 := by
    omega
  have hmid : c.val.toNat / 64 < e.val.toNat / 64 → c.val.toNat / 4096 < e.val.toNat / 4096 ∨
      c.val.toNat / 4096 = e.val.toNat / 4096 ∧
        c.val.toNat / 64 % 64 < e.val.toNat / 64 % 64 := by
    omega
  have hhigh : c.val.toNat / 4096 < e.val.toNat / 4096 →
      c.val.toNat / 262144 < e.val.toNat / 262144 ∨
      c.val.toNat / 262144 = e.val.toNat / 262144 ∧
        c.val.toNat / 4096 % 64 < e.val.toNat / 4096 % 64 := by
    omega
  have htop : e.val.toNat / 262144 % 8 = e.val.toNat / 262144 ∧
      c.val.toNat / 262144 % 8 = c.val.toNat / 262144 := by
    omega
  simp only [String.utf8EncodeChar, htop]
  clear htop
  split_ifs <;>
    simp (disch := omega) only [List.cons_append, List.nil_append, List.cons_lt_cons_iff,
      byte_lt_iff, byte_inj_iff] <;> omega

theorem flatMap_spelled_lt {cs es : List Char} (h : cs < es) :
    cs.flatMap String.utf8EncodeChar < es.flatMap String.utf8EncodeChar := by
  induction h with
  | @nil e es =>
    obtain ⟨b, bs, hb⟩ := List.exists_cons_of_ne_nil (String.utf8EncodeChar_ne_nil (c := e))
    rw [List.flatMap_nil, List.flatMap_cons, hb]
    exact List.nil_lt_cons b _
  | rel hlt => exact spelled_lt hlt _ _
  | cons _ ih => exact List.append_left_lt ih

theorem octets_lt_of_lt {s t : String} (h : s < t) : octets s < octets t := by
  rw [octets_eq, octets_eq]
  exact flatMap_spelled_lt h

/-- Texts stand in the order of their bytes. -/
theorem octets_lt_iff (s t : String) : octets s < octets t ↔ s < t := by
  constructor
  · intro h
    rcases lt_trichotomy s t with hlt | rfl | hgt
    · exact hlt
    · exact absurd h (List.lt_irrefl _)
    · exact absurd h (List.lt_asymm (octets_lt_of_lt hgt))
  · exact octets_lt_of_lt

end UseGraph.Text
