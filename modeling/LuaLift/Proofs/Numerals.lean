import Mathlib.Data.Nat.Digits.Lemmas
import LuaLift.Proofs.Locality

/-! # Numbers of any length

A number is written in base 128, lowest digit first, and its last byte is the first one below 128.
Splitting a bit off while reading gives the same as reading the number and halving it. The bytes
that are written for a number are the fewest from which it is read. -/
namespace LuaLift.Proofs
open Dump

/-- The number whose digits are the low seven bits of the bytes. -/
def digitSum (bytes : Bytes) : Nat := (bytes.mapIdx fun i b => b.toNat % 128 * 128 ^ i).sum

theorem digitSum_cons (b : UInt8) (bytes : Bytes) :
    digitSum (b :: bytes) = b.toNat % 128 + 128 * digitSum bytes := by
  have hdigits : ∀ bs, digitSum bs = Nat.ofDigits 128 (bs.map (·.toNat % 128)) := fun bs => by
    rw [Nat.ofDigits_eq_sum_mapIdx, List.mapIdx_eq_zipIdx_map, List.zipIdx_map, List.map_map, digitSum,
      List.mapIdx_eq_zipIdx_map]
    rfl
  rw [hdigits, hdigits, List.map_cons, Nat.ofDigits_cons]

theorem uleb128_eq (bytes : Bytes) : uleb128 bytes = (bytes.findIdx? (· < 0x80)).map
    fun k => (digitSum (bytes.take (k + 1)), bytes.drop (k + 1)) := by
  induction bytes with
  | nil => rfl
  | cons b r ih =>
    rw [uleb128, List.findIdx?_cons]
    split
    · rename_i hb
      have hsmall : b.toNat % 128 = b.toNat := Nat.mod_eq_of_lt (UInt8.lt_iff_toNat_lt.mp hb)
      simp [hb, hsmall, digitSum]
    · rename_i hb
      rw [ih, if_neg (by simpa using hb), Option.map_map, Option.map_map]
      congr 1
      funext k
      simp [digitSum_cons]

theorem uleb128WithBit_eq (bytes : Bytes) :
    uleb128WithBit bytes = (uleb128 bytes).map fun (v, r) => ((v % 2, v / 2), r) := by
  cases bytes with
  | nil => rfl
  | cons b r =>
    have hb : b < 0x80 ↔ b.toNat / 2 < 64 := by
      rw [UInt8.lt_iff_toNat_lt]
      change b.toNat < 128 ↔ _
      omega
    simp only [uleb128WithBit, uleb128, hb]
    split
    · rfl
    · rw [Option.map_map]
      congr 1
      funext v
      simp only [Function.comp, Prod.mk.injEq, and_true]
      omega

/-- No bytes for a number are fewer than those that are written for it. -/
theorem length_uleb_le {bytes rest : Bytes} {n : Nat} (h : uleb128 bytes = some (n, rest)) :
    rest.length + (Encode.uleb n).length ≤ bytes.length := by
  induction bytes generalizing n with
  | nil => cases h
  | cons b r ih =>
    rw [uleb128] at h
    split at h
    · rename_i hb
      cases h
      have hsmall : b.toNat < 128 := UInt8.lt_iff_toNat_lt.mp hb
      rw [Encode.uleb, if_pos hsmall]
      rfl
    · obtain ⟨⟨v, r'⟩, hv, hn⟩ := Option.map_eq_some_iff.mp h
      cases hn
      have hshort := ih hv
      rw [Encode.uleb]
      split
      · have hone : 1 ≤ (Encode.uleb v).length := by
          rw [Encode.uleb]
          split <;> simp
        simp only [List.length_cons, List.length_nil]
        omega
      · rw [show (b.toNat % 128 + 128 * v) / 128 = v by omega]
        simp only [List.length_cons]
        omega

theorem decoded_none {α : Type} {decode : Bytes → Option (α × Bytes)} {s : Source}
    (h : decode s.rest = none) : Read.decoded decode s = .error .endOfByte { s with rest := [] } := by
  rw [Read.decoded, run_get, h]
  rfl

/-- Both readers end behind the first byte below 128 and fail together where there is none. What was
written is read back, whatever follows, and nothing shorter is read as the same number. -/
theorem readers_of_numbers_agree (s : Source) (n : Nat) (rest : Bytes) :
    (match s.rest.findIdx? (· < 0x80) with
      | none => Read.uleb s = .error .endOfByte { s with rest := [] } ∧
          Read.ulebWithBit s = .error .endOfByte { s with rest := [] }
      | some k =>
        let v := digitSum (s.rest.take (k + 1))
        let t := { s with rest := s.rest.drop (k + 1) }
        Read.uleb s = .ok v t ∧ Read.ulebWithBit s = .ok (v % 2, v / 2) t) ∧
    Read.uleb { s with rest := Encode.uleb n ++ rest } = .ok n { s with rest := rest } ∧
    Read.ulebWithBit { s with rest := Encode.taggedNumber n ++ rest } = .ok (0, n) { s with rest := rest } ∧
    (∀ t u, Read.uleb t = .ok n u → u.rest.length + (Encode.uleb n).length ≤ t.rest.length) ∧
    ∀ t u, Read.ulebWithBit t = .ok (0, n) u →
      u.rest.length + (Encode.taggedNumber n).length ≤ t.rest.length := by
  refine ⟨?_, decoded_iff.mpr ⟨rest, uleb128_uleb n rest, rfl⟩,
    decoded_iff.mpr ⟨rest, uleb128WithBit_uleb n 0 (by decide) rest, rfl⟩, fun t u h => ?_, fun t u h => ?_⟩
  · have hplain := uleb128_eq s.rest
    have hbit := uleb128WithBit_eq s.rest
    rw [hplain] at hbit
    cases hk : s.rest.findIdx? (· < 0x80) with
    | none =>
      rw [hk] at hplain hbit
      exact ⟨decoded_none hplain, decoded_none hbit⟩
    | some k =>
      rw [hk] at hplain hbit
      exact ⟨decoded_iff.mpr ⟨_, hplain, rfl⟩, decoded_iff.mpr ⟨_, hbit, rfl⟩⟩
  · obtain ⟨r, hd, rfl⟩ := decoded_iff.mp h
    exact length_uleb_le hd
  · obtain ⟨r, hd, rfl⟩ := decoded_iff.mp h
    rw [uleb128WithBit_eq] at hd
    obtain ⟨⟨v, r'⟩, hv, he⟩ := Option.map_eq_some_iff.mp hd
    obtain ⟨hbit, rfl⟩ := Prod.mk.inj he
    obtain ⟨hlow, hhigh⟩ := Prod.mk.inj hbit
    rw [Encode.taggedNumber, show 2 * n = v by omega]
    exact length_uleb_le hv

end LuaLift.Proofs
