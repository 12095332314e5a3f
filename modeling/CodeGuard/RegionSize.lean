import CodeGuard.Limits

/-!
# CodeGuard.RegionSize

The sizes that a region can have: the powers of two from 32 bytes to 2 GB. A region's attributes
hold the size as a five-bit code, one less than the exponent.

* `ofBytes?_eq_some_iff`: `ofBytes?` finds the size of exactly that many bytes.
* `ofBytes?_isSome_iff`: which byte counts are the size of some region.
-/

namespace CodeGuard

theorem dvd_of_isPowerOfTwo_of_le {m n : Nat} (hm : m.isPowerOfTwo) (hn : n.isPowerOfTwo)
    (h : m ≤ n) : m ∣ n := by
  obtain ⟨i, rfl⟩ := hm
  obtain ⟨j, rfl⟩ := hn
  exact Nat.pow_dvd_pow 2 ((Nat.pow_le_pow_iff_right (by decide)).mp h)

structure RegionSize where
  code : Nat
  four_le_code : 4 ≤ code
  code_le_thirty : code ≤ 30
  deriving DecidableEq

namespace RegionSize

def bytes (s : RegionSize) : Nat :=
  1 <<< (s.code + 1)

def ofCode? (code : Nat) : Option RegionSize :=
  if h : 4 ≤ code ∧ code ≤ 30 then some ⟨code, h.1, h.2⟩ else none

def ofBytes? (bytes : Nat) : Option RegionSize :=
  if bytes.isPowerOfTwo ∧ Limits.minRegion ≤ bytes then ofCode? (bytes.log2 - 1) else none

/-- The byte count in the largest unit that leaves a whole number: `Size32B`, `Size1KB`. -/
def name (s : RegionSize) : String :=
  let exponent := s.code + 1
  let (count, unit) :=
    if exponent < 10 then (1 <<< exponent, "B")
    else if exponent < 20 then (1 <<< (exponent - 10), "KB")
    else if exponent < 30 then (1 <<< (exponent - 20), "MB")
    else (1 <<< (exponent - 30), "GB")
  "Size" ++ toString count ++ unit

theorem bytes_isPowerOfTwo (s : RegionSize) : s.bytes.isPowerOfTwo :=
  ⟨_, Nat.one_shiftLeft _⟩

theorem thirtyTwo_le_bytes (s : RegionSize) : 32 ≤ s.bytes := by
  rw [bytes, Nat.one_shiftLeft]
  exact Nat.pow_le_pow_right (by decide : 0 < 2) (Nat.succ_le_succ s.four_le_code)

theorem bytes_le (s : RegionSize) : s.bytes ≤ 0x80000000 := by
  rw [bytes, Nat.one_shiftLeft]
  exact Nat.pow_le_pow_right (by decide : 0 < 2) (Nat.succ_le_succ s.code_le_thirty)

theorem thirtyTwo_dvd_bytes (s : RegionSize) : 32 ∣ s.bytes :=
  dvd_of_isPowerOfTwo_of_le ⟨5, rfl⟩ s.bytes_isPowerOfTwo s.thirtyTwo_le_bytes

theorem ofBytes?_bytes (s : RegionSize) : ofBytes? s.bytes = some s := by
  have hl : s.bytes.log2 - 1 = s.code := by simp [bytes, Nat.one_shiftLeft]
  simp [ofBytes?, bytes_isPowerOfTwo, thirtyTwo_le_bytes, hl, ofCode?, s.four_le_code,
    s.code_le_thirty]

theorem ofBytes?_eq_some_iff {n : Nat} {s : RegionSize} : ofBytes? n = some s ↔ s.bytes = n := by
  constructor
  · intro h
    simp only [ofBytes?, ofCode?] at h
    split at h
    · rename_i hn
      split at h
      · rename_i hc
        obtain ⟨k, rfl⟩ := hn.1
        cases h
        simp only [Nat.log2_two_pow] at hc
        simp only [bytes, Nat.one_shiftLeft, Nat.log2_two_pow]
        congr 1
        omega
      · cases h
    · cases h
  · rintro rfl
    exact s.ofBytes?_bytes

theorem ofBytes?_isSome_iff {n : Nat} :
    (ofBytes? n).isSome ↔ n.isPowerOfTwo ∧ 32 ≤ n ∧ n ≤ 0x80000000 := by
  rw [Option.isSome_iff_exists]
  constructor
  · rintro ⟨s, h⟩
    rw [ofBytes?_eq_some_iff] at h
    subst h
    exact ⟨s.bytes_isPowerOfTwo, s.thirtyTwo_le_bytes, s.bytes_le⟩
  · rintro ⟨⟨k, rfl⟩, hlo, hhi⟩
    have h5 : 5 ≤ k := (Nat.pow_le_pow_iff_right (a := 2) (by decide)).mp hlo
    have h31 : k ≤ 31 := (Nat.pow_le_pow_iff_right (a := 2) (by decide)).mp hhi
    refine ⟨⟨k - 1, by omega, by omega⟩, ofBytes?_eq_some_iff.mpr ?_⟩
    simp only [bytes, Nat.one_shiftLeft]
    congr 1
    omega

end RegionSize
end CodeGuard
