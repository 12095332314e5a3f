import Mathlib.Algebra.Group.Nat.Defs
import Mathlib.Order.Bounds.Defs
import CodeGuard.Proofs.Matching

/-!
# CodeGuard.Proofs.Resolving

The region that decides at an address, said of the bits of the registers alone.

* `Descriptor.Decisive`: the region is on, the address lies in it, and its eighth is not taken out.
  `Descriptor.covers_iff_decisive`: so the unit decodes a pair of registers.
* `Descriptor.Narrows`: switching a region off, or taking more of its eighths out.
* `Core.matchingRegion_set`: what is narrowed changes the answer only where it decides.
* `Core.matchingRegion_resolves`: the answer is the greatest decisive region.
-/

namespace CodeGuard

/-! ## Bits of a field -/

namespace BitField

theorem isSet_of_width_eq_one {f : BitField} (h : f.width = 1) (w : UInt32) :
    f.isSet w = w.toNat.testBit f.offset := by
  have hlt := f.read_lt w
  rw [h] at hlt
  have hbit : (f.read w).testBit 0 = w.toNat.testBit f.offset := by
    rw [testBit_read, h]
    simp
  rw [← hbit, isSet]
  have hcases : f.read w = 0 ∨ f.read w = 1 := by omega
  rcases hcases with h0 | h1
  · rw [h0]
    rfl
  · rw [h1]
    rfl

end BitField

/-! ## Regions by their bits -/

namespace Descriptor

/-- Bytes of the region. Bits 1 to 5 of the attributes hold one less than the exponent. -/
def span (d : Descriptor) : Nat :=
  2 ^ (d.attributes.toNat / 2 % 32 + 1)

/-- The bits of the base from 5 up, rounded down to a multiple of the span. -/
def bottom (d : Descriptor) : Nat :=
  d.base.toNat / 32 * 32 / d.span * d.span

/-- `x` lies in eighth `j` of the region, the lowest first. -/
def InEighth (d : Descriptor) (j x : Nat) : Prop :=
  d.bottom + j * (d.span / 8) ≤ x ∧ x < d.bottom + (j + 1) * (d.span / 8)

/-- The region decides at `x` unless a higher one does. Bit 0 of the attributes switches it on, and
the bits from 8 up take its eighths out, if it has any. -/
structure Decisive (d : Descriptor) (x : Nat) : Prop where
  on : d.attributes.toNat.testBit 0 = true
  within : d.bottom ≤ x ∧ x < d.bottom + d.span
  kept : d.span < 256 ∨ ∃ j < 8, d.InEighth j x ∧ d.attributes.toNat.testBit (8 + j) = false

variable {d : Descriptor}

theorem bytes_eq_span (d : Descriptor) : d.bytes = d.span := by
  rw [bytes, AttributesWord.bytes, BitField.read, Nat.one_shiftLeft, span,
    Nat.shiftRight_eq_div_pow, Nat.one_shiftLeft]
  rfl

theorem start_eq_bottom (d : Descriptor) : d.start = d.bottom := by
  rw [start, bytes_eq_span, BaseWord.toNat_ofAddress, bottom]

theorem enabled_eq_testBit (d : Descriptor) : d.enabled = d.attributes.toNat.testBit 0 :=
  BitField.isSet_of_width_eq_one rfl _

theorem eight_mul_eighth (h : 256 ≤ d.span) : 8 * (d.span / 8) = d.span := by
  have hlt : 2 ^ 7 < 2 ^ (d.attributes.toNat / 2 % 32 + 1) := Nat.lt_of_lt_of_le (by decide) h
  have hexp := (Nat.pow_lt_pow_iff_right (a := 2) (by decide)).mp hlt
  refine Nat.mul_div_cancel' ?_
  exact Nat.pow_dvd_pow 2 (show 3 ≤ d.attributes.toNat / 2 % 32 + 1 by omega)

/-- The eighth that holds an address is found by division. -/
theorem inEighth_iff (h : 256 ≤ d.span) {j x : Nat} (hx : d.bottom ≤ x) :
    d.InEighth j x ↔ (x - d.bottom) / (d.span / 8) = j := by
  have hunit : 0 < d.span / 8 := by omega
  have hnext : (j + 1) * (d.span / 8) = j * (d.span / 8) + d.span / 8 := Nat.succ_mul _ _
  rw [InEighth, Nat.div_eq_iff hunit]
  omega

theorem masked_eq_false_iff {x : Nat} (hx : d.bottom ≤ x ∧ x < d.bottom + d.span) :
    d.masked x = false ↔
      d.span < 256 ∨ ∃ j < 8, d.InEighth j x ∧ d.attributes.toNat.testBit (8 + j) = false := by
  rw [masked, bytes_eq_span, start_eq_bottom]
  by_cases hsmall : d.span < 256
  · simp [hsmall]
  have hbig : 256 ≤ d.span := Nat.not_lt.mp hsmall
  have hunit : 0 < d.span / 8 := by omega
  -- there are eight eighths
  have hlt : (x - d.bottom) / (d.span / 8) < 8 := by
    rw [Nat.div_lt_iff_lt_mul hunit, eight_mul_eighth hbig]
    omega
  have hbit : (AttributesWord.disabledEighths.read d.attributes).testBit
      ((x - d.bottom) / (d.span / 8)) =
      d.attributes.toNat.testBit (8 + (x - d.bottom) / (d.span / 8)) := by
    rw [BitField.testBit_read]
    simp [AttributesWord.disabledEighths, hlt]
  simp only [hbig, decide_true, Bool.true_and, hsmall, false_or, hbit]
  constructor
  · intro hkept
    exact ⟨_, hlt, (inEighth_iff hbig hx.1).mpr rfl, hkept⟩
  · rintro ⟨j, -, hj, hkept⟩
    rw [(inEighth_iff hbig hx.1).mp hj]
    exact hkept

theorem covers_iff_decisive {x : Nat} : d.covers x = true ↔ d.Decisive x := by
  rw [covers_iff, Reaches, enabled_eq_testBit, start_eq_bottom, bytes_eq_span]
  constructor
  · rintro ⟨hon, hin, hmask⟩
    exact ⟨hon, hin, (masked_eq_false_iff hin).mp hmask⟩
  · rintro ⟨hon, hin, hkept⟩
    exact ⟨hon, hin, (masked_eq_false_iff hin).mpr hkept⟩

/-! ## Narrower regions -/

section Mask

variable (d) (mask : Nat)

/-- The region with the parts under `mask` taken out as well. -/
def narrowed : Descriptor :=
  ⟨d.base, d.attributes ||| AttributesWord.disabledEighths.place mask⟩

theorem enabled_narrowed : (d.narrowed mask).enabled = d.enabled := by
  simp (disch := decide) only [enabled, narrowed, BitField.isSet, BitField.read_or,
    BitField.read_place_of_disjoint, Nat.or_zero]

theorem bytes_narrowed : (d.narrowed mask).bytes = d.bytes := by
  simp (disch := decide) only [bytes, AttributesWord.bytes, narrowed, BitField.read_or,
    BitField.read_place_of_disjoint, Nat.or_zero]

theorem start_narrowed : (d.narrowed mask).start = d.start := by
  rw [start, start, bytes_narrowed]
  rfl

theorem masked_of_narrowed {x : Nat} (h : (d.narrowed mask).masked x = false) :
    d.masked x = false := by
  rw [masked, bytes_narrowed, start_narrowed, narrowed, BitField.read_or, Nat.testBit_or] at h
  rw [masked]
  simp only [Bool.and_eq_false_iff, Bool.or_eq_false_iff] at h ⊢
  exact h.imp_right And.left

end Mask

/-- The region is switched off, or more of its parts are taken out. -/
inductive Narrows (d : Descriptor) : Descriptor → Prop where
  | off : Narrows d ⟨d.base, AttributesWord.enable.clear d.attributes⟩
  | mask (mask : Nat) : Narrows d (d.narrowed mask)

theorem Narrows.covers {d' : Descriptor} (h : d.Narrows d') {x : Nat} (hcov : d'.covers x = true) :
    d.covers x = true := by
  rw [covers_iff] at hcov ⊢
  obtain ⟨hon, hin, hmask⟩ := hcov
  cases h with
  | off =>
    rw [enabled, BitField.isSet, BitField.read_clear (by decide)] at hon
    cases hon
  | mask mask =>
    rw [start_narrowed, bytes_narrowed] at hin
    exact ⟨(d.enabled_narrowed mask) ▸ hon, hin, d.masked_of_narrowed mask hmask⟩

end Descriptor

namespace Core

/-- Region `i` is one that the unit claims to have, and decides at `x` unless a higher one does. -/
def Candidate (c : Core) (x i : Nat) : Prop :=
  i < c.regionCount.toNat ∧ ∃ h : i < 16, c.regions[i].Decisive x

variable {c : Core} {a : UInt32}

theorem candidate_iff {x i : Nat} : c.Candidate x i ↔ i < c.regionCount.toNat ∧ c.Covers i x := by
  rw [Candidate, Covers]
  refine and_congr_right fun _ => exists_congr fun h => ?_
  exact Descriptor.covers_iff_decisive.symm

theorem matchingRegion_eq_some_iff (h16 : c.regionCount.toNat ≤ 16) {r : Nat} :
    c.matchingRegion a = .ok (some r) ↔ IsGreatest {i | c.Candidate a.toNat i} r := by
  rw [matchingRegion, matchBelow_eq_some_iff h16]
  constructor
  · rintro ⟨hr, hcov, habove⟩
    refine ⟨candidate_iff.mpr ⟨hr, hcov⟩, fun i hi => ?_⟩
    obtain ⟨hlt, hcovi⟩ := candidate_iff.mp hi
    exact Nat.not_lt.mp fun hri => habove i hri hlt hcovi
  · rintro ⟨hr, hmax⟩
    obtain ⟨hlt, hcov⟩ := candidate_iff.mp hr
    refine ⟨hlt, hcov, fun i hri hi hcovi => ?_⟩
    exact absurd (hmax (candidate_iff.mpr ⟨hi, hcovi⟩)) (Nat.not_le.mpr hri)

theorem matchingRegion_eq_none_iff (h16 : c.regionCount.toNat ≤ 16) :
    c.matchingRegion a = .ok none ↔ ∀ i, ¬ c.Candidate a.toNat i := by
  rw [matchingRegion, matchBelow_eq_none_iff h16]
  simp only [candidate_iff, not_and]

/-! ## Narrowing one region -/

theorem covers_set_of_ne {r : Nat} (hr : r < 16) (d : Descriptor) {i : Nat} (hi : i ≠ r) (x : Nat) :
    ({ c with regions := c.regions.set r d } : Core).Covers i x ↔ c.Covers i x := by
  rw [Covers, Covers]
  refine exists_congr fun h => ?_
  rw [Vector.getElem_set_ne _ _ hi.symm]

theorem covers_of_set {r : Nat} {hr : r < 16} {d : Descriptor} (hnarrow : c.regions[r].Narrows d)
    {i x : Nat} (hcov : ({ c with regions := c.regions.set r d } : Core).Covers i x) :
    c.Covers i x := by
  by_cases hi : i = r
  · subst hi
    obtain ⟨h, hcov⟩ := hcov
    rw [Vector.getElem_set_self] at hcov
    exact ⟨h, hnarrow.covers hcov⟩
  · exact (covers_set_of_ne hr d hi x).mp hcov

/-- What is narrowed changes the answer only where it decides. -/
theorem matchingRegion_set (h16 : c.regionCount.toNat ≤ 16) {r : Nat} (hr : r < 16) {d : Descriptor}
    (hnarrow : c.regions[r].Narrows d) (hother : c.matchingRegion a ≠ .ok (some r)) :
    ({ c with regions := c.regions.set r d } : Core).matchingRegion a = c.matchingRegion a := by
  rcases c.matchBelow_eq_ok a h16 with ⟨i, hmatch, hlt, hcov, habove⟩ | ⟨hmatch, hall⟩
  · have hi : i ≠ r := by
      rintro rfl
      exact hother hmatch
    rw [matchingRegion, matchingRegion, hmatch, matchBelow_eq_some_iff h16]
    exact ⟨hlt, (covers_set_of_ne hr d hi _).mpr hcov,
      fun j hij hj hcovj => habove j hij hj (covers_of_set hnarrow hcovj)⟩
  · rw [matchingRegion, matchingRegion, hmatch, matchBelow_eq_none_iff h16]
    exact fun j hj hcovj => hall j hj (covers_of_set hnarrow hcovj)

/-- **The greatest decisive region decides.** Whatever the registers hold: there is an answer, and
it is the greatest region that is on, has the address, and keeps the address's eighth in; or none,
if there is no such region. To switch a region off, or to take more of its eighths out, changes the
answer only at the addresses where that region decided. -/
theorem matchingRegion_resolves {c : Core} (h16 : c.regionCount.toNat ≤ 16) (a : UInt32) :
    (∃ answer, c.matchingRegion a = .ok answer ∧
      (∀ r, answer = some r ↔ IsGreatest {i | c.Candidate a.toNat i} r) ∧
      (answer = none ↔ ∀ i, ¬ c.Candidate a.toNat i)) ∧
    ∀ (r : Nat) (hr : r < 16) (d : Descriptor), c.regions[r].Narrows d →
      c.matchingRegion a ≠ .ok (some r) →
      ({ c with regions := c.regions.set r d } : Core).matchingRegion a = c.matchingRegion a := by
  refine ⟨?_, fun r hr d hnarrow hother => matchingRegion_set h16 hr hnarrow hother⟩
  obtain ⟨answer, hmatch⟩ : ∃ answer, c.matchingRegion a = .ok answer := by
    rcases c.matchBelow_eq_ok a h16 with ⟨i, hmatch, -⟩ | ⟨hmatch, -⟩
    · exact ⟨some i, hmatch⟩
    · exact ⟨none, hmatch⟩
  have hsome := fun r => matchingRegion_eq_some_iff (a := a) h16 (r := r)
  have hnone := matchingRegion_eq_none_iff (a := a) h16
  simp only [hmatch, Except.ok.injEq] at hsome hnone
  exact ⟨answer, hmatch, hsome, hnone⟩

/-- Region 0 is the whole address space, whatever its base says. Region 2 has a base that is no
multiple of its 256 bytes, and its second eighth is out; region 5 has 128 bytes at the very end, and
all bits of the mask set. -/
def overlapping : Core :=
  { reset 8 64 with regions :=
      #v[⟨0xFFFFFFFF, 0x3F⟩, .zero, ⟨0x134, 0x020F⟩, .zero, .zero, ⟨0xFFFFFFE0, 0xFF0D⟩, .zero,
        .zero, .zero, .zero, .zero, .zero, .zero, .zero, .zero, .zero] }

/-- The eighth that is out is left to region 0. Region 5 has no eighths to take out. To switch
region 0 off changes nothing at an address of region 2. -/
theorem matchingRegion_resolves_overlapping :
    IsGreatest {i | overlapping.Candidate (0x120 : UInt32).toNat i} 0 ∧
    IsGreatest {i | overlapping.Candidate (0x140 : UInt32).toNat i} 2 ∧
    IsGreatest {i | overlapping.Candidate (0xFFFFFFFF : UInt32).toNat i} 5 ∧
    ({ overlapping with regions := overlapping.regions.set 0 ⟨0xFFFFFFFF, 0x3E⟩ } :
      Core).matchingRegion 0x140 = .ok (some 2) := by
  have h16 : overlapping.regionCount.toNat ≤ 16 := by decide
  have hanswer : ∀ (a : UInt32) (r : Nat), overlapping.matchingRegion a = .ok (some r) →
      IsGreatest {i | overlapping.Candidate a.toNat i} r := by
    intro a r hmatch
    obtain ⟨⟨answer, hok, hsome, -⟩, -⟩ := matchingRegion_resolves h16 a
    rw [hmatch] at hok
    cases hok
    exact (hsome r).mp rfl
  have hfirst : overlapping.matchingRegion 0x120 = .ok (some 0) := by decide
  have hthird : overlapping.matchingRegion 0x140 = .ok (some 2) := by decide
  have hlast : overlapping.matchingRegion 0xFFFFFFFF = .ok (some 5) := by decide
  obtain ⟨-, hkept⟩ := matchingRegion_resolves h16 0x140
  refine ⟨hanswer _ 0 hfirst, hanswer _ 2 hthird, hanswer _ 5 hlast, ?_⟩
  have hnarrow : overlapping.regions[0].Narrows ⟨0xFFFFFFFF, 0x3E⟩ := by
    have hclear : AttributesWord.enable.clear 0x3F = 0x3E := by decide
    exact hclear ▸ Descriptor.Narrows.off (d := ⟨0xFFFFFFFF, 0x3F⟩)
  have hother : overlapping.matchingRegion 0x140 ≠ .ok (some 0) := by decide
  exact (hkept 0 (by decide) _ hnarrow hother).trans hthird

end Core
end CodeGuard
