/-!
# CodeGuard.Limits

The numbers of the memory protection unit and of the reference memory map.

* Unit: how many regions a part has and how small a region may be.
* Map: where code and SRAM lie, and how large the reference image is.
-/

namespace CodeGuard
namespace Limits

/-! ## Protection unit -/

abbrev totalRegions : Nat := 8

/-- Register pairs that a unit can have at most. -/
abbrev maxRegions : Nat := 16

/-- One region for the background and one for the guard. -/
abbrev reservedRegions : Nat := 2

abbrev codeRegions : Nat := totalRegions - reservedRegions

/-- The disable mask of a region has one bit for each of these equal parts. -/
abbrev subregions : Nat := 8

abbrev minRegion : Nat := 32

/-- A smaller region ignores its disable mask. -/
abbrev minSubdivided : Nat := 256

/-! ## Memory map -/

abbrev kb : Nat := 1024

/-- Region sizes offered for code: every power of two from 1 KB to 256 KB. -/
abbrev codeRegionSizes : List Nat :=
  [kb, 2 * kb, 4 * kb, 8 * kb, 16 * kb, 32 * kb, 64 * kb, 128 * kb, 256 * kb]

abbrev codeBase : Nat := 0

/-- The internal SRAM, which is the background of the code. -/
abbrev sramBase : UInt32 := 0

/-- 1 MB. -/
abbrev sramSize : UInt32 := 0x100000

abbrev guardSize : UInt32 := 32

/-- Bytes of the reference image: 144 KB. -/
abbrev referenceCodeSize : UInt32 := 0x24000

end Limits
end CodeGuard
