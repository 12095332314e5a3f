import CodeGuard.Error
import CodeGuard.Limits

/-!
# CodeGuard.Config

What a boot is asked to protect and with which unit.

* `Window.WellFormed`: what one region can describe, that is a power of two of at least 32 bytes
  at a multiple of itself.
* `Config.validate`: the first unmet requirement, in a fixed order.
-/

namespace CodeGuard

/-- A stretch of the address space. -/
structure Window where
  base : UInt32
  size : UInt32
  deriving DecidableEq

namespace Window

def WellFormed (w : Window) : Prop :=
  w.size.toNat.isPowerOfTwo ∧ Limits.minRegion ≤ w.size.toNat ∧ w.base.toNat % w.size.toNat = 0

instance (w : Window) : Decidable w.WellFormed := by
  unfold WellFormed
  infer_instance

end Window

structure Config where
  codeSize : UInt32 := Limits.referenceCodeSize
  maxCodeSlots : UInt8 := UInt8.ofNat Limits.codeRegions
  hardwareRegions : UInt8 := UInt8.ofNat Limits.totalRegions
  subdivisions : UInt32 := UInt32.ofNat Limits.subregions
  background : Window := ⟨Limits.sramBase, Limits.sramSize⟩
  guardSize : UInt32 := Limits.guardSize
  deriving DecidableEq

namespace Config

def reference : Config := {}

/-- Code regions, and one each for background and guard. -/
def regionsNeeded (codeSlots : Nat) : Nat :=
  codeSlots + Limits.reservedRegions

def validate (config : Config) : Except Error Unit :=
  if config.hardwareRegions = 0 ∨ Limits.maxRegions < config.hardwareRegions.toNat then
    .error .invalidParameter
  else if config.hardwareRegions.toNat < regionsNeeded config.maxCodeSlots.toNat then
    .error .tooManyRegions
  else if config.subdivisions.toNat ∉ [1, 2, 4, 8] then
    .error .invalidSizeTable
  else if ¬ config.background.WellFormed then
    .error .invalidAlignment
  else if ¬ (config.guardSize.toNat.isPowerOfTwo ∧
      Limits.minRegion ≤ config.guardSize.toNat) then
    .error .invalidRegionSize
  else
    .ok ()

end Config
end CodeGuard
