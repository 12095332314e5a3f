import CodeGuard.Hex

/-!
# CodeGuard.Error

Causes of failure and their texts.

* `Error`: the shared causes, each with a code, a description, and two marks: whether it is a
  security matter, and whether the caller can carry on.
* `BusError`: what an access to registers or memory reports; `BusError.toError` is the shared
  cause that it stands for.
-/

namespace CodeGuard

/-- The code in four hexadecimal digits, then the description. -/
def codedText (code : Nat) (description : String) : String :=
  "[0x" ++ Hex.upper 4 code ++ "] " ++ description

inductive Error where
  | regionBudgetExceeded
  | invalidAlignment
  | invalidRegionSize
  | invalidSizeTable
  | regionTableMismatch
  | tooManyRegions
  | writeOutOfBounds
  | nestedUnlock
  | protectionInactive
  | hardwareInitFailed
  | mpuNotPresent
  | memoryAccessViolation
  | invalidParameter
  | bufferTooSmall
  | invalidState
  | notPermitted
  | notImplemented
  | internalError
  deriving DecidableEq

namespace Error

/-- The high byte groups the causes: 1 protection, 8 hardware, 255 general. -/
def code : Error → Nat
  | .regionBudgetExceeded => 0x0101
  | .invalidAlignment => 0x0102
  | .invalidRegionSize => 0x0103
  | .invalidSizeTable => 0x0104
  | .regionTableMismatch => 0x0105
  | .tooManyRegions => 0x0106
  | .writeOutOfBounds => 0x0107
  | .nestedUnlock => 0x0108
  | .protectionInactive => 0x0109
  | .hardwareInitFailed => 0x0801
  | .mpuNotPresent => 0x0802
  | .memoryAccessViolation => 0x0803
  | .invalidParameter => 0xFF01
  | .bufferTooSmall => 0xFF02
  | .invalidState => 0xFF03
  | .notPermitted => 0xFF04
  | .notImplemented => 0xFF05
  | .internalError => 0xFFFF

def description : Error → String
  | .regionBudgetExceeded => "region slot budget exceeded"
  | .invalidAlignment => "region base not aligned to its size"
  | .invalidRegionSize => "unsupported region size"
  | .invalidSizeTable => "invalid region size table"
  | .regionTableMismatch => "region table does not cover protected size"
  | .tooManyRegions => "too many regions for hardware"
  | .writeOutOfBounds => "write outside protected window"
  | .nestedUnlock => "protection unit already unlocked"
  | .protectionInactive => "code protection inactive"
  | .hardwareInitFailed => "hardware init failed"
  | .mpuNotPresent => "MPU not present"
  | .memoryAccessViolation => "memory access violation"
  | .invalidParameter => "invalid parameter"
  | .bufferTooSmall => "buffer too small"
  | .invalidState => "invalid state"
  | .notPermitted => "not permitted"
  | .notImplemented => "not implemented"
  | .internalError => "internal error"

/-- Someone tried to get past the protection. -/
def isSecurity : Error → Bool
  | .writeOutOfBounds | .nestedUnlock | .memoryAccessViolation => true
  | _ => false

def isRecoverable : Error → Bool
  | .internalError | .memoryAccessViolation => false
  | _ => true

def message (e : Error) : String :=
  codedText e.code e.description

end Error

inductive BusError where
  | notInitialized
  | initFailed
  | mpuNotPresent
  | invalidRegion
  | invalidAlignment
  | accessViolation
  | invalidAddress
  | invalidParameter
  | notSupported
  | hardwareFault
  deriving DecidableEq

namespace BusError

def code : BusError → Nat
  | .notInitialized => 0x0801
  | .initFailed => 0x0802
  | .mpuNotPresent => 0x0810
  | .invalidRegion => 0x0811
  | .invalidAlignment => 0x0812
  | .accessViolation => 0x0820
  | .invalidAddress => 0x0821
  | .invalidParameter => 0x08F0
  | .notSupported => 0x08FF
  | .hardwareFault => 0x08D0

def description : BusError → String
  | .notInitialized => "not initialized"
  | .initFailed => "initialization failed"
  | .mpuNotPresent => "MPU not present"
  | .invalidRegion => "invalid region number"
  | .invalidAlignment => "region base not aligned to size"
  | .accessViolation => "access blocked by MPU"
  | .invalidAddress => "address not mapped"
  | .invalidParameter => "invalid parameter"
  | .notSupported => "not supported"
  | .hardwareFault => "hardware fault detected"

def message (e : BusError) : String :=
  codedText e.code e.description

def toError : BusError → Error
  | .notInitialized | .initFailed | .hardwareFault => .hardwareInitFailed
  | .mpuNotPresent => .mpuNotPresent
  | .invalidRegion => .tooManyRegions
  | .invalidAlignment => .invalidAlignment
  | .accessViolation => .memoryAccessViolation
  | .invalidAddress | .invalidParameter => .invalidParameter
  | .notSupported => .notImplemented

end BusError
end CodeGuard
