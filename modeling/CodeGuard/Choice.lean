import CodeGuard.Failure
import CodeGuard.Layout
import CodeGuard.RegionTable

/-!
# CodeGuard.Choice

Size tables and region tables as they are asked for, before their rules were checked.

* `SizeChoice.resolve`, `TableChoice.resolve`: the table asked for, or the rule that it breaks.
-/

namespace CodeGuard

/-- A size table that someone asks for. -/
inductive SizeChoice where
  | reference
  | resubdivided (subdivisions : Nat)
  | listed (sizes : List Nat) (subdivisions : Nat)

def SizeChoice.resolve : SizeChoice → Except Error SizeTable
  | .reference => .ok .reference
  | .resubdivided subdivisions => SizeTable.reference.resubdivide subdivisions
  | .listed sizes subdivisions => SizeTable.ofList sizes subdivisions

inductive TableChoice where
  | covering (total maxSlots : Nat) (sizes : SizeChoice) (codeEnd : UInt32) (config : Config)
  | unprotected (codeEnd : UInt32) (config : Config)

def TableChoice.resolve : TableChoice → Except Failure RegionTable
  | .covering total maxSlots sizes codeEnd config =>
    match sizes.resolve with
    | .error e => .error (.general e)
    | .ok t =>
      match Layout.cover total maxSlots t with
      | .error s => .error (.shortfall s)
      | .ok l => (RegionTable.build l codeEnd config).mapError .general
  | .unprotected codeEnd config =>
    (RegionTable.unprotected codeEnd config).mapError .general

end CodeGuard
