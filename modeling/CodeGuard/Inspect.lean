import CodeGuard.Protection

/-!
# CodeGuard.Inspect

A protection as one line of text that shows every field: `Name { field: value, … }`, lists in
square brackets, `Some(…)` and `None`.
-/

namespace CodeGuard
namespace Inspect

/-- A record with its fields in order. -/
def record (name : String) (fields : List (String × String)) : String :=
  name ++ " \x7b " ++ ", ".intercalate (fields.map fun (field, value) => field ++ ": " ++ value) ++
    " \x7d"

/-- A record that does not show all of its fields. -/
def openRecord (name : String) (fields : List (String × String)) : String :=
  name ++ " \x7b " ++ String.join (fields.map fun (field, value) => field ++ ": " ++ value ++ ", ") ++
    ".. \x7d"

def memoryType (m : MemoryType) : String :=
  record "MemoryAttributes" [
    ("tex", toString m.typeExtension),
    ("cacheable", toString m.cacheable),
    ("bufferable", toString m.bufferable),
    ("shareable", toString m.shareable)]

def slot (s : Slot) : String :=
  record "ProtectionSlot" [
    ("id", toString s.id),
    ("base", toString s.base),
    ("size", s.size.name),
    ("enabled_sub_blocks", toString s.eighths),
    ("access", s.permission.name),
    ("executable", toString s.executable),
    ("attributes", memoryType s.memory),
    ("enabled", toString s.enabled)]

def table (t : RegionTable) : String :=
  record "RegionTable" [
    ("background", slot t.background),
    ("code", "[" ++ ", ".intercalate (t.code.map slot) ++ "]"),
    ("guard", slot t.guard),
    ("code_end", toString t.codeEnd)]

def protection (p : Protection) : String :=
  openRecord "CodeProtection" [
    ("table", match p.table with
      | none => "None"
      | some t => "Some(" ++ table t ++ ")"),
    ("protected_size", toString p.protectedSize),
    ("active", toString p.active)]

end Inspect
end CodeGuard
