/-
# An allocator as text

The written form of an allocator names its type and its fields, all on one line or one field a
line.  On several lines a field's value is indented with the field, so a value that has fields of
its own is written the same way one step further in.
-/
import BuddyTree.Statistics

namespace BuddyTree

/-! ## 1. Named fields -/

namespace Fields

/-- All fields on one line. -/
def onOneLine (name : String) (fields : List (String × String)) : String :=
  let written := fields.map fun (key, value) => key ++ ": " ++ value
  name ++ " \x7b " ++ ", ".intercalate written ++ " \x7d"

/-- The text with every line but the first moved in by four columns. -/
def indented (text : String) : String :=
  "\n    ".intercalate (text.splitOn "\n")

/-- One field a line, each with a comma after it. -/
def onLines (name : String) (fields : List (String × String)) : String :=
  let written := fields.map fun (key, value) => "    " ++ key ++ ": " ++ indented value ++ ",\n"
  name ++ " \x7b\n" ++ String.join written ++ "\x7d"

end Fields

/-! ## 2. Shapes and allocators -/

namespace Geometry

/-- The fields of a shape, the derived ones included. -/
def fields (g : Geometry) : List (String × String) :=
  [("min_size", toString g.minSize), ("depth", toString g.depth),
    ("base_level", toString g.baseLevel), ("max_order", toString g.maxOrder),
    ("max_size", toString g.maxSize), ("total_memory", toString g.totalMemory)]

/-- The shape on one line. -/
def describe (g : Geometry) : String :=
  Fields.onOneLine "Geometry" g.fields

end Geometry

namespace Allocator

/-- The fields of an allocator, its shape written by `form`. -/
def fields (a : Allocator) (form : String → List (String × String) → String) :
    List (String × String) :=
  [("base", Hex.ofAddress a.region.base),
    ("geometry", form "Geometry" a.region.geometry.fields),
    ("used_memory", toString a.usedMemory),
    ("release_count", toString a.store.released)]

/-- The allocator on one line. -/
def describe (a : Allocator) : String :=
  Fields.onOneLine "Nbbs" (a.fields Fields.onOneLine)

/-- The allocator, one field a line. -/
def describeLines (a : Allocator) : String :=
  Fields.onLines "Nbbs" (a.fields Fields.onLines)

end Allocator
end BuddyTree
