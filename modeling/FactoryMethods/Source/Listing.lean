/-! A listing: finished source, line by line. -/
namespace FactoryMethods

structure Listing where
  lines : Array String := #[]
  deriving DecidableEq, Repr, Inhabited

namespace Listing

def size (s : Listing) : Nat := s.lines.size

def isEmpty (s : Listing) : Bool := s.lines.isEmpty

/-- The whole text, with a line feed after every line. -/
def source (s : Listing) : String := String.join (s.lines.toList.map (· ++ "\n"))

/-- Shows a listing by writing one line after another. -/
instance : ToString Listing where
  toString s := s.lines.foldl (fun shown line => shown ++ line ++ "\n") ""

theorem eq_of_lines {s t : Listing} (h : s.lines.toList = t.lines.toList) : s = t := by
  cases s
  cases t
  exact congrArg mk (Array.toList_inj.mp h)

end Listing

end FactoryMethods
