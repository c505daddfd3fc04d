/-!
The length of a text in 16-bit units.
-/
namespace Stencil.Text

/-- The number of 16-bit units of the UTF-16 form of a text. -/
def units16 (s : String) : Nat :=
  s.toList.foldr (fun c units => (if c.toNat < 0x10000 then 1 else 2) + units) 0

end Stencil.Text
