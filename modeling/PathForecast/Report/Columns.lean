/-!
# Columns

Fields of fixed width. A text longer than its field is written in full; widths count characters.
-/

set_option autoImplicit false

namespace PathForecast

namespace Report

def blanks (n : Nat) : String := String.ofList (List.replicate n ' ')

/-- The text at the left end of its field. -/
def alignLeft (width : Nat) (s : String) : String := s ++ blanks (width - s.length)

/-- The text at the right end of its field. -/
def alignRight (width : Nat) (s : String) : String := blanks (width - s.length) ++ s

end Report

end PathForecast
