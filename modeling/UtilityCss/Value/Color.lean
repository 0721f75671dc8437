import UtilityCss.Text.Digit
import UtilityCss.Value.Basic

/-!
# Colours by their channels

Three decimal numbers between commas are a colour and become `rgb(...)`, with their digits kept as
they are. The numbers have one to three digits each, of any script; their size is not checked.
-/

namespace UtilityCss.Value

open UtilityCss.Text

/-- A channel of a colour: one to three decimal digits between blanks. -/
def channel? (text : List Char) : Option String :=
  let digits := trim text
  if digits.all isDecimalDigit && 1 ≤ digits.length && digits.length ≤ 3 then
    some (String.ofList digits)
  else none

/-- **The colour that three numbers between commas write.** -/
def rgbOf? (text : List Char) : Option Value :=
  match cutAt (· == ',') text with
  | [red, green, blue] => do
    let red ← channel? red
    let green ← channel? green
    let blue ← channel? blue
    some (rgb red green blue)
  | _ => none

end UtilityCss.Value
