/-!
# Code page 437

The characters that bytes stand for in names that are not marked as UTF-8. The lower half is ASCII.
-/

namespace Bindery.Text

/-- The characters of the bytes from 128 on. -/
def upperHalf : List Char :=
  ("ÇüéâäàåçêëèïîìÄÅÉæÆôöòûùÿÖÜ¢£¥₧ƒ" ++
    "áíóúñÑªº¿⌐¬½¼¡«»░▒▓│┤╡╢╖╕╣║╗╝╜╛┐" ++
    "└┴┬├─┼╞╟╚╔╩╦╠═╬╧╨╤╥╙╘╒╓╫╪┘┌█▄▌▐▀" ++
    "αßΓπΣσµτΦΘΩδ∞φε∩≡±≥≤⌠⌡÷≈°∙·√ⁿ²■\u00a0").toList

def ofCodePage (bytes : List UInt8) : String :=
  String.ofList (bytes.map fun b =>
    if b < 128 then Char.ofNat b.toNat else upperHalf.getD (b.toNat - 128) ' ')

end Bindery.Text
