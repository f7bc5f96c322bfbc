import Reckon.Text.CaseIgnorable
import Reckon.Text.Cased
import Reckon.Text.Lower

/-!
# Lower case

The lower-case form of a text, by the default case conversion of Unicode. Letters are mapped one by
one, with two exceptions: the dotted capital I becomes two characters, and a capital sigma becomes
the final sigma if it ends a word. It ends a word if the nearest character before it is cased and
the nearest one after it is not, where characters that case passes over do not count.

## Main definitions

* `Text.lowerIn` — the lower case of a character among its neighbours.
* `Text.lowercase` — the lower-case form of a text.
-/

namespace Reckon.Text

/-- Whether the first character of a text that case does not pass over is cased. -/
def meetsCased (cs : List Char) : Bool :=
  (cs.dropWhile isCaseIgnorable).head?.any isCased

/-- The lower case of one character between the text before it, nearest first, and after it. -/
def lowerIn (before : List Char) (c : Char) (after : List Char) : List Char :=
  if c = 'Σ' then
    [if meetsCased before && !meetsCased after then 'ς' else 'σ']
  else if c = 'İ' then
    ['i', '\u0307']
  else
    [lowerChar c]

/-- The lower case of a text that follows `before`, of which the nearest character comes first. -/
def lowerFrom (before : List Char) : List Char → List Char
  | [] => []
  | c :: rest => lowerIn before c rest ++ lowerFrom (c :: before) rest

/-- The lower-case form of a text. -/
def lowercase (s : String) : String := String.ofList (lowerFrom [] s.toList)

end Reckon.Text
