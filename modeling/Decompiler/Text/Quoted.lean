import Decompiler.Text.Combining
import Decompiler.Text.Ignorable
import Decompiler.Text.Unprintable

/-!
# Quoted text

A text between double quotes, with everything that would be invisible or
ambiguous inside the quotes spelled out:

* a quote, a backslash and the four common controls by a backslash and one
  character;
* a character without a printed form, one that a display may drop, and one
  that would attach to its left neighbour, by its code point in lowercase
  hexadecimal between braces.

A single quote stands for itself.
-/

namespace Decompiler.Text

/-- Whether `n` lies in one of the ascending ranges. -/
def inRanges : List (Nat × Nat) → Nat → Bool
  | [], _ => false
  | (lo, hi) :: rest, n => lo ≤ n && (n ≤ hi || inRanges rest n)

/-- Whether a character is spelled by its code point. -/
def needsNumber (c : Char) : Bool :=
  inRanges unprintableRanges c.toNat || inRanges ignorableRanges c.toNat ||
    inRanges combiningRanges c.toNat

/-- The written form of one character between the quotes. -/
def quotedChar : Char → List Char
  | '"' => ['\\', '"']
  | '\\' => ['\\', '\\']
  | '\n' => ['\\', 'n']
  | '\r' => ['\\', 'r']
  | '\t' => ['\\', 't']
  | '\x00' => ['\\', '0']
  | c =>
    if needsNumber c then
      ['\\', 'u', '\x7b'] ++ Nat.toDigits 16 c.toNat ++ ['\x7d']
    else [c]

/-- The text between double quotes. -/
def quoted (s : String) : String :=
  String.ofList ('"' :: s.toList.flatMap quotedChar ++ ['"'])

end Decompiler.Text
