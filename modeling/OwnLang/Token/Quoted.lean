/-!
# String literals

`body?` finds the text between the quotes of a literal and `decode` reads its escapes. A backslash
always takes the next character with it, so that an escaped quote does not end the literal; a line
feed never stands in one.
-/

namespace OwnLang.Quoted

/-- The text up to the closing quote, for what follows an opening quote; none if the line or the
text ends first. -/
def body? : List Char → Option (List Char)
  | [] => none
  | '"' :: _ => some []
  | '\\' :: c :: rest => if c = '\n' then none else (body? rest).map ('\\' :: c :: ·)
  | c :: rest => if c = '\n' ∨ c = '\\' then none else (body? rest).map (c :: ·)

/-- The value of a hexadecimal digit of either case. -/
def hexDigit? (c : Char) : Option Nat :=
  if '0' ≤ c ∧ c ≤ '9' then some (c.toNat - '0'.toNat)
  else if 'a' ≤ c ∧ c ≤ 'f' then some (c.toNat - 'a'.toNat + 10)
  else if 'A' ≤ c ∧ c ≤ 'F' then some (c.toNat - 'A'.toNat + 10)
  else none

/-- What a backslash and a character stand for; unknown escapes keep their backslash. -/
def escape : Char → List Char
  | 'n' => ['\n']
  | 't' => ['\t']
  | 'r' => ['\r']
  | '0' => ['\x00']
  | '\\' => ['\\']
  | '"' => ['"']
  | c => ['\\', c]

/-- Reads the escapes of a literal's text. `\x` takes up to two hexadecimal digits and stands for
the character of that number; without a digit it stands for itself. -/
def decode : List Char → List Char
  | [] => []
  | '\\' :: 'x' :: a :: b :: rest =>
    match hexDigit? a, hexDigit? b with
    | some m, some n => Char.ofNat (16 * m + n) :: decode rest
    | some m, none => Char.ofNat m :: decode (b :: rest)
    | none, _ => '\\' :: 'x' :: decode (a :: b :: rest)
  | ['\\', 'x', a] =>
    match hexDigit? a with
    | some m => [Char.ofNat m]
    | none => ['\\', 'x', a]
  | '\\' :: c :: rest => escape c ++ decode rest
  | c :: rest => c :: decode rest

theorem decode_plain {c : Char} (h : c ≠ '\\') (rest : List Char) : decode (c :: rest) = c :: decode rest := by
  rw [decode.eq_def]
  simp [h]

theorem decode_number {a b : Char} {m n : Nat} (ha : hexDigit? a = some m) (hb : hexDigit? b = some n)
    (rest : List Char) : decode ('\\' :: 'x' :: a :: b :: rest) = Char.ofNat (16 * m + n) :: decode rest := by
  rw [decode, ha, hb]

end OwnLang.Quoted
