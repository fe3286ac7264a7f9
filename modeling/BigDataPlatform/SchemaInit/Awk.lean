import Mathlib.Algebra.Group.Nat.Defs

/-! # Numbers as awk reads and prints them

A number spliced into an awk program is read into a binary64, and a number used
as a string is printed as an integer when it is one and by `%.6g` (`CONVFMT`)
otherwise. Numerals here are below the binary64 range's end, so never infinite. -/
namespace BigDataPlatform.SchemaInit.Awk

/-- `n / d` to the nearest integer, ties to even. -/
def roundEven (n d : Nat) : Nat :=
  let q := n / d
  if 2 * (n % d) < d ∨ 2 * (n % d) = d ∧ q % 2 = 0 then q else q + 1

/-- The binary64 nearest to `n / d`, as a fraction: 53 significant bits. -/
def binary64 (n d : Nat) : Nat × Nat :=
  if n = 0 then (0, 1)
  else if d ≤ n then
    let e := Nat.log2 (n / d)
    (roundEven (n * 2 ^ 52) (d * 2 ^ e) * 2 ^ e, 2 ^ 52)
  else
    let e := Nat.log2 ((d - 1) / n) + 1
    (roundEven (n * 2 ^ (52 + e)) d, 2 ^ (52 + e))

def digits (n : Nat) : List Char := Nat.toDigits 10 n

def dropZeros (cs : List Char) : List Char := (cs.reverse.dropWhile (· = '0')).reverse

/-- `lead.frac`, without trailing zeros and without a bare point. -/
def fixed (lead frac : List Char) : List Char :=
  match dropZeros frac with
  | [] => lead
  | cs => lead ++ '.' :: cs

/-- The six significant digits of `n / d` and the exponent of the first of them,
for `n / d ≥ 1`. Rounding up may carry into a seventh digit. -/
def significant (n d : Nat) : Nat × Nat :=
  let x := (digits (n / d)).length - 1
  let s := roundEven (n * 10 ^ 5) (d * 10 ^ x)
  if s = 10 ^ 6 then (10 ^ 5, x + 1) else (s, x)

/-- `%.6g` of `n / d ≥ 1/10`. -/
def formatG (n d : Nat) : List Char :=
  if n < d then
    let s := roundEven (n * 10 ^ 6) d
    if s = 10 ^ 6 then ['1'] else fixed ['0'] (digits s)
  else
    let (s, x) := significant n d
    if x < 6 then fixed ((digits s).take (x + 1)) ((digits s).drop (x + 1))
    else
      fixed ((digits s).take 1) ((digits s).drop 1) ++
        'e' :: '+' :: (if x < 10 then '0' :: digits x else digits x)

/-- A number used as a string. -/
def numberString (x : Nat × Nat) : List Char :=
  if x.1 % x.2 = 0 then digits (x.1 / x.2) else formatG x.1 x.2

/-- The numeral `lead.frac`. -/
def numeral (lead frac : Nat) : Nat × Nat :=
  let d := 10 ^ (digits frac).length
  binary64 (lead * d + frac) d

/-- `a.b.c` is no awk number: it reads as the number `a.b` next to the number
`.c`, and two expressions side by side are concatenated as strings. -/
def spliced (a b c : Nat) : String :=
  String.ofList (numberString (numeral a b) ++ numberString (numeral 0 c))

end BigDataPlatform.SchemaInit.Awk
