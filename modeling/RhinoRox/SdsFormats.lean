import RhinoRox.DecimalText
import RhinoRox.SdsOperations

/-!
# Formatted text in strings

`sdscatvprintf` finds a buffer that is large enough, `sdscatfmt` writes each part of its format
where the string ends, and `sdscatrepr` appends one escape after the other.
-/

namespace RhinoRox.SdsMemory

open Buffers

variable {s s' : Sdshdr} {bs t out : Bytes} {n buflen : ℕ} (m : Malloc)

/-! ## Numbers -/

theorem digitsFromRight_reverse (v : ℕ) : (digitsFromRight v).reverse = decimalText v := by
  induction v using Nat.strong_induction_on with
  | _ v ih =>
    rw [digitsFromRight]
    split_ifs with h
    · rw [decimalText_of_lt (show v < 10 by omega), Nat.mod_eq_of_lt (by omega)]
      rfl
    · have hv : v = v / 10 * 10 + v % 10 := by omega
      rw [List.reverse_cons, ih (v / 10) (by omega)]
      conv_rhs => rw [hv, decimalText_snoc (by omega) (by omega)]

theorem sdsll2str_eq (value : ℤ) : sdsll2str value = integerText value := by
  rw [sdsll2str, List.reverse_append, digitsFromRight_reverse, integerText, ll2stringDigits_eq]
  split_ifs <;> rfl

/-! ## `printf` -/

/-- The text that a format stands for; `none` where `sdscatfmt` is undefined. -/
def fmtText : Bytes → List FmtArg → Option Bytes
  | [], _ => some []
  | [37], _ => none
  | 37 :: next :: fmt, args =>
    match fmtSpec next args with
    | none => none
    | some (str, _, args) => (fmtText fmt args).map (str ++ ·)
  | c :: fmt, args => (fmtText fmt args).map (c :: ·)

/-- The bytes between the quotes. -/
def escaped (p : Bytes) : Bytes := p.flatMap fun c => (reprByte c).1

def repr (p : Bytes) : Bytes := 34 :: escaped p ++ [34]

end RhinoRox.SdsMemory
