import RhinoRox.ByteStrings

/-!
# Dynamic strings, from `sds.c`

`sdsrange`, `sdssplitargs` and the character classes of the C locale.
-/

namespace RhinoRox

/-- `isspace`. -/
def isspace (c : UInt8) : Bool := c = 32 || (9 ≤ c && c ≤ 13)

/-- `tolower`. -/
def tolower (c : UInt8) : UInt8 := if 65 ≤ c ∧ c ≤ 90 then c + 32 else c

def sdstolower (s : Bytes) : Bytes := s.map tolower

theorem tolower_eq_zero {b : UInt8} : tolower b = 0 ↔ b = 0 := by
  unfold tolower
  split_ifs with h
  · have h65 : 65 ≤ b.toNat := UInt8.le_iff_toNat_le.mp h.1
    have h90 : b.toNat ≤ 90 := UInt8.le_iff_toNat_le.mp h.2
    rw [← UInt8.toNat_inj, ← UInt8.toNat_inj, UInt8.toNat_add]
    constructor
    · intro he
      change (b.toNat + 32) % 256 = 0 at he
      omega
    · intro he
      change b.toNat = 0 at he
      omega
  · rfl

theorem cStr_sdstolower (s : Bytes) : cStr (sdstolower s) = sdstolower (cStr s) := by
  rw [cStr, cStr, sdstolower, sdstolower, List.takeWhile_map]
  congr 2
  funext b
  simp [tolower_eq_zero]

/-- `strcasecmp(s, t) == 0`. -/
def strcaseEq (s t : Bytes) : Bool := sdstolower (cStr s) = sdstolower (cStr t)

def isHexDigit (c : UInt8) : Bool := (48 ≤ c && c ≤ 57) || (97 ≤ c && c ≤ 102) || (65 ≤ c && c ≤ 70)

def hexDigitToInt (c : UInt8) : UInt8 :=
  if 48 ≤ c ∧ c ≤ 57 then c - 48
  else if 97 ≤ c ∧ c ≤ 102 then c - 87
  else if 65 ≤ c ∧ c ≤ 70 then c - 55
  else 0

/-- The bytes from `start` to `stop` inclusive; negative indexes count from the end. -/
def sdsrange (s : Bytes) (start stop : ℤ) : Bytes :=
  let len := s.length
  if len = 0 then s
  else
    let start := if start < 0 then max 0 (toInt32 (len + start)) else start
    let stop := if stop < 0 then max 0 (toInt32 (len + stop)) else stop
    let newlen := if start > stop then 0 else stop - start + 1
    if newlen ≠ 0 then
      if start ≥ toInt32 len then []
      else if stop ≥ toInt32 len then
        let stop := toInt32 (len - 1)
        let newlen := if start > stop then 0 else stop - start + 1
        (s.drop start.toNat).take newlen.toNat
      else (s.drop start.toNat).take newlen.toNat
    else []

/-- `sdsrange(s, pos, -1)` trims the first `pos` bytes. -/
theorem sdsrange_from {s : Bytes} {pos : ℕ} (hs : s.length < 2 ^ 31) (hp : pos < 2 ^ 31) :
    sdsrange s pos (-1) = s.drop pos := by
  unfold sdsrange
  rcases Nat.eq_zero_or_pos s.length with h0 | hpos
  · have : s = [] := by simpa using h0
    simp [this]
  · have hlen : toInt32 (s.length : ℤ) = s.length := toInt32_of_lt (by omega) (by omega)
    have hstop : toInt32 ((s.length : ℤ) + -1) = s.length - 1 := by
      rw [toInt32_of_lt (by omega) (by omega)]
      rfl
    have hmax : max 0 ((s.length : ℤ) - 1) = s.length - 1 := by omega
    simp only [hpos.ne', if_false, show ¬ ((pos : ℤ) < 0) by omega, show (-1 : ℤ) < 0 by omega, if_true,
      hstop, hmax, hlen, Int.toNat_natCast]
    by_cases hlt : pos < s.length
    · have hgt : ¬ ((pos : ℤ) > s.length - 1) := by omega
      rw [if_neg hgt, if_pos (by omega), if_neg (by omega), if_neg (by omega)]
      exact List.take_of_length_le (by simp; omega)
    · rw [if_pos (show (pos : ℤ) > s.length - 1 by omega)]
      simp [List.drop_eq_nil_of_le (not_lt.mp hlt)]

/-- The quoting state inside a token. -/
inductive QuoteMode where
  | plain | double | single
  deriving DecidableEq, Repr

def unescape (c : UInt8) : UInt8 :=
  if c = 110 then 10
  else if c = 114 then 13
  else if c = 116 then 9
  else if c = 98 then 8
  else if c = 97 then 7
  else c

/-- A closing quote must be followed by a space or nothing at all. -/
def closesToken : Bytes → Bool
  | [] => true
  | c :: _ => isspace c

/-- One token: its text and the rest of the line; `none` for unbalanced quotes. -/
def splitToken (mode : QuoteMode) (current p : Bytes) : Option (Bytes × Bytes) :=
  match mode, p with
  | .double, [] => none
  | .double, 92 :: 120 :: a :: b :: p =>
    if isHexDigit a && isHexDigit b then
      splitToken .double (current ++ [hexDigitToInt a * 16 + hexDigitToInt b]) p
    else splitToken .double (current ++ [unescape 120]) (a :: b :: p)
  | .double, 92 :: c :: p => splitToken .double (current ++ [unescape c]) p
  | .double, 34 :: p => if closesToken p then some (current, p) else none
  | .double, c :: p => splitToken .double (current ++ [c]) p
  | .single, [] => none
  | .single, 92 :: 39 :: p => splitToken .single (current ++ [39]) p
  | .single, 39 :: p => if closesToken p then some (current, p) else none
  | .single, c :: p => splitToken .single (current ++ [c]) p
  | .plain, [] => some (current, [])
  | .plain, c :: p =>
    if c = 32 ∨ c = 10 ∨ c = 13 ∨ c = 9 then some (current, p)
    else if c = 34 then splitToken .double current p
    else if c = 39 then splitToken .single current p
    else splitToken .plain (current ++ [c]) p
termination_by p.length

theorem splitToken_length {mode : QuoteMode} {current p t rest : Bytes}
    (h : splitToken mode current p = some (t, rest)) : rest.length ≤ p.length := by
  fun_induction splitToken mode current p <;> simp_all <;> omega

theorem splitToken_lt {current p t rest : Bytes} {c : UInt8}
    (h : splitToken .plain current (c :: p) = some (t, rest)) : rest.length < (c :: p).length := by
  rw [splitToken] at h
  rw [List.length_cons, Nat.lt_succ_iff]
  split_ifs at h
  · obtain ⟨-, rfl⟩ : _ ∧ _ := by simpa using h
    exact le_rfl
  all_goals exact splitToken_length h

/-- Split a line into arguments; `none` when it returns `NULL`. -/
def splitArgs (p : Bytes) : Option (List Bytes) :=
  match hp : p.dropWhile isspace with
  | [] => some []
  | c :: q =>
    match ht : splitToken .plain [] (c :: q) with
    | none => none
    | some (t, rest) => (splitArgs rest).map (t :: ·)
termination_by p.length
decreasing_by
  have hlt := splitToken_lt ht
  have hle := (List.dropWhile_suffix isspace (l := p)).length_le
  rw [hp] at hle
  omega

def sdssplitargs (line : Bytes) : Option (List Bytes) := splitArgs (cStr line)

end RhinoRox
