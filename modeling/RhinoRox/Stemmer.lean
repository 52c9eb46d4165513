import RhinoRox.ByteStrings

/-!
# The Porter stemmer of `rr_stemmer.c`

The stemmer works in place on the letters `b[0]` to `b[k]` and remembers in `j` the end
of the part before the last suffix found. The rules of the second, third and fourth step
are tables that are selected by one letter, as the `switch` statements do.
-/

namespace RhinoRox

structure Stemmer where
  b : Bytes
  k : ℤ
  j : ℤ
  deriving DecidableEq, Repr

/-- A character constant of the source. -/
def letter (c : Char) : UInt8 := UInt8.ofNat c.toNat

namespace Stemmer

/-- `z->b[i]`. -/
def ch (z : Stemmer) (i : ℤ) : UInt8 := byteAt z.b i.toNat

def isVowel (c : UInt8) : Bool :=
  c = letter 'a' || c = letter 'e' || c = letter 'i' || c = letter 'o' || c = letter 'u'

/-- `cons(z, i)`: a `y` is a consonant at the start and after a vowel. -/
def cons (b : Bytes) : ℕ → Bool
  | 0 => !isVowel (byteAt b 0)
  | i + 1 =>
    if isVowel (byteAt b (i + 1)) then false
    else if byteAt b (i + 1) = letter 'y' then !cons b i
    else true

/-- The loops of `m` over the positions from `i` on. One mode looks for the next
consonant and counts it, the other for the next vowel. -/
def mLoop (b : Bytes) : Bool → ℕ → ℕ → ℕ → ℕ
  | _, 0, _, n => n
  | true, rest + 1, i, n => if cons b i then mLoop b false rest (i + 1) (n + 1) else mLoop b true rest (i + 1) n
  | false, rest + 1, i, n => if cons b i then mLoop b false rest (i + 1) n else mLoop b true rest (i + 1) n

/-- The number of consonant sequences between `0` and `j`. -/
def m (z : Stemmer) : ℕ := mLoop z.b false (z.j + 1).toNat 0 0

def vowelinstem (z : Stemmer) : Bool := (List.range (z.j + 1).toNat).any fun i => !cons z.b i

def doublec (z : Stemmer) (j : ℤ) : Bool :=
  if j < 1 then false
  else if z.ch j ≠ z.ch (j - 1) then false
  else cons z.b j.toNat

def cvc (z : Stemmer) (i : ℤ) : Bool :=
  if i < 2 ∨ !cons z.b i.toNat ∨ cons z.b (i - 1).toNat ∨ !cons z.b (i - 2).toNat then false
  else !(z.ch i = letter 'w' ∨ z.ch i = letter 'x' ∨ z.ch i = letter 'y')

/-- The state with `j` set when the letters end with `s`. -/
def ends (z : Stemmer) (s : Bytes) : Option Stemmer :=
  if byteAt s (s.length - 1) ≠ z.ch z.k then none
  else if s.length > z.k + 1 then none
  else if (z.b.drop (z.k - s.length + 1).toNat).take s.length ≠ s then none
  else some { z with j := z.k - s.length }

/-- Set the letters after `j` to `s`. -/
def setto (z : Stemmer) (s : Bytes) : Stemmer :=
  { z with
    b := z.b.take (z.j + 1).toNat ++ s ++ z.b.drop ((z.j + 1).toNat + s.length)
    k := z.j + s.length }

def r (z : Stemmer) (s : Bytes) : Stemmer := if z.m > 0 then setto z s else z

/-- The plurals of `step1ab`. -/
def step1a (z : Stemmer) : Stemmer :=
  if z.ch z.k = letter 's' then
    match ends z (ascii "sses") with
    | some z => { z with k := z.k - 2 }
    | none =>
      match ends z (ascii "ies") with
      | some z => setto z (ascii "i")
      | none => if z.ch (z.k - 1) ≠ letter 's' then { z with k := z.k - 1 } else z
  else z

/-- What `step1ab` does to the stem that is left of a word in -ed or -ing. -/
def step1bTail (z : Stemmer) : Stemmer :=
  match ends z (ascii "at") with
  | some z => setto z (ascii "ate")
  | none =>
    match ends z (ascii "bl") with
    | some z => setto z (ascii "ble")
    | none =>
      match ends z (ascii "iz") with
      | some z => setto z (ascii "ize")
      | none =>
        if doublec z z.k then
          let c := z.ch (z.k - 1)
          if c = letter 'l' ∨ c = letter 's' ∨ c = letter 'z' then z else { z with k := z.k - 1 }
        else if z.m = 1 ∧ cvc z z.k then setto z (ascii "e")
        else z

/-- The suffixes -eed, -ed and -ing of `step1ab`. -/
def step1b (z : Stemmer) : Stemmer :=
  match ends z (ascii "eed") with
  | some z => if z.m > 0 then { z with k := z.k - 1 } else z
  | none =>
    match (ends z (ascii "ed")).orElse fun _ => ends z (ascii "ing") with
    | some z => if vowelinstem z then step1bTail { z with k := z.j } else z
    | none => z

def step1ab (z : Stemmer) : Stemmer := step1b (step1a z)

def step1c (z : Stemmer) : Stemmer :=
  match ends z (ascii "y") with
  | some z => if vowelinstem z then { z with b := z.b.set z.k.toNat (letter 'i') } else z
  | none => z

/-- Suffixes with their replacements, by the letter that selects them. -/
abbrev Rules := List (Char × List (String × String))

def Rules.select (t : Rules) (c : UInt8) : List (String × String) :=
  match t.find? fun e => letter e.1 = c with
  | some e => e.2
  | none => []

/-- The first suffix that matches decides. -/
def replaceSuffix (z : Stemmer) : List (String × String) → Stemmer
  | [] => z
  | (s, t) :: rest =>
    match ends z (ascii s) with
    | some z => r z (ascii t)
    | none => replaceSuffix z rest

def step2Rules : Rules :=
  [('a', [("ational", "ate"), ("tional", "tion")]),
   ('c', [("enci", "ence"), ("anci", "ance")]),
   ('e', [("izer", "ize")]),
   ('l', [("bli", "ble"), ("alli", "al"), ("entli", "ent"), ("eli", "e"), ("ousli", "ous")]),
   ('o', [("ization", "ize"), ("ation", "ate"), ("ator", "ate")]),
   ('s', [("alism", "al"), ("iveness", "ive"), ("fulness", "ful"), ("ousness", "ous")]),
   ('t', [("aliti", "al"), ("iviti", "ive"), ("biliti", "ble")]),
   ('g', [("logi", "log")])]

def step2 (z : Stemmer) : Stemmer := replaceSuffix z (step2Rules.select (z.ch (z.k - 1)))

def step3Rules : Rules :=
  [('e', [("icate", "ic"), ("ative", ""), ("alize", "al")]),
   ('i', [("iciti", "ic")]),
   ('l', [("ical", "ic"), ("ful", "")]),
   ('s', [("ness", "")])]

def step3 (z : Stemmer) : Stemmer := replaceSuffix z (step3Rules.select (z.ch z.k))

/-- Whether one of the suffixes matches, and the state after the search. -/
def endsAny (z : Stemmer) : List String → Bool × Stemmer
  | [] => (false, z)
  | s :: rest =>
    match ends z (ascii s) with
    | some z => (true, z)
    | none => endsAny z rest

def step4Suffixes : List (Char × List String) :=
  [('a', ["al"]), ('c', ["ance", "ence"]), ('e', ["er"]), ('i', ["ic"]), ('l', ["able", "ible"]),
   ('n', ["ant", "ement", "ment", "ent"]), ('o', ["ou"]), ('s', ["ism"]), ('t', ["ate", "iti"]),
   ('u', ["ous"]), ('v', ["ive"]), ('z', ["ize"])]

/-- `-ion` counts only after an `s` or a `t`; it is tried before `-ou`. -/
def endsIon (z : Stemmer) : Bool × Stemmer :=
  match ends z (ascii "ion") with
  | some z => (0 ≤ z.j ∧ (z.ch z.j = letter 's' ∨ z.ch z.j = letter 't'), z)
  | none => (false, z)

/-- The `switch` of `step4`. -/
def step4Switch (z : Stemmer) : Bool × Stemmer :=
  let c := z.ch (z.k - 1)
  match step4Suffixes.find? fun e => letter e.1 = c with
  | none => (false, z)
  | some e =>
    if c = letter 'o' then
      match endsIon z with
      | (true, z) => (true, z)
      | (false, z) => endsAny z e.2
    else endsAny z e.2

def step4 (z : Stemmer) : Stemmer :=
  match step4Switch z with
  | (true, z) => if z.m > 1 then { z with k := z.j } else z
  | (false, z) => z

/-- The final -e of `step5`. -/
def step5e (z : Stemmer) : Stemmer :=
  if z.ch z.k = letter 'e' then
    if (z.m > 1 ∨ z.m = 1) ∧ !cvc z (z.k - 1) then { z with k := z.k - 1 } else z
  else z

def step5 (z : Stemmer) : Stemmer :=
  let z := step5e { z with j := z.k }
  if z.ch z.k = letter 'l' ∧ doublec z z.k ∧ z.m > 1 then { z with k := z.k - 1 } else z

/-- The steps that follow the first. -/
def laterSteps (z : Stemmer) : Stemmer := step5 (step4 (step3 (step2 (step1c z))))

end Stemmer

open Stemmer in
/-- Stem the letters `b[0]` to `b[k]`: the new end, the buffer and the stemmer. -/
def stem (z : Stemmer) (b : Bytes) (k : ℤ) : ℤ × Bytes × Stemmer :=
  if k ≤ 1 then (k, b, z)
  else
    let z := step1ab { z with b := b, k := k }
    let z := if z.k > 0 then laterSteps z else z
    (z.k, z.b, z)

end RhinoRox
